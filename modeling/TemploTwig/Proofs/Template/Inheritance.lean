import TemploTwig.Proofs.Markup.Padding
import TemploTwig.Proofs.Markup.RoundTrip
import TemploTwig.Proofs.Markup.Transcript
import TemploTwig.Proofs.Template.Assembled
import TemploTwig.Proofs.Template.Calls

/-!
# Content that is handed to a parent

What a template hands to its parent stands between `::use …::` and the last `::end::`.  These two
become the tags of an element that no template writes, the element is read and converted with the
rest, and in the end a block takes its place.  The content is converted as if it stood alone.
-/

namespace TemploTwig

/-! ## A directive in front of a template -/

section Span

variable {span rest : Text} (h : Span.take? (span ++ rest) = some (span, rest))

include h

theorem segments_span_append :
    segments (span ++ rest) = .token (.inline (.directive span)) :: segments rest := by
  cases htext : span ++ rest with
  | nil => rw [htext] at h; cases h
  | cons c cs =>
    rw [htext] at h
    exact Recogniser.scan_of_some (Token.take?_span h)

theorem Prepare.mapTags_span_append (inline : Inline → Prepare Text) :
    mapTags inline (span ++ rest) = (span ++ ·) <$> mapTags inline rest := by
  rw [mapTags, segments_span_append h, render_token_cons, mapTags]
  simp only [map_eq_pure_bind]
  rfl

theorem substituteCalls_span_append :
    substituteCalls (span ++ rest) = (span ++ ·) <$> substituteCalls rest := by
  rw [substituteCalls, segments_span_append h, Prepare.render_token_cons, substituteCalls]
  simp only [map_eq_pure_bind]
  rfl

end Span

theorem Directive.ReadsBack.take?_source {d : Directive} (h : d.ReadsBack) (rest : Text) :
    Span.take? (d.source ++ rest) = some (d.source, rest) :=
  Span.take?_ofBody h.body.toIsBody rest

namespace Inheritance

theorem first?_cons {s : Segment} {parent : Text} (h : directive? s = some (.inherit parent))
    (ss : List Segment) : first? (s :: ss) = some ([], parent, ss) := by
  rw [first?, h]

/-- An end behind everything else is the last one. -/
theorem lastEnd?_concat {s : Segment} (h : directive? s = some .endBlock) (ss : List Segment) :
    lastEnd? (ss ++ [s]) = some (ss, []) := by
  induction ss with
  | nil => rw [List.nil_append, lastEnd?, lastEnd?, if_pos h]
  | cons t ss ih => rw [List.cons_append, lastEnd?, ih]

/-! ## The wrapper -/

/-- The tag of the wrapper. -/
def wrapperTag : Tag := ⟨wrapperName, [], .normal⟩

theorem sourceAll_wrapper (ns : List Node) :
    Node.sourceAll [.element wrapperTag ns] = openTag ++ Node.sourceAll ns ++ closeTag := by
  have hstart : wrapperTag.startText = openTag := by decide
  have hend : wrapperTag.endText = closeTag := by decide
  have hshows : wrapperTag.showsChildren = true := rfl
  rw [Node.sourceAll, Node.sourceAll, List.append_nil, Node.source, if_pos hshows, hstart, hend]

/-- A line of a canonical tree may be the last one inside the wrapper. -/
theorem isCanonical_wrapper {ns : List Node}
    (h : Node.CanonicalAll Attribute.IsCanonical wrapperName [] ns) :
    Document.IsCanonical [.element wrapperTag (Node.padEnd ['\n'] ns)] := by
  have htag : wrapperTag.IsCanonical Attribute.IsCanonical (Node.padEnd ['\n'] ns) :=
    ⟨by decide, fun a ha => (by cases ha), by decide, by decide, by simp [wrapperTag]⟩
  exact ⟨⟨htag, by simp [wrapperTag], Node.canonicalAll_padEnd (.lineBreak _) ns h⟩,
    (by rintro ⟨⟩), fun _ => rfl, trivial⟩

/-- The parent that a template names, as it stands in the output. -/
def parentPath (options : Options) (name : Text) : Text :=
  TemplatePath.swapExtension name options.sourceExtension options.targetExtension

theorem readsBack_endBlock : Directive.ReadsBack .endBlock := .of_word .endBlock rfl rfl

theorem readsBack_inherit (name : Expression) : Directive.ReadsBack (.inherit name.text) :=
  .of_argument .inherit name rfl (Directive.withArgument?_text .inherit name)

/-- The line with the end of what the parent gets. -/
theorem isCanonicalText_endLine : IsCanonicalText ('\n' :: Directive.endBlock.source) [] := by
  decide +kernel

variable {ns : List Node} (hns : Node.CanonicalAll Attribute.IsCanonical wrapperName [] ns)
  (name : Expression)

include hns

/-- The directives around the content become the tags of the wrapper, and the parent is noted. -/
theorem run_substituteInheritance (ctx : Context) :
    (substituteInheritance ((Directive.inherit name.text).source ++
        Node.sourceAll (Node.padEnd ('\n' :: Directive.endBlock.source) ns))).run ctx =
      (Node.sourceAll [.element wrapperTag (Node.padEnd ['\n'] ns)],
        { ctx with parent := some (parentPath ctx.options name.text) }) := by
  have hA : ∀ a : Attribute, a.IsCanonical → a.IsCanonical ∨ a.IsSlot := fun _ => .inl
  have huse := (readsBack_inherit name).take?_source
    (Node.sourceAll (Node.padEnd ('\n' :: Directive.endBlock.source) ns))
  have hend := readsBack_endBlock.take?_source []
  have hline := Node.canonicalAll_padEnd isCanonicalText_endLine ns hns
  -- The last end is the one behind everything else.
  have hsegments : Node.segmentsAll (Node.padEnd ('\n' :: Directive.endBlock.source) ns) =
      Node.segmentsAll (Node.padEnd ['\n'] ns) ++
        [.token (.inline (.directive Directive.endBlock.source))] :=
    @Node.segmentsAll_padEnd_span ['\n'] _ rfl (by rwa [List.append_nil] at hend) ns
  have hlast := lastEnd?_concat (s := .token (.inline (.directive Directive.endBlock.source)))
    (congrArg some readsBack_endBlock.classify_source) (Node.segmentsAll (Node.padEnd ['\n'] ns))
  have hfirst := first?_cons (s := .token (.inline (.directive (Directive.inherit name.text).source)))
    (congrArg some (readsBack_inherit name).classify_source)
    (Node.segmentsAll (Node.padEnd ('\n' :: Directive.endBlock.source) ns))
  rw [substituteInheritance, segments_span_append huse, Node.segments_sourceAll hA hline, hfirst]
  simp only
  rw [hsegments, hlast, sourceAll_wrapper, ← Node.renderAll_segmentsAll]
  simp only [Piece.renderAll_nil, List.append_nil, List.nil_append]
  rfl

/-- Preparing a template with a parent: the content stands in the wrapper, and the state notes
    nothing but the parent. -/
theorem run_prepare (ctx : Context) :
    (prepare ((Directive.inherit name.text).source ++
        Node.sourceAll (Node.padEnd ('\n' :: Directive.endBlock.source) ns))).run ctx =
      (Node.sourceAllBy Literal.protectContent [.element wrapperTag (Node.padEnd ['\n'] ns)],
        { ctx with parent := some (parentPath ctx.options name.text) }) := by
  have hA : ∀ a : Attribute, a.IsCanonical → a.IsCanonical ∨ a.IsSlot := fun _ => .inl
  have huse := (readsBack_inherit name).take?_source
    (Node.sourceAll (Node.padEnd ('\n' :: Directive.endBlock.source) ns))
  have hline := Node.canonicalAll_padEnd isCanonicalText_endLine ns hns
  have hwrapper := isCanonical_wrapper hns
  -- Canonical tags hold no directive that a pass could pick.
  have hhold {owner : Text} {ms : List Node} (select : Text → Option (Family × Text))
      (hms : Node.CanonicalAll Attribute.IsCanonical owner [] ms) :
      Prepare.mapTags (Prepare.holding select) (Node.sourceAll ms) = pure (Node.sourceAll ms) := by
    rw [Node.mapTags_holding select hA hms,
      Node.mapAttributesAll_of_pure (fun _ => Prepare.hold_of_isCanonical) ms hms, map_pure]
  rw [prepare, substituteCalls_span_append huse, Node.substituteCalls_sourceAll hA hline, map_pure,
    pure_bind, substituteConditions_eq, Prepare.mapTags_span_append huse, hhold _ hline, map_pure,
    pure_bind, Prepare.run_bind_of_run (run_substituteInheritance hns name ctx),
    substituteAttributes_eq, hhold _ hwrapper, pure_bind, Node.protectLiterals_sourceAll hwrapper]
  rfl

end Inheritance

/-! ## Trees without calls -/

/-- A text that opens no inline token opens none in vain. -/
theorem Text.opensTokens_of_no_opening {content : Text} (h : ¬MacroToken.opening <:+: content) :
    content.OpensTokens := by
  intro run hrun hopens
  have hinfix := Piece.render_infix_renderAll (f := id) hrun
  rw [renderAll_conversionPieces] at hinfix
  exact absurd ((Text.contains_iff_infix.1 hopens).trans hinfix) h

namespace Node

mutual

theorem shown_of_canonical {A : Attribute → Prop} : (n : Node) → {owner after : Text} →
    n.Canonical A owner after → n.Shown
  | .text _, _, _, _ => trivial
  | .raw _, _, _, _ => trivial
  | .element tag children, _, _, h =>
    ⟨fun hshows => h.1.children (tag.childless_of_showsChildren hshows),
      shownIn_of_canonicalAll children h.2.2⟩

/-- A canonical tree is shown as a whole. -/
theorem shownIn_of_canonicalAll {A : Attribute → Prop} : (ns : List Node) → {owner after : Text} →
    CanonicalAll A owner after ns → ShownIn ns
  | [], _, _, _ => trivial
  | n :: ns, _, _, h => ⟨shown_of_canonical n h.1, shownIn_of_canonicalAll ns h.2.2.2⟩

end

mutual

/-- `OpensTokens` holds of texts whose markup does. -/
theorem every_opensTokens : (n : Node) → n.Shown → ¬MacroToken.opening <:+: n.source →
    Every Text.OpensTokens (fun _ => True) (fun _ => True) n
  | .text content, _, h => every_text_iff.2 (Text.opensTokens_of_no_opening h)
  | .raw _, _, _ => every_raw_iff.2 trivial
  | .element tag children, hshown, h => by
    rw [Shown] at hshown
    refine every_element_iff.2 ⟨trivial, everyIn_opensTokens children hshown.2 fun hchildren => ?_⟩
    cases hshows : tag.showsChildren with
    | false => rw [hshown.1 hshows] at hchildren; exact absurd hchildren (by decide)
    | true =>
      rw [source, if_pos hshows] at h
      exact h (hchildren.trans ⟨_, _, rfl⟩)

/-- Where the markup of a tree opens no inline token, its texts open none. -/
theorem everyIn_opensTokens : (ns : List Node) → ShownIn ns →
    ¬MacroToken.opening <:+: sourceAll ns →
    EveryIn Text.OpensTokens (fun _ => True) (fun _ => True) ns
  | [], _, _ => everyIn_nil
  | n :: ns, hshown, h => by
    rw [sourceAll] at h
    refine everyIn_cons_iff.2 ⟨every_opensTokens n hshown.1 fun hn => ?_,
      everyIn_opensTokens ns hshown.2 fun hns => ?_⟩
    · exact h (hn.trans (List.prefix_append _ _).isInfix)
    · exact h (hns.trans (List.suffix_append _ _).isInfix)

end

/-- Without recorded calls, a tree that opens no inline token is converted without a call. -/
theorem callsMacros_of_run {ns out : List Node} (hshown : ShownIn ns)
    (hopening : ¬MacroToken.opening <:+: sourceAll ns) {ctx ctx' : Context}
    (htables : ctx.tables.macroCalls = []) (hcalls : ctx.callsMacros = false)
    (hrun : (convertNodes ns).run.run ctx = (.ok out, ctx')) :
    ctx.Fixes ctx' ∧ ctx'.callsMacros = false := by
  obtain ⟨hfixes, hflag, hcall⟩ := Convert.putsCalls_convertNodes ns hshown
    (fun _ : True => everyIn_opensTokens ns hshown hopening) ctx out ctx' hrun
  refine ⟨hfixes, ?_⟩
  rw [hflag, hcalls, Bool.false_or]
  cases hnodes : callsAll ns with
  | false => rfl
  | true =>
    obtain ⟨call, hmem, -⟩ := hcall trivial hnodes
    rw [htables] at hmem
    cases hmem

end Node

/-! ## Printing the block -/

theorem nodesPlaceholder?_append (ns ms : List Node) :
    nodesPlaceholder? (ns ++ ms) = (nodesPlaceholder? ns).or (nodesPlaceholder? ms) := by
  induction ns with
  | nil => rw [List.nil_append, nodesPlaceholder?, Option.none_or]
  | cons n ns ih =>
    rw [List.cons_append, nodesPlaceholder?, nodesPlaceholder?, ih, Option.or_assoc]

/-- `checkPlaceholders` looks at the nodes below the root. -/
theorem checkPlaceholders_root (ns : List Node) :
    checkPlaceholders (Document.root ns) =
      match nodesPlaceholder? ns with
      | some (family, index) => .error (.unresolvedPlaceholder family index)
      | none => .ok () := by
  have hroot : nodePlaceholder? (Document.root ns).toNode = nodesPlaceholder? ns := by
    show nodePlaceholder? (.element ⟨Document.rootName, [], .normal⟩ ns) = _
    rw [nodePlaceholder?]
    exact Option.none_or
  unfold checkPlaceholders
  cases hfound : nodesPlaceholder? ns with
  | none | some found => simp only [hroot, hfound]

namespace Inheritance

theorem nodesPlaceholder?_block (parent : Text) (ns : List Node) :
    nodesPlaceholder? (inheritanceBlock parent ns) =
      (textPlaceholder? (inheritanceHeader parent)).or (nodesPlaceholder? ns) := by
  have hend : textPlaceholder? Twig.Statement.endBlock.text = none := by decide +kernel
  rw [inheritanceBlock, List.cons_append, nodesPlaceholder?, nodePlaceholder?,
    nodesPlaceholder?_append, nodesPlaceholder?, nodePlaceholder?, hend, nodesPlaceholder?,
    Option.or_none, Option.or_none]

theorem sourceAll_block (parent : Text) (ns : List Node) :
    Node.sourceAll (inheritanceBlock parent ns) =
      inheritanceHeader parent ++ Node.sourceAll ns ++ Twig.Statement.endBlock.text := by
  rw [inheritanceBlock, List.cons_append, Node.sourceAll, Node.source, Node.sourceAll_append,
    Node.sourceAll_singleton, Node.source, List.append_assoc]

/-- A block is printed as its content is, unless its header holds an inline token. -/
theorem printTree_block {parent : Text}
    (hheader : textPlaceholder? (inheritanceHeader parent) = none) (ns : List Node) :
    printTree (Document.root (inheritanceBlock parent ns)) =
      (printTree (Document.root ns)).map fun out =>
        inheritanceHeader parent ++ out ++ Twig.Statement.endBlock.text := by
  rw [printTree, printTree, checkPlaceholders_root, checkPlaceholders_root,
    nodesPlaceholder?_block, hheader, Option.none_or]
  cases nodesPlaceholder? ns with
  | none => exact congrArg Except.ok (sourceAll_block parent ns)
  | some found => rfl

theorem printTree_block_of_token {parent : Text} {f : Family} {i : Nat}
    (hheader : textPlaceholder? (inheritanceHeader parent) = some (f, i)) (ns : List Node) :
    printTree (Document.root (inheritanceBlock parent ns)) =
      .error (.unresolvedPlaceholder f i) := by
  rw [printTree, checkPlaceholders_root, nodesPlaceholder?_block, hheader, Option.some_or]
  rfl

/-! ## The whole conversion -/

theorem convertNodes_wrapper (ns : List Node) :
    convertNodes [.element wrapperTag ns] =
      (fun out => [Node.element wrapperTag out]) <$> convertNodes ns := by
  simp only [convertNodes, convertNode, wrapperTag, List.mapM_nil, pure_bind, bind_assoc,
    map_eq_pure_bind, List.append_nil, Converted.attributes, Converted.conditions,
    List.filterMap_nil, wrapConditions]

/-- `inheritedTree` puts the block in the wrapper's place. -/
theorem inheritedTree_wrapper (parent : Text) (ns : List Node) :
    inheritedTree parent (Document.root [.element wrapperTag ns]) =
      Document.root (inheritanceBlock parent ns) := by
  have hreplace : Node.replaceFirstIn? (fun tag => decide (tag.name = wrapperName))
      (fun wrapper => inheritanceBlock parent wrapper.children) [.element wrapperTag ns] =
        some (inheritanceBlock parent ns) := by
    rw [Node.replaceFirstIn?, Node.replaceFirst?, if_pos (by decide)]
    exact congrArg some (List.append_nil _)
  rw [inheritedTree]
  simp only [Document.root, hreplace, Option.getD_some]

/-- The wrapper is converted with its content, and the parent stays noted. -/
theorem run_convertNodes_wrapper {ns : List Node} {ctx ctx' : Context} (parent : Text)
    {result : Except ConvertError (List Node)} (h : (convertNodes ns).run.run ctx = (result, ctx')) :
    (convertNodes [.element wrapperTag ns]).run.run { ctx with parent := some parent } =
      (result.map fun out => [.element wrapperTag out], { ctx' with parent := some parent }) := by
  have hlabels : Convert.Ignores (Context.relabel id (fun _ => some parent) id) (convertNodes ns) :=
    Convert.ignores_convertNodes (fun _ _ _ => rfl) ns fun _ _ => rfl
  have hlabels := hlabels ctx
  rw [h] at hlabels
  rw [convertNodes_wrapper, Convert.run_map]
  exact congrArg (fun r : Except ConvertError (List Node) × Context =>
    (r.1.map fun out => [Node.element wrapperTag out], r.2)) hlabels

theorem complete_root {ctx : Context} (hcalls : ctx.callsMacros = false)
    (hparent : ctx.parent = none) (root : Element) : ctx.complete root = root := by
  simp [Context.complete, insertImport, hcalls, hparent]

/-- `complete` puts the block in the wrapper's place. -/
theorem complete_wrapper {ctx : Context} (hcalls : ctx.callsMacros = false) (parent : Text)
    (ns : List Node) :
    { ctx with parent := some parent }.complete (Document.root [.element wrapperTag ns]) =
      Document.root (inheritanceBlock parent ns) := by
  have himport : insertImport { ctx with parent := some parent }
      (Document.root [.element wrapperTag ns]) = Document.root [.element wrapperTag ns] := by
    simp [insertImport, hcalls]
  rw [Context.complete, himport]
  exact inheritedTree_wrapper parent ns

/-- The content that a template hands to its parent is converted as it is without a parent.  The
    block around it only adds its own statements, unless the name of the parent holds an inline
    token: then a content that could be converted cannot be handed on. -/
theorem convertTemplate_content (options : Options) (name : Expression) {ns : List Node}
    (hcanonical : Document.IsCanonical ns)
    (hnames : Node.EveryIn (fun _ => True) (fun _ => True)
      (fun tag => Text.sameIgnoringCase tag.name wrapperName = false) ns)
    (hopening : (Node.sourceAll ns).contains MacroToken.opening = false) :
    let content := '\n' :: Node.sourceAll ns ++ ['\n']
    let header := inheritanceHeader (parentPath options name.text)
    let alone := (convertTemplate options (some .document) content).result
    let inherited := (convertTemplate options (some .document)
      ((Directive.inherit name.text).source ++ content ++ Directive.endBlock.source)).result
    (textPlaceholder? header = none →
      inherited = alone.map fun out => header ++ out ++ Twig.Statement.endBlock.text) ∧
    ∀ f i out, textPlaceholder? header = some (f, i) → alone = .ok out →
      inherited = .error (.unresolvedPlaceholder f i) := by
  intro content header alone inherited
  -- The content is the markup of a canonical tree, alone and in the wrapper.
  let nodes := Node.padEnd ['\n'] (Node.breakStart ns)
  have hroot : Document.IsCanonical nodes :=
    Node.canonicalAll_padEnd (.lineBreak _) _ (Node.canonicalAll_breakStart hcanonical)
  have hwrapped : Node.CanonicalAll Attribute.IsCanonical wrapperName [] (Node.breakStart ns) :=
    Node.canonicalAll_breakStart (Node.canonicalAll_owner ns hnames hcanonical)
  have hcontent : content = Node.sourceAll nodes := by
    rw [Node.sourceAll_padEnd, Node.sourceAll_breakStart]
  have hsource : (Directive.inherit name.text).source ++ content ++ Directive.endBlock.source =
      (Directive.inherit name.text).source ++
        Node.sourceAll (Node.padEnd ('\n' :: Directive.endBlock.source) (Node.breakStart ns)) := by
    rw [Node.sourceAll_padEnd, Node.sourceAll_breakStart, List.append_assoc]
    simp [content]
  obtain ⟨prepared, hprepare, hparse⟩ :=
    Document.parse?_prepare hroot { options, kind := .document }
  rw [← hcontent] at hprepare
  have hprepare' := run_prepare hwrapped name { options, kind := .document }
  rw [← hsource] at hprepare'
  have hparse' := Document.parse?_sourceAllBy (isCanonical_wrapper hwrapped)
  -- Both convert the same nodes, and the parent plays no part in that.
  let path := parentPath options name.text
  rcases hrun : (convertNodes nodes).run.run { options, kind := .document } with ⟨result, ctx⟩
  have hrun' := run_convertNodes_wrapper path hrun
  cases result with
  | error e =>
    have halone : alone = .error e := Document.result_of_error hprepare hparse hrun
    have hinherited : inherited = .error e := Document.result_of_error hprepare' hparse' hrun'
    rw [halone, hinherited]
    exact ⟨fun _ => rfl, fun _ _ _ _ hout => (by cases hout)⟩
  | ok out =>
    have hopening' : ¬MacroToken.opening <:+: Node.sourceAll nodes := by
      have hapart : Text.Apart [MacroToken.opening] := Text.apart_of_all (by decide)
      have hfree : Text.Free [MacroToken.opening] (Node.sourceAll ns) := by
        intro m hm
        rw [List.mem_singleton.1 hm]
        exact Text.contains_eq_false_iff.1 hopening
      rw [← hcontent]
      exact hapart.free_behind ['\n'] rfl rfl (hapart.free_before ['\n'] rfl rfl hfree) _
        List.mem_cons_self
    obtain ⟨hfixes, hcalls⟩ := Node.callsMacros_of_run (Node.shownIn_of_canonicalAll nodes hroot)
      hopening' rfl rfl hrun
    have halone : alone = _ := Document.result_of_ok hprepare hparse hrun
    have hinherited : inherited = _ := Document.result_of_ok hprepare' hparse' hrun'
    rw [complete_root hcalls hfixes.parent] at halone
    rw [complete_wrapper hcalls] at hinherited
    cases hclosed : ctx.blocks.ensureClosed with
    | error e =>
      simp only [hclosed] at halone hinherited
      rw [halone, hinherited]
      exact ⟨fun _ => rfl, fun _ _ _ _ hout => (by cases hout)⟩
    | ok _ =>
      simp only [hclosed] at halone hinherited
      rw [halone, hinherited]
      exact ⟨fun hheader => printTree_block hheader out,
        fun f i _ hheader _ => printTree_block_of_token hheader out⟩

/-- Elements that are left open, a condition around a loop, a character that is no markup,
    and colons that would open a span if the line went on. -/
def lines : List Node := [
  .text "::if a && b:: 1 < 2".toList,
  .element ⟨"ul".toList, [⟨"class".toList, .quoted "x ::y::".toList .double⟩], .normal⟩ [
    .text "::foreach i items::".toList,
    .element ⟨"li".toList, [], .unclosed⟩ [.text "::i::".toList]],
  .text "::end::::end::".toList,
  .element ⟨"p".toList, [], .unclosed⟩ [.text "last ::".toList]]

/-- The lines are handed to the parent as they are. -/
theorem convertTemplate_content_lines :
    let name : Expression := .ofText "layout.mtt".toList (by decide)
    let content := '\n' :: Node.sourceAll lines ++ ['\n']
    let header := "\x7b% extends \"layout.twig\" %\x7d\n\x7b% block content %\x7d".toList
    (Document.IsCanonical lines ∧
      Node.EveryIn (fun _ => True) (fun _ => True)
        (fun tag => Text.sameIgnoringCase tag.name wrapperName = false) lines ∧
      (Node.sourceAll lines).contains MacroToken.opening = false ∧
      textPlaceholder? (inheritanceHeader (parentPath {} name.text)) = none) ∧
    (convertTemplate {} (some .document)
        ((Directive.inherit name.text).source ++ content ++ Directive.endBlock.source)).result =
      (convertTemplate {} (some .document) content).result.map fun out =>
        header ++ out ++ "\x7b% endblock %\x7d".toList := by
  intro name content header
  have hcanonical : Document.IsCanonical lines := by decide +kernel
  have hnames : Node.EveryIn (fun _ => True) (fun _ => True)
      (fun tag => Text.sameIgnoringCase tag.name wrapperName = false) lines := by decide +kernel
  have hopening : (Node.sourceAll lines).contains MacroToken.opening = false := by decide +kernel
  have hheader : textPlaceholder? (inheritanceHeader (parentPath {} name.text)) = none := by
    decide +kernel
  have htext : inheritanceHeader (parentPath {} name.text) = header := by decide +kernel
  have hwhole := (convertTemplate_content {} name hcanonical hnames hopening).1 hheader
  rw [htext] at hwhole
  exact ⟨⟨hcanonical, hnames, hopening, hheader⟩, hwhole⟩

/-- A parent whose name looks like the token of a call: the content alone is converted, and with the
    parent it fails on a placeholder that nobody recorded. -/
theorem convertTemplate_parent_token :
    (convertTemplate {} (some .document) "\n\n".toList).result.toOption = some "\n\n".toList ∧
      (convertTemplate {} (some .document)
          "::use [[TWIG_MACRO_0]]::\n\n::end::".toList).result =
        .error (.unresolvedPlaceholder .macroCall 0) := by
  decide +kernel

end Inheritance

end TemploTwig
