import TemploTwig.Proofs.Markup.Held
import TemploTwig.Proofs.Nesting.Document

/-!
# Directives come back on their own element

A directive between attributes leaves its start tag in one pass and comes back when the tree is
converted.
-/

namespace TemploTwig

/-! ## Preparing -/

theorem Prepare.run_map_of_run {α β : Type} {x : Prepare α} {ctx ctx' : Context} {a : α}
    (h : x.run ctx = (a, ctx')) (f : α → β) : (f <$> x).run ctx = (f a, ctx') := by
  rw [StateT.run_map, h]
  rfl

namespace Draft

/-- Preparing a draft holds all its directives: first the conditions, then the others. -/
theorem run_prepare_written {ds : List Draft} (hcanonical : Document.IsCanonical (plainAll ds))
    (hunmarked : UnmarkedAll ds) (ctx : Context) :
    ∃ ns,
      let ctx' := (ctx.recordAll ((insertionsAll ds).filter Insertion.isCond)).recordAll
        ((insertionsAll ds).filter fun d => !d.isCond)
      (prepare (Node.sourceAll (writtenAll ds))).run ctx =
          (Node.sourceAllBy Literal.protectContent ns, ctx') ∧
        Document.IsCanonical ns ∧ ShowsAll (fun _ => true) ctx'.tables ds ns := by
  have hA : ∀ a : Attribute, a.IsCanonical ∨ a.IsSlot → a.IsCanonical ∨ a.IsSlot := fun _ => id
  have hends : BeginsMarkup [] := .inl rfl
  -- Nothing is held before the first pass, and it holds the conditions.
  have hwritten : ShowsAll (fun _ => false) ctx.tables ds (writtenAll ds) := showsAll_writtenAll ds
  obtain ⟨ms, hms, hconditions⟩ :=
    run_mapAttributesAll Insertion.pickedBy_pickCondition (by simp) ds hcanonical hwritten
  have hfirst : Node.CanonicalAll _ Document.rootName [] (writtenAll ds) :=
    canonicalAll_of_showsAll Slot.Shows.isCanonical_or_isSlot ds hcanonical hunmarked hwritten hends
  -- The second one holds what is left.
  obtain ⟨ns, hns, hvalues⟩ :=
    run_mapAttributesAll Insertion.pickedBy_pickValue (by simp) ds hcanonical hconditions
  have hsecond : Node.CanonicalAll _ Document.rootName [] ms :=
    canonicalAll_of_showsAll Slot.Shows.isCanonical_or_isSlot ds hcanonical hunmarked hconditions
      hends
  have hall (d : Insertion) : ((false || d.isCond) || !d.isCond) = true := by simp
  simp only [hall] at hvalues
  have hheld : Document.IsCanonical ns :=
    canonicalAll_of_showsAll Slot.Shows.isCanonical ds hcanonical hunmarked hvalues hends
  refine ⟨ns, ?_, hheld, hvalues⟩
  rw [prepare, Node.substituteCalls_sourceAll hA hfirst, pure_bind, substituteConditions_eq,
    Node.mapTags_holding _ hA hfirst, Prepare.run_bind_of_run (Prepare.run_map_of_run hms _),
    Node.substituteInheritance_sourceAll hA hsecond, pure_bind, substituteAttributes_eq,
    Node.mapTags_holding _ hA hsecond, Prepare.run_bind_of_run (Prepare.run_map_of_run hns _),
    Node.protectLiterals_sourceAll hheld]
  rfl

/-- The tables gain no more entries than there are directives. -/
theorem exists_run_prepare {ds : List Draft} (hcanonical : Document.IsCanonical (plainAll ds))
    (hunmarked : UnmarkedAll ds) (ctx : Context) :
    ∃ ns tables, (prepare (Node.sourceAll (writtenAll ds))).run ctx =
        (Node.sourceAllBy Literal.protectContent ns, { ctx with tables }) ∧
      Document.IsCanonical ns ∧ ShowsAll (fun _ => true) tables ds ns ∧
      ∀ f, (tables.entries f).length ≤
        (ctx.tables.entries f).length + (insertionsAll ds).length := by
  obtain ⟨ns, hrun, hcanonical', hshows⟩ := run_prepare_written hcanonical hunmarked ctx
  refine ⟨ns, _, hrun, hcanonical', hshows, fun f => ?_⟩
  have hfirst := (ctx.tables).length_entries_recordAll_le
    ((insertionsAll ds).filter Insertion.isCond) f
  have hsecond := (ctx.recordAll ((insertionsAll ds).filter Insertion.isCond)).tables
    |>.length_entries_recordAll_le ((insertionsAll ds).filter fun d => !d.isCond) f
  -- Every directive is recorded by one of the two passes.
  have hcount := List.length_eq_length_filter_add Insertion.isCond (l := insertionsAll ds)
  simp only [Context.recordAll] at hfirst hsecond ⊢
  omega

end Draft

/-! ## Converting -/

/-- `refill` of pieces without tokens takes nothing. -/
theorem Piece.refill_of_tokens_eq_nil {ps : List (Piece Text)} (h : tokens ps = [])
    (outs : List Text) : refill ps outs = renderAll id ps := by
  induction ps with
  | nil => rfl
  | cons p ps ih =>
    cases p with
    | plain t => rw [refill, ih h, renderAll_cons, render]
    | token span => cases h

/-- Text without directives and without inline tokens stands for itself. -/
theorem convertText_of_no_delimiter {t : Text} (hdelimiter : ¬Span.delimiter <:+: t)
    (hopening : t.contains MacroToken.opening = false) : convertText t = pure t := by
  have htokens : Piece.tokens (conversionPieces t) = [] := by
    rw [Piece.tokens, List.filterMap_eq_nil_iff]
    intro p hp
    cases p with
    | plain u => rfl
    | token span =>
      -- A directive would bring its delimiters along.
      obtain ⟨part, -, hspan⟩ := List.mem_flatMap.1 hp
      have hinfix := Piece.render_infix_renderAll (f := id) hp
      rw [renderAll_conversionPieces] at hinfix
      exact absurd ((Span.delimiter_infix_of_token_mem_scan hspan).trans hinfix) hdelimiter
  rw [convertText_eq_map hopening, htokens, List.mapM_nil, map_pure,
    Piece.refill_of_tokens_eq_nil htokens, renderAll_conversionPieces]

/-! The texts that the tree gets are spelled out once. -/

/-- `printSpaced` as it is spelled. -/
theorem Twig.printSpaced_eq (expression : Text) :
    printSpaced expression = "\x7b\x7b ".toList ++ expression ++ " \x7d\x7d".toList := by
  have htext : printSpaced expression =
      "\x7b\x7b".toList ++ ([' '] ++ expression ++ [' ']) ++ "\x7d\x7d".toList := rfl
  have hopen : "\x7b\x7b ".toList = "\x7b\x7b".toList ++ [' '] := rfl
  have hclose : " \x7d\x7d".toList = [' '] ++ "\x7d\x7d".toList := rfl
  rw [htext, hopen, hclose]
  simp only [List.append_assoc]

theorem printSpaced_choice (c v : Text) :
    Twig.printSpaced (c ++ " ? \"".toList ++ v ++ "\" : \"\"".toList) =
      "\x7b\x7b ".toList ++ c ++ " ? \"".toList ++ v ++ "\" : \"\" \x7d\x7d".toList := by
  have hclose : "\" : \"\"".toList ++ " \x7d\x7d".toList = "\" : \"\" \x7d\x7d".toList := rfl
  rw [Twig.printSpaced_eq, ← hclose]
  simp only [List.append_assoc]

theorem printSpans_of_no_delimiter {t : Text} (h : ¬Span.delimiter <:+: t) : printSpans t = t := by
  by_cases hne : t = []
  · subst hne
    rw [printSpans, Span.scan, Recogniser.scan_nil]
    rfl
  · rw [printSpans, Span.scan_of_no_delimiter h hne, Piece.renderAll_cons]
    exact List.append_nil t

/-- Printing the spans of an attribute without two colons in a row changes nothing. -/
theorem Attribute.printSpans_value {a : Attribute}
    (h : a.text.contains Span.delimiter = false) : a.value.printSpans = a.value := by
  have hvalue (v : Text) (hv : a.value.text? = some v) : printSpans v = v := by
    refine printSpans_of_no_delimiter fun hcolons => ?_
    exact Text.contains_eq_false_iff.1 h (hcolons.trans (value_infix_text hv))
  cases ha : a.value with
  | bare => rfl
  | quoted v quote | unquoted v => rw [AttributeValue.printSpans, hvalue v (by rw [ha]; rfl)]

namespace Slot

/-- What converting the slot gives. -/
def result : Slot → Converted
  | .plain a => .kept { a with value := a.value.printSpans }
  | .directive d =>
    if d.isCond then .condition (Condition.toTwig d.entry)
    else .kept ⟨d.family.holder, .unquoted d.entry⟩

theorem converted?_directive {d : Insertion} (h : d.isCond = false) :
    converted? (.directive d) = some ⟨d.family.holder, .unquoted d.entry⟩ := by
  cases d with
  | cond e => cases h
  | className c v => rw [Insertion.entry, printSpaced_choice]; rfl
  | checked c | selected c => rw [Insertion.entry, Twig.printSpaced_eq]; rfl

/-- `Converted.attributes` of slots are those that stay. -/
theorem attributes_map_result (slots : List Slot) :
    Converted.attributes (slots.map result) = slots.filterMap converted? := by
  rw [Converted.attributes, List.filterMap_map]
  congr 1
  funext s
  cases s with
  | plain a =>
    show some { a with value := a.value.printSpans } = converted? (.plain a)
    rw [converted?]
    split
    · rfl
    · next h =>
      rw [Attribute.printSpans_value (by simpa using h)]
  | directive d =>
    -- A condition leaves the tag, and every other directive becomes an attribute.
    cases hcond : d.isCond with
    | true =>
      cases d with
      | cond e => rfl
      | _ => cases hcond
    | false =>
      rw [converted?_directive hcond]
      simp [result, hcond]

/-- `Converted.conditions` of slots are theirs. -/
theorem conditions_map_result (slots : List Slot) :
    Converted.conditions (slots.map result) = slots.filterMap condition? := by
  rw [Converted.conditions, List.filterMap_map]
  congr 1
  funext s
  cases s with
  | plain a => rfl
  | directive d => cases d <;> rfl

variable {ctx : Context}

/-- `convertAttribute` converts the attribute that a slot shows. -/
theorem run_convertAttribute (hbound : ∀ f, (ctx.tables.entries f).length ≤ indexBound)
    {s : Slot} (hmark : s.Holds fun a => a.text.contains Attribute.tokenMark = false)
    {a : Attribute} (h : s.Shows (fun _ => true) ctx.tables a) :
    (convertAttribute a).run.run ctx = (.ok s.result, ctx) := by
  cases s with
  | plain b =>
    obtain rfl : a = b := h
    rw [convertAttribute, Attribute.placeholder?_eq_none hmark]
    rfl
  | directive d =>
    rw [Slot.Shows, if_pos rfl] at h
    obtain ⟨index, hentry, rfl⟩ := h
    -- The index is in the table, and the table has no more entries than there are indices.
    have hlt : index < indexBound := by
      obtain ⟨hlt, -⟩ := List.getElem?_eq_some_iff.1 hentry
      exact Nat.lt_of_lt_of_le hlt (hbound d.family)
    have hresolve := Convert.run_resolve hentry
    rw [convertAttribute, Family.placeholder?_holderAttribute hlt]
    cases d <;> exact Convert.run_bind_ok hresolve _

/-- `convertAttribute` converts attributes slot by slot. -/
theorem run_mapM_convertAttribute (hbound : ∀ f, (ctx.tables.entries f).length ≤ indexBound)
    {slots : List Slot}
    (hmarks : ∀ s ∈ slots, s.Holds fun a => a.text.contains Attribute.tokenMark = false)
    {attributes : List Attribute}
    (h : List.Forall₂ (Slot.Shows (fun _ => true) ctx.tables) slots attributes) :
    (attributes.mapM convertAttribute).run.run ctx = (.ok (slots.map result), ctx) := by
  induction h with
  | nil => rfl
  | @cons s a slots as hs _ ih =>
    have ha := run_convertAttribute hbound (hmarks s List.mem_cons_self) hs
    have has := ih fun s hs => hmarks s (List.mem_cons_of_mem _ hs)
    rw [List.mapM_cons, Convert.run_bind_ok ha, Convert.run_bind_ok has]
    rfl

end Slot

/-- `ifThen` as it is spelled. -/
theorem Twig.text_ifThen (condition : Text) :
    (Statement.ifThen condition).text ++ ['\n'] =
      "\x7b% if ".toList ++ condition ++ " %\x7d\n".toList := by
  have htext : (Statement.ifThen condition).text =
      "\x7b% ".toList ++ ("if ".toList ++ condition) ++ " %\x7d".toList := rfl
  have hopen : "\x7b% if ".toList = "\x7b% ".toList ++ "if ".toList := rfl
  have hclose : " %\x7d\n".toList = " %\x7d".toList ++ ['\n'] := rfl
  rw [htext, hopen, hclose]
  simp only [List.append_assoc]

/-- `wrapConditions` is `guarded`. -/
theorem wrapConditions_eq_guarded (conditions : List Text) (element : Node) :
    wrapConditions conditions element = Draft.guarded conditions element := by
  have hend : '\n' :: (Twig.Statement.close .conditional).text = "\n\x7b% endif %\x7d".toList := rfl
  cases conditions with
  | nil => rfl
  | cons c cs =>
    rw [Draft.guarded, if_neg (List.cons_ne_nil c cs)]
    exact congrArg₂ (fun s t => [.text s, element, .text t]) (Twig.text_ifThen _) hend

namespace Draft

variable {ctx : Context}

mutual

/-- `convertNode` converts the node that a draft shows. -/
theorem run_convertNode (hbound : ∀ f, (ctx.tables.entries f).length ≤ indexBound) :
    (d : Draft) → d.Unmarked → {n : Node} → d.Shows (fun _ => true) ctx.tables n →
      (convertNode n).run.run ctx = (.ok d.converted, ctx)
  | .text content, hmarks, _, h => by
    obtain rfl := h
    -- The opening of an inline token has the mark of a token in it.
    have hopening : content.contains MacroToken.opening = false := by
      rw [Text.contains_eq_false_iff]
      intro hinfix
      refine Text.contains_eq_false_iff.1 hmarks.2 (List.IsInfix.trans ?_ hinfix)
      exact ⟨"[[".toList, "MACRO_".toList, rfl⟩
    rw [convertNode,
      convertText_of_no_delimiter (Text.contains_eq_false_iff.1 hmarks.1) hopening]
    rfl
  | .raw source, _, _, h => by
    obtain rfl := h
    rfl
  | .element name slots form children, hmarks, _, h => by
    obtain ⟨attributes, nodes, rfl, hslots, hnodes⟩ := h
    have hattributes := Slot.run_mapM_convertAttribute hbound (Slot.forall_holds hmarks.1) hslots
    have hchildren := run_convertNodes hbound children hmarks.2 hnodes
    rw [convertNode, Convert.run_bind_ok hattributes, Convert.run_bind_ok hchildren,
      Slot.attributes_map_result, Slot.conditions_map_result, wrapConditions_eq_guarded]
    rfl

/-- Converting a tree that shows drafts, all directives held, gives what the drafts stand for. -/
theorem run_convertNodes (hbound : ∀ f, (ctx.tables.entries f).length ≤ indexBound) :
    (ds : List Draft) → UnmarkedAll ds → {ns : List Node} →
      ShowsAll (fun _ => true) ctx.tables ds ns →
      (convertNodes ns).run.run ctx = (.ok (convertedAll ds), ctx)
  | [], _, _, h => by
    obtain rfl := h
    rfl
  | d :: ds, hmarks, _, h => by
    obtain ⟨n, ns, rfl, hn, hns⟩ := h
    rw [convertNodes, Convert.run_bind_ok (run_convertNode hbound d hmarks.1 hn),
      Convert.run_bind_ok (run_convertNodes hbound ds hmarks.2 hns)]
    rfl

end

/-- Put directives between the attributes of a canonical tree, in any number and at any place: the
    template is prepared, read and converted without an error, and every directive has its effect
    on the element that carries it, and on no other.  Nothing else happens to the state: no warning
    is given and no block is left open.

    An index has 64 bits, and so there can be no more directives than there are indices. -/
theorem convertTree_prepare_written {ds : List Draft}
    (hcanonical : Document.IsCanonical (plainAll ds)) (hunmarked : UnmarkedAll ds)
    (hcount : (insertionsAll ds).length ≤ indexBound) (options : Options) (kind : TemplateKind) :
    ∃ prepared tables tree,
      (prepare (Node.sourceAll (writtenAll ds))).run { options, kind } =
          (prepared, { options, kind, tables }) ∧
        Document.parse? prepared = some tree ∧
        (convertTree tree).run.run { options, kind, tables } =
          (.ok (Document.root (convertedAll ds)), { options, kind, tables }) := by
  obtain ⟨ns, tables, hprepare, hns, hshows, hlength⟩ :=
    exists_run_prepare hcanonical hunmarked { options, kind }
  have hbound (f : Family) : (tables.entries f).length ≤ indexBound := by
    have hempty : (({} : Tables).entries f).length = 0 := by cases f <;> rfl
    have := hlength f
    simp only [hempty] at this
    omega
  refine ⟨_, tables, Document.root ns, hprepare, Document.parse?_sourceAllBy hns, ?_⟩
  have hconvert : (convertNodes ns).run.run { options, kind, tables } = _ :=
    run_convertNodes hbound ds hunmarked hshows
  rw [convertTree, Document.root, Convert.run_bind_ok hconvert]
  rfl

/-- Conditions and values between other attributes, in elements of every form and on three levels;
    the expressions hold quotes, parentheses, and what would end a tag or a directive elsewhere. -/
def scattered : List Draft :=
  let visible : Expression := .ofText "a > 1 && b".toList (by decide)
  let named : Expression := .ofText "x ? \"<p>\" : 'y' || z".toList (by decide)
  let chosen : Guard := { Expression.ofText "f(x, ')') != 'a'".toList (by decide) with
    closed := by decide +kernel }
  let label : ClassValue := { Expression.ofText "on</b> $$".toList (by decide) with
    not_quoted := by decide +kernel }
  [.element "div".toList [
      .directive (.cond visible),
      .plain ⟨"id".toList, .quoted "a>b".toList .single⟩,
      .directive (.className chosen label),
      .directive (.cond named),
      .plain ⟨"hidden".toList, .bare⟩] .normal [
    .text "1 < 2: ".toList,
    .element "input".toList [.directive (.checked chosen)] .void [],
    .element "p".toList [.directive (.selected chosen), .directive (.checked chosen)] .normal [
      .element "b".toList [.directive (.cond visible)] .selfClosing []],
    .element "i".toList [.plain ⟨"title".toList, .quoted "::t::".toList .double⟩] .unclosed []]]

/-- All of them come back where they were put. -/
theorem convertTree_prepare_scattered :
    (Document.IsCanonical (plainAll scattered) ∧ UnmarkedAll scattered ∧
      (insertionsAll scattered).length ≤ indexBound) ∧
    ∃ prepared tables tree,
      (prepare (Node.sourceAll (writtenAll scattered))).run { options := {}, kind := .document } =
          (prepared, { options := {}, kind := .document, tables }) ∧
        Document.parse? prepared = some tree ∧
        (convertTree tree).run.run { options := {}, kind := .document, tables } =
          (.ok (Document.root (convertedAll scattered)),
            { options := {}, kind := .document, tables }) :=
  have hcanonical : Document.IsCanonical (plainAll scattered) := by decide +kernel
  have hunmarked : UnmarkedAll scattered := by decide +kernel
  have hcount : (insertionsAll scattered).length ≤ indexBound := by decide +kernel
  ⟨⟨hcanonical, hunmarked, hcount⟩,
    convertTree_prepare_written hcanonical hunmarked hcount {} .document⟩

end Draft

end TemploTwig
