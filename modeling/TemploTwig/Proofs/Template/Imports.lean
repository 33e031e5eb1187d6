import TemploTwig.Proofs.Placeholders.Spacing
import TemploTwig.Proofs.Placeholders.Unresolved
import TemploTwig.Proofs.Template.Inheritance
import TemploTwig.Proofs.Template.Placed

/-!
# The import of the macros

A document imports the macros if its conversion puts in a call, and then once.  The import can be
missed for one reason only: the element that gets it is void or self-closing, and so does not write
its children.  Then the document calls macros that it does not import.
-/

namespace TemploTwig

/-! ## What the conversion keeps -/

/-- If it is a tag of the wrapper, it has no attributes. -/
def Tag.BareWrapper (tag : Tag) : Prop := tag.isWrapper = true → tag.attributes = []

instance (tag : Tag) : Decidable tag.BareWrapper :=
  inferInstanceAs (Decidable (tag.isWrapper = true → tag.attributes = []))

/-- What decides whether an element is a body or a wrapper, and whether it writes its children. -/
def Element.label (e : Element) : Text × Form := (e.tag.name, e.tag.form)

namespace Node

theorem findIn?_append (test : Tag → Bool) (ns ms : List Node) :
    findIn? test (ns ++ ms) = (findIn? test ns).or (findIn? test ms) := by
  induction ns with
  | nil => rw [List.nil_append, findIn?, Option.none_or]
  | cons n ns ih => rw [List.cons_append, findIn?, findIn?, ih, Option.or_assoc]

theorem firstElement?_append (ns ms : List Node) :
    firstElement? (ns ++ ms) = (firstElement? ns).or (firstElement? ms) := by
  induction ns with
  | nil => rw [List.nil_append, firstElement?, Option.none_or]
  | cons n ns ih =>
    cases n with
    | element tag children => rfl
    | text _ | raw _ => exact ih

/-- The second list shows what the first one shows, and where the first one has a body, a wrapper or
    a first element, the second has one of the same label. -/
structure SameShape (ns ms : List Node) : Prop where
  nil : ns = [] → ms = []
  shown : ShownIn ns → ShownIn ms
  bare : EveryIn (fun _ => True) (fun _ => True) Tag.BareWrapper ns →
    EveryIn (fun _ => True) (fun _ => True) Tag.BareWrapper ms
  body : (findIn? Tag.isBody ms).map Element.label = (findIn? Tag.isBody ns).map Element.label
  first : (firstElement? ms).map Element.label = (firstElement? ns).map Element.label

namespace SameShape

variable {ns ms ns' ms' : List Node}

/-- `SameShape` goes on over two parts. -/
theorem append (h : SameShape ns ms) (h' : SameShape ns' ms') :
    SameShape (ns ++ ns') (ms ++ ms') where
  nil hnil := by
    obtain ⟨hns, hns'⟩ := List.append_eq_nil_iff.1 hnil
    rw [h.nil hns, h'.nil hns', List.append_nil]
  shown hshown := by
    rw [shownIn_append_iff] at hshown ⊢
    exact ⟨h.shown hshown.1, h'.shown hshown.2⟩
  bare hbare := by
    rw [everyIn_append_iff] at hbare ⊢
    exact ⟨h.bare hbare.1, h'.bare hbare.2⟩
  body := by rw [findIn?_append, findIn?_append, Option.map_or, Option.map_or, h.body, h'.body]
  first := by
    rw [firstElement?_append, firstElement?_append, Option.map_or, Option.map_or, h.first, h'.first]

theorem text (t u : Text) : SameShape [.text t] [.text u] :=
  ⟨by simp, id, fun _ => everyIn_singleton_iff.2 (every_text_iff.2 trivial), rfl, rfl⟩

/-- An element whose attributes are converted. -/
theorem element {tag tag' : Tag} (hname : tag'.name = tag.name) (hform : tag'.form = tag.form)
    (hattributes : tag.attributes = [] → tag'.attributes = []) (h : SameShape ns ms) :
    SameShape [.element tag ns] [.element tag' ms] where
  nil := by simp
  shown hshown := by
    rw [shownIn_singleton_iff, Shown] at hshown ⊢
    -- An element that hides its children had none, and none come in.
    refine ⟨fun hhides => h.nil (hshown.1 ?_), h.shown hshown.2⟩
    rw [← hhides, Tag.showsChildren, Tag.showsChildren, hform]
  bare hbare := by
    rw [everyIn_singleton_iff, every_element_iff] at hbare ⊢
    refine ⟨fun hwraps => hattributes (hbare.1 ?_), h.bare hbare.2⟩
    rw [← hwraps, Tag.isWrapper, Tag.isWrapper, hname]
  body := by
    have hbody : tag'.isBody = tag.isBody := by rw [Tag.isBody, Tag.isBody, hname]
    simp only [findIn?, find?, hbody, Option.or_none]
    split
    · simp [Element.label, hname, hform]
    · exact h.body
  first := by simp [firstElement?, Element.label, hname, hform]

/-- The statements around an element with conditions are texts. -/
theorem wrapConditions {n : Node} (h : SameShape ns [n]) (conditions : List Text) :
    SameShape ns (TemploTwig.wrapConditions conditions n) := by
  unfold TemploTwig.wrapConditions
  split
  · exact h
  · refine ⟨fun hnil => (by cases h.nil hnil), fun hshown => ?_, fun hbare => ?_, ?_, ?_⟩
    · exact ⟨trivial, shownIn_singleton_iff.1 (h.shown hshown), trivial, trivial⟩
    · simp only [everyIn_cons_iff, every_text_iff, true_and]
      exact ⟨everyIn_singleton_iff.1 (h.bare hbare), everyIn_nil⟩
    · rw [← h.body]
      simp [findIn?, find?]
    · rw [← h.first]
      cases n <;> rfl

/-- Whether an import is seen does not change. -/
theorem showsImport (h : SameShape ns ms) (ctx : Context) :
    ctx.showsImport ms = ctx.showsImport ns := by
  let shows := fun (label : Text × Form) => (label.2 == .normal || label.2 == .unclosed) ||
    (ctx.parent.isSome && decide (label.1 = Inheritance.wrapperName))
  have hlabels (ks : List Node) : ctx.showsImport ks =
      (((findIn? Tag.isBody ks).map Element.label).or
        ((firstElement? ks).map Element.label)).all shows := by
    rw [← Option.map_or, Context.showsImport, importTarget?, Option.all_map, Option.all_map]
    rfl
  rw [hlabels, hlabels, h.body, h.first]

end SameShape

end Node

namespace Convert

mutual

/-- `convertNode` keeps the shape of a node. -/
theorem ensures_sameShape_convertNode : (n : Node) →
    Ensures (fun _ => True) (fun _ => True) (Node.SameShape [n]) (convertNode n)
  | .text content => by
    rw [convertNode]
    exact ensures_bind (ensures_any _) fun out _ => ensures_pure (.text content out)
  | .raw source => by
    rw [convertNode]
    exact ensures_pure ⟨by simp, id, id, rfl, rfl⟩
  | .element tag children => by
    rw [convertNode]
    refine ensures_bind (ensures_mapM fun a _ => ensures_any _) fun converted hconverted => ?_
    refine ensures_bind (ensures_sameShape_convertNodes children) fun ns hns => ensures_pure ?_
    refine (Node.SameShape.element ?_ ?_ (fun hnil => ?_) hns).wrapConditions _
    · rfl
    · rfl
    · rw [hnil, List.forall₂_nil_left_iff] at hconverted
      show Converted.attributes converted = []
      rw [hconverted]
      rfl

/-- The conversion of nodes keeps their shape. -/
theorem ensures_sameShape_convertNodes : (ns : List Node) →
    Ensures (fun _ => True) (fun _ => True) (Node.SameShape ns) (convertNodes ns)
  | [] => by
    rw [convertNodes]
    exact ensures_pure ⟨id, id, id, rfl, rfl⟩
  | n :: ns => by
    rw [convertNodes]
    refine ensures_bind (ensures_sameShape_convertNode n) fun front hfront => ?_
    refine ensures_bind (ensures_sameShape_convertNodes ns) fun back hback => ?_
    exact ensures_pure (hfront.append hback)

end

end Convert

/-! ## How often the import occurs -/

namespace Text

variable {mark : Text}

/-- Where the front does not hold the mark, and a character that is not in the mark follows it, the
    mark can occur only behind that character. -/
theorem exists_of_occurs {front rest f : Text} {c : Char} (hfront : ¬mark <:+: front) (hc : c ∉ mark)
    (h : f ++ mark <+: front ++ c :: rest) : ∃ g, f = front ++ c :: g ∧ g ++ mark <+: rest := by
  -- The induction walks along the front, where no mark begins.
  induction front generalizing f with
  | nil =>
    cases f with
    | nil =>
      cases mark with
      | nil => exact absurd (List.nil_infix) hfront
      | cons m mark =>
        obtain ⟨rfl, -⟩ := List.cons_prefix_cons.1 h
        exact absurd List.mem_cons_self hc
    | cons x f =>
      obtain ⟨rfl, hf⟩ := List.cons_prefix_cons.1 h
      exact ⟨f, rfl, hf⟩
  | cons x front ih =>
    have hrest : ¬mark <:+: front := fun hmark =>
      hfront (hmark.trans (List.suffix_cons x front).isInfix)
    cases f with
    | nil =>
      -- A mark that begins in the front ends in it, or else reaches the character behind it.
      rcases prefix_append_cases (s := x :: front) h with hbegins | ⟨rest', hne, hbegins, hmark⟩
      · exact absurd hbegins.isInfix hfront
      · cases rest' with
        | nil => exact absurd rfl hne
        | cons y rest' =>
          obtain ⟨rfl, -⟩ := List.cons_prefix_cons.1 hbegins
          exact absurd (by rw [show mark = _ from hmark]; simp) hc
    | cons y f =>
      obtain ⟨rfl, hf⟩ := List.cons_prefix_cons.1 h
      obtain ⟨g, rfl, hg⟩ := ih hrest hf
      exact ⟨g, rfl, hg⟩

/-- Let a line be put into a text.  If the mark occurs neither in the text nor in the line behind
    its first two characters, and neither the first nor the last character of the line is in the
    mark, then the mark can occur only behind the first character of the line. -/
theorem eq_of_occurs {front line back f : Text} {c d e : Char} (hfront : ¬mark <:+: front)
    (hback : ¬mark <:+: back) (hline : ¬mark <:+: line) (hc : c ∉ mark) (he : e ∉ mark)
    (h : f ++ mark <+: front ++ c :: d :: (line ++ e :: back)) : f = front ++ [c] := by
  obtain ⟨g, rfl, hg⟩ := exists_of_occurs hfront hc h
  cases g with
  | nil => rfl
  | cons y g =>
    -- The mark would lie in the rest of the line or in the back, which the last character parts.
    have htail : g ++ mark <+: line ++ e :: back := (List.cons_prefix_cons.1 hg).2
    have hinfix : mark <:+: line ++ e :: back :=
      (List.suffix_append g mark).isInfix.trans htail.isInfix
    exact absurd ((infix_append_cons_iff he).1 hinfix) (not_or.2 ⟨hline, hback⟩)

end Text

/-- How an import begins. -/
def importMark : Text := "\x7b% import".toList

/-- What stands between the first and the last character of an import. -/
def importContent (library : Text) : Text :=
  "% import ".toList ++ '\x27' :: (library ++ '\x27' :: " as macros %".toList)

/-- `importMacros` between its braces. -/
theorem importMacros_text (library : Text) :
    (Twig.Statement.importMacros library).text =
      '\x7b' :: (importContent library ++ ['\x7d']) := by
  have htext : (Twig.Statement.importMacros library).text =
      "\x7b% ".toList ++ ("import '".toList ++ library ++ "' as macros".toList) ++
        " %\x7d".toList := rfl
  have hfront : "\x7b% ".toList ++ "import '".toList = '\x7b' :: "% import ".toList ++ ['\x27'] := by
    decide +kernel
  have hback : "' as macros".toList ++ " %\x7d".toList =
      '\x27' :: " as macros %".toList ++ ['\x7d'] := by decide +kernel
  calc (Twig.Statement.importMacros library).text
      = ("\x7b% ".toList ++ "import '".toList) ++ library ++
          ("' as macros".toList ++ " %\x7d".toList) := by
        rw [htext]
        simp only [List.append_assoc]
    _ = ('\x7b' :: "% import ".toList ++ ['\x27']) ++ library ++
          ('\x27' :: " as macros %".toList ++ ['\x7d']) := by rw [hfront, hback]
    _ = '\x7b' :: (importContent library ++ ['\x7d']) := by
        unfold importContent
        simp only [List.append_assoc, List.cons_append, List.nil_append]

theorem isPrefix_importMark (library : Text) :
    importMark <+: (Twig.Statement.importMacros library).text := by
  let rest := '\x27' :: (library ++ '\x27' :: " as macros %".toList) ++ ['\x7d']
  have hmark : '\x7b' :: "% import ".toList = importMark ++ [' '] := by decide +kernel
  have hsplit := congrArg (· ++ rest) hmark
  refine ⟨' ' :: rest, ?_⟩
  rw [importMacros_text]
  unfold importContent
  simpa only [rest, List.append_assoc, List.cons_append, List.nil_append] using hsplit.symm

theorem not_infix_importContent {library : Text} (h : ¬importMark <:+: library) :
    ¬importMark <:+: importContent library := by
  have hquote : '\x27' ∉ importMark := by decide +kernel
  have hfront : ¬importMark <:+: "% import ".toList := by decide +kernel
  have hback : ¬importMark <:+: " as macros %".toList := by decide +kernel
  intro hinfix
  rcases (Text.infix_append_cons_iff hquote).1 hinfix with hinfix | hinfix
  · exact hfront hinfix
  · exact absurd ((Text.infix_append_cons_iff hquote).1 hinfix) (not_or.2 ⟨h, hback⟩)

/-- An import that is put into a text without one occurs in it once. -/
theorem existsUnique_import {front back library : Text} (h : ¬importMark <:+: front ++ back)
    (hlibrary : ¬importMark <:+: library) :
    ∃! f, f ++ (Twig.Statement.importMacros library).text <+:
      front ++ importLine library ++ back := by
  have hline : front ++ importLine library ++ back =
      front ++ '\n' :: '\x7b' :: (importContent library ++ '\x7d' :: back) := by
    rw [importLine, importMacros_text]
    simp only [List.append_assoc, List.cons_append, List.nil_append]
  have hbreak : '\n' ∉ importMark := by decide +kernel
  have hbrace : '\x7d' ∉ importMark := by decide +kernel
  refine ⟨front ++ ['\n'], ⟨back, ?_⟩, fun f hf => ?_⟩
  · rw [importLine]
    simp only [List.append_assoc, List.cons_append, List.nil_append]
  · have hbegin : f ++ importMark <+: f ++ (Twig.Statement.importMacros library).text :=
      (List.prefix_append_right_inj f).2 (isPrefix_importMark library)
    refine Text.eq_of_occurs ?_ ?_ (not_infix_importContent hlibrary) hbreak hbrace
      (hline ▸ hbegin.trans hf)
    · exact fun hfront => h (hfront.trans (List.prefix_append front back).isInfix)
    · exact fun hback => h (hback.trans (List.suffix_append front back).isInfix)

/-! ## The output -/

theorem complete_eq_root (ctx : Context) (ns : List Node) :
    ctx.complete (Document.root ns) = Document.root (ctx.complete (Document.root ns)).children :=
  congrArg (Element.mk · (ctx.complete (Document.root ns)).children) (tag_complete ctx _)

theorem printTree_root_eq_ok_iff {ns : List Node} {out : Text} :
    printTree (Document.root ns) = .ok out ↔
      nodesPlaceholder? ns = none ∧ Node.sourceAll ns = out := by
  rw [printTree, checkPlaceholders_root]
  cases nodesPlaceholder? ns with
  | none => exact ⟨fun h => ⟨rfl, Except.ok.inj h⟩, fun h => congrArg Except.ok h.2⟩
  | some found => exact ⟨fun h => (by cases h), fun h => (by cases h.1)⟩

/-- A tree that is printed with the import is printed without it too.  The texts differ by that line,
    right behind its leads, or not at all. -/
theorem exists_printTree_complete {ctx : Context} {ns : List Node} {out : Text}
    (hshown : Node.ShownIn ns) (h : printTree (ctx.complete (Document.root ns)) = .ok out) :
    ∃ plain, printTree ({ ctx with callsMacros := false }.complete (Document.root ns)) = .ok plain ∧
      let front := Lead.textAll (ctx.finishLeads ns (importLeads ns))
      if ctx.callsMacros && ctx.showsImport ns then
        ∃ back, plain = front ++ back ∧
          out = front ++ (importLine ctx.options.macroLibrary ++ back)
      else out = plain := by
  cases hcalls : ctx.callsMacros with
  | false =>
    have hsame : { ctx with callsMacros := false } = ctx := by rw [← hcalls]
    rw [hsame]
    exact ⟨out, h, rfl⟩
  | true =>
    have hgains := gainsAt_complete hcalls (Document.root ns)
    have hplain : Node.ShownIn
        ({ ctx with callsMacros := false }.complete (Document.root ns)).children :=
      shownIn_complete rfl hshown
    rw [complete_eq_root, printTree_root_eq_ok_iff] at h
    obtain ⟨hnone, rfl⟩ := h
    refine ⟨_, by rw [complete_eq_root, printTree_root_eq_ok_iff]; exact
      ⟨hgains.nodesPlaceholder?_eq_none hnone, rfl⟩, ?_⟩
    -- The line is printed unless the element that holds it does not show its children.
    have hsource := hgains.exists_sourceAll hplain
    rw [owner?_finishLeads] at hsource
    exact hsource

/-- Putting in the import loses nothing that the finished tree mentions without it. -/
theorem mentionsIn_complete_of_no_import {ctx : Context} {root : Element} {t : Text}
    (h : Node.MentionsIn t ({ ctx with callsMacros := false }.complete root).children) :
    Node.MentionsIn t (ctx.complete root).children := by
  cases hcalls : ctx.callsMacros with
  | false =>
    have hsame : { ctx with callsMacros := false } = ctx := by rw [← hcalls]
    rwa [hsame] at h
  | true => exact (gainsAt_complete hcalls root).mentionsIn h

/-- What a tree mentions is mentioned by the finished tree, unless it stands in an attribute of the
    element that the block replaces. -/
theorem mentionsIn_complete {ctx : Context} {ns : List Node} {t : Text}
    (hbare : ctx.parent.isSome = true →
      Node.EveryIn (fun _ => True) (fun _ => True) Tag.BareWrapper ns)
    (h : Node.MentionsIn t ns) : Node.MentionsIn t (ctx.complete (Document.root ns)).children := by
  -- The block keeps what the tree mentions, and so does the import that is put in.
  refine mentionsIn_complete_of_no_import ?_
  unfold Context.complete
  dsimp only
  cases hparent : ctx.parent with
  | none => exact h
  | some parent =>
    have hblock {cs : List Node} (hcs : Node.MentionsIn t cs) :
        Node.MentionsIn t (inheritanceBlock parent cs) :=
      Node.mentionsIn_append_iff.2 (.inl (.inr hcs))
    show Node.MentionsIn t ((Node.replaceFirstIn? Tag.isWrapper
      (fun wrapper => inheritanceBlock parent wrapper.children) ns).getD
        (inheritanceBlock parent ns))
    cases hwrapper : Node.replaceFirstIn? Tag.isWrapper
        (fun wrapper => inheritanceBlock parent wrapper.children) ns with
    | none => exact hblock h
    | some ms =>
      refine h.replaced (hbare (by rw [hparent]; rfl)) ?_ (Node.replaced_of_eq _ hwrapper)
      intro tag children hkeeps hwraps hmentions
      rw [Node.Mentions, hkeeps hwraps] at hmentions
      rcases hmentions with ⟨a, ha, -⟩ | ⟨-, hin⟩
      · cases ha
      · exact hblock hin

/-! ## Documents -/

theorem Tables.Legible.opensTokens {tables : Tables} {content : Text}
    (h : tables.Legible [MacroToken.opening] [':'] [':'] content) : content.OpensTokens := by
  intro run hrun hopens
  have htraced := (h.of_mem_conversionPieces hrun).opening List.mem_cons_self
  exact MacroToken.exists_token_mem_scan htraced (Text.contains_iff_infix.1 hopens)

/-- The passes note no call. -/
theorem Prepare.callsMacros_prepare (options : Options) (kind : TemplateKind) (source : Text) :
    ((prepare source).run { options, kind }).2.options = options ∧
      ((prepare source).run { options, kind }).2.callsMacros = false := by
  have hpassed : CarriesAt (fun ctx => (ctx.options = options ∧ ctx.callsMacros = false) ∧
      ctx.tables.macroCalls.length ≤ source.length) source (prepare source) { options, kind } :=
    carries_prepare (fun _ _ _ h => h) (fun _ _ h => h) (fun _ _ _ _ _ h => h) (fun _ _ h => h)
      (fun _ _ h => h) ⟨rfl, rfl⟩ rfl
  exact hpassed.holds.1

namespace Document

/-- The conversion of a document, but with no import put in. -/
def convertWithoutImport (source : Text) : Convert Text := do
  let text ← prepare source
  match parse? text with
  | some root =>
    let root ← convertTree root
    modify ({ · with callsMacros := false })
    assemble root
  | none => throw .malformedMarkup

/-- `convertWithoutImport` prints the tree before the import. -/
theorem result_convertWithoutImport {source text : Text} {start base ctx : Context}
    {ns nodes : List Node} (hprepare : (prepare source).run start = (text, base))
    (hparse : parse? text = some (root ns))
    (hconvert : (convertNodes ns).run.run base = (.ok nodes, ctx))
    (hclosed : ctx.blocks.ensureClosed = .ok ()) :
    ((convertWithoutImport source).run.run start).1 =
      printTree ({ ctx with callsMacros := false }.complete (root nodes)) := by
  have htree : (convertTree (root ns)).run.run base = (.ok (root nodes), ctx) := by
    rw [convertTree_root, Convert.run_map, hconvert]
    rfl
  rw [convertWithoutImport, Convert.run_bind_ok (Convert.run_prepare hprepare), hparse]
  dsimp only
  rw [Convert.run_bind_ok htree, Convert.run_bind_ok (Convert.run_modify _ ctx), result_assemble]
  simp only [hclosed]

/-- In a document that spells no token itself, every token that a text opens stands for a call. -/
theorem everyIn_opensTokens_parse? {options : Options} {source : Text} {tree : Element}
    (hsource : ¬Attribute.tokenMark <:+: source)
    (hfree : Text.EverFree [MacroToken.opening] openChars closeChars source)
    (hparse : parse? ((prepare source).run { options, kind := .document }).1 = some tree) :
    Node.EveryIn Text.OpensTokens (fun _ => True) (fun _ => True) tree.children := by
  have hfamily : [MacroToken.opening] ⊆ Family.marks := by
    intro m hm
    rw [List.mem_singleton.1 hm, Family.marks]
    exact List.mem_cons_self
  have hpassed := Prepare.recorded_prepare (Text.apart_of_all (by decide)) hfree options .document
  have htraces := hpassed.traces (.of_not_occurs hsource)
  have hseam := hpassed.seamless _ hfamily hfree.seamless
  have htree := everyIn_parse? hfamily htraces hseam hparse
  exact Node.EveryIn.map₂ (fun _ h _ => h.opensTokens) (fun _ _ _ => trivial) (fun _ _ _ => trivial)
    _ htree htree

/-- A document that is converted imports the macros if its tree holds a call and the element that
    gets the import shows it.  Then the output is what it is without the import, with the import put
    in on a line of its own.  If no import is spelled otherwise, the import occurs once, or else not
    at all.

    Whether the tree holds a call is what the output tells too.  If it holds none, no recorded call
    is looked up.  If it holds one, the text of a recorded call is in the output, provided that the
    document spells no token itself and the wrapper has no attributes to lose. -/
theorem imports_macros {options : Options} {source out : Text}
    (hresult : (convertTemplate options (some .document) source).result = .ok out) :
    let prepared := (prepare source).run { options, kind := .document }
    let statement := (Twig.Statement.importMacros options.macroLibrary).text
    ∃ ns plain, parse? prepared.1 = some (root ns) ∧
      ((convertWithoutImport source).run.run { options, kind := .document }).1 = .ok plain ∧
      (if Node.callsAll ns && prepared.2.showsImport ns then
        (∃ front back, plain = front ++ back ∧ out = front ++ '\n' :: statement ++ back) ∧
          (¬importMark <:+: plain → ¬importMark <:+: options.macroLibrary →
            ∃! front, front ++ statement <+: out)
      else out = plain ∧ (¬importMark <:+: plain → ¬statement <:+: out)) ∧
      (Node.callsAll ns = false → ∀ calls,
        ((convertNodes ns).run.run { prepared.2 with
          tables := { prepared.2.tables with macroCalls := calls } }).1 =
            ((convertNodes ns).run.run prepared.2).1) ∧
      (Node.callsAll ns = true → ¬Attribute.tokenMark <:+: source →
        Text.EverFree [MacroToken.opening] openChars closeChars source →
        (prepared.2.parent.isSome = true →
          Node.EveryIn (fun _ => True) (fun _ => True) Tag.BareWrapper ns) →
        ∃ call ∈ prepared.2.tables.macroCalls, call <:+: out) := by
  intro prepared statement
  have hprepare : (prepare source).run { options, kind := .document } =
      (prepared.1, prepared.2) := rfl
  obtain ⟨ns, nodes, ctx, hparse, hconvert, hclosed, hprint⟩ := exists_of_result_ok hprepare hresult
  have hshown : Node.ShownIn ns := shownIn_parse? hparse
  have hshape : Node.SameShape ns nodes :=
    (Convert.ensures_sameShape_convertNodes ns prepared.2 trivial).2.1 nodes (by rw [hconvert])
  -- What the conversion notes, and what the tree tells about it.
  have hopens : ¬Attribute.tokenMark <:+: source ∧
      Text.EverFree [MacroToken.opening] openChars closeChars source →
        Node.EveryIn Text.OpensTokens (fun _ => True) (fun _ => True) ns :=
    fun hspells => everyIn_opensTokens_parse? hspells.1 hspells.2 hparse
  obtain ⟨hfixes, hflag, hcall⟩ :=
    Convert.putsCalls_convertNodes ns hshown hopens prepared.2 nodes ctx hconvert
  obtain ⟨hoptions, hstart⟩ := Prepare.callsMacros_prepare options .document source
  have hcalls : ctx.callsMacros = Node.callsAll ns := by rw [hflag, hstart, Bool.false_or]
  have hshows : ctx.showsImport nodes = prepared.2.showsImport ns := by
    rw [hshape.showsImport, Context.showsImport, Context.showsImport, hfixes.parent]
  have hlibrary : ctx.options.macroLibrary = options.macroLibrary := by rw [hfixes.options, hoptions]
  obtain ⟨plain, hplain, hout⟩ := exists_printTree_complete (hshape.shown hshown) hprint
  rw [hcalls, hshows, hlibrary] at hout
  refine ⟨ns, plain, hparse, ?_, ?_, fun hnone calls => ?_, fun hsome hmark hfree hbare => ?_⟩
  · rw [result_convertWithoutImport hprepare hparse hconvert hclosed, hplain]
  · split at hout
    · next himports =>
      rw [if_pos himports]
      obtain ⟨back, rfl, hout⟩ := hout
      rw [← List.append_assoc] at hout
      refine ⟨⟨_, back, rfl, hout⟩, fun hmark hlibrary => ?_⟩
      rw [hout]
      exact existsUnique_import hmark hlibrary
    · next himports =>
      rw [if_neg himports]
      -- An import in the output would begin with the mark, and the output is the plain one.
      refine ⟨hout, fun hmark hinfix => hmark ?_⟩
      rw [← hout]
      exact (isPrefix_importMark options.macroLibrary).isInfix.trans hinfix
  · have hignores : Convert.Ignores (Context.relabel id id fun t => { t with macroCalls := calls })
        (convertNodes ns) := by
      refine Convert.ignores_convertNodes (fun family hfamily t => ?_) ns fun hsome => ?_
      · cases family with
        | macroCall => exact absurd rfl hfamily
        | condition | className | checked | selected => rfl
      · rw [hnone] at hsome
        cases hsome
    exact (Prod.ext_iff.1 (hignores prepared.2)).1
  · obtain ⟨call, hmem, hmentions⟩ := hcall ⟨hmark, hfree⟩ hsome
    refine ⟨call, hmem, ?_⟩
    rw [complete_eq_root, printTree_root_eq_ok_iff] at hprint
    rw [← hprint.2]
    refine Node.infix_sourceAll_of_mentionsIn _ (mentionsIn_complete (fun hparent => ?_) hmentions)
    rw [hfixes.parent] at hparent
    exact hshape.bare (hbare hparent)

/-- Calls in a tag with a condition and in running text, in what a parent gets. -/
def inheriting : Text :=
  "::use base.latte::<p ::cond a:: $$x()>$$greet(user)</p>::end::".toList

/-- The element that gets the import gives its place to the block, and the block shows it. -/
theorem imports_macros_inheriting :
    let prepared := (prepare inheriting).run { options := {}, kind := .document }
    let statement := (Twig.Statement.importMacros ({} : Options).macroLibrary).text
    ∃ out, (convertTemplate {} (some .document) inheriting).result = .ok out ∧
      (∃! front, front ++ statement <+: out) ∧
      ∃ call ∈ prepared.2.tables.macroCalls, call <:+: out := by
  intro prepared statement
  cases hresult : (convertTemplate {} (some .document) inheriting).result with
  | error e =>
    have hok : (convertTemplate {} (some .document) inheriting).result.toOption.isSome = true := by
      decide +kernel
    rw [hresult] at hok
    cases hok
  | ok out =>
    obtain ⟨ns, plain, hparse, hplain, himports, -, hcall⟩ := imports_macros hresult
    have htree : (parse? prepared.1).all (fun tree =>
        (Node.callsAll tree.children && prepared.2.showsImport tree.children) &&
          decide (Node.EveryIn (fun _ => True) (fun _ => True) Tag.BareWrapper tree.children)) =
        true := by decide +kernel
    rw [show parse? prepared.1 = _ from hparse, Option.all_some, Bool.and_eq_true] at htree
    have hnone : ((convertWithoutImport inheriting).run.run
        { options := {}, kind := .document }).1.toOption.all
          (fun plain => decide (¬importMark <:+: plain)) = true := by decide +kernel
    rw [hplain] at hnone
    have hlibrary : ¬importMark <:+: ({} : Options).macroLibrary := by decide +kernel
    have hmark : ¬Attribute.tokenMark <:+: inheriting := by decide +kernel
    have hfree : Text.EverFree [MacroToken.opening] openChars closeChars inheriting :=
      Text.everFree_of_missing (by decide +kernel)
    have hseen : (Node.callsAll ns && ((prepare inheriting).run
        { options := {}, kind := .document }).2.showsImport ns) = true := htree.1
    rw [if_pos hseen] at himports
    exact ⟨out, rfl, himports.2 (of_decide_eq_true hnone) hlibrary,
      hcall (Bool.and_eq_true_iff.1 hseen).1 hmark hfree fun _ => of_decide_eq_true htree.2⟩

/-- A void element gets the import and does not show it, and so the document calls a macro that it
    does not import.  A directive can spell an import, and so a document without calls can have
    one. -/
theorem misses_import_in_void_element :
    let start : Context := { options := {}, kind := .document }
    let statement := (Twig.Statement.importMacros ({} : Options).macroLibrary).text
    let missing := "<br>$$a()".toList
    let spelled := "::% import 'macros.html' as macros %::".toList
    (¬Attribute.tokenMark <:+: missing ∧ ¬importMark <:+: missing ∧
      ∃ call ∈ ((prepare missing).run start).2.tables.macroCalls,
        (convertTemplate {} (some .document) missing).result = .ok ("<br>".toList ++ call) ∧
          ¬statement <:+: "<br>".toList ++ call) ∧
    (¬Attribute.tokenMark <:+: spelled ∧ ¬importMark <:+: spelled ∧
      ((prepare spelled).run start).2.tables.macroCalls = [] ∧
      ∃ front back, (convertTemplate {} (some .document) spelled).result =
        .ok (front ++ statement ++ back)) := by
  intro start statement missing spelled
  refine ⟨⟨by decide +kernel, by decide +kernel, ?_⟩, by decide +kernel, by decide +kernel,
    by decide +kernel, "\x7b".toList, "\x7d".toList, by decide +kernel⟩
  exact ⟨"\x7b\x7b macros.a() \x7d\x7d".toList, by decide +kernel, by decide +kernel,
    by decide +kernel⟩

end Document

end TemploTwig
