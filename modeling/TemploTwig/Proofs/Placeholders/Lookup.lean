import TemploTwig.Proofs.Markup.Placement
import TemploTwig.Proofs.Placeholders.Recorded
import TemploTwig.Proofs.Template.Assembled

/-!
# Looking up the placeholders of a tree

The conversion of a tree looks up the placeholders in its attributes in document order, and fails at
the first that has no entry.  What it puts in their place, and what it makes of other attributes, is
no placeholder again, so the check at the end finds nothing in the attributes of a converted tree.
-/

namespace TemploTwig

/-! ## Holders -/

theorem Family.eq_of_holder_eq {f g : Family} (h : f.holder = g.holder) : f = g := by
  revert h
  cases f <;> cases g <;> decide

/-- An attribute holds a placeholder of one family at most. -/
theorem Attribute.placeholder?_eq_some_iff {a : Attribute} {f : Family} {i : Nat} :
    a.placeholder? = some (f, i) ↔ a.index? f = some i := by
  refine ⟨index?_of_placeholder?, fun hindex => ?_⟩
  cases hfound : a.placeholder? with
  | none =>
    rw [placeholder?_eq_none_iff.1 hfound f] at hindex
    cases hindex
  | some p =>
    obtain ⟨g, j⟩ := p
    -- Both families have the name of the attribute for their holder.
    obtain rfl : g = f := Family.eq_of_holder_eq
      ((name_of_placeholder? hfound).symm.trans (name_of_index? hindex))
    rw [Option.some.inj ((index?_of_placeholder? hfound).symm.trans hindex)]

/-- The families may be searched in any order. -/
theorem Attribute.findSome?_index? (a : Attribute) {families : List Family}
    (hall : ∀ f, f ∈ families) :
    families.findSome? (fun f => (a.index? f).map fun i => (f, i)) = a.placeholder? := by
  cases hfound : families.findSome? (fun f => (a.index? f).map fun i => (f, i)) with
  | none =>
    rw [List.findSome?_eq_none_iff] at hfound
    exact (placeholder?_eq_none_iff.2 fun f => Option.map_eq_none_iff.1 (hfound f (hall f))).symm
  | some p =>
    obtain ⟨f, -, hp⟩ := List.exists_of_findSome?_eq_some hfound
    obtain ⟨i, hindex, rfl⟩ := Option.map_eq_some_iff.1 hp
    exact (placeholder?_eq_some_iff.2 hindex).symm

/-- The placeholders that the attributes of a tag hold. -/
def Tag.placeholders (tag : Tag) : List (Family × Nat) :=
  tag.attributes.filterMap Attribute.placeholder?

namespace Node

mutual

/-- The placeholders that the attributes of a node hold, in document order. -/
def placeholders : Node → List (Family × Nat)
  | .element tag children => tag.placeholders ++ placeholdersAll children
  | .text _ => []
  | .raw _ => []

/-- The placeholders that the attributes of nodes hold, in document order. -/
def placeholdersAll : List Node → List (Family × Nat)
  | [] => []
  | n :: ns => n.placeholders ++ placeholdersAll ns

end

end Node

/-! ## Recorded values -/

/-- The values recorded for attributes begin as a printed expression does. -/
def Tables.PrintsValues (tables : Tables) : Prop :=
  ∀ f, f ≠ .macroCall → f ≠ .condition → ∀ entry ∈ tables.entries f, Twig.OpensPrint entry

/-- `record` keeps `PrintsValues` for an entry that prints. -/
theorem Tables.PrintsValues.record {tables : Tables} {family : Family} {entry : Text}
    (h : tables.PrintsValues)
    (hvalue : family ≠ .macroCall → family ≠ .condition → Twig.OpensPrint entry) :
    (tables.record family entry).PrintsValues := by
  intro f hcall hcondition x hx
  rcases Tables.mem_entries_record hx with hx | ⟨rfl, rfl⟩
  · exact h f hcall hcondition x hx
  · exact hvalue hcall hcondition

/-- `prepare` records values that print. -/
theorem Prepare.printsValues_prepare (options : Options) (kind : TemplateKind) (source : Text) :
    ((prepare source).run { options, kind }).2.tables.PrintsValues := by
  have hcarries : CarriesAt (fun ctx => ctx.tables.PrintsValues ∧
      ctx.tables.macroCalls.length ≤ source.length) source (prepare source) { options, kind } := by
    refine carries_prepare ?_ ?_ ?_ (fun _ _ h => h) (fun _ _ h => h) ?_ rfl
    · intro call _ ctx h
      exact h.record fun hfamily => absurd rfl hfamily
    · intro ctx entry h
      exact h.record fun _ hfamily => absurd rfl hfamily
    · intro ctx family entry _ hopens h
      exact h.record fun _ _ => hopens
    · intro f _ _ entry hentry
      cases f <;> cases hentry
  exact hcarries.holds.1

/-! ## What is left in the attributes -/

namespace Convert

variable {tables : Tables} {inv : Context → Prop}

/-- `fillPiece` changes no context. -/
theorem ensures_fillPiece_any (p : Piece Text) :
    Ensures inv (fun _ => True) (fun _ => True) (fillPiece p) := by
  cases p with
  | plain u => exact ensures_pure trivial
  | token digits =>
    rw [fillPiece, resolveMacroToken]
    split
    · exact ensures_resolve (fun _ _ _ _ => trivial) fun _ _ _ => trivial
    · exact ensures_throw trivial

/-- `convertText` keeps what `Context.markCall` and `renderDirective` keep. -/
theorem ensures_convertText_any (hcall : ∀ ctx, inv ctx → inv ctx.markCall)
    (hdirective : ∀ span ctx, inv ctx → inv ((renderDirective span).run.run ctx).2)
    (content : Text) : Ensures inv (fun _ => True) (Text.Free []) (convertText content) := by
  have hpiece (p : Piece Text) : Ensures inv (fun _ => True) (fun _ => True) (convertPiece p) := by
    cases p with
    | token span =>
      exact fun ctx hctx => ⟨hdirective span ctx hctx, fun _ _ => trivial, fun _ _ => trivial⟩
    | plain t =>
      rw [convertPiece]
      cases hopens : t.contains MacroToken.opening with
      | true =>
        rw [fillMacroTokens_of_opening hopens]
        refine ensures_bind (ensures_mapM fun p _ => ensures_fillPiece_any p) fun parts _ => ?_
        exact ensures_bind (ensures_modify hcall) fun _ _ => ensures_pure trivial
      | false =>
        rw [fillMacroTokens_of_no_opening hopens]
        exact ensures_pure trivial
  rw [convertText_eq_mapM]
  refine ensures_bind (ensures_mapM fun p _ => hpiece p) fun outs _ => ?_
  exact ensures_pure fun m hm => by cases hm

/-- A converted tree has no attribute that holds a placeholder. -/
theorem ensures_convertTree_resolved (hvalues : tables.PrintsValues) (root : Element) :
    Ensures (fun ctx => ctx.tables = tables) (fun _ => True)
      (fun root' => root'.tag = root.tag ∧
        Node.EveryIn (Text.Free []) (fun _ => True) Tag.Resolved root'.children)
      (convertTree root) := by
  have htag (t : Tag) (_ : True) : EnsuresTag [] (fun ctx => ctx.tables = tables) (fun _ => True)
      Tag.Resolved t := by
    refine ensuresTag_of_attributes fun a _ => ensures_convertAttribute (fun _ h => h)
      (fun _ _ _ _ _ => .inr trivial) ?_ Attribute.placeholder?_printSpans
    rintro f i - ctx rfl entry hentry
    cases f with
    | condition => exact fun m hm => by cases hm
    | macroCall => exact Attribute.placeholder?_bare entry
    | className | checked | selected =>
      refine Attribute.placeholder?_unquoted (hvalues _ ?_ ?_ entry hentry).head? <;> simp
  exact ensures_convertTree (Text.apart_of_all rfl)
    (fun content _ => ensures_convertText_any (fun _ h => h)
      (fun span ctx h => (tables_renderDirective span ctx).trans h) content) htag
    (Node.everyIn_of_forall (fun _ => trivial) (fun _ => trivial) (fun _ => trivial) _)

end Convert

/-! ## Looking up one placeholder after the other -/

/-- The family has no entry with the index. -/
def Tables.lacks (tables : Tables) (p : Family × Nat) : Bool :=
  decide ((tables.entries p.1).length ≤ p.2)

/-- Placeholders are accepted as long as each has an entry.  The tables do not change. -/
def Tables.lookup (tables : Tables) : Criterion (Family × Nat) where
  Accepts ps ctx := ctx.tables = tables ∧ ps.find? tables.lacks = none
  Refuses ps e := ∃ f i, ps.find? tables.lacks = some (f, i) ∧ e = .unresolvedPlaceholder f i
  refuses_append qs := fun ⟨f, i, hfind, he⟩ =>
    ⟨f, i, by rw [List.find?_append, hfind, Option.some_or], he⟩

namespace Convert

variable {tables : Tables}

/-- `resolve` looks its placeholder up. -/
theorem judges_resolve_lookup (family : Family) (index : Nat) :
    tables.lookup.Judges [(family, index)] (resolve family index) := by
  rintro before ctx ⟨rfl, hbefore⟩
  -- Those before it have entries, so it is this one that counts.
  have hfind : (before ++ [(family, index)]).find? ctx.tables.lacks =
      [(family, index)].find? ctx.tables.lacks := by
    rw [List.find?_append, hbefore, Option.none_or]
  cases hentry : (ctx.tables.entries family)[index]? with
  | some entry =>
    refine .inl ⟨entry, ctx, run_resolve hentry, rfl, hfind.trans ?_⟩
    have hlt := (List.getElem?_eq_some_iff.1 hentry).1
    simp [Tables.lacks, hlt]
  | none =>
    refine .inr ⟨_, ctx, run_resolve_of_none hentry, family, index, hfind.trans ?_, rfl⟩
    have hle := List.getElem?_eq_none_iff.1 hentry
    simp [Tables.lacks, hle]

/-- `convertAttribute` looks the placeholder of an attribute up. -/
theorem judges_convertAttribute_lookup (a : Attribute) :
    tables.lookup.Judges a.placeholder?.toList (convertAttribute a) := by
  unfold convertAttribute
  split
  · next i hfound =>
    rw [hfound]
    exact (judges_resolve_lookup .condition i).map _
  · next i hfound =>
    rw [hfound]
    have hmark : tables.lookup.Judges [] (modify (·.markCall) : Convert Unit) :=
      Criterion.judges_nil_of_run fun _ ctx hctx => ⟨(), ctx.markCall, rfl, hctx⟩
    exact (judges_resolve_lookup .macroCall i).bind fun call =>
      hmark.map fun _ => Converted.kept ⟨call, .bare⟩
  · next f i _ _ hfound =>
    rw [hfound]
    exact (judges_resolve_lookup f i).map _
  · next hfound =>
    rw [hfound]
    exact Criterion.judges_pure _

mutual

/-- `convertNode` looks the placeholders of a node up, in order. -/
theorem judges_convertNode_lookup : (n : Node) →
    (∀ content ∈ n.texts, ¬Span.delimiter <:+: content ∧ ¬MacroToken.opening <:+: content) →
      tables.lookup.Judges n.placeholders (convertNode n)
  | .text content, h => by
    obtain ⟨hdelimiter, hopening⟩ := h content List.mem_cons_self
    rw [convertNode, Node.placeholders,
      convertText_of_no_delimiter hdelimiter (Text.contains_eq_false_iff.2 hopening), pure_bind]
    exact Criterion.judges_pure _
  | .raw source, _ => by
    rw [convertNode, Node.placeholders]
    exact Criterion.judges_pure _
  | .element tag children, h => by
    rw [convertNode, Node.placeholders, Tag.placeholders, List.filterMap_eq_flatMap_toList]
    refine (Criterion.judges_mapM fun a _ => judges_convertAttribute_lookup a).bind
      fun converted => ?_
    exact (judges_convertNodes_lookup children h).map fun ns => wrapConditions _ _

/-- Where no text has a directive or an inline token, nodes go on or fail as their placeholders are
    looked up. -/
theorem judges_convertNodes_lookup : (ns : List Node) →
    (∀ content ∈ Node.textsAll ns,
      ¬Span.delimiter <:+: content ∧ ¬MacroToken.opening <:+: content) →
      tables.lookup.Judges (Node.placeholdersAll ns) (convertNodes ns)
  | [], _ => by
    rw [convertNodes, Node.placeholdersAll]
    exact Criterion.judges_pure _
  | n :: ns, h => by
    rw [Node.textsAll, List.forall_mem_append] at h
    rw [convertNodes, Node.placeholdersAll]
    refine (judges_convertNode_lookup n h.1).bind fun front => ?_
    exact (judges_convertNodes_lookup ns h.2).map (front ++ ·)

end

end Convert

/-! ## The verdict -/

section Verdict

variable {root : Element} {ctx : Context}

/-- No attribute of a converted tree holds a placeholder. -/
theorem every_resolved_of_run (hroot : root.tag.attributes = [])
    (hvalues : ctx.tables.PrintsValues) {root' : Element} {ctx' : Context}
    (hrun : (convertTree root).run.run ctx = (.ok root', ctx')) :
    Node.Every (Text.Free []) (fun _ => True) Tag.Resolved root'.toNode := by
  have hresult := (Convert.ensures_convertTree_resolved hvalues root ctx rfl).2.1 root'
  rw [hrun] at hresult
  obtain ⟨htag, hchildren⟩ := hresult rfl
  refine Node.every_element_iff.2 ⟨fun a ha => ?_, hchildren⟩
  rw [htag, hroot] at ha
  cases ha

/-- Completing a tree puts no placeholder into an attribute. -/
theorem every_resolved_complete (h : Node.Every (Text.Free []) (fun _ => True) Tag.Resolved
    root.toNode) :
    Node.Every (Text.Free []) (fun _ => True) Tag.Resolved (ctx.complete root).toNode := by
  have hnone (t : Text) : Text.Free [] t := fun _ hm => by cases hm
  obtain ⟨htag, hchildren⟩ := Node.every_element_iff.1 h
  rw [← tag_complete ctx root] at htag
  exact Node.every_element_iff.2
    ⟨htag, everyIn_complete (Text.apart_of_all rfl) (hnone _) (fun _ _ => hnone _) hchildren⟩

/-- Where no text has a directive or an inline token, the conversion fails at the first placeholder
    without an entry, or not at all. -/
theorem result_convertTree_eq_error_iff (hroot : root.tag.attributes = [])
    (htexts : ∀ content ∈ root.toNode.texts,
      ¬Span.delimiter <:+: content ∧ ¬MacroToken.opening <:+: content) {e : ConvertError} :
    ((convertTree root).run.run ctx).1 = .error e ↔
      ∃ f i, root.toNode.placeholders.find? ctx.tables.lacks = some (f, i) ∧
        e = .unresolvedPlaceholder f i := by
  have hplaceholders : root.toNode.placeholders = Node.placeholdersAll root.children := by
    rw [Element.toNode, Node.placeholders, Tag.placeholders, hroot]
    rfl
  rw [hplaceholders, convertTree]
  -- The root itself holds nothing, so its children decide.
  rcases Convert.judges_convertNodes_lookup root.children htexts [] ctx ⟨rfl, rfl⟩ with
    ⟨ns, ctx', hrun, -, hnone⟩ | ⟨_, ctx', hrun, f, i, hfirst, rfl⟩
  · rw [List.nil_append] at hnone
    rw [Convert.run_bind_ok hrun, hnone]
    constructor
    · intro he
      cases he
    · rintro ⟨f, i, hfirst, -⟩
      cases hfirst
  · rw [List.nil_append] at hfirst
    rw [Convert.run_bind_error hrun, hfirst]
    constructor
    · intro he
      exact ⟨f, i, rfl, (Except.error.inj he).symm⟩
    · rintro ⟨g, j, heq, rfl⟩
      obtain ⟨rfl, rfl⟩ := Prod.mk.inj (Option.some.inj heq)
      rfl

end Verdict

/-- Let a root have no attributes, and let recorded values begin as a printed expression does, which
    they do behind the passes.  If the tree is converted, no attribute of the new one holds a
    placeholder, in whatever order the families are searched.  The check then fails on the first
    inline token of the texts or not at all, before and after the tree is completed.

    If no text has a directive or an inline token, the conversion fails exactly if an attribute
    holds a placeholder without an entry, and the error names the first of them. -/
theorem convertTree_resolves_holders {root : Element} {ctx : Context}
    (hroot : root.tag.attributes = []) (hvalues : ctx.tables.PrintsValues) :
    (∀ root' ctx', (convertTree root).run.run ctx = (.ok root', ctx') →
      Node.Every (fun _ => True) (fun _ => True) Tag.Resolved root'.toNode ∧
      ∀ r, r = root' ∨ r = ctx'.complete root' → ∀ e, checkPlaceholders r = .error e ↔
        ∃ i, r.toNode.texts.findSome? textPlaceholder? = some (.macroCall, i) ∧
          e = .unresolvedPlaceholder .macroCall i) ∧
    ((∀ content ∈ root.toNode.texts,
        ¬Span.delimiter <:+: content ∧ ¬MacroToken.opening <:+: content) →
      ∀ e, ((convertTree root).run.run ctx).1 = .error e ↔
        ∃ f i, root.toNode.placeholders.find? ctx.tables.lacks = some (f, i) ∧
          e = .unresolvedPlaceholder f i) ∧
    (∀ (a : Attribute) (families : List Family), (∀ f, f ∈ families) →
      families.findSome? (fun f => (a.index? f).map fun i => (f, i)) = a.placeholder?) ∧
    ∀ options kind source, ((prepare source).run { options, kind }).2.tables.PrintsValues := by
  refine ⟨fun root' ctx' hrun => ?_, fun htexts e => result_convertTree_eq_error_iff hroot htexts,
    fun a _ => a.findSome?_index?, Prepare.printsValues_prepare⟩
  have hevery := every_resolved_of_run hroot hvalues hrun
  refine ⟨Node.Every.map₂ (fun _ _ _ => trivial) (fun _ _ h => h) (fun _ _ h => h) _ hevery hevery,
    ?_⟩
  rintro r (rfl | rfl) e
  · exact checkPlaceholders_eq_error_iff hevery
  · exact checkPlaceholders_eq_error_iff (every_resolved_complete hevery)

/-- Holders of four families at two depths. -/
def Document.holding : Element := Document.root [
  .element ⟨"p".toList, [Family.className.holderAttribute 0], .normal⟩ [
    .text "x".toList,
    .element ⟨"i".toList, [Family.condition.holderAttribute 0, Family.checked.holderAttribute 1],
      .normal⟩ []],
  .element ⟨"b".toList, [Family.macroCall.holderAttribute 0], .normal⟩ []]

/-- A context with one condition, one value for `class` and one for `checked`, and more entries. -/
def Context.holding (checked calls : List Text) : Context where
  options := {}
  kind := .document
  tables :=
    { conditions := ["a".toList], classNames := ["\x7b\x7b b \x7d\x7d".toList],
      checked := "\x7b\x7b c \x7d\x7d".toList :: checked, macroCalls := calls }

/-- Two entries are missing, and the error names the one that is needed first; with both of them,
    the tree is converted. -/
theorem convertTree_resolves_holders_first :
    let short := Context.holding [] []
    let full := Context.holding ["\x7b\x7b d \x7d\x7d".toList] ["e".toList]
    (Document.holding.tag.attributes = [] ∧ short.tables.PrintsValues ∧ full.tables.PrintsValues ∧
      ∀ content ∈ Document.holding.toNode.texts,
        ¬Span.delimiter <:+: content ∧ ¬MacroToken.opening <:+: content) ∧
    ((convertTree Document.holding).run.run short).1 =
      .error (.unresolvedPlaceholder .checked 1) ∧
    ∃ root ctx, (convertTree Document.holding).run.run full = (.ok root, ctx) ∧
      Node.Every (fun _ => True) (fun _ => True) Tag.Resolved root.toNode := by
  intro short full
  have hvalues {checked calls : List Text} (hopens : ∀ entry ∈ checked, Twig.OpensPrint entry) :
      (Context.holding checked calls).tables.PrintsValues := by
    intro f hcall hcondition entry hentry
    cases f with
    | macroCall => exact absurd rfl hcall
    | condition => exact absurd rfl hcondition
    | className =>
      rw [List.mem_singleton.1 hentry]
      exact List.isPrefixOf_iff_prefix.1 rfl
    | checked =>
      rcases List.mem_cons.1 hentry with rfl | hentry
      · exact List.isPrefixOf_iff_prefix.1 rfl
      · exact hopens entry hentry
    | selected => cases hentry
  have hshort : short.tables.PrintsValues := hvalues fun _ h => by cases h
  have hfull : full.tables.PrintsValues := hvalues fun entry h => by
    rw [List.mem_singleton.1 h]
    exact List.isPrefixOf_iff_prefix.1 rfl
  have htexts : ∀ content ∈ Document.holding.toNode.texts,
      ¬Span.delimiter <:+: content ∧ ¬MacroToken.opening <:+: content := by decide +kernel
  obtain ⟨-, hfails, -⟩ := convertTree_resolves_holders (rfl : Document.holding.tag.attributes = [])
    hshort
  obtain ⟨hresolved, hgoes, -⟩ :=
    convertTree_resolves_holders (rfl : Document.holding.tag.attributes = []) hfull
  have hfirst : Document.holding.toNode.placeholders.find? short.tables.lacks =
      some (.checked, 1) := by decide +kernel
  have hnone : Document.holding.toNode.placeholders.find? full.tables.lacks = none := by
    decide +kernel
  refine ⟨⟨rfl, hshort, hfull, htexts⟩, (hfails htexts _).2 ⟨_, _, hfirst, rfl⟩, ?_⟩
  rcases hrun : (convertTree Document.holding).run.run full with ⟨e | root, ctx⟩
  · obtain ⟨f, i, hsome, -⟩ := (hgoes htexts e).1 (by rw [hrun])
    rw [hnone] at hsome
    cases hsome
  · exact ⟨root, ctx, rfl, (hresolved root ctx hrun).1⟩

end TemploTwig
