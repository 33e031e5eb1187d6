import TemploTwig.Proofs.Template.Leads

/-!
# Where the import is placed

The import of the macros is a text that is put into the finished tree: into the first body, or else
into the first element, or else in front of everything.  The markup then gains the text behind the
leads to that element, or stays as it is because the element does not write its children.  The block
for the parent is made afterwards, alike with the import and without it; only if the import stands
in the very element that the block replaces does it end up outside of every element.

Key results: `importTarget?`, `Context.showsImport`, `gainsAt_complete`, `owner?_finishLeads`.
-/

namespace TemploTwig

variable {ctx : Context}

/-! ## Where the import goes -/

/-- Is it the tag of a body? -/
def Tag.isBody (tag : Tag) : Bool := Text.sameIgnoringCase tag.name "body".toList

/-- Is it the tag of the element around what the parent gets? -/
def Tag.isWrapper (tag : Tag) : Bool := decide (tag.name = Inheritance.wrapperName)

/-- The tag of the element that gets the import: the first body, or else the first element that
    stands in no other. -/
def importTarget? (ns : List Node) : Option Tag :=
  ((Node.findIn? Tag.isBody ns).or (Node.firstElement? ns)).map Element.tag

/-- The import, on a line of its own. -/
def importLine (library : Text) : Text := '\n' :: (Twig.Statement.importMacros library).text

/-- Is an import seen in the output?  The element that gets it must write its children, or give its
    place to a block. -/
def Context.showsImport (ctx : Context) (ns : List Node) : Bool :=
  (importTarget? ns).all fun tag => tag.showsChildren || (ctx.parent.isSome && tag.isWrapper)

/-- The leads to the element that gets the import. -/
def importLeads (ns : List Node) : List Lead :=
  ((Node.leadsIn? Tag.isBody ns).or (Node.leadsIn? (fun _ => true) ns)).getD []

/-- `placeImport` puts its line behind `importLeads`. -/
theorem gainsAt_placeImport (library : Text) (root : Element) :
    Node.GainsAt (importLine library) (importLeads root.children) root.children
      (placeImport library root).children := by
  let insert := fun (e : Element) => [(e.prependChild (importNode library)).toNode]
  have hplace (test : Tag → Bool) {ls : List Lead}
      (hls : Node.leadsIn? test root.children = some ls) : ∃ ms,
      Node.replaceFirstIn? test insert root.children = some ms ∧
        Node.GainsAt (importLine library) ls root.children ms :=
    Node.gainsAt_replaceFirstIn? root.children hls
  have hbody : Node.replaceFirstIn? (fun tag => Text.sameIgnoringCase tag.name "body".toList)
      (fun body => [(body.prependChild (importNode library)).toNode]) root.children =
      Node.replaceFirstIn? Tag.isBody insert root.children := rfl
  unfold placeImport importLeads
  dsimp only
  rw [hbody, Node.modifyFirstElement?_eq_replaceFirstIn?]
  -- In a body, or else in the first element, or else in front of everything.
  cases hleads : Node.leadsIn? Tag.isBody root.children with
  | some ls =>
    obtain ⟨ms, hms, hgains⟩ := hplace Tag.isBody hleads
    rw [hms]
    exact hgains
  | none =>
    rw [(Node.replaceFirstIn?_eq_none_iff root.children).2 hleads, Option.none_or]
    cases hfirst : Node.leadsIn? (fun _ => true) root.children with
    | some ls =>
      obtain ⟨ms, hms, hgains⟩ := hplace (fun _ => true) hfirst
      rw [hms]
      exact hgains
    | none =>
      rw [(Node.replaceFirstIn?_eq_none_iff root.children).2 hfirst]
      exact .here root.children

/-- The leads to the import go into its target. -/
theorem owner?_importLeads (ns : List Node) : Lead.owner? (importLeads ns) = importTarget? ns := by
  obtain ⟨hnone, hsome⟩ := Node.findIn?_of_leadsIn? Tag.isBody ns
  unfold importLeads importTarget?
  cases hbody : Node.leadsIn? Tag.isBody ns with
  | some ls =>
    obtain ⟨e, he, -, howner⟩ := hsome ls hbody
    rw [he]
    exact howner
  | none =>
    obtain ⟨hnone', hsome'⟩ := Node.findIn?_of_leadsIn? (fun _ => true) ns
    rw [hnone hbody, Option.none_or, Option.none_or, Node.firstElement?_eq_findIn?]
    cases hfirst : Node.leadsIn? (fun _ => true) ns with
    | some ls =>
      obtain ⟨e, he, -, howner⟩ := hsome' ls hfirst
      rw [he]
      exact howner
    | none =>
      rw [hnone' hfirst]
      rfl

/-! ## The finished tree -/

/-- The leads in the finished tree: the statements for the parent take the place of the wrapper's
    start tag, or stand in front of everything. -/
def Context.finishLeads (ctx : Context) (ns : List Node) (ls : List Lead) : List Lead :=
  match ctx.parent with
  | none => ls
  | some parent =>
    let header := .text (inheritanceHeader parent)
    if (Node.leadsIn? Tag.isWrapper ns).isSome then
      (Node.replaceLeads? Tag.isWrapper (fun wrapper => inheritanceBlock parent wrapper.children)
        [header] ls).getD ls
    else .node header :: ls

/-- The finished tree is the one without the import, with the import put in behind its leads. -/
theorem gainsAt_complete (hcalls : ctx.callsMacros = true) (root : Element) :
    Node.GainsAt (importLine ctx.options.macroLibrary)
      (ctx.finishLeads root.children (importLeads root.children))
      ({ ctx with callsMacros := false }.complete root).children (ctx.complete root).children := by
  have himport : insertImport ctx root = placeImport ctx.options.macroLibrary root := by
    rw [insertImport, if_pos hcalls]
  have hplace := gainsAt_placeImport ctx.options.macroLibrary root
  unfold Context.complete Context.finishLeads
  rw [himport]
  cases ctx.parent with
  | none => exact hplace
  | some parent =>
    let block := fun (wrapper : Element) => inheritanceBlock parent wrapper.children
    show Node.GainsAt _ _ ((Node.replaceFirstIn? Tag.isWrapper block root.children).getD
        (inheritanceBlock parent root.children))
      ((Node.replaceFirstIn? Tag.isWrapper block
        (placeImport ctx.options.macroLibrary root).children).getD
          (inheritanceBlock parent (placeImport ctx.options.macroLibrary root).children))
    -- Without the wrapper the whole document becomes the block.
    cases hwrapper : Node.replaceFirstIn? Tag.isWrapper block root.children with
    | none =>
      obtain ⟨-, hnone⟩ := hplace.replaceLeads?_eq_none [] hwrapper
      rw [(Node.replaceFirstIn?_eq_none_iff root.children).1 hwrapper, hnone]
      exact (hplace.later (.text (inheritanceHeader parent))).append_right
        [.text Twig.Statement.endBlock.text]
    | some children =>
      have hsome : (Node.leadsIn? Tag.isWrapper root.children).isSome = true := by
        rw [Option.isSome_iff_ne_none]
        intro hnone
        rw [(Node.replaceFirstIn?_eq_none_iff root.children).2 hnone] at hwrapper
        cases hwrapper
      have hblock (e : Element) : block e = [.text (inheritanceHeader parent)] ++
          (e.children ++ [.text Twig.Statement.endBlock.text]) := rfl
      obtain ⟨ms, hms, hgains⟩ := hplace.exists_replaceFirstIn? hblock hwrapper
      rw [hms]
      simp only [hsome, if_true]
      exact hgains

theorem Tag.isBody_of_isWrapper {tag : Tag} (h : tag.isWrapper = true) : tag.isBody = false := by
  rw [Tag.isBody, of_decide_eq_true h]
  decide

/-- A target that is the wrapper is the first element. -/
theorem importLeads_of_isWrapper {ns : List Node} {tag : Tag} (htag : importTarget? ns = some tag)
    (hwraps : tag.isWrapper = true) : Node.leadsIn? (fun _ => true) ns = some (importLeads ns) := by
  have howner := (owner?_importLeads ns).trans htag
  unfold importLeads at howner ⊢
  cases hbody : Node.leadsIn? Tag.isBody ns with
  | some ls =>
    obtain ⟨e, -, htest, he⟩ := (Node.findIn?_of_leadsIn? _ ns).2 ls hbody
    rw [hbody] at howner
    rw [Option.some.inj (he.symm.trans howner), Tag.isBody_of_isWrapper hwraps] at htest
    cases htest
  | none =>
    rw [hbody] at howner
    cases hfirst : Node.leadsIn? (fun _ => true) ns with
    | some ls => rfl
    | none =>
      rw [hfirst] at howner
      cases howner

/-- The owner of the import in the finished tree writes its children if `showsImport` holds. -/
theorem owner?_finishLeads (ctx : Context) (root : Element) :
    (Lead.owner? (ctx.finishLeads root.children (importLeads root.children))).all
      Tag.showsChildren = ctx.showsImport root.children := by
  have howner := owner?_importLeads root.children
  unfold Context.finishLeads Context.showsImport
  cases ctx.parent with
  | none => simp [howner]
  | some parent =>
    have hsame (h : ∀ tag ∈ importTarget? root.children, tag.isWrapper = false) :
        (importTarget? root.children).all Tag.showsChildren =
          (importTarget? root.children).all fun tag =>
            tag.showsChildren || ((some parent).isSome && tag.isWrapper) := by
      cases htarget : importTarget? root.children with
      | none => rfl
      | some tag => simp [h tag htarget]
    dsimp only
    split
    · by_cases hother : ∀ tag ∈ importTarget? root.children, tag.isWrapper = false
      · rw [Node.owner?_replaceLeads? (howner ▸ hother), howner, hsame hother]
      · -- The target is the wrapper, so the import stands in no element any more.
        push Not at hother
        obtain ⟨tag, htag, hwraps⟩ := hother
        have hwraps : tag.isWrapper = true := by simpa using hwraps
        rw [Node.owner?_replaceLeads?_first (importLeads_of_isWrapper htag hwraps), htag]
        · simp [hwraps]
        · intro tag' htag'
          rw [howner, htag] at htag'
          rwa [← Option.some.inj htag']
    · next hnone =>
      -- Without a wrapper the target is none either.
      have hnone : Node.replaceFirstIn? Tag.isWrapper (fun _ => []) root.children = none :=
        (Node.replaceFirstIn?_eq_none_iff root.children).2 (by simpa using hnone)
      have hother := (gainsAt_placeImport [] root).test_owner? hnone
      rw [howner] at hother
      rw [Lead.owner?, howner, hsame hother]

/-- A block shows what its content shows. -/
theorem Inheritance.shownIn_block {ns : List Node} (parent : Text) (h : Node.ShownIn ns) :
    Node.ShownIn (inheritanceBlock parent ns) :=
  Node.shownIn_append_iff.2 ⟨⟨trivial, h⟩, trivial, trivial⟩

/-- `complete` keeps `ShownIn`. -/
theorem shownIn_complete (hcalls : ctx.callsMacros = false) {root : Element}
    (hshown : Node.ShownIn root.children) : Node.ShownIn (ctx.complete root).children := by
  have himport : insertImport ctx root = root := by
    rw [insertImport, hcalls]
    rfl
  unfold Context.complete
  rw [himport]
  cases ctx.parent with
  | none => exact hshown
  | some parent =>
    unfold inheritedTree
    dsimp only
    cases hwrapper : Node.replaceFirstIn? (fun tag => decide (tag.name = Inheritance.wrapperName))
        (fun wrapper => inheritanceBlock parent wrapper.children) root.children with
    | none => exact Inheritance.shownIn_block parent hshown
    | some children =>
      exact hshown.replaced (fun h => Inheritance.shownIn_block parent h)
        (Node.replaced_of_eq _ hwrapper)

end TemploTwig
