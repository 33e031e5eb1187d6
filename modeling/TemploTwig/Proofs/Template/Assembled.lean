import TemploTwig.Proofs.Placeholders.Resolution

/-!
# What assembling gives

The state that a converted tree leaves behind decides how it is printed: the blocks must be closed,
a macro that is called is imported, and what a parent gets becomes a block.  Here this is one
function of the state and the tree, so proofs about the output need not run the last steps.
-/

namespace TemploTwig

/-- The tree with the block for the parent, in the place of the wrapper or around everything. -/
def inheritedTree (parent : Text) (root : Element) : Element :=
  let isWrapper := fun (tag : Tag) => decide (tag.name = Inheritance.wrapperName)
  { root with
    children := (Node.replaceFirstIn? isWrapper
      (fun wrapper => inheritanceBlock parent wrapper.children) root.children).getD
        (inheritanceBlock parent root.children) }

/-- `completeInheritance` gives `inheritedTree`. -/
theorem exists_run_completeInheritance (parent : Text) (root : Element) (ctx : Context) :
    ∃ ctx', (completeInheritance parent root).run.run ctx =
      (.ok (inheritedTree parent root), ctx') := by
  unfold completeInheritance inheritedTree
  dsimp only
  cases Node.replaceFirstIn? (fun tag => decide (tag.name = Inheritance.wrapperName))
      (fun wrapper => inheritanceBlock parent wrapper.children) root.children with
  | none => exact ⟨_, Convert.run_bind_ok (Convert.run_modify _ ctx) _⟩
  | some children => exact ⟨ctx, rfl⟩

/-- The tree that is printed: with the import of the macros and the block for the parent. -/
def Context.complete (ctx : Context) (root : Element) : Element :=
  match ctx.parent with
  | some parent => inheritedTree parent (insertImport ctx root)
  | none => insertImport ctx root

/-- The root keeps its tag. -/
theorem tag_complete (ctx : Context) (root : Element) : (ctx.complete root).tag = root.tag := by
  have himport : (insertImport ctx root).tag = root.tag := by
    unfold insertImport
    split
    · exact Convert.placeImport_tag _ _
    · rfl
  unfold Context.complete
  split
  · exact himport
  · exact himport

/-- The import and the block bring in no mark. -/
theorem everyIn_complete {marks : List Text} {raw : Text → Prop} {tag : Tag → Prop}
    (hmarks : Text.Apart marks) {ctx : Context}
    (hlibrary : Text.Free marks ctx.options.macroLibrary)
    (hparent : ∀ parent, ctx.parent = some parent → Text.Free marks parent) {root : Element}
    (h : Node.EveryIn (Text.Free marks) raw tag root.children) :
    Node.EveryIn (Text.Free marks) raw tag (ctx.complete root).children := by
  -- The import comes first, and the block is made of what it leaves.
  have himport : Node.EveryIn (Text.Free marks) raw tag (insertImport ctx root).children := by
    unfold insertImport
    split
    · exact Convert.everyIn_placeImport hmarks hlibrary h
    · exact h
  unfold Context.complete
  split
  · next parent hp =>
    have hfree := hparent parent hp
    unfold inheritedTree
    dsimp only
    cases hwrapper : Node.replaceFirstIn? (fun tag => decide (tag.name = Inheritance.wrapperName))
        (fun wrapper => inheritanceBlock parent wrapper.children)
        (insertImport ctx root).children with
    | none => exact Convert.everyIn_inheritanceBlock hmarks hfree himport
    | some children =>
      refine himport.replaced ?_ (Node.replaced_of_eq _ hwrapper)
      intro t cs _ hcs
      exact Convert.everyIn_inheritanceBlock hmarks hfree hcs
  · exact himport

/-- `completeTree` gives `complete`. -/
theorem exists_run_completeTree {ctx : Context} (hclosed : ctx.blocks.ensureClosed = .ok ())
    (root : Element) :
    ∃ ctx', (Convert.completeTree root).run.run ctx = (.ok (ctx.complete root), ctx') := by
  have hrun : Convert.ensureClosed.run.run ctx = (.ok (), ctx) :=
    Convert.run_nesting_ok (by rw [hclosed])
  rw [Convert.completeTree, Convert.run_bind_ok hrun, Convert.run_bind_ok (Convert.run_get ctx),
    Context.complete]
  cases ctx.parent with
  | none => exact ⟨ctx, rfl⟩
  | some parent => exact exists_run_completeInheritance parent _ ctx

/-- The text of a tree in which no placeholder is left. -/
def printTree (root : Element) : Except ConvertError Text := do
  checkPlaceholders root
  return Node.sourceAll root.children

/-- The output of a converted tree, or the reason why there is none. -/
theorem result_assemble (root : Element) (ctx : Context) :
    ((assemble root).run.run ctx).1 =
      match ctx.blocks.ensureClosed with
      | .error e => .error (.malformedNesting e)
      | .ok () => printTree (ctx.complete root) := by
  rw [Convert.assemble_eq]
  cases hclosed : ctx.blocks.ensureClosed with
  | error e =>
    have hrun : (Convert.completeTree root).run.run ctx = (.error (.malformedNesting e), ctx) :=
      Convert.run_bind_error (Convert.run_nesting_error (by rw [hclosed])) _
    rw [Convert.run_bind_error hrun]
  | ok _ =>
    obtain ⟨ctx', hrun⟩ := exists_run_completeTree hclosed root
    rw [Convert.run_bind_ok hrun, printTree]
    cases checkPlaceholders (ctx.complete root) with
    | error e => rfl
    | ok _ =>
      dsimp only
      split <;> rfl

namespace Document

theorem convertTree_root (ns : List Node) :
    convertTree (root ns) = root <$> convertNodes ns := by
  rw [convertTree, map_eq_pure_bind]
  rfl

section Converted

variable {options : Options} {source text : Text} {base ctx : Context} {ns : List Node}
  (hprepare : (prepare source).run { options, kind := .document } = (text, base))
  (hparse : parse? text = some (root ns))

include hprepare hparse

/-- A document whose nodes cannot be converted. -/
theorem result_of_error {e : ConvertError}
    (hconvert : (convertNodes ns).run.run base = (.error e, ctx)) :
    (convertTemplate options (some .document) source).result = .error e := by
  have htree : (convertTree (root ns)).run.run base = (.error e, ctx) := by
    rw [convertTree_root, Convert.run_map, hconvert]
    rfl
  rw [result_eq hprepare, hparse, Convert.run_bind_error htree]

/-- A document whose nodes are converted. -/
theorem result_of_ok {out : List Node}
    (hconvert : (convertNodes ns).run.run base = (.ok out, ctx)) :
    (convertTemplate options (some .document) source).result =
      match ctx.blocks.ensureClosed with
      | .error e => .error (.malformedNesting e)
      | .ok () => printTree (ctx.complete (root out)) := by
  have htree : (convertTree (root ns)).run.run base = (.ok (root out), ctx) := by
    rw [convertTree_root, Convert.run_map, hconvert]
    rfl
  rw [result_eq hprepare, hparse, Convert.run_bind_ok htree, result_assemble]

end Converted

/-- A document with an output could be read, its nodes could be converted, they close what they open,
    and no placeholder is left. -/
theorem exists_of_result_ok {options : Options} {source text out : Text} {base : Context}
    (hprepare : (prepare source).run { options, kind := .document } = (text, base))
    (hresult : (convertTemplate options (some .document) source).result = .ok out) :
    ∃ ns nodes ctx, parse? text = some (root ns) ∧
      (convertNodes ns).run.run base = (.ok nodes, ctx) ∧
      ctx.blocks.ensureClosed = .ok () ∧ printTree (ctx.complete (root nodes)) = .ok out := by
  cases hparse : parse? text with
  | none =>
    rw [result_eq hprepare, hparse] at hresult
    cases hresult
  | some tree =>
    obtain ⟨ns, rfl⟩ := exists_eq_root_of_parse? hparse
    rcases hrun : (convertNodes ns).run.run base with ⟨nodes | nodes, ctx⟩
    · rw [result_of_error hprepare hparse hrun] at hresult
      cases hresult
    · rw [result_of_ok hprepare hparse hrun] at hresult
      split at hresult
      · cases hresult
      · next hclosed => exact ⟨ns, nodes, ctx, rfl, hrun, hclosed, hresult⟩

end Document

end TemploTwig
