import TemploTwig.Proofs.Running

/-!
# The blocks that are open

A conversion keeps its open blocks and its open switches in two stacks.  Both are projections of
one: the list of the directives that opened a block which is still open, innermost first.  Each
directive changes that list in one way.
-/

namespace TemploTwig

namespace Directive

/-- The kind of block that a directive opens. -/
def blockKind? : Directive → Option BlockKind
  | ifThen _ | switch _ => some .conditional
  | foreach _ _ => some .loop
  | fill _ | assign _ => some .assignment
  | _ => none

/-- The directive opens a block. -/
def IsOpener (d : Directive) : Prop := d.blockKind?.isSome = true

instance : DecidablePred IsOpener := fun d =>
  inferInstanceAs (Decidable (d.blockKind?.isSome = true))

/-- The directive neither opens nor closes a block, nor does it need one to be open. -/
def IsNeutral (d : Directive) : Prop := ¬d.IsOpener ∧ d ≠ endBlock ∧ d ≠ nextCase

end Directive

/-- The subject and the depth of each switch among the directives that opened the open blocks. -/
def switchDepths : List Directive → List (Text × Nat)
  | [] => []
  | .switch subject :: openers => (subject, openers.length + 1) :: switchDepths openers
  | _ :: openers => switchDepths openers

/-- `switchDepths` are depths of openers. -/
theorem switchDepths_le {openers : List Directive} {s : Text × Nat}
    (h : s ∈ switchDepths openers) : s.2 ≤ openers.length := by
  induction openers with
  | nil => cases h
  | cons d openers ih =>
    unfold switchDepths at h
    split at h
    · cases h
    · next heq =>
      obtain ⟨rfl, rfl⟩ := List.cons.inj heq
      rcases List.mem_cons.1 h with rfl | hmem
      · exact Nat.le_refl _
      · exact Nat.le_succ_of_le (ih hmem)
    · next heq =>
      obtain ⟨rfl, rfl⟩ := List.cons.inj heq
      exact Nat.le_succ_of_le (ih h)

/-- `switchDepths` looks at switches only. -/
theorem switchDepths_cons_of_ne {d : Directive} (h : ∀ subject, d ≠ .switch subject)
    (openers : List Directive) : switchDepths (d :: openers) = switchDepths openers := by
  cases d with
  | switch subject => exact absurd rfl (h subject)
  | _ => rfl

/-- `switchDepths` is empty if no switch is among the openers. -/
theorem switchDepths_eq_nil_iff {openers : List Directive} :
    switchDepths openers = [] ↔ ∀ subject, .switch subject ∉ openers := by
  induction openers with
  | nil => simp [switchDepths]
  | cons d openers ih =>
    by_cases hd : ∃ subject, d = .switch subject
    · obtain ⟨subject, rfl⟩ := hd
      simp only [switchDepths, reduceCtorEq, false_iff]
      intro h
      exact h subject List.mem_cons_self
    · have hne : ∀ subject, d ≠ .switch subject := fun subject h => hd ⟨subject, h⟩
      rw [switchDepths_cons_of_ne hne, ih]
      constructor
      · intro h subject hmem
        rcases List.mem_cons.1 hmem with heq | hmem
        · exact hne subject heq.symm
        · exact h subject hmem
      · intro h subject hmem
        exact h subject (List.mem_cons_of_mem _ hmem)

namespace Context

/-- The open blocks and the open switches of a context are those of `openers`, innermost first. -/
structure OpenedBy (openers : List Directive) (ctx : Context) : Prop where
  kinds : openers.map Directive.blockKind? = ctx.blocks.kinds.map some
  switches : ctx.switches.map (fun frame => (frame.subject, frame.depth)) = switchDepths openers

namespace OpenedBy

variable {openers : List Directive} {ctx : Context}

/-- `OpenedBy` counts the open blocks. -/
theorem depth_eq (h : OpenedBy openers ctx) : ctx.blocks.depth = openers.length := by
  have := congrArg List.length h.kinds
  simpa [BlockStack.depth] using this.symm

/-- No switch lies deeper than the blocks that are open. -/
theorem depth_le (h : OpenedBy openers ctx) :
    ∀ frame ∈ ctx.switches, frame.depth ≤ ctx.blocks.depth := by
  intro frame hmem
  rw [h.depth_eq]
  have hpair : (frame.subject, frame.depth) ∈ switchDepths openers := by
    rw [← h.switches]
    exact List.mem_map_of_mem hmem
  exact switchDepths_le hpair

/-- `OpenedBy` looks at the two stacks only. -/
theorem congr {ctx' : Context} (h : OpenedBy openers ctx)
    (hkinds : ctx'.blocks.kinds = ctx.blocks.kinds) (hswitches : ctx'.switches = ctx.switches) :
    OpenedBy openers ctx' :=
  ⟨by rw [hkinds]; exact h.kinds, by rw [hswitches]; exact h.switches⟩

/-- `openBlock` adds an opener. -/
theorem openBlock (h : OpenedBy openers ctx) {d : Directive} {kind : BlockKind}
    (hkind : d.blockKind? = some kind) (hd : ∀ subject, d ≠ .switch subject) :
    OpenedBy (d :: openers) (ctx.openBlock kind) := by
  constructor
  · show d.blockKind? :: openers.map Directive.blockKind? = some kind :: ctx.blocks.kinds.map some
    rw [hkind, h.kinds]
  · rw [switchDepths_cons_of_ne hd]
    exact h.switches

/-- `openSwitch` adds a switch. -/
theorem openSwitch (h : OpenedBy openers ctx) (subject : Text) :
    OpenedBy (.switch subject :: openers) (ctx.openSwitch subject) := by
  constructor
  · show some BlockKind.conditional :: openers.map Directive.blockKind? =
      some .conditional :: ctx.blocks.kinds.map some
    rw [h.kinds]
  · show (subject, ctx.blocks.depth + 1) :: ctx.switches.map _ =
      (subject, openers.length + 1) :: switchDepths openers
    rw [h.switches, h.depth_eq]

/-- Closing a block drops the switch that opened it, and no other. -/
theorem dropWhile_switches {d : Directive} (h : OpenedBy (d :: openers) ctx) :
    (ctx.switches.dropWhile (openers.length < ·.depth)).map
      (fun frame => (frame.subject, frame.depth)) = switchDepths openers := by
  -- Switches of the blocks around lie no deeper than those blocks, so they are kept.
  have keep : ∀ frames : List SwitchFrame,
      frames.map (fun frame => (frame.subject, frame.depth)) = switchDepths openers →
      frames.dropWhile (openers.length < ·.depth) = frames := by
    intro frames hframes
    cases frames with
    | nil => rfl
    | cons frame frames =>
      have hle : frame.depth ≤ openers.length := by
        have hmem : (frame.subject, frame.depth) ∈ switchDepths openers := by
          rw [← hframes]; simp
        exact switchDepths_le hmem
      rw [List.dropWhile_cons_of_neg]
      simpa using hle
  by_cases hd : ∃ subject, d = .switch subject
  · -- A switch opened the block: its frame is the innermost and goes.
    obtain ⟨subject, rfl⟩ := hd
    have hswitches := h.switches
    cases hframes : ctx.switches with
    | nil => rw [hframes] at hswitches; cases hswitches
    | cons frame frames =>
      rw [hframes] at hswitches
      simp only [List.map_cons, switchDepths, List.cons.injEq, Prod.mk.injEq] at hswitches
      obtain ⟨⟨-, hdepth⟩, hrest⟩ := hswitches
      rw [List.dropWhile_cons_of_pos (by simp [hdepth]), keep frames hrest, hrest]
  · have hswitches := h.switches
    rw [switchDepths_cons_of_ne fun subject heq => hd ⟨subject, heq⟩] at hswitches
    rw [keep _ hswitches, hswitches]

end OpenedBy

end Context

/-! ## What each directive does -/

section Steps

variable {openers : List Directive} {ctx : Context}

/-- `renderClassified` at a directive that opens a block. -/
theorem run_opener (h : ctx.OpenedBy openers) {d : Directive} (hd : d.IsOpener) (span : Text) :
    ∃ out ctx', (renderClassified span d).run.run ctx = (.ok out, ctx') ∧
      ctx'.OpenedBy (d :: openers) ∧ ctx'.blocks.endsSeen = ctx.blocks.endsSeen := by
  cases d with
  | switch subject => exact ⟨_, _, rfl, h.openSwitch subject, rfl⟩
  | ifThen _ => exact ⟨_, _, rfl, h.openBlock rfl (by simp), rfl⟩
  | foreach _ _ | fill _ | assign _ => exact ⟨_, _, rfl, h.openBlock rfl (by simp), rfl⟩
  | _ => cases hd

/-- `renderClassified` fails at an end without an open block, and counts it all the same. -/
theorem run_endBlock_nil (h : ctx.OpenedBy []) (span : Text) :
    ∃ ctx', (renderClassified span .endBlock).run.run ctx =
        (.error (.malformedNesting (.unexpectedEnd (ctx.blocks.endsSeen + 1))), ctx') ∧
      ctx'.OpenedBy [] := by
  have hkinds : ctx.blocks.kinds = [] := by simpa using h.kinds.symm
  have hclose : ctx.closeBlock = (.error (.unexpectedEnd (ctx.blocks.endsSeen + 1)),
      { ctx with blocks := { ctx.blocks with endsSeen := ctx.blocks.endsSeen + 1 } }) := by
    simp only [Context.closeBlock, BlockStack.pop, hkinds]
  refine ⟨_, Convert.run_bind_error (Convert.run_nesting_error hclose) _, ?_⟩
  exact h.congr rfl rfl

/-- `renderClassified` closes the innermost block at an end, which is named after its kind. -/
theorem run_endBlock_cons {d : Directive} (h : ctx.OpenedBy (d :: openers)) (span : Text) :
    ∃ kind ctx', d.blockKind? = some kind ∧
      (renderClassified span .endBlock).run.run ctx = (.ok (Twig.Statement.close kind).text, ctx') ∧
      ctx'.OpenedBy openers ∧ ctx'.blocks.endsSeen = ctx.blocks.endsSeen + 1 := by
  have hkinds := h.kinds
  cases hstack : ctx.blocks.kinds with
  | nil => rw [hstack] at hkinds; cases hkinds
  | cons kind kinds =>
    rw [hstack] at hkinds
    simp only [List.map_cons, List.cons.injEq] at hkinds
    have hdepth : openers.length = kinds.length := by
      simpa using congrArg List.length hkinds.2
    let blocks : BlockStack := ⟨kinds, ctx.blocks.endsSeen + 1⟩
    have hclose : ctx.closeBlock = (.ok kind,
        { ctx with blocks, switches := ctx.switches.dropWhile (blocks.depth < ·.depth) }) := by
      simp only [Context.closeBlock, BlockStack.pop, hstack, blocks]
    refine ⟨kind, _, hkinds.1, Convert.run_bind_ok (Convert.run_nesting_ok hclose) _,
      ⟨hkinds.2, ?_⟩, rfl⟩
    have hdrop := h.dropWhile_switches
    rw [hdepth] at hdrop
    exact hdrop

/-- `renderClassified` needs an open switch for a case, and opens or closes nothing. -/
theorem run_nextCase (h : ctx.OpenedBy openers) (span : Text) :
    ((∀ subject, .switch subject ∉ openers) ∧ (renderClassified span .nextCase).run.run ctx =
        (.error (.malformedNesting .caseOutsideSwitch), ctx)) ∨
      ((∃ subject, .switch subject ∈ openers) ∧ ∃ out ctx',
        (renderClassified span .nextCase).run.run ctx = (.ok out, ctx') ∧ ctx'.OpenedBy openers ∧
          ctx'.blocks.endsSeen = ctx.blocks.endsSeen) := by
  have hswitches := h.switches
  cases hframes : ctx.switches with
  -- No frame stands for a switch, so none is open.
  | nil =>
    rw [hframes] at hswitches
    left
    refine ⟨switchDepths_eq_nil_iff.1 hswitches.symm, ?_⟩
    have hcase : ctx.nextCase = (.error .caseOutsideSwitch, ctx) := by
      simp only [Context.nextCase, hframes]
    exact Convert.run_bind_error (Convert.run_nesting_error hcase) _
  | cons frame frames =>
    rw [hframes] at hswitches
    right
    constructor
    · apply Classical.byContradiction
      intro hnone
      have hnil := switchDepths_eq_nil_iff.2 fun subject hmem => hnone ⟨subject, hmem⟩
      rw [hnil] at hswitches
      cases hswitches
    · let ctx' := { ctx with switches := { frame with cases := frame.cases + 1 } :: frames }
      have hcase : ∃ statement, ctx.nextCase = (.ok statement, ctx') := by
        simp only [Context.nextCase, hframes]
        exact ⟨_, rfl⟩
      obtain ⟨statement, hcase⟩ := hcase
      refine ⟨_, ctx', Convert.run_bind_ok (Convert.run_nesting_ok hcase) _, ⟨h.kinds, ?_⟩, rfl⟩
      exact hswitches

/-- `renderClassified` leaves the blocks as they are at an `IsNeutral` directive. -/
theorem run_neutral (h : ctx.OpenedBy openers) {d : Directive} (hd : d.IsNeutral) (span : Text) :
    ∃ out ctx', (renderClassified span d).run.run ctx = (.ok out, ctx') ∧
      ctx'.OpenedBy openers ∧ ctx'.blocks.endsSeen = ctx.blocks.endsSeen := by
  obtain ⟨hopen, hend, hcase⟩ := hd
  cases d with
  | nextCase => exact absurd rfl hcase
  | endBlock => exact absurd rfl hend
  | elseIf _ => exact ⟨_, _, rfl, h, rfl⟩
  | otherwise | contentBlock => exact ⟨_, _, rfl, h, rfl⟩
  | raw _ | print _ => exact ⟨_, _, rfl, h, rfl⟩
  | inherit _ => exact ⟨_, _, rfl, h.congr rfl rfl, rfl⟩
  | _ => exact absurd rfl hopen

/-- `renderClassified` keeps a context `OpenedBy` some directives, however it ends. -/
theorem exists_openedBy_renderClassified (h : ctx.OpenedBy openers) (span : Text) (d : Directive) :
    ∃ openers', ((renderClassified span d).run.run ctx).2.OpenedBy openers' := by
  by_cases hopen : d.IsOpener
  · obtain ⟨out, ctx', hrun, hopened, -⟩ := run_opener h hopen span
    exact ⟨_, by rw [hrun]; exact hopened⟩
  · by_cases hend : d = .endBlock
    · subst hend
      cases openers with
      | nil =>
        obtain ⟨ctx', hrun, hopened⟩ := run_endBlock_nil h span
        exact ⟨_, by rw [hrun]; exact hopened⟩
      | cons d openers =>
        obtain ⟨kind, ctx', -, hrun, hopened, -⟩ := run_endBlock_cons h span
        exact ⟨_, by rw [hrun]; exact hopened⟩
    · by_cases hcase : d = .nextCase
      · subst hcase
        rcases run_nextCase h span with ⟨-, hrun⟩ | ⟨-, out, ctx', hrun, hopened, -⟩
        · exact ⟨_, by rw [hrun]; exact h⟩
        · exact ⟨_, by rw [hrun]; exact hopened⟩
      · obtain ⟨out, ctx', hrun, hopened, -⟩ := run_neutral h ⟨hopen, hend, hcase⟩ span
        exact ⟨_, by rw [hrun]; exact hopened⟩

end Steps

end TemploTwig
