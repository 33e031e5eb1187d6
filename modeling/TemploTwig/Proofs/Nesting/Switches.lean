import TemploTwig.Proofs.Nesting.Emission

/-!
# Open switches and their cases

A conversion keeps the open switches apart from the open blocks and counts the cases of each.  What
is open, and which case belongs to which switch, is said here by matching ends with openers in the
sequence of all directives so far.  The two stacks of a context follow that sequence, whatever is
called on it.
-/

namespace TemploTwig

variable {d : Directive} {ds : List Directive} {b : OpenBlock} {ctx : Context}

open Directive (IsOpener)

/-! ## Open blocks -/

/-- A block that is open: the directive that opened it and all directives behind that one. -/
structure OpenBlock where
  opener : Directive
  inside : List Directive
  deriving DecidableEq, Repr

/-- The block with one more directive inside. -/
def OpenBlock.extend (d : Directive) (b : OpenBlock) : OpenBlock :=
  { b with inside := b.inside ++ [d] }

/-- The blocks that are open behind a sequence of directives, innermost first. -/
def openBlocks : List Directive → List OpenBlock
  | [] => []
  | d :: ds => if d.IsOpener ∧ Unclosed ds then openBlocks ds ++ [⟨d, ds⟩] else openBlocks ds

theorem openBlocks_cons_of_open (hd : d.IsOpener) (hds : Unclosed ds) :
    openBlocks (d :: ds) = openBlocks ds ++ [⟨d, ds⟩] :=
  if_pos ⟨hd, hds⟩

theorem openBlocks_cons_of_not_open (h : ¬(d.IsOpener ∧ Unclosed ds)) :
    openBlocks (d :: ds) = openBlocks ds :=
  if_neg h

/-- `openBlocks` are opened by the unmatched openers, innermost first. -/
theorem map_opener_openBlocks (ds : List Directive) :
    (openBlocks ds).map OpenBlock.opener = (unmatched ds).reverse := by
  induction ds with
  | nil => rfl
  | cons d ds ih =>
    rw [openBlocks, unmatched]
    split
    · simp [ih]
    · exact ih

/-- A block of `openBlocks` stands in the sequence, and no end behind its opener matches it. -/
theorem exists_of_mem_openBlocks (h : b ∈ openBlocks ds) :
    b.opener.IsOpener ∧ Unclosed b.inside ∧ ∃ before, ds = before ++ b.opener :: b.inside := by
  induction ds with
  | nil => cases h
  | cons d ds ih =>
    have hcons (h : b ∈ openBlocks ds) : b.opener.IsOpener ∧ Unclosed b.inside ∧
        ∃ before, d :: ds = before ++ b.opener :: b.inside := by
      obtain ⟨hopener, hinside, before, hds⟩ := ih h
      exact ⟨hopener, hinside, d :: before, by rw [hds]; rfl⟩
    rw [openBlocks] at h
    split at h
    · next hd =>
      rcases List.mem_append.1 h with h | h
      · exact hcons h
      · obtain rfl := List.mem_singleton.1 h
        exact ⟨hd.1, hd.2, [], rfl⟩
    · exact hcons h

/-- `openBlocks` inside an open block are those further in. -/
theorem openBlocks_inside {front back : List OpenBlock} (h : openBlocks ds = front ++ b :: back) :
    openBlocks b.inside = front := by
  induction ds generalizing back with
  | nil => simp [openBlocks] at h
  | cons d ds ih =>
    rw [openBlocks] at h
    split at h
    · -- The first directive opened the outermost block; all others are further in.
      rcases List.eq_nil_or_concat back with rfl | ⟨back', last, rfl⟩
      · obtain ⟨hfront, hb⟩ := List.append_inj' h rfl
        obtain rfl : ⟨d, ds⟩ = b := by simpa using hb
        exact hfront
      · rw [List.concat_eq_append, ← List.cons_append, ← List.append_assoc] at h
        exact ih (List.append_inj' h rfl).1
    · exact ih h

/-- What stands in front of directives adds blocks further out. -/
theorem openBlocks_prefix (front ds : List Directive) :
    openBlocks ds <+: openBlocks (front ++ ds) := by
  induction front with
  | nil => exact List.prefix_rfl
  | cons d front ih =>
    rw [List.cons_append, openBlocks]
    split
    · exact ih.trans (List.prefix_append _ _)
    · exact ih

theorem Unclosed.of_append {es : List Directive} (h : Unclosed (ds ++ es)) : Unclosed ds := by
  intro inner after hds hinner
  exact h inner (after ++ es) (by rw [hds]; simp) hinner

/-- `Unclosed` looks at ends only. -/
theorem unclosed_concat_iff_of_ne (hd : d ≠ .endBlock) : Unclosed (ds ++ [d]) ↔ Unclosed ds := by
  constructor
  · exact Unclosed.of_append
  · intro h
    obtain ⟨openers, hleaves⟩ := unclosed_iff_exists_leaves.1 h
    by_cases hopen : d.IsOpener
    · exact (hleaves.concat_opener hopen).unclosed
    · exact (hleaves.concat_other hopen hd).unclosed

/-- `Unclosed` directives may end with an end if one is open. -/
theorem unclosed_concat_endBlock_iff :
    Unclosed (ds ++ [.endBlock]) ↔ Unclosed ds ∧ ¬Balanced ds := by
  constructor
  · intro h
    exact ⟨h.of_append, h ds [] rfl⟩
  · rintro ⟨h, hbalanced⟩
    obtain ⟨openers, hleaves⟩ := unclosed_iff_exists_leaves.1 h
    refine (hleaves.concat_endBlock ?_).unclosed
    rintro rfl
    exact hbalanced hleaves.balanced_of_nil

/-- `openBlocks` of `Unclosed` directives is empty exactly when everything is matched. -/
theorem Unclosed.openBlocks_eq_nil_iff (h : Unclosed ds) : openBlocks ds = [] ↔ Balanced ds := by
  obtain ⟨openers, hleaves⟩ := unclosed_iff_exists_leaves.1 h
  have hmap := map_opener_openBlocks ds
  rw [hleaves.unmatched_eq] at hmap
  constructor
  · intro hnil
    rw [hnil] at hmap
    obtain rfl : openers = [] := by simpa using hmap.symm
    exact hleaves.balanced_of_nil
  · intro hbalanced
    obtain rfl : openers = [] := by
      rw [← hleaves.unmatched_eq, (Leaves.balanced hbalanced).unmatched_eq]
    simpa using hmap

/-- `openBlocks` begins with the block whose opener the next end matches. -/
theorem exists_openBlocks_eq_cons_iff :
    (∃ bs, openBlocks ds = b :: bs) ↔ b.opener.IsOpener ∧ Balanced b.inside ∧
      ∃ before, ds = before ++ b.opener :: b.inside := by
  constructor
  · rintro ⟨bs, h⟩
    obtain ⟨hopener, hunclosed, hds⟩ := exists_of_mem_openBlocks (h ▸ List.mem_cons_self)
    refine ⟨hopener, hunclosed.openBlocks_eq_nil_iff.1 ?_, hds⟩
    exact openBlocks_inside h
  · rintro ⟨hopener, hinside, before, rfl⟩
    have hunclosed := (Leaves.balanced hinside).unclosed
    obtain ⟨bs, hbs⟩ := openBlocks_prefix before (b.opener :: b.inside)
    rw [openBlocks_cons_of_open hopener hunclosed,
      hunclosed.openBlocks_eq_nil_iff.2 hinside] at hbs
    exact ⟨bs, hbs.symm⟩

/-- A directive that is no end stands inside all blocks that are open, and may open one more. -/
theorem openBlocks_concat (hd : d ≠ .endBlock) (ds : List Directive) :
    openBlocks (ds ++ [d]) = openBlocks [d] ++ (openBlocks ds).map (.extend d) := by
  induction ds with
  | nil => simp [openBlocks]
  | cons c ds ih =>
    rw [List.cons_append]
    by_cases hc : c.IsOpener ∧ Unclosed ds
    · rw [openBlocks_cons_of_open hc.1 ((unclosed_concat_iff_of_ne hd).2 hc.2),
        openBlocks_cons_of_open hc.1 hc.2, ih]
      simp [OpenBlock.extend]
    · rw [openBlocks_cons_of_not_open fun h => hc ⟨h.1, h.2.of_append⟩,
        openBlocks_cons_of_not_open hc, ih]

/-- An end closes the innermost block, if there is one. -/
theorem openBlocks_concat_endBlock (ds : List Directive) :
    openBlocks (ds ++ [.endBlock]) = (openBlocks ds).tail.map (.extend .endBlock) := by
  induction ds with
  | nil => simp [openBlocks, not_isOpener_endBlock]
  | cons c ds ih =>
    rw [List.cons_append]
    by_cases hc : c.IsOpener ∧ Unclosed ds
    · rw [openBlocks_cons_of_open hc.1 hc.2]
      by_cases hbalanced : Balanced ds
      · -- Everything inside the block is matched, so the end matches its opener.
        have hclosed : ¬Unclosed (ds ++ [.endBlock]) :=
          fun h => (unclosed_concat_endBlock_iff.1 h).2 hbalanced
        rw [openBlocks_cons_of_not_open fun h => hclosed h.2, ih,
          hc.2.openBlocks_eq_nil_iff.2 hbalanced]
        rfl
      · rw [openBlocks_cons_of_open hc.1 (unclosed_concat_endBlock_iff.2 ⟨hc.2, hbalanced⟩), ih]
        cases hblocks : openBlocks ds with
        | nil => exact absurd (hc.2.openBlocks_eq_nil_iff.1 hblocks) hbalanced
        | cons b bs => simp [OpenBlock.extend]
    · rw [openBlocks_cons_of_not_open fun h => hc ⟨h.1, h.2.of_append⟩,
        openBlocks_cons_of_not_open hc, ih]

/-! ## Open switches -/

/-- No switch is open behind the directives. -/
def NoSwitchOpen (ds : List Directive) : Prop :=
  ∀ front subject back, ds = front ++ .switch subject :: back → ¬Unclosed back

/-- The subject of the switch that opened a block, and what stands inside. -/
def OpenBlock.switch? (b : OpenBlock) : Option (Text × List Directive) :=
  match b.opener with
  | .switch subject => some (subject, b.inside)
  | _ => none

/-- `switch?` recognises the openers of switches. -/
theorem OpenBlock.switch?_eq_some_iff {s : Text × List Directive} :
    b.switch? = some s ↔ b = ⟨.switch s.1, s.2⟩ := by
  obtain ⟨opener, inside⟩ := b
  obtain ⟨subject, behind⟩ := s
  cases opener <;> simp [switch?]

theorem OpenBlock.switch?_extend (d : Directive) (b : OpenBlock) :
    (b.extend d).switch? = b.switch?.map fun s => (s.1, s.2 ++ [d]) := by
  obtain ⟨opener, inside⟩ := b
  cases opener <;> rfl

/-- The switches that are open behind a sequence of directives, innermost first: their subjects,
    and what stands behind them. -/
def openSwitches (ds : List Directive) : List (Text × List Directive) :=
  (openBlocks ds).filterMap OpenBlock.switch?

/-- A switch of `openSwitches` stands in the sequence, unmatched. -/
theorem exists_of_mem_openSwitches {s : Text × List Directive} (h : s ∈ openSwitches ds) :
    Unclosed s.2 ∧ ∃ before, ds = before ++ .switch s.1 :: s.2 := by
  obtain ⟨b, hb, hswitch⟩ := List.mem_filterMap.1 h
  obtain rfl := OpenBlock.switch?_eq_some_iff.1 hswitch
  exact (exists_of_mem_openBlocks hb).2

/-- `openSwitches` inside an open switch are those further in. -/
theorem openSwitches_inside {front back : List (Text × List Directive)} {s : Text × List Directive}
    (h : openSwitches ds = front ++ s :: back) : openSwitches s.2 = front := by
  obtain ⟨bs, cs, hblocks, hbs, hcs⟩ := List.filterMap_eq_append_iff.1 h
  obtain ⟨cs', b, ds', rfl, hnone, hb, -⟩ := List.filterMap_eq_cons_iff.1 hcs
  obtain rfl := OpenBlock.switch?_eq_some_iff.1 hb
  rw [← List.append_assoc] at hblocks
  have hinside : openBlocks s.2 = bs ++ cs' := openBlocks_inside hblocks
  rw [openSwitches, hinside, List.filterMap_append, hbs, List.filterMap_eq_nil_iff.2 hnone,
    List.append_nil]

/-- `NoSwitchOpen` says that `openSwitches` is empty. -/
theorem noSwitchOpen_iff : NoSwitchOpen ds ↔ openSwitches ds = [] := by
  constructor
  · intro h
    apply List.eq_nil_iff_forall_not_mem.2
    intro s hs
    obtain ⟨hunclosed, before, hds⟩ := exists_of_mem_openSwitches hs
    exact h before s.1 s.2 hds hunclosed
  · rintro h front subject back rfl hunclosed
    obtain ⟨bs, hbs⟩ := openBlocks_prefix front (.switch subject :: back)
    rw [openBlocks_cons_of_open (d := .switch subject) rfl hunclosed] at hbs
    have hmem : (subject, back) ∈ openSwitches (front ++ .switch subject :: back) := by
      refine List.mem_filterMap.2 ⟨⟨.switch subject, back⟩, ?_, rfl⟩
      rw [← hbs]
      simp
    rw [h] at hmem
    cases hmem

instance : DecidablePred NoSwitchOpen := fun _ => decidable_of_iff _ noSwitchOpen_iff.symm

/-- The cases that belong to a switch, among the directives inside it: no other switch is open
    where they stand. -/
def ownCases (inside : List Directive) : Nat :=
  (List.range inside.length).countP fun k =>
    inside[k]? = some .nextCase ∧ NoSwitchOpen (inside.take k)

/-- `ownCases` counts a case when no further switch is open. -/
theorem ownCases_concat (ds : List Directive) (d : Directive) :
    ownCases (ds ++ [d]) = ownCases ds + if d = .nextCase ∧ NoSwitchOpen ds then 1 else 0 := by
  have hfront : (List.range ds.length).countP (fun k => (ds ++ [d])[k]? = some .nextCase ∧
      NoSwitchOpen ((ds ++ [d]).take k)) = ownCases ds := by
    refine List.countP_congr fun k hk => ?_
    have hlt : k < ds.length := List.mem_range.1 hk
    rw [List.getElem?_append_left hlt, List.take_append_of_le_length (Nat.le_of_lt hlt)]
  rw [ownCases, List.length_append, List.length_singleton, List.range_succ, List.countP_append,
    hfront]
  congr 1
  simp [List.countP_cons]

/-- The subject of each open switch and the number of its cases so far, innermost first. -/
def caseCounts (ds : List Directive) : List (Text × Nat) :=
  (openSwitches ds).map fun s => (s.1, ownCases s.2)

/-- `openSwitches` behind one more directive that is no end. -/
theorem openSwitches_concat (hd : d ≠ .endBlock) (ds : List Directive) :
    openSwitches (ds ++ [d]) =
      openSwitches [d] ++ (openSwitches ds).map fun s => (s.1, s.2 ++ [d]) := by
  rw [openSwitches, openBlocks_concat hd, List.filterMap_append, List.filterMap_map]
  congr 1
  rw [openSwitches, List.map_filterMap]
  refine List.filterMap_congr fun b _ => ?_
  exact OpenBlock.switch?_extend d b

/-- `caseCounts` stays at a directive that is neither a case nor an end; a switch begins a new
    count. -/
theorem caseCounts_concat (hend : d ≠ .endBlock) (hcase : d ≠ .nextCase) (ds : List Directive) :
    caseCounts (ds ++ [d]) = caseCounts [d] ++ caseCounts ds := by
  rw [caseCounts, openSwitches_concat hend, List.map_append, List.map_map]
  congr 1
  refine List.map_congr_left fun s _ => ?_
  simp [ownCases_concat, hcase]

/-- `caseCounts` counts a case for the innermost switch and for no other. -/
theorem caseCounts_concat_nextCase (ds : List Directive) :
    caseCounts (ds ++ [.nextCase]) = match caseCounts ds with
      | [] => []
      | (subject, n) :: counts => (subject, n + 1) :: counts := by
  rw [caseCounts, openSwitches_concat (by simp), caseCounts]
  have hnone : openSwitches [.nextCase] = [] := rfl
  rw [hnone, List.nil_append]
  cases hswitches : openSwitches ds with
  | nil => rfl
  | cons s switches =>
    have hinner : NoSwitchOpen s.2 :=
      noSwitchOpen_iff.2 (openSwitches_inside hswitches)
    -- Inside each switch around it, the innermost one is still open.
    have houter : ∀ s' ∈ switches, ¬NoSwitchOpen s'.2 := by
      intro s' hs' hopen
      obtain ⟨front, back, rfl⟩ := List.append_of_mem hs'
      have hfront : openSwitches s'.2 = s :: front := openSwitches_inside hswitches
      rw [noSwitchOpen_iff.1 hopen] at hfront
      cases hfront
    simp only [List.map_cons, ownCases_concat, hinner, and_self, if_true, List.map_map]
    congr 1
    refine List.map_congr_left fun s' hs' => ?_
    simp [ownCases_concat, houter s' hs']

/-- `caseCounts` loses the count of the switch whose block an end closes. -/
theorem caseCounts_concat_endBlock {bs : List OpenBlock} (h : openBlocks ds = b :: bs) :
    caseCounts ds = (b.switch?.map fun s => (s.1, ownCases s.2)).toList ++
      caseCounts (ds ++ [.endBlock]) := by
  rw [caseCounts, caseCounts, openSwitches, openSwitches, openBlocks_concat_endBlock, h,
    List.tail_cons, List.filterMap_map]
  have hrest : (bs.filterMap (OpenBlock.switch? ∘ OpenBlock.extend .endBlock)).map
      (fun s => (s.1, ownCases s.2)) =
        (bs.filterMap OpenBlock.switch?).map fun s => (s.1, ownCases s.2) := by
    rw [List.map_filterMap, List.map_filterMap]
    refine List.filterMap_congr fun b _ => ?_
    rw [Function.comp_apply, OpenBlock.switch?_extend, Option.map_map]
    congr 1
    funext s
    simp [ownCases_concat]
  rw [hrest]
  cases hswitch : b.switch? <;> simp [hswitch]

/-- A change of the state that may fail, with its result written down. -/
theorem Convert.run_nesting_bind_pure {α β : Type} (f : Context → Except NestingError α × Context)
    (g : α → β) (ctx : Context) : (nesting f >>= fun a => pure (g a)).run.run ctx =
      ((f ctx).1.mapError .malformedNesting |>.map g, (f ctx).2) := by
  rcases hf : f ctx with ⟨result, ctx'⟩
  cases result with
  | ok a => exact run_bind_ok (run_nesting_ok hf) _
  | error e => exact run_bind_error (run_nesting_error hf) _

/-! ## Where the switches lie -/

/-- `switchDepths` says at which depth a switch lies among the openers. -/
theorem mem_switchDepths {openers : List Directive} {s : Text × Nat}
    (h : s ∈ switchDepths openers) :
    1 ≤ s.2 ∧ openers.reverse[s.2 - 1]? = some (.switch s.1) := by
  induction openers with
  | nil => cases h
  | cons d openers ih =>
    have houter (h : s ∈ switchDepths openers) :
        1 ≤ s.2 ∧ (d :: openers).reverse[s.2 - 1]? = some (.switch s.1) := by
      obtain ⟨hpos, hblock⟩ := ih h
      have hlt : s.2 - 1 < openers.reverse.length := (List.getElem?_eq_some_iff.1 hblock).1
      rw [List.reverse_cons, List.getElem?_append_left hlt]
      exact ⟨hpos, hblock⟩
    by_cases hd : ∃ subject, d = .switch subject
    · obtain ⟨subject, rfl⟩ := hd
      rcases List.mem_cons.1 h with rfl | h
      · simp
      · exact houter h
    · rw [switchDepths_cons_of_ne fun subject heq => hd ⟨subject, heq⟩] at h
      exact houter h

/-- `switchDepths` shrink further out. -/
theorem pairwise_switchDepths (openers : List Directive) :
    (switchDepths openers).Pairwise fun s s' => s'.2 < s.2 := by
  induction openers with
  | nil => exact .nil
  | cons d openers ih =>
    by_cases hd : ∃ subject, d = .switch subject
    · obtain ⟨subject, rfl⟩ := hd
      refine List.pairwise_cons.2 ⟨fun s hs => ?_, ih⟩
      exact Nat.lt_succ_of_le (switchDepths_le hs)
    · rw [switchDepths_cons_of_ne fun subject heq => hd ⟨subject, heq⟩]
      exact ih

/-- The number of switches among the directives that opened the open blocks. -/
theorem length_switchDepths_cons (b : OpenBlock) (openers : List Directive) :
    (switchDepths (b.opener :: openers)).length =
      b.switch?.toList.length + (switchDepths openers).length := by
  obtain ⟨opener, inside⟩ := b
  cases opener <;> simp [OpenBlock.switch?, switchDepths]
  omega

namespace Context

/-- The two stacks of a context are those of a sequence of directives. -/
structure Tracks (ds : List Directive) (ctx : Context) : Prop where
  openedBy : ctx.OpenedBy ((openBlocks ds).map OpenBlock.opener)
  counts : ctx.switches.map (fun frame => (frame.subject, frame.cases)) = caseCounts ds

namespace Tracks

variable {ds : List Directive} {ctx ctx' : Context} {d : Directive}

theorem congr (h : Tracks ds ctx) (hkinds : ctx'.blocks.kinds = ctx.blocks.kinds)
    (hswitches : ctx'.switches = ctx.switches) : Tracks ds ctx' :=
  ⟨h.openedBy.congr hkinds hswitches, by rw [hswitches]; exact h.counts⟩

/-- `Tracks` goes on at a directive that is neither an opener, nor an end, nor a case. -/
theorem neutral (h : Tracks ds ctx) (hd : d.IsNeutral) : Tracks (ds ++ [d]) ctx := by
  obtain ⟨hopen, hend, hcase⟩ := hd
  have hnone : openBlocks [d] = [] := openBlocks_cons_of_not_open fun h => hopen h.1
  constructor
  · rw [openBlocks_concat hend, hnone, List.nil_append, List.map_map]
    exact h.openedBy
  · rw [caseCounts_concat hend hcase, caseCounts, openSwitches, hnone]
    exact h.counts

/-- `Tracks` goes on at an opener other than a switch. -/
theorem openBlock (h : Tracks ds ctx) {kind : BlockKind} (hkind : d.blockKind? = some kind)
    (hd : ∀ subject, d ≠ .switch subject) : Tracks (ds ++ [d]) (ctx.openBlock kind) := by
  have hopen : d.IsOpener := by rw [Directive.IsOpener, hkind]; rfl
  have hend : d ≠ .endBlock := by rintro rfl; cases hkind
  have hcase : d ≠ .nextCase := by rintro rfl; cases hkind
  have hone : openBlocks [d] = [⟨d, []⟩] :=
    openBlocks_cons_of_open hopen (Leaves.balanced .nil).unclosed
  constructor
  · rw [openBlocks_concat hend, hone, List.map_append, List.map_map]
    exact h.openedBy.openBlock hkind hd
  · have hnone : OpenBlock.switch? ⟨d, []⟩ = none := by
      cases d with
      | switch subject => exact absurd rfl (hd subject)
      | _ => rfl
    rw [caseCounts_concat hend hcase, ← h.counts, caseCounts, openSwitches, hone]
    simp [hnone, Context.openBlock]

/-- `Tracks` goes on at a switch. -/
theorem openSwitch (h : Tracks ds ctx) (subject : Text) :
    Tracks (ds ++ [.switch subject]) (ctx.openSwitch subject) := by
  have hone : openBlocks [.switch subject] = [⟨.switch subject, []⟩] :=
    openBlocks_cons_of_open rfl (Leaves.balanced .nil).unclosed
  constructor
  · rw [openBlocks_concat (by simp), hone, List.map_append, List.map_map]
    exact h.openedBy.openSwitch subject
  · rw [caseCounts_concat (by simp) (by simp), caseCounts, openSwitches, hone]
    show (subject, 0) :: ctx.switches.map _ = (subject, 0) :: caseCounts ds
    rw [h.counts]

/-- `Tracks` goes on at a case, which counts for the innermost switch. -/
theorem nextCase (h : Tracks ds ctx) : Tracks (ds ++ [.nextCase]) ctx.nextCase.2 := by
  have hnone : openBlocks [.nextCase] = [] := rfl
  have hcounts := h.counts
  have hswitches := h.openedBy.switches
  constructor
  · rw [openBlocks_concat (by simp), hnone, List.nil_append, List.map_map]
    unfold Context.nextCase
    split
    · exact h.openedBy
    · next frame frames hframes =>
      rw [hframes] at hswitches
      exact ⟨h.openedBy.kinds, hswitches⟩
  · rw [caseCounts_concat_nextCase, ← hcounts]
    unfold Context.nextCase
    split
    · next hframes => simp [hframes]
    · next frame frames hframes => simp [hframes]

/-- An end takes the frame of a switch along with the block that the switch opened, and no other
    frame. -/
theorem switches_closeBlock {bs : List OpenBlock} (h : Tracks ds ctx)
    (hblocks : openBlocks ds = b :: bs) :
    ctx.closeBlock.2.OpenedBy (bs.map OpenBlock.opener) ∧
      ∃ front, ctx.switches = front ++ ctx.closeBlock.2.switches ∧
        front.length = b.switch?.toList.length := by
  have hopened := h.openedBy
  rw [hblocks, List.map_cons] at hopened
  -- The step that renders the end leaves the context behind the closed block.
  obtain ⟨kind, ctx', -, hrun, hopened', -⟩ := run_endBlock_cons hopened []
  rw [renderClassified, Convert.run_nesting_bind_pure] at hrun
  rw [← (Prod.mk.inj hrun).2] at hopened'
  refine ⟨hopened', ?_⟩
  have hsuffix : ctx.closeBlock.2.switches <:+ ctx.switches := by
    unfold Context.closeBlock
    split
    · exact List.dropWhile_suffix _
    · exact List.suffix_rfl
  obtain ⟨front, hfront⟩ := hsuffix
  have hlength := congrArg List.length hopened.switches
  have hlength' := congrArg List.length hopened'.switches
  rw [List.length_map] at hlength hlength'
  rw [length_switchDepths_cons, ← hlength', ← hfront, List.length_append] at hlength
  exact ⟨front, hfront.symm, by omega⟩

/-- `Tracks` goes on at an end. -/
theorem closeBlock (h : Tracks ds ctx) : Tracks (ds ++ [.endBlock]) ctx.closeBlock.2 := by
  cases hblocks : openBlocks ds with
  -- With no block open the end is an error that changes nothing but its count.
  | nil =>
    have hkinds : ctx.blocks.kinds = [] := by simpa [hblocks] using h.openedBy.kinds.symm
    have hclosed : openBlocks (ds ++ [.endBlock]) = openBlocks ds := by
      rw [openBlocks_concat_endBlock, hblocks]
      rfl
    have hsame : Tracks (ds ++ [.endBlock]) ctx := by
      constructor
      · rw [hclosed]
        exact h.openedBy
      · rw [h.counts, caseCounts, caseCounts, openSwitches, openSwitches, hclosed]
    refine hsame.congr ?_ ?_ <;> simp [Context.closeBlock, BlockStack.pop, hkinds]
  | cons b bs =>
    obtain ⟨hopened, front, hfront, hlength⟩ := h.switches_closeBlock hblocks
    constructor
    · rw [openBlocks_concat_endBlock, hblocks, List.tail_cons, List.map_map]
      exact hopened
    · have hcounts := h.counts
      rw [hfront, List.map_append, caseCounts_concat_endBlock hblocks] at hcounts
      -- As many frames go as there are switches in the block that is closed.
      refine (List.append_inj hcounts ?_).2
      rw [List.length_map, hlength]
      cases b.switch? <;> rfl

/-- `Tracks` goes on at every directive, whether it is rendered or fails. -/
theorem step (h : Tracks ds ctx) (span : Text) (d : Directive) :
    Tracks (ds ++ [d]) ((renderClassified span d).run.run ctx).2 := by
  cases d with
  | switch subject => exact h.openSwitch subject
  | ifThen _ | foreach _ _ | fill _ | assign _ => exact h.openBlock rfl (by simp)
  | nextCase =>
    rw [renderClassified, Convert.run_nesting_bind_pure]
    exact h.nextCase
  | endBlock =>
    rw [renderClassified, Convert.run_nesting_bind_pure]
    exact h.closeBlock
  | elseIf _ | otherwise | contentBlock | raw _ | print _ =>
    exact h.neutral ⟨by simp [Directive.IsOpener, Directive.blockKind?], by simp, by simp⟩
  | inherit _ =>
    refine (h.neutral ⟨?_, by simp, by simp⟩).congr rfl rfl
    simp [Directive.IsOpener, Directive.blockKind?]

/-- The innermost open switch, when there is one. -/
theorem exists_of_switches_eq_cons (h : Tracks ds ctx) {frame : SwitchFrame}
    {frames : List SwitchFrame} (hframes : ctx.switches = frame :: frames) :
    ∃ before inside, ds = before ++ .switch frame.subject :: inside ∧ Unclosed inside ∧
      NoSwitchOpen inside ∧ frame.cases = ownCases inside := by
  have hcounts := h.counts
  rw [hframes, caseCounts] at hcounts
  cases hswitches : openSwitches ds with
  | nil => rw [hswitches] at hcounts; cases hcounts
  | cons s switches =>
    rw [hswitches] at hcounts
    obtain ⟨hsubject, hcases⟩ := Prod.mk.inj (List.cons.inj hcounts).1
    obtain ⟨hunclosed, before, hds⟩ :=
      exists_of_mem_openSwitches (hswitches ▸ List.mem_cons_self)
    rw [← hsubject] at hds
    exact ⟨before, s.2, hds, hunclosed,
      noSwitchOpen_iff.2 (openSwitches_inside hswitches), hcases⟩

end Tracks

/-! ## Runs of calls -/

/-- `fillMacroTokens` may note a macro call and changes nothing else. -/
theorem eq_or_eq_markCall_of_fillMacroTokens (t : Text) (ctx : Context) :
    ((fillMacroTokens t).run.run ctx).2 = ctx ∨
      ((fillMacroTokens t).run.run ctx).2 = ctx.markCall := by
  by_cases hopening : t.contains MacroToken.opening = true
  · rw [fillMacroTokens_of_opening hopening]
    -- A token is looked up, which leaves the state as it is.
    have hpiece (p : Piece Text) : Convert.Ensures (· = ctx) (fun _ => True) (fun _ => True)
        (fillPiece p) := by
      cases p with
      | plain u => exact Convert.ensures_pure trivial
      | token digits =>
        show Convert.Ensures _ _ _ (resolveMacroToken digits)
        unfold resolveMacroToken
        split
        · exact Convert.ensures_resolve (fun _ _ _ _ => trivial) fun _ _ _ => trivial
        · exact Convert.ensures_throw trivial
    have hparts := Convert.ensures_mapM (fun p (_ : p ∈ MacroToken.scan t) => hpiece p) ctx rfl
    rcases hrun : ((MacroToken.scan t).mapM fillPiece).run.run ctx with ⟨result, ctx'⟩
    rw [hrun] at hparts
    obtain rfl : ctx' = ctx := hparts.1
    cases result with
    | ok parts =>
      rw [Convert.run_bind_ok hrun]
      exact .inr rfl
    | error e =>
      rw [Convert.run_bind_error hrun]
      exact .inl rfl
  · rw [fillMacroTokens_of_no_opening (Bool.eq_false_iff.2 hopening)]
    exact .inl rfl

/-- The directives that are rendered when pieces of a text are converted.  What fails is the last
    of them. -/
def renderedIn : Context → List (Piece Text) → List Directive
  | _, [] => []
  | ctx, p :: ps =>
    p.onToken Directive.classify ++
      match (convertPiece p).run.run ctx with
      | (.ok _, ctx') => renderedIn ctx' ps
      | (.error _, _) => []

/-- `Tracks` goes on over a piece. -/
theorem Tracks.convertPiece (h : Tracks ds ctx) (p : Piece Text) :
    Tracks (ds ++ p.onToken Directive.classify) ((TemploTwig.convertPiece p).run.run ctx).2 := by
  cases p with
  | token span => exact h.step span _
  | plain t =>
    rw [Piece.onToken, List.append_nil]
    show Tracks ds ((fillMacroTokens t).run.run ctx).2
    rcases eq_or_eq_markCall_of_fillMacroTokens t ctx with heq | heq
    · rw [heq]; exact h
    · rw [heq]; exact h.congr rfl rfl

/-- `Tracks` goes on over the pieces that are rendered. -/
theorem Tracks.mapM_convertPiece (h : Tracks ds ctx) (ps : List (Piece Text)) :
    Tracks (ds ++ renderedIn ctx ps) ((ps.mapM TemploTwig.convertPiece).run.run ctx).2 := by
  induction ps generalizing ds ctx with
  | nil =>
    rw [renderedIn, List.append_nil]
    exact h
  | cons p ps ih =>
    have hpiece := h.convertPiece p
    rcases hrun : (TemploTwig.convertPiece p).run.run ctx with ⟨result, ctx'⟩
    rw [hrun] at hpiece
    rw [List.mapM_cons, renderedIn, hrun, ← List.append_assoc]
    cases result with
    -- Nothing behind an error is rendered.
    | error e =>
      rw [Convert.run_bind_error hrun, List.append_nil]
      exact hpiece
    | ok out =>
      have hrest := ih hpiece
      rw [Convert.run_bind_ok hrun]
      rcases hruns : (ps.mapM TemploTwig.convertPiece).run.run ctx' with ⟨results, ctx''⟩
      rw [hruns] at hrest
      cases results with
      | ok outs => rw [Convert.run_bind_ok hruns]; exact hrest
      | error e => rw [Convert.run_bind_error hruns]; exact hrest

end Context

/-- A call on a context: a directive span to render, or a text to convert. -/
inductive TextCall where
  | directive (span : Text)
  | text (content : Text)
  deriving DecidableEq, Repr

namespace TextCall

/-- The step that the call makes. -/
def convert : TextCall → Convert Text
  | directive span => renderDirective span
  | text content => convertText content

/-- The context behind a call, whether it succeeds or fails. -/
def after (ctx : Context) (call : TextCall) : Context := (call.convert.run.run ctx).2

/-- The directives that a call renders. -/
def rendered (ctx : Context) : TextCall → List Directive
  | directive span => [Directive.classify span]
  | text content => ctx.renderedIn (conversionPieces content)

/-- The context behind calls. -/
def afterAll (ctx : Context) (calls : List TextCall) : Context := calls.foldl after ctx

/-- The directives that calls render, one call after the other. -/
def renderedBy : Context → List TextCall → List Directive
  | _, [] => []
  | ctx, call :: calls => call.rendered ctx ++ renderedBy (call.after ctx) calls

/-- `Tracks` goes on over a call. -/
theorem tracks_after (h : ctx.Tracks ds) (call : TextCall) :
    (call.after ctx).Tracks (ds ++ call.rendered ctx) := by
  cases call with
  | directive span => exact h.step span _
  | text content =>
    have hpieces := h.mapM_convertPiece (conversionPieces content)
    rw [after, convert, convertText_eq_mapM, rendered]
    rcases hrun : ((conversionPieces content).mapM convertPiece).run.run ctx with ⟨result, ctx'⟩
    rw [hrun] at hpieces
    cases result with
    | ok outs => rw [Convert.run_bind_ok hrun]; exact hpieces
    | error e => rw [Convert.run_bind_error hrun]; exact hpieces

/-- `Tracks` goes on over calls. -/
theorem tracks_afterAll (h : ctx.Tracks ds) (calls : List TextCall) :
    (afterAll ctx calls).Tracks (ds ++ renderedBy ctx calls) := by
  induction calls generalizing ds ctx with
  | nil =>
    rw [renderedBy, List.append_nil]
    exact h
  | cons call calls ih =>
    rw [renderedBy, ← List.append_assoc]
    exact ih (tracks_after h call)

end TextCall

/-! ## The invariant -/

namespace Context

/-- A context without open blocks. -/
theorem tracks_nil (hkinds : ctx.blocks.kinds = []) (hswitches : ctx.switches = []) :
    ctx.Tracks [] :=
  ⟨⟨by rw [hkinds]; rfl, by rw [hswitches]; rfl⟩, by rw [hswitches]; rfl⟩

namespace Tracks

variable {ds : List Directive} {ctx : Context}

/-- From the outermost switch inwards the depths grow. -/
theorem pairwise_depth (h : Tracks ds ctx) :
    ctx.switches.Pairwise fun inner outer => outer.depth < inner.depth := by
  have hpairwise := pairwise_switchDepths ((openBlocks ds).map OpenBlock.opener)
  rw [← h.openedBy.switches, List.pairwise_map] at hpairwise
  exact hpairwise

/-- A switch lies at the depth of a block that is open, and that block is a conditional. -/
theorem block_of_mem_switches (h : Tracks ds ctx) {frame : SwitchFrame}
    (hframe : frame ∈ ctx.switches) :
    1 ≤ frame.depth ∧ frame.depth ≤ ctx.blocks.depth ∧
      ctx.blocks.kinds.reverse[frame.depth - 1]? = some .conditional := by
  have hmem : (frame.subject, frame.depth) ∈
      switchDepths ((openBlocks ds).map OpenBlock.opener) := by
    rw [← h.openedBy.switches]
    exact List.mem_map_of_mem hframe
  obtain ⟨hpos, hblock⟩ := mem_switchDepths hmem
  refine ⟨hpos, h.openedBy.depth_le frame hframe, ?_⟩
  have hkinds := congrArg (fun l => l.reverse[frame.depth - 1]?) h.openedBy.kinds
  rw [← List.map_reverse, List.getElem?_map, hblock, ← List.map_reverse, List.getElem?_map] at hkinds
  cases hkind : ctx.blocks.kinds.reverse[frame.depth - 1]? with
  | none => rw [hkind] at hkinds; cases hkinds
  | some kind =>
    rw [hkind] at hkinds
    exact (Option.some.inj hkinds).symm

/-- An end removes at most one frame. -/
theorem switches_closeBlock_or (h : Tracks ds ctx) :
    ctx.closeBlock.2.switches = ctx.switches ∨
      ∃ frame, ctx.switches = frame :: ctx.closeBlock.2.switches := by
  cases hblocks : openBlocks ds with
  | nil =>
    have hkinds : ctx.blocks.kinds = [] := by simpa [hblocks] using h.openedBy.kinds.symm
    left
    simp [Context.closeBlock, BlockStack.pop, hkinds]
  | cons b bs =>
    obtain ⟨-, front, hfront, hlength⟩ := h.switches_closeBlock hblocks
    cases hswitch : b.switch? with
    | none =>
      obtain rfl : front = [] := by simpa [hswitch] using hlength
      exact .inl hfront.symm
    | some s =>
      obtain ⟨frame, rfl⟩ : ∃ frame, front = [frame] := by
        simpa [hswitch, List.length_eq_one_iff] using hlength
      exact .inr ⟨frame, hfront⟩

/-- An end removes a frame exactly when it matches a switch. -/
theorem exists_removed_iff (h : Tracks ds ctx) :
    (∃ frame, ctx.switches = frame :: ctx.closeBlock.2.switches) ↔
      ∃ before subject inside, ds = before ++ .switch subject :: inside ∧ Balanced inside := by
  constructor
  · rintro ⟨frame, hframe⟩
    cases hblocks : openBlocks ds with
    | nil =>
      have hcounts := h.counts
      rw [caseCounts, openSwitches, hblocks, hframe] at hcounts
      cases hcounts
    | cons b bs =>
      obtain ⟨-, front, hfront, hlength⟩ := h.switches_closeBlock hblocks
      rw [hframe, ← List.singleton_append] at hfront
      -- One frame went, so the block that is closed is a switch.
      obtain rfl := List.append_cancel_right hfront
      cases hswitch : b.switch? with
      | none => rw [hswitch] at hlength; cases hlength
      | some s =>
        obtain rfl := OpenBlock.switch?_eq_some_iff.1 hswitch
        obtain ⟨-, hinside, before, hds⟩ := exists_openBlocks_eq_cons_iff.1 ⟨bs, hblocks⟩
        exact ⟨before, s.1, s.2, hds, hinside⟩
  · rintro ⟨before, subject, inside, hds, hinside⟩
    obtain ⟨bs, hblocks⟩ := exists_openBlocks_eq_cons_iff (b := ⟨.switch subject, inside⟩).2
      ⟨rfl, hinside, before, hds⟩
    obtain ⟨-, front, hfront, hlength⟩ := h.switches_closeBlock hblocks
    obtain ⟨frame, rfl⟩ := List.length_eq_one_iff.1 hlength
    exact ⟨frame, hfront⟩

end Tracks

/-- The statement for the case number `n` of a switch. -/
def caseStatement (subject : Text) (n : Nat) : Twig.Statement :=
  let condition := subject ++ ".index == ".toList ++ decimal n
  if n = 0 then .ifThen condition else .elseIf condition

/-- In every context that calls lead to, also between two pieces of a further text, the depths of
    the open switches grow from the outermost inwards, and each is the depth of an open conditional.
    An end removes at most one switch, and it removes one exactly when it matches the directive that
    opened it.  A case that is rendered has the subject of the innermost switch that no end has
    matched, and the number of the cases in front of it at which that switch was the innermost. -/
theorem switches_invariant (options : Options) (kind : TemplateKind) (tables : Tables)
    (calls : List TextCall) (content : Text) (k : Nat) :
    let fresh : Context := { options, kind, tables }
    let reached := TextCall.afterAll fresh calls
    let front := (conversionPieces content).take k
    let ctx := ((front.mapM convertPiece).run.run reached).2
    let ds := TextCall.renderedBy fresh calls ++ reached.renderedIn front
    (ctx.switches.Pairwise (fun inner outer => outer.depth < inner.depth) ∧
      ∀ frame ∈ ctx.switches, 1 ≤ frame.depth ∧ frame.depth ≤ ctx.blocks.depth ∧
        ctx.blocks.kinds.reverse[frame.depth - 1]? = some .conditional) ∧
    (∀ span, Directive.classify span = .endBlock →
      let ctx' := ((renderDirective span).run.run ctx).2
      (ctx'.switches = ctx.switches ∨ ∃ frame, ctx.switches = frame :: ctx'.switches) ∧
      ((∃ frame, ctx.switches = frame :: ctx'.switches) ↔
        ∃ before subject inside, ds = before ++ .switch subject :: inside ∧ Balanced inside)) ∧
    (∀ span out, Directive.classify span = .nextCase →
      ((renderDirective span).run.run ctx).1 = .ok out →
      ∃ before subject inside, ds = before ++ .switch subject :: inside ∧ Unclosed inside ∧
        NoSwitchOpen inside ∧ out = (caseStatement subject (ownCases inside)).text) := by
  intro fresh reached front ctx ds
  have hfresh : fresh.Tracks [] := tracks_nil rfl rfl
  have htracks : ctx.Tracks ds := (TextCall.tracks_afterAll hfresh calls).mapM_convertPiece front
  refine ⟨⟨htracks.pairwise_depth, fun frame => htracks.block_of_mem_switches⟩, ?_, ?_⟩
  · intro span hspan
    rw [renderDirective, hspan, renderClassified, Convert.run_nesting_bind_pure]
    exact ⟨htracks.switches_closeBlock_or, htracks.exists_removed_iff⟩
  · intro span out hspan hout
    rw [renderDirective, hspan, renderClassified, Convert.run_nesting_bind_pure] at hout
    cases hframes : ctx.switches with
    -- Without an open switch the case is an error.
    | nil =>
      simp only [Context.nextCase, hframes] at hout
      cases hout
    | cons frame frames =>
      simp only [Context.nextCase, hframes] at hout
      obtain ⟨before, inside, hds, hunclosed, hinner, hcases⟩ :=
        htracks.exists_of_switches_eq_cons hframes
      refine ⟨before, frame.subject, inside, hds, hunclosed, hinner, ?_⟩
      rw [← hcases, caseStatement]
      exact (Except.ok.inj hout).symm

/-- A failed end leaves nothing behind, and cases of a switch that was closed do not count for the
    one around it. -/
theorem switches_invariant_nested :
    let fresh : Context := { options := {}, kind := .document }
    let reached := TextCall.afterAll fresh [.directive "::end::".toList,
      .text "::switch a::::case::::switch b::::case::::case::::end::".toList]
    ((renderDirective "::case::".toList).run.run reached).1 =
        .ok "\x7b% elseif a.index == 1 %\x7d".toList ∧
      ∃ before subject inside,
        TextCall.renderedBy fresh [.directive "::end::".toList,
          .text "::switch a::::case::::switch b::::case::::case::::end::".toList] ++
            reached.renderedIn [] = before ++ .switch subject :: inside ∧ Unclosed inside ∧
        NoSwitchOpen inside ∧ "\x7b% elseif a.index == 1 %\x7d".toList =
          (caseStatement subject (ownCases inside)).text := by
  intro fresh reached
  have hout : ((renderDirective "::case::".toList).run.run reached).1 =
      .ok "\x7b% elseif a.index == 1 %\x7d".toList := by decide +kernel
  exact ⟨hout, (switches_invariant {} .document {} _ [] 0).2.2 _ _ (by decide +kernel) hout⟩

end Context

end TemploTwig
