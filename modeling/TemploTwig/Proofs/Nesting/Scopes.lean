import TemploTwig.Proofs.Nesting.Matching

/-!
# Tags that nest

The blocks of directives are not the only scopes of a converted template.  A conditional element
and a macro definition print a tag in front of what they enclose and one behind it, and these tags
have to nest with the tags of the blocks.  The block stack knows nothing of the enclosures, so
whether the tags nest is decided by where the enclosures begin and end between the directives.

Key results: `WellNested`, `wellNested_iff_run`, `Tags.wellNested_iff`.
-/

namespace TemploTwig

/-! ## Brackets -/

/-- One of the two tags of a scope. -/
inductive Bracket (α : Type) where
  | opening (a : α)
  | closing (a : α)
  deriving DecidableEq, Repr

namespace Bracket

variable {α β : Type}

/-- The bracket of another scope. -/
def map (f : α → β) : Bracket α → Bracket β
  | opening a => opening (f a)
  | closing a => closing (f a)

/-- The scopes that are open behind some brackets, innermost first.  There are none when a bracket
    closes a scope that is not the innermost. -/
def run [DecidableEq α] : List α → List (Bracket α) → Option (List α)
  | scopes, [] => some scopes
  | scopes, opening a :: bs => run (a :: scopes) bs
  | a :: scopes, closing b :: bs => if a = b then run scopes bs else none
  | [], closing _ :: _ => none

end Bracket

/-- Every opening bracket is closed by the closing bracket of its scope. -/
inductive WellNested {α : Type} : List (Bracket α) → Prop
  | nil : WellNested []
  | pair {a : α} {inner rest : List (Bracket α)} (hinner : WellNested inner)
    (hrest : WellNested rest) : WellNested (.opening a :: inner ++ .closing a :: rest)

namespace WellNested

variable {α β : Type} {bs cs : List (Bracket α)}

/-- `WellNested` brackets may follow each other. -/
theorem append (hbs : WellNested bs) (hcs : WellNested cs) : WellNested (bs ++ cs) := by
  induction hbs with
  | nil => exact hcs
  | pair hinner _ _ ih =>
    rw [List.append_assoc, List.cons_append]
    exact .pair hinner ih

/-- Forgetting differences between scopes leaves brackets nested. -/
theorem map (h : WellNested bs) (f : α → β) : WellNested (bs.map (Bracket.map f)) := by
  induction h with
  | nil => exact .nil
  | pair _ _ ihinner ihrest =>
    rw [List.map_append, List.map_cons, List.map_cons]
    exact .pair ihinner ihrest

/-- `Bracket.run` skips well nested brackets. -/
theorem run_append [DecidableEq α] (h : WellNested bs) (scopes : List α) (cs : List (Bracket α)) :
    Bracket.run scopes (bs ++ cs) = Bracket.run scopes cs := by
  induction h generalizing scopes cs with
  | nil => rfl
  | pair _ _ ihinner ihrest =>
    rw [List.append_assoc, List.cons_append, List.cons_append, Bracket.run, ihinner, Bracket.run,
      if_pos rfl, ihrest]

end WellNested

/-- The brackets close the scopes one after the other, and what stands between is nested. -/
inductive ClosesAll {α : Type} : List α → List (Bracket α) → Prop
  | nil {bs : List (Bracket α)} (h : WellNested bs) : ClosesAll [] bs
  | cons {a : α} {scopes : List α} {bs cs : List (Bracket α)} (hbs : WellNested bs)
    (hcs : ClosesAll scopes cs) : ClosesAll (a :: scopes) (bs ++ .closing a :: cs)

/-- `ClosesAll` allows well nested brackets in front. -/
theorem ClosesAll.prepend {α : Type} {scopes : List α} {bs cs : List (Bracket α)}
    (hbs : WellNested bs) (hcs : ClosesAll scopes cs) : ClosesAll scopes (bs ++ cs) := by
  cases hcs with
  | nil h => exact .nil (hbs.append h)
  | cons h hrest =>
    rw [← List.append_assoc]
    exact .cons (hbs.append h) hrest

/-- `ClosesAll` is what `Bracket.run` accepts. -/
theorem closesAll_of_run {α : Type} [DecidableEq α] {scopes : List α} {bs : List (Bracket α)}
    (h : Bracket.run scopes bs = some []) : ClosesAll scopes bs := by
  fun_induction Bracket.run scopes bs with
  | case1 scopes =>
    obtain rfl := Option.some.inj h
    exact .nil .nil
  | case2 scopes a bs ih =>
    -- The new scope is closed somewhere behind, and is a pair up to there.
    cases ih h with
    | cons hinner hrest =>
      have hclosed := ClosesAll.prepend (WellNested.pair (a := a) hinner .nil) hrest
      rwa [List.append_assoc, List.cons_append] at hclosed
  | case3 a scopes bs ih => exact .cons .nil (ih h)
  | case4 => cases h
  | case5 => cases h

/-- Brackets are well nested exactly when a stack accepts them. -/
theorem wellNested_iff_run {α : Type} [DecidableEq α] {bs : List (Bracket α)} :
    WellNested bs ↔ Bracket.run [] bs = some [] := by
  constructor
  · intro h
    have := h.run_append [] []
    rwa [List.append_nil] at this
  · intro h
    cases closesAll_of_run h with
    | nil h => exact h

instance {α : Type} [DecidableEq α] : DecidablePred (WellNested (α := α)) :=
  fun _ => decidable_of_iff _ wellNested_iff_run.symm

/-! ## Scopes and marks -/

/-- What prints a tag in front of its content and one behind it without opening a block. -/
inductive Enclosure where
  /-- An element that is shown under a condition. -/
  | guard
  /-- The definition of a macro. -/
  | definition
  deriving DecidableEq, Repr

/-- What the tags of a template belong to. -/
inductive Scope where
  | block (kind : BlockKind)
  | enclosure (e : Enclosure)
  deriving DecidableEq, Repr

/-- The keyword of the tag that opens the scope. -/
def Scope.keyword : Scope → Text
  | block kind => kind.keyword
  | enclosure .guard => BlockKind.conditional.keyword
  | enclosure .definition => "macro".toList

/-- What decides about the tags of a template, in document order. -/
inductive Mark where
  | directive (d : Directive)
  | enter (e : Enclosure)
  | leave (e : Enclosure)
  deriving DecidableEq, Repr

/-- The tags that are printed for marks, from the blocks that are open before them to those that
    are open behind them.  A definition is only left when no block is open. -/
inductive Tags : List BlockKind → List Mark → List (Bracket Scope) → List BlockKind → Prop
  | nil {kinds : List BlockKind} : Tags kinds [] [] kinds
  | opener {d : Directive} {kind : BlockKind} {kinds kinds' : List BlockKind} {ms : List Mark}
    {bs : List (Bracket Scope)} (hkind : d.blockKind? = some kind)
    (hms : Tags (kind :: kinds) ms bs kinds') :
    Tags kinds (.directive d :: ms) (.opening (.block kind) :: bs) kinds'
  | endBlock {kind : BlockKind} {kinds kinds' : List BlockKind} {ms : List Mark}
    {bs : List (Bracket Scope)} (hms : Tags kinds ms bs kinds') :
    Tags (kind :: kinds) (.directive .endBlock :: ms) (.closing (.block kind) :: bs) kinds'
  | other {d : Directive} {kinds kinds' : List BlockKind} {ms : List Mark}
    {bs : List (Bracket Scope)} (hd : ¬d.IsOpener) (hend : d ≠ .endBlock)
    (hms : Tags kinds ms bs kinds') : Tags kinds (.directive d :: ms) bs kinds'
  | enter {e : Enclosure} {kinds kinds' : List BlockKind} {ms : List Mark}
    {bs : List (Bracket Scope)} (hms : Tags kinds ms bs kinds') :
    Tags kinds (.enter e :: ms) (.opening (.enclosure e) :: bs) kinds'
  | leave {e : Enclosure} {kinds kinds' : List BlockKind} {ms : List Mark}
    {bs : List (Bracket Scope)} (hclosed : e = .definition → kinds = [])
    (hms : Tags kinds ms bs kinds') :
    Tags kinds (.leave e :: ms) (.closing (.enclosure e) :: bs) kinds'

/-- `Tags` of marks behind each other are put together. -/
theorem Tags.append {kinds kinds' kinds'' : List BlockKind} {ms ms' : List Mark}
    {bs bs' : List (Bracket Scope)} (h : Tags kinds ms bs kinds') (h' : Tags kinds' ms' bs' kinds'') :
    Tags kinds (ms ++ ms') (bs ++ bs') kinds'' := by
  induction h with
  | nil => exact h'
  | opener hkind _ ih => exact .opener hkind (ih h')
  | endBlock _ ih => exact .endBlock (ih h')
  | other hd hend _ ih => exact .other hd hend (ih h')
  | enter _ ih => exact .enter (ih h')
  | leave hclosed _ ih => exact .leave hclosed (ih h')

/-! ## Blocks and enclosures -/

/-- The blocks that are open inside the innermost enclosure, and for each enclosure from there
    outwards the blocks that were open when it began. -/
abbrev Levels := Nat × List (Enclosure × Nat)

namespace Mark

/-- The levels behind some marks.  There are none when an end has no block to close inside its
    enclosure, or an enclosure is left with a block open or is not the innermost. -/
def run : Levels → List Mark → Option Levels
  | levels, [] => some levels
  | (n, outer), directive d :: ms =>
    if d.IsOpener then run (n + 1, outer) ms
    else if d = .endBlock then (if n = 0 then none else run (n - 1, outer) ms)
    else run (n, outer) ms
  | (n, outer), enter e :: ms => run (0, (e, n) :: outer) ms
  | (n, (e', m) :: outer), leave e :: ms => if n = 0 ∧ e' = e then run (m, outer) ms else none
  | (_, []), leave _ :: _ => none

/-- `Levels.run` goes on where the first marks end. -/
theorem run_append (levels : Levels) (ms ms' : List Mark) :
    run levels (ms ++ ms') = (run levels ms).bind (run · ms') := by
  fun_induction run levels ms with
  | case1 => rfl
  | case2 n outer d ms hopen ih => rw [List.cons_append, run, if_pos hopen, ih]
  | case3 outer ms hopen =>
    rw [List.cons_append, run, if_neg hopen, if_pos rfl, if_pos rfl]
    rfl
  | case4 n outer ms hopen hn ih =>
    rw [List.cons_append, run, if_neg hopen, if_pos rfl, if_neg hn, ih]
  | case5 n outer d ms hopen hend ih => rw [List.cons_append, run, if_neg hopen, if_neg hend, ih]
  | case6 n outer e ms ih => rw [List.cons_append, run, ih]
  | case7 n e' m outer e ms h ih => rw [List.cons_append, run, if_pos h, ih]
  | case8 n e' m outer e ms h => rw [List.cons_append, run, if_neg h]; rfl
  | case9 => rfl

/-- Without enclosures, marks are directives, and only the depth changes. -/
theorem run_map_directive (n : Nat) (outer : List (Enclosure × Nat)) (ds : List Directive) :
    run (n, outer) (ds.map directive) = (depthAfter? n ds).map (·, outer) := by
  induction ds generalizing n with
  | nil => rfl
  | cons d ds ih =>
    rw [List.map_cons, run, depthAfter?]
    split
    · exact ih (n + 1)
    · split
      · split
        · rfl
        · exact ih (n - 1)
      · exact ih n

end Mark

/-- The scopes that are open at these levels, when `kinds` are the open blocks. -/
inductive Stands : List Scope → Levels → List BlockKind → Prop
  | nil : Stands [] (0, []) []
  | block {scopes : List Scope} {n : Nat} {outer : List (Enclosure × Nat)} {kind : BlockKind}
    {kinds : List BlockKind} (h : Stands scopes (n, outer) kinds) :
    Stands (.block kind :: scopes) (n + 1, outer) (kind :: kinds)
  | enclosure {scopes : List Scope} {n : Nat} {outer : List (Enclosure × Nat)} {e : Enclosure}
    {kinds : List BlockKind} (h : Stands scopes (n, outer) kinds) :
    Stands (.enclosure e :: scopes) (0, (e, n) :: outer) kinds

/-- No scope is open exactly when there is no enclosure and no block. -/
theorem Stands.eq_nil_iff {scopes : List Scope} {levels : Levels} {kinds : List BlockKind}
    (h : Stands scopes levels kinds) : scopes = [] ↔ levels = (0, []) := by
  cases h with
  | nil => exact ⟨fun _ => rfl, fun _ => rfl⟩
  | block _ => simp
  | enclosure _ => simp

/-- A stack follows the printed tags as the levels follow the marks. -/
theorem Tags.run_eq {kinds kinds' : List BlockKind} {ms : List Mark} {bs : List (Bracket Scope)}
    (h : Tags kinds ms bs kinds') {scopes : List Scope} {levels : Levels}
    (hstands : Stands scopes levels kinds) :
    (Bracket.run scopes bs = none ∧ Mark.run levels ms = none) ∨
      ∃ scopes' levels', Bracket.run scopes bs = some scopes' ∧
        Mark.run levels ms = some levels' ∧ Stands scopes' levels' kinds' := by
  induction h generalizing scopes levels with
  | nil => exact .inr ⟨scopes, levels, rfl, rfl, hstands⟩
  | @opener d kind _ _ ms bs hkind _ ih =>
    have hopen : d.IsOpener := by rw [Directive.IsOpener, hkind]; rfl
    rw [Bracket.run, Mark.run, if_pos hopen]
    exact ih hstands.block
  | endBlock _ ih =>
    rw [Mark.run.eq_def]
    -- An end closes the innermost scope if that is a block, and fails in both runs if not.
    simp only [if_neg not_isOpener_endBlock, if_true]
    cases hstands with
    | block h => simpa [Bracket.run] using ih h
    | enclosure _ => exact .inl ⟨by simp [Bracket.run], rfl⟩
  | other hd hend _ ih =>
    rw [Mark.run, if_neg hd, if_neg hend]
    exact ih hstands
  | enter _ ih =>
    rw [Bracket.run, Mark.run]
    exact ih hstands.enclosure
  | @leave e _ _ ms bs _ _ ih =>
    cases hstands with
    | nil => exact .inl ⟨rfl, rfl⟩
    -- No enclosure is left over an open block.
    | @block _ _ outer _ _ h =>
      refine .inl ⟨by simp [Bracket.run], ?_⟩
      cases outer with
      | nil => rfl
      | cons => simp [Mark.run]
    | @enclosure _ _ _ e' _ h =>
      by_cases he : e' = e
      · subst he
        simpa [Bracket.run, Mark.run] using ih h
      · exact .inl ⟨by simp [Bracket.run, he], by simp [Mark.run, he]⟩

/-- The printed tags are well nested exactly when every enclosure closes the blocks that it opens,
    and no others. -/
theorem Tags.wellNested_iff {kinds : List BlockKind} {ms : List Mark} {bs : List (Bracket Scope)}
    (h : Tags [] ms bs kinds) : WellNested bs ↔ Mark.run (0, []) ms = some (0, []) := by
  rw [wellNested_iff_run]
  rcases h.run_eq .nil with ⟨hbs, hms⟩ | ⟨scopes, levels, hbs, hms, hstands⟩
  · rw [hbs, hms]
    simp
  · rw [hbs, hms, Option.some.injEq, Option.some.injEq]
    exact hstands.eq_nil_iff

/-- A sequence of directives that closes what it opens is balanced. -/
theorem balanced_iff_depthAfter? {ds : List Directive} :
    Balanced ds ↔ depthAfter? 0 ds = some 0 := by
  constructor
  · intro h
    exact (Leaves.balanced h).depthAfter?_eq 0
  · intro h
    obtain ⟨openers, hleaves⟩ := unclosed_iff_exists_leaves.1
      (unclosed_iff_depthAfter?.2 (by rw [h]; rfl))
    rw [hleaves.depthAfter?_eq, Option.some.injEq, Nat.zero_add, List.length_eq_zero_iff] at h
    rw [h] at hleaves
    exact hleaves.balanced_of_nil

instance : DecidablePred Balanced := fun _ => decidable_of_iff _ balanced_iff_depthAfter?.symm

end TemploTwig
