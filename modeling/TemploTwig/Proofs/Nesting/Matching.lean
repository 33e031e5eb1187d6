import TemploTwig.Proofs.OpenBlocks

/-!
# Bracket matching of directives

Openers and ends match like brackets.  An end matches the opener in front of it when what stands
between them is balanced; an opener that no end matches stays unmatched.  None of this mentions a
stack: that the unmatched openers grow and shrink like one, end by end, is proved.

Key results: `Balanced`, `Unclosed`, `unmatched`, `unclosed_iff_exists_leaves`,
`Leaves.concat_opener`, `Leaves.concat_other`, `Leaves.concat_endBlock`, `Leaves.unmatched_eq`,
`MatchedBy.getLast?_unmatched`.
-/

namespace TemploTwig

open Directive (IsOpener)

/-- A sequence in which every opener and every end is matched. -/
inductive Balanced : List Directive → Prop
  | nil : Balanced []
  | other {d : Directive} {rest : List Directive} (hd : ¬d.IsOpener) (hend : d ≠ .endBlock)
    (hrest : Balanced rest) : Balanced (d :: rest)
  | block {opener : Directive} {inner rest : List Directive} (hopener : opener.IsOpener)
    (hinner : Balanced inner) (hrest : Balanced rest) :
    Balanced (opener :: inner ++ .endBlock :: rest)

/-- No end in the sequence matches an opener in front of it. -/
def Unclosed (ds : List Directive) : Prop :=
  ∀ inner after, ds = inner ++ .endBlock :: after → ¬Balanced inner

namespace Balanced

variable {ds es : List Directive}

/-- `Balanced` sequences may follow each other. -/
theorem append (hds : Balanced ds) (hes : Balanced es) : Balanced (ds ++ es) := by
  induction hds with
  | nil => exact hes
  | other hd hend _ ih => exact .other hd hend ih
  | block hopener hinner _ _ ih =>
    rw [List.append_assoc, List.cons_append]
    exact .block hopener hinner ih

theorem singleton {d : Directive} (hd : ¬d.IsOpener) (hend : d ≠ .endBlock) : Balanced [d] :=
  .other hd hend .nil

end Balanced

/-- The number of blocks that are open after a sequence, from `n` of them on.  There is none when
    an end has no block to close. -/
def depthAfter? : Nat → List Directive → Option Nat
  | n, [] => some n
  | n, d :: ds =>
    if d.IsOpener then depthAfter? (n + 1) ds
    else if d = .endBlock then (if n = 0 then none else depthAfter? (n - 1) ds)
    else depthAfter? n ds

theorem not_isOpener_endBlock : ¬Directive.endBlock.IsOpener := by decide

theorem depthAfter?_zero_endBlock (ds : List Directive) :
    depthAfter? 0 (.endBlock :: ds) = none := by
  rw [depthAfter?, if_neg not_isOpener_endBlock, if_pos rfl, if_pos rfl]

/-- `depthAfter?` of a balanced sequence is the depth before it. -/
theorem Balanced.depthAfter?_append {ds : List Directive} (h : Balanced ds) (n : Nat)
    (es : List Directive) : depthAfter? n (ds ++ es) = depthAfter? n es := by
  induction h generalizing n es with
  | nil => rfl
  | other hd hend _ ih => rw [List.cons_append, depthAfter?, if_neg hd, if_neg hend, ih]
  | block hopener _ _ ihinner ihrest =>
    rw [List.append_assoc, List.cons_append, List.cons_append, depthAfter?, if_pos hopener,
      ihinner, depthAfter?, if_neg not_isOpener_endBlock, if_pos rfl, if_neg (Nat.succ_ne_zero n)]
    exact ihrest n es

/-- Every end of the sequence is matched, and `openers` are the openers that are not, the outermost
    first. -/
inductive Leaves : List Directive → (openers : List Directive) → Prop
  | balanced {ds : List Directive} (h : Balanced ds) : Leaves ds []
  | opener {ds rest openers : List Directive} {d : Directive} (hds : Balanced ds)
    (hd : d.IsOpener) (hrest : Leaves rest openers) : Leaves (ds ++ d :: rest) (d :: openers)

namespace Leaves

variable {ds openers : List Directive} {d : Directive}

/-- `depthAfter?` adds the openers that are left. -/
theorem depthAfter?_eq (h : Leaves ds openers) (n : Nat) :
    depthAfter? n ds = some (n + openers.length) := by
  induction h generalizing n with
  | balanced h =>
    have := h.depthAfter?_append n []
    rwa [List.append_nil] at this
  | opener hds hd _ ih =>
    rw [hds.depthAfter?_append, depthAfter?, if_pos hd, ih, List.length_cons]
    congr 1
    omega

theorem balanced_of_nil (h : Leaves ds []) : Balanced ds := by
  cases h with
  | balanced h => exact h

/-- One more opener is one more unmatched opener. -/
theorem concat_opener (h : Leaves ds openers) (hd : d.IsOpener) :
    Leaves (ds ++ [d]) (openers ++ [d]) := by
  induction h with
  | balanced h => exact .opener h hd (.balanced .nil)
  | opener hds hd' _ ih =>
    rw [List.append_assoc, List.cons_append]
    exact .opener hds hd' ih

/-- A directive that is no bracket changes nothing. -/
theorem concat_other (h : Leaves ds openers) (hd : ¬d.IsOpener) (hend : d ≠ .endBlock) :
    Leaves (ds ++ [d]) openers := by
  induction h with
  | balanced h => exact .balanced (h.append (.singleton hd hend))
  | opener hds hd' _ ih =>
    rw [List.append_assoc, List.cons_append]
    exact .opener hds hd' ih

/-- An end matches the innermost unmatched opener. -/
theorem concat_endBlock (h : Leaves ds openers) (hne : openers ≠ []) :
    Leaves (ds ++ [.endBlock]) openers.dropLast := by
  induction h with
  | balanced _ => exact absurd rfl hne
  | @opener ds rest openers d hds hd hrest ih =>
    rw [List.append_assoc, List.cons_append]
    -- If nothing is unmatched behind the opener, the end matches it; otherwise one further in.
    cases hrest with
    | balanced hrest => exact .balanced (hds.append (.block hd hrest .nil))
    | opener hds' hd' hrest' =>
      rw [List.dropLast_cons_of_ne_nil (by simp)]
      exact .opener hds hd (ih (by simp))

/-- In such a sequence no end is left to match an opener in front of it. -/
theorem unclosed (h : Leaves ds openers) : Unclosed ds := by
  rintro inner after rfl hinner
  -- An end behind a balanced sequence would close a block where none is open.
  have hdepth := h.depthAfter?_eq 0
  rw [hinner.depthAfter?_append, depthAfter?_zero_endBlock] at hdepth
  cases hdepth

end Leaves

/-- Either every end is matched, or the first that is not stands behind a balanced sequence. -/
theorem exists_leaves_or_exists_endBlock (ds : List Directive) :
    (∃ openers, Leaves ds openers) ∨
      ∃ inner after, ds = inner ++ .endBlock :: after ∧ Balanced inner := by
  -- From the front to the back: each directive is added behind what is already decomposed.
  suffices h : ∀ rs : List Directive, (∃ openers, Leaves rs.reverse openers) ∨
      ∃ inner after, rs.reverse = inner ++ .endBlock :: after ∧ Balanced inner by
    have := h ds.reverse
    rwa [List.reverse_reverse] at this
  intro rs
  induction rs with
  | nil => exact .inl ⟨[], .balanced .nil⟩
  | cons d rs ih =>
    rw [List.reverse_cons]
    rcases ih with ⟨openers, h⟩ | ⟨inner, after, h, hinner⟩
    · by_cases hopen : d.IsOpener
      · exact .inl ⟨_, h.concat_opener hopen⟩
      · by_cases hend : d = .endBlock
        · subst hend
          by_cases hne : openers = []
          · subst hne
            exact .inr ⟨rs.reverse, [], rfl, h.balanced_of_nil⟩
          · exact .inl ⟨_, h.concat_endBlock hne⟩
        · exact .inl ⟨_, h.concat_other hopen hend⟩
    · exact .inr ⟨inner, after ++ [d], by rw [h, List.append_assoc]; rfl, hinner⟩

/-- `Unclosed` says that some openers are left, and no end. -/
theorem unclosed_iff_exists_leaves {ds : List Directive} :
    Unclosed ds ↔ ∃ openers, Leaves ds openers := by
  constructor
  · intro h
    rcases exists_leaves_or_exists_endBlock ds with hleaves | ⟨inner, after, hds, hinner⟩
    · exact hleaves
    · exact absurd hinner (h inner after hds)
  · rintro ⟨openers, h⟩
    exact h.unclosed

/-- `Unclosed` says that the depth never falls below its start. -/
theorem unclosed_iff_depthAfter? {ds : List Directive} :
    Unclosed ds ↔ (depthAfter? 0 ds).isSome = true := by
  constructor
  · intro h
    obtain ⟨openers, hleaves⟩ := unclosed_iff_exists_leaves.1 h
    rw [hleaves.depthAfter?_eq]
    rfl
  · rintro h inner after rfl hinner
    rw [hinner.depthAfter?_append, depthAfter?_zero_endBlock] at h
    cases h

instance : DecidablePred Unclosed := fun _ => decidable_of_iff _ unclosed_iff_depthAfter?.symm

/-- The openers that no end matches, the outermost first. -/
def unmatched : List Directive → List Directive
  | [] => []
  | d :: ds => if d.IsOpener ∧ Unclosed ds then d :: unmatched ds else unmatched ds

/-- Nothing in a balanced sequence is unmatched. -/
theorem Balanced.unmatched_append {ds : List Directive} (h : Balanced ds) (es : List Directive) :
    unmatched (ds ++ es) = unmatched es := by
  induction h generalizing es with
  | nil => rfl
  | other hd _ _ ih => rw [List.cons_append, unmatched, if_neg fun h => hd h.1, ih]
  | @block opener inner rest _ hinner _ ihinner ihrest =>
    -- The end of the block matches its opener, so the opener is not counted.
    have hclosed : ¬Unclosed (inner ++ .endBlock :: (rest ++ es)) :=
      fun h => h inner (rest ++ es) rfl hinner
    rw [List.append_assoc, List.cons_append, List.cons_append, unmatched,
      if_neg fun h => hclosed h.2, ihinner, unmatched, if_neg fun h => not_isOpener_endBlock h.1,
      ihrest]

/-- `unmatched` are the openers that are left. -/
theorem Leaves.unmatched_eq {ds openers : List Directive} (h : Leaves ds openers) :
    unmatched ds = openers := by
  induction h with
  | balanced h =>
    have := h.unmatched_append []
    rwa [List.append_nil] at this
  | opener hds hd hrest ih =>
    rw [hds.unmatched_append, unmatched, if_pos ⟨hd, hrest.unclosed⟩, ih]

/-- The openers behind a point stay the innermost ones. -/
theorem unmatched_suffix (ds es : List Directive) : unmatched es <:+ unmatched (ds ++ es) := by
  induction ds with
  | nil => exact List.suffix_rfl
  | cons d ds ih =>
    rw [List.cons_append, unmatched]
    split
    · exact ih.trans (List.suffix_cons _ _)
    · exact ih

/-- An end behind `front` matches the opener: what stands between them is balanced. -/
def MatchedBy (front : List Directive) (opener : Directive) : Prop :=
  opener.IsOpener ∧ ∃ before inner, front = before ++ opener :: inner ∧ Balanced inner

/-- The opener that an end matches is the innermost that is unmatched. -/
theorem MatchedBy.getLast?_unmatched {front : List Directive} {opener : Directive}
    (h : MatchedBy front opener) : (unmatched front).getLast? = some opener := by
  obtain ⟨hopener, before, inner, rfl, hinner⟩ := h
  -- Between the opener and the end everything is matched, so the opener is the last one left.
  have hlast : unmatched (opener :: inner) = [opener] :=
    (Leaves.opener .nil hopener (.balanced hinner)).unmatched_eq
  obtain ⟨others, hothers⟩ := unmatched_suffix before (opener :: inner)
  rw [← hothers, hlast]
  simp

/-- The innermost unmatched opener is matched by an end that comes next. -/
theorem Leaves.matchedBy {ds openers : List Directive} {d : Directive} (h : Leaves ds openers)
    (hlast : openers.getLast? = some d) : MatchedBy ds d := by
  induction h with
  | balanced _ => cases hlast
  | @opener ds rest openers d' hds hd hrest ih =>
    cases openers with
    | nil =>
      obtain rfl : d' = d := by simpa using hlast
      exact ⟨hd, ds, rest, rfl, hrest.balanced_of_nil⟩
    | cons o openers =>
      rw [List.getLast?_cons_cons] at hlast
      obtain ⟨hopener, before, inner, rfl, hinner⟩ := ih hlast
      exact ⟨hopener, ds ++ d' :: before, inner, by simp, hinner⟩

end TemploTwig
