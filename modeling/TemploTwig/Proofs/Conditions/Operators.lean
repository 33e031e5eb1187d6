import Mathlib.Data.List.TakeWhile
import TemploTwig.Proofs.Scanning
import TemploTwig.Proofs.Texts
import TemploTwig.Source.Condition

/-!
# Respelling one operator

Each pass of `Condition.toTwig` goes over the condition from left to right.  What it does at one
character depends only on what follows: a `!` stays when `=` or the end comes behind the blanks, and
a doubled sign takes the blanks on both sides with it.
-/

namespace TemploTwig

variable {c : Char} {t cs rest : Text}

namespace Condition

/-! ## Blanks and signs -/

/-- Blanks, or nothing. -/
abbrev Blanks := { t : Text // ∀ c ∈ t, isBlank c = true }

namespace Blanks

/-- No blanks. -/
def none : Blanks := ⟨[], fun _ h => absurd h List.not_mem_nil⟩

/-- One space. -/
def space : Blanks := ⟨[' '], fun _ h => List.mem_singleton.1 h ▸ rfl⟩

/-- The blanks at the front of a text. -/
def ofFront (t : Text) : Blanks := ⟨t.takeWhile isBlank, fun _ h => List.mem_takeWhile_imp h⟩

end Blanks

/-- The signs of which operators are made are no blanks. -/
theorem isBlank_of_sign (hc : c ∈ ['!', '&', '|']) : isBlank c = false := by
  simp only [List.mem_cons, List.not_mem_nil, or_false] at hc
  rcases hc with rfl | rfl | rfl <;> rfl

/-- No sign of an operator is among `Blanks`. -/
theorem Blanks.sign_not_mem (hc : c ∈ ['!', '&', '|']) (b : Blanks) : c ∉ b.1 := by
  intro hmem
  have hblank := b.2 c hmem
  rw [isBlank_of_sign hc] at hblank
  cases hblank

/-- Induction over a text from which a step takes a character, or one and the blanks behind it. -/
theorem dropBlanks_induction {motive : Text → Prop} (nil : motive [])
    (cons : ∀ c cs, motive cs → motive (cs.dropWhile isBlank) → motive (c :: cs)) (t : Text) :
    motive t := by
  induction hn : t.length using Nat.strongRecOn generalizing t with
  | ind n ih =>
    cases t with
    | nil => exact nil
    | cons c cs =>
      have hle := (List.dropWhile_suffix (l := cs) isBlank).length_le
      rw [List.length_cons] at hn
      exact cons c cs (ih _ (by omega) cs rfl) (ih _ (by omega) _ rfl)

/-! ## Negations -/

/-- Blanks, and then `=` or the end: a `!` in front of such a text is no negation. -/
def KeepsBang (t : Text) : Prop := ∃ b : Blanks, t = b.1 ∨ ∃ rest, t = b.1 ++ '=' :: rest

/-- `KeepsBang` as `spellNot` tests it. -/
theorem keepsBang_iff :
    KeepsBang t ↔
      ((t.dropWhile isBlank).isEmpty || Text.startsWith (t.dropWhile isBlank) ['=']) = true := by
  constructor
  · rintro ⟨b, rfl | ⟨rest, rfl⟩⟩
    · have hdrop : b.1.dropWhile isBlank = [] := List.dropWhile_eq_nil_iff.2 b.2
      simp [hdrop]
    · have hdrop : (b.1 ++ '=' :: rest).dropWhile isBlank = '=' :: rest :=
        Text.dropWhile_append b.2 fun c hc => Option.some.inj hc ▸ rfl
      simp [hdrop, Text.startsWith, Text.stripStart?]
  · intro h
    -- The blanks are those at the front; what follows them decides.
    refine ⟨.ofFront t, ?_⟩
    have hsplit : t.takeWhile isBlank ++ t.dropWhile isBlank = t := List.takeWhile_append_dropWhile
    cases hdrop : t.dropWhile isBlank with
    | nil =>
      left
      rw [hdrop, List.append_nil] at hsplit
      exact hsplit.symm
    | cons c cs =>
      right
      have hc : c = '=' := by
        by_cases hc : '=' = c
        · exact hc.symm
        · simp [hdrop, Text.startsWith, Text.stripStart?, hc] at h
      rw [hdrop, hc] at hsplit
      exact ⟨cs, hsplit.symm⟩

theorem spellNot_nil : spellNot [] = [] := by
  rw [spellNot, Recogniser.scan_nil]
  rfl

/-- `spellNot` keeps any other character. -/
theorem spellNot_cons_of_ne (hc : c ≠ '!') (cs : Text) : spellNot (c :: cs) = c :: spellNot cs := by
  have hnext : bang.next? (c :: cs) = none := by
    show takeBang? (c :: cs) = none
    unfold takeBang?
    split
    · next heq => exact absurd (List.cons.inj heq).1 hc
    · rfl
  rw [spellNot, Recogniser.scan_of_none hnext, Piece.renderAll_prepend]
  rfl

/-- `spellNot` keeps a text without `!`. -/
theorem spellNot_append_of_not_mem (h : '!' ∉ t) (rest : Text) :
    spellNot (t ++ rest) = t ++ spellNot rest := by
  induction t with
  | nil => rfl
  | cons c t ih =>
    rw [List.mem_cons, not_or] at h
    rw [List.cons_append, spellNot_cons_of_ne (Ne.symm h.1), ih h.2, List.cons_append]

/-- `spellNot` at a `!`. -/
private theorem spellNot_bang (cs : Text) :
    spellNot ('!' :: cs) =
      Bang.toTwig ⟨cs.takeWhile isBlank, !((cs.dropWhile isBlank).isEmpty ||
        Text.startsWith (cs.dropWhile isBlank) ['='])⟩ ++ spellNot (cs.dropWhile isBlank) := by
  have hnext : bang.next? ('!' :: cs) = some (⟨cs.takeWhile isBlank,
      !((cs.dropWhile isBlank).isEmpty || Text.startsWith (cs.dropWhile isBlank) ['='])⟩,
      cs.dropWhile isBlank) := rfl
  rw [spellNot, Recogniser.scan_of_some hnext, Piece.renderAll_cons]
  rfl

/-- `spellNot` spells a negation out, and drops the blanks behind it. -/
theorem spellNot_of_not_keepsBang (h : ¬KeepsBang cs) :
    spellNot ('!' :: cs) = "not ".toList ++ spellNot (cs.dropWhile isBlank) := by
  rw [keepsBang_iff, Bool.not_eq_true] at h
  rw [spellNot_bang, h]
  rfl

/-- `spellNot` keeps any other `!`. -/
theorem spellNot_of_keepsBang (h : KeepsBang cs) : spellNot ('!' :: cs) = '!' :: spellNot cs := by
  have hblanks : '!' ∉ cs.takeWhile isBlank :=
    (Blanks.ofFront cs).sign_not_mem (List.mem_cons_self ..)
  have hcs : spellNot cs = cs.takeWhile isBlank ++ spellNot (cs.dropWhile isBlank) := by
    rw [← spellNot_append_of_not_mem hblanks, List.takeWhile_append_dropWhile]
  rw [spellNot_bang, keepsBang_iff.1 h, hcs]
  rfl

/-! ## Conjunctions and disjunctions -/

section

variable {mark : Char} {word : Text}

/-- `takeOperator?` takes a doubled sign with the blanks on both sides. -/
theorem takeOperator?_eq_some_iff :
    takeOperator? mark t = some ((), rest) ↔
      ∃ r, t.dropWhile isBlank = mark :: mark :: r ∧ rest = r.dropWhile isBlank := by
  unfold takeOperator?
  constructor
  · intro h
    split at h
    · next a b r heq =>
      split at h
      · next hsigns =>
        obtain ⟨rfl, rfl⟩ := hsigns
        simp only [Option.some.injEq, Prod.mk.injEq, true_and] at h
        exact ⟨r, heq, h.symm⟩
      · cases h
    · cases h
  · rintro ⟨r, hdrop, rfl⟩
    rw [hdrop]
    simp

/-- `takeOperator?` leaves the end of the text. -/
theorem suffix_of_takeOperator? (h : takeOperator? mark t = some ((), rest)) : rest <:+ t := by
  obtain ⟨r, hdrop, rfl⟩ := takeOperator?_eq_some_iff.1 h
  have hsigns : mark :: mark :: r <:+ t := hdrop ▸ List.dropWhile_suffix isBlank
  have hr : r <:+ mark :: mark :: r := ⟨[mark, mark], rfl⟩
  exact ((List.dropWhile_suffix isBlank).trans hr).trans hsigns

/-- `takeOperator?` finds nothing in front of other characters. -/
theorem takeOperator?_eq_none (hmark : mark ∉ t)
    (hrest : t.dropWhile isBlank = [] → (rest.dropWhile isBlank).head? ≠ some mark) :
    takeOperator? mark (t ++ rest) = none := by
  have hhead : ((t ++ rest).dropWhile isBlank).head? ≠ some mark := by
    rw [List.dropWhile_append]
    cases hdrop : t.dropWhile isBlank with
    | nil => exact hrest hdrop
    | cons d ds =>
      -- The first character that is no blank stands in `t`.
      have hd : d ∈ t := (List.dropWhile_suffix isBlank).subset (hdrop ▸ List.mem_cons_self)
      exact fun heq => hmark (Option.some.inj heq ▸ hd)
  rw [Option.eq_none_iff_forall_ne_some]
  rintro ⟨⟨⟩, after⟩ hsome
  obtain ⟨r, hdrop, -⟩ := takeOperator?_eq_some_iff.1 hsome
  rw [hdrop] at hhead
  exact hhead rfl

theorem spellOperator_nil : spellOperator mark word [] = [] := by
  rw [spellOperator, Recogniser.scan_nil]
  rfl

/-- `spellOperator` puts the word in place of an operator. -/
theorem spellOperator_of_some (h : takeOperator? mark t = some ((), rest)) :
    spellOperator mark word t = word ++ spellOperator mark word rest := by
  cases t with
  | nil => cases h
  | cons c cs =>
    have hnext : (operator mark).next? (c :: cs) = some ((), rest) := h
    rw [spellOperator, Recogniser.scan_of_some hnext, Piece.renderAll_cons]
    rfl

/-- `spellOperator` keeps any other character. -/
theorem spellOperator_of_none (h : takeOperator? mark (c :: cs) = none) :
    spellOperator mark word (c :: cs) = c :: spellOperator mark word cs := by
  have hnext : (operator mark).next? (c :: cs) = none := h
  rw [spellOperator, Recogniser.scan_of_none hnext, Piece.renderAll_prepend]
  rfl

/-- `spellOperator` keeps a text that `Declines`. -/
theorem spellOperator_append (h : (operator mark).Declines t rest) :
    spellOperator mark word (t ++ rest) = t ++ spellOperator mark word rest := by
  induction t with
  | nil => rfl
  | cons c t ih =>
    obtain ⟨hfirst, ht⟩ := Recogniser.declines_cons_iff.1 h
    rw [List.cons_append] at hfirst ⊢
    rw [spellOperator_of_none hfirst, ih ht, List.cons_append]

/-- `spellOperator` keeps a text without the sign that does not end with a blank. -/
theorem spellOperator_of_last (hmark : mark ∉ t)
    (hlast : ∃ c, t.getLast? = some c ∧ isBlank c = false) (rest : Text) :
    spellOperator mark word (t ++ rest) = t ++ spellOperator mark word rest := by
  refine spellOperator_append fun front back ht hback => ?_
  have hmem : mark ∉ back := fun h => hmark (by rw [ht]; exact List.mem_append_right _ h)
  refine takeOperator?_eq_none hmem fun hdrop => ?_
  obtain ⟨c, hc, hblank⟩ := hlast
  rw [ht, List.getLast?_append, List.getLast?_eq_some_getLast hback, Option.some_or] at hc
  have hall := List.dropWhile_eq_nil_iff.1 hdrop c
    (Option.some.inj hc ▸ List.getLast_mem hback)
  rw [hblank] at hall
  cases hall

end

end Condition

end TemploTwig
