import TemploTwig.Text.Blank
import TemploTwig.Text.Scan

/-!
# Conditions

Conditions are written with `!`, `&&` and `||` in a template and with `not`, `and` and `or` in
Twig.  `Condition.toTwig` respells the operators in three passes, negations first, and leaves
everything else as it is.  A `!` in front of `=` or at the end of the condition is no negation.
-/

namespace TemploTwig

namespace Condition

/-- An exclamation mark with the blanks behind it. -/
structure Bang where
  /-- The blanks between the mark and what follows. -/
  blanks : Text
  /-- Does the mark negate what follows? -/
  negates : Bool
  deriving DecidableEq, Repr

/-- The text of a mark: a negation is spelled out, any other mark stays. -/
def Bang.toTwig (b : Bang) : Text :=
  if b.negates then "not ".toList else '!' :: b.blanks

/-- An exclamation mark at the front of a text. -/
def takeBang? : Text → Option (Bang × Text)
  | '!' :: cs =>
    -- In front of `=` the mark is half of `!=`, and at the end there is nothing to negate.
    let rest := cs.dropWhile isBlank
    some (⟨cs.takeWhile isBlank, !(rest.isEmpty || Text.startsWith rest ['='])⟩, rest)
  | _ => none

/-- Recognises exclamation marks. -/
def bang : Recogniser Bang where
  next? := takeBang?
  shrinks {t a rest} h := by
    unfold takeBang? at h
    split at h
    · next cs =>
      simp only [Option.some.injEq, Prod.mk.injEq] at h
      rw [← h.2]
      have := (List.dropWhile_suffix (l := cs) isBlank).length_le
      simp only [List.length_cons]
      omega
    · simp at h

/-- The doubled character `mark`, with the blanks on both sides, at the front of a text. -/
def takeOperator? (mark : Char) (t : Text) : Option (Unit × Text) :=
  match t.dropWhile isBlank with
  | a :: b :: rest => if a = mark ∧ b = mark then some ((), rest.dropWhile isBlank) else none
  | _ => none

/-- Recognises the operator that is written by doubling `mark`. -/
def operator (mark : Char) : Recogniser Unit where
  next? := takeOperator? mark
  shrinks {t a rest} h := by
    unfold takeOperator? at h
    split at h
    · next x y r heq =>
      split at h
      · simp only [Option.some.injEq, Prod.mk.injEq] at h
        rw [← h.2]
        have h₁ := (List.dropWhile_suffix (l := r) isBlank).length_le
        have h₂ := (List.dropWhile_suffix (l := t) isBlank).length_le
        rw [heq] at h₂
        simp only [List.length_cons] at h₂
        omega
      · simp at h
    · simp at h

/-- Spell out negations. -/
def spellNot (t : Text) : Text := Piece.renderAll Bang.toTwig (bang.scan t)

/-- Spell out the operator that is written by doubling `mark`. -/
def spellOperator (mark : Char) (word : Text) (t : Text) : Text :=
  Piece.renderAll (fun _ => word) ((operator mark).scan t)

/-- A condition in Twig's spelling. -/
def toTwig (condition : Text) : Text :=
  -- No pass brings in a character that a later one looks for.
  spellOperator '|' " or ".toList (spellOperator '&' " and ".toList (spellNot condition))

end Condition

end TemploTwig
