import TemploTwig.Text.Basic

/-!
# Quotes

Attribute values and template paths may stand between double or single quotes.
-/

namespace TemploTwig

/-- A kind of quotation mark. -/
inductive Quote where
  | double
  | single
  deriving DecidableEq, Repr

namespace Quote

/-- The mark itself. -/
def char : Quote → Char
  | double => '"'
  | single => '\''

/-- The quote that a character is, if it is one. -/
def ofChar? (c : Char) : Option Quote :=
  if c = '"' then some double else if c = '\'' then some single else none

/-- The text between two marks of this kind. -/
def enclose (q : Quote) (t : Text) : Text := q.char :: t ++ [q.char]

/-- The quotes around a text and the text between them.  One mark alone encloses nothing. -/
def enclosed? (t : Text) : Option (Quote × Text) :=
  match Text.stripBoth? [double.char] t with
  | some inner => some (double, inner)
  | none => (Text.stripBoth? [single.char] t).map fun inner => (single, inner)

/-- A text without the quotes around it, if there are any. -/
def unquote (t : Text) : Text := ((enclosed? t).map Prod.snd).getD t

@[simp] theorem ofChar?_char (q : Quote) : ofChar? q.char = some q := by
  cases q <;> rfl

theorem ofChar?_eq_some_iff {c : Char} {q : Quote} : ofChar? c = some q ↔ c = q.char := by
  constructor
  · intro h
    unfold ofChar? at h
    split at h
    · next hc => simp only [Option.some.injEq] at h; subst h; exact hc
    · split at h
      · next hc => simp only [Option.some.injEq] at h; subst h; exact hc
      · simp at h
  · rintro rfl
    exact ofChar?_char q

end Quote

end TemploTwig
