import TemploTwig.Placeholder.Family
import TemploTwig.Text.Number
import TemploTwig.Text.Scan

/-!
# Macro calls in running text

A macro call in running text is replaced by its token in double brackets.  The digits of the
token may be of any script, but only ASCII digits make an index.
-/

namespace TemploTwig

namespace MacroToken

/-- What stands in front of the digits. -/
def opening : Text := "[[TWIG_MACRO_".toList

/-- What stands behind the digits. -/
def closing : Text := "]]".toList

/-- The inline token of an index. -/
def ofIndex (index : Nat) : Text := "[[".toList ++ Family.macroCall.token index ++ closing

/-- The digits of the inline token at the front of a text, and what follows. -/
def take? (t : Text) : Option (Text × Text) :=
  (Text.stripStart? opening t).bind fun body =>
    let digits := body.takeWhile isAnyDigit
    if digits = [] then none
    else (Text.stripStart? closing (body.dropWhile isAnyDigit)).map fun rest => (digits, rest)

/-- A token and what follows it make up the text that it was taken from. -/
theorem take?_eq_append {t digits rest : Text} (h : take? t = some (digits, rest)) :
    t = opening ++ digits ++ closing ++ rest := by
  simp only [take?, Option.bind_eq_some_iff, Text.stripStart?_eq_some_iff] at h
  obtain ⟨body, rfl, h⟩ := h
  split at h
  · simp at h
  · simp only [Option.map_eq_some_iff, Text.stripStart?_eq_some_iff, Prod.mk.injEq] at h
    obtain ⟨r, hr, rfl, rfl⟩ := h
    have happ : body = body.takeWhile isAnyDigit ++ body.dropWhile isAnyDigit :=
      List.takeWhile_append_dropWhile.symm
    rw [hr] at happ
    simpa using happ

/-- Recognises inline tokens. -/
def recogniser : Recogniser Text where
  next? := take?
  shrinks h := by
    have opening_pos : 0 < opening.length := by decide
    have hlen := congrArg List.length (take?_eq_append h)
    simp only [List.length_append] at hlen
    omega

/-- The inline tokens of a text and the plain runs between them. -/
def scan (t : Text) : List (Piece Text) := recogniser.scan t

/-- The digits of the first inline token of a text. -/
def first? (t : Text) : Option Text :=
  (scan t).findSome? fun
    | .token digits => some digits
    | .plain _ => none

end MacroToken

end TemploTwig
