import TemploTwig.Text.Blank
import TemploTwig.Text.Scan

/-!
# Directive spans

A directive stands between two pairs of colons on one line, `::body::`.  The first pair of
colons behind the opening one closes it, and the body is not blank.

* `Span.take?`: the span at the front of a text
* `Span.scan`: all spans of a text, and the plain runs between them
* `Span.body`: a span without its delimiters
* `Span.printed` every span turned into a Twig print statement
-/

namespace TemploTwig

namespace Span

/-- The delimiter on both sides of a directive. -/
def delimiter : Text := [':', ':']

/-- Read on to the closing delimiter on the same line: the body and what follows. -/
def close? : Text → Option (Text × Text)
  | [] => none
  -- A directive does not go on behind the end of its line.
  | '\n' :: _ => none
  | ':' :: ':' :: rest => some ([], rest)
  | c :: cs => (close? cs).map fun (body, rest) => (c :: body, rest)

/-- The span with a given body. -/
def ofBody (body : Text) : Text := delimiter ++ body ++ delimiter

/-- The span at the front of a text, delimiters included, and what follows. -/
def take? : Text → Option (Text × Text)
  | ':' :: ':' :: cs =>
    (close? cs).bind fun (body, rest) =>
      -- Four colons in a row are no directive, and blanks between them make none.
      if body.isBlankText then none else some (ofBody body, rest)
  | _ => none

/-- A span without its delimiters.  A text without both delimiters is its own body. -/
def body (span : Text) : Text := (Text.stripBoth? delimiter span).getD span

theorem close?_eq_append {t body rest : Text} (h : close? t = some (body, rest)) :
    t = body ++ delimiter ++ rest := by
  fun_induction close? t generalizing body rest with
  | case1 => simp at h
  | case2 => simp at h
  | case3 r => simp at h; obtain ⟨rfl, rfl⟩ := h; simp [delimiter]
  | case4 c cs _ _ ih =>
    simp only [Option.map_eq_some_iff, Prod.exists, Prod.mk.injEq] at h
    obtain ⟨b, r, hc, rfl, rfl⟩ := h
    simp [ih hc]

/-- A span and what follows it make up the text that it was taken from. -/
theorem take?_eq_append {t span rest : Text} (h : take? t = some (span, rest)) :
    t = span ++ rest := by
  unfold take? at h
  split at h
  · simp only [Option.bind_eq_some_iff, Prod.exists] at h
    obtain ⟨b, r, hc, hif⟩ := h
    split at hif
    · simp at hif
    · simp only [Option.some.injEq, Prod.mk.injEq] at hif
      obtain ⟨rfl, rfl⟩ := hif
      simp [ofBody, delimiter, close?_eq_append hc]
  · simp at h

/-- A span is not empty. -/
theorem take?_ne_nil {t span rest : Text} (h : take? t = some (span, rest)) : span ≠ [] := by
  unfold take? at h
  split at h
  · simp only [Option.bind_eq_some_iff, Prod.exists] at h
    obtain ⟨b, r, hc, hif⟩ := h
    split at hif
    · simp at hif
    · simp only [Option.some.injEq, Prod.mk.injEq] at hif
      obtain ⟨rfl, rfl⟩ := hif
      simp [ofBody, delimiter]
  · simp at h

/-- Recognises directive spans. -/
def recogniser : Recogniser Text where
  next? := take?
  shrinks h := by
    have := List.length_pos_iff.2 (take?_ne_nil h)
    rw [take?_eq_append h, List.length_append]
    omega

/-- The directive spans of a text and the plain runs between them. -/
def scan (t : Text) : List (Piece Text) := recogniser.scan t

end Span

end TemploTwig
