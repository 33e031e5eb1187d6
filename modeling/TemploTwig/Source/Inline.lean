import TemploTwig.Source.Group
import TemploTwig.Source.Span

/-!
# Inline constructs

Two constructs of the template language may stand in running text and between the attributes
of a start tag: a directive span `::…::` and a macro call `$$name(arguments)`.
-/

namespace TemploTwig

/-- A macro call. -/
structure MacroCall where
  name : Text
  /-- The text between the outer parentheses. -/
  arguments : Text
  deriving DecidableEq, Repr

namespace MacroCall

/-- The call as it is written. -/
def source (call : MacroCall) : Text := "$$".toList ++ call.name ++ '(' :: call.arguments ++ [')']

/-- May the character stand in a macro's name? -/
def isNameChar (c : Char) : Bool := c.isAlphanum || c == '_'

/-- The call at the front of a text, and what follows. -/
def take? : Text → Option (MacroCall × Text)
  | '$' :: '$' :: cs =>
    let name := cs.takeWhile isNameChar
    -- `$$(` is no call.
    if name = [] then none
    else (Group.take? (cs.dropWhile isNameChar)).map fun group => (⟨name, group.inner⟩, group.rest)
  | _ => none

/-- A call and what follows it make up the text that it was taken from. -/
theorem take?_eq_append {t rest : Text} {call : MacroCall} (h : take? t = some (call, rest)) :
    t = call.source ++ rest := by
  unfold take? at h
  split at h
  · next cs =>
    simp only at h
    split at h
    · simp at h
    · simp only [Option.map_eq_some_iff, Prod.mk.injEq] at h
      obtain ⟨group, hgroup, rfl, rfl⟩ := h
      have happ : cs = cs.takeWhile isNameChar ++ cs.dropWhile isNameChar :=
        List.takeWhile_append_dropWhile.symm
      rw [Group.take?_eq_append hgroup] at happ
      simpa [source, Group.source] using happ
  · simp at h

end MacroCall

/-- A construct that may stand in text and in a start tag. -/
inductive Inline where
  | directive (span : Text)
  | call (call : MacroCall)
  deriving DecidableEq, Repr

namespace Inline

/-- The construct as it is written. -/
def source : Inline → Text
  | directive span => span
  | call c => c.source

/-- The construct at the front of a text, and what follows. -/
def take? (t : Text) : Option (Inline × Text) :=
  match Span.take? t with
  | some (span, rest) => some (directive span, rest)
  | none => (MacroCall.take? t).map fun (c, rest) => (call c, rest)

/-- A construct and what follows it make up the text that it was taken from. -/
theorem take?_eq_append {t rest : Text} {i : Inline} (h : take? t = some (i, rest)) :
    t = i.source ++ rest := by
  unfold take? at h
  split at h
  · next hspan =>
    simp only [Option.some.injEq, Prod.mk.injEq] at h
    obtain ⟨rfl, rfl⟩ := h
    exact Span.take?_eq_append hspan
  · simp only [Option.map_eq_some_iff, Prod.exists, Prod.mk.injEq] at h
    obtain ⟨c, r, hcall, rfl, rfl⟩ := h
    exact MacroCall.take?_eq_append hcall

/-- The source of a construct is not empty. -/
theorem take?_ne_nil {t rest : Text} {i : Inline} (h : take? t = some (i, rest)) :
    i.source ≠ [] := by
  unfold take? at h
  split at h
  · next hspan =>
    simp only [Option.some.injEq, Prod.mk.injEq] at h
    obtain ⟨rfl, rfl⟩ := h
    exact Span.take?_ne_nil hspan
  · simp only [Option.map_eq_some_iff, Prod.exists, Prod.mk.injEq] at h
    obtain ⟨c, r, hcall, rfl, rfl⟩ := h
    simp [source, MacroCall.source]

/-- What is left behind a construct is shorter than the text. -/
theorem length_lt_of_take? {t rest : Text} {i : Inline} (h : take? t = some (i, rest)) :
    rest.length < t.length := by
  have := List.length_pos_iff.2 (take?_ne_nil h)
  rw [take?_eq_append h, List.length_append]
  omega

end Inline

end TemploTwig
