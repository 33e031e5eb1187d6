import TemploTwig.Text.Scan
import TemploTwig.Text.Word

/-!
# Partitions

A text is converted part by part.  A new part starts in front of each `::foreach`, `::if` and
`::set` whose keyword ends there; the parts make up the text.
-/

namespace TemploTwig

namespace Partition

/-- The words that start a new part, each behind its two colons. -/
def starters : List Text := ["::foreach".toList, "::if".toList, "::set".toList]

/-- Is there no word character at the front of the text? -/
def atWordEnd : Text → Bool
  | [] => true
  | c :: _ => !isWordChar c

/-- The start of a new part at the front of a text. -/
def takeStarter? (t : Text) : Option (Text × Text) :=
  starters.findSome? fun starter =>
    (Text.stripStart? starter t).bind fun rest =>
      -- `::iffy::` and `::settings::` are no starts.
      if atWordEnd rest then some (starter, rest) else none

theorem takeStarter?_eq_append {t starter rest : Text} (h : takeStarter? t = some (starter, rest)) :
    starter ∈ starters ∧ t = starter ++ rest := by
  obtain ⟨s, hs, hf⟩ := List.exists_of_findSome?_eq_some h
  simp only [Option.bind_eq_some_iff] at hf
  obtain ⟨r, hstrip, hif⟩ := hf
  split at hif
  · simp only [Option.some.injEq, Prod.mk.injEq] at hif
    obtain ⟨rfl, rfl⟩ := hif
    exact ⟨hs, Text.stripStart?_eq_some_iff.1 hstrip⟩
  · simp at hif

private theorem length_pos_of_mem_starters {s : Text} (h : s ∈ starters) : 0 < s.length := by
  simp only [starters, List.mem_cons, List.not_mem_nil, or_false] at h
  rcases h with rfl | rfl | rfl <;> decide

/-- What is left behind the start of a part is shorter than the text. -/
theorem length_lt_of_takeStarter? {t starter rest : Text}
    (h : takeStarter? t = some (starter, rest)) : rest.length < t.length := by
  obtain ⟨hmem, heq⟩ := takeStarter?_eq_append h
  have hpos := length_pos_of_mem_starters hmem
  rw [heq, List.length_append]
  omega

/-- Recognises the starts of new parts. -/
def starter : Recogniser Text where
  next? := takeStarter?
  shrinks := length_lt_of_takeStarter?

/-- Put the pieces of a text together to its parts, behind what the current part holds. -/
def gather (current : Text) : List (Piece Text) → List Text
  | [] => [current]
  | .plain t :: ps => gather (current ++ t) ps
  -- At the front of the text there is no part to finish.
  | .token t :: ps => if current = [] then gather t ps else current :: gather t ps

/-- The parts of a text. -/
def split (t : Text) : List Text := gather [] (starter.scan t)

end Partition

end TemploTwig
