/-!
# Texts

A text is the list of its characters.  Readers work on texts: they take characters off the
front and hand back what is left, so "nothing is lost" is an equation between lists.

* `stripStart?`, `stripEnd?`: remove a marker from one end, or say that it is not there
* `cut?`: split around the first occurrence of a marker
* `remove`: drop every occurrence of a two-character marker
* `takeBytes?`: what stands in front of a byte offset

The lemmas `stripStart?_eq_some_iff`, `stripEnd?_eq_some_iff` and `cut?_eq_append` tie each
result back to the text it was taken from.
-/

namespace TemploTwig

/-- A text is the list of its characters. -/
abbrev Text := List Char

namespace Text

/-- Number of bytes that a text takes in UTF-8. -/
def byteSize (t : Text) : Nat := t.foldr (fun c n => c.utf8Size + n) 0

/-- The first `n` bytes of the text, unless they end inside a character or the text is shorter. -/
def takeBytes? : (t : Text) → (n : Nat) → Option Text
  | _, 0 => some []
  | [], _ + 1 => none
  | c :: cs, n + 1 =>
    if c.utf8Size ≤ n + 1 then (takeBytes? cs (n + 1 - c.utf8Size)).map (c :: ·) else none

/-- What follows `marker`, when the text begins with it. -/
def stripStart? : (marker t : Text) → Option Text
  | [], t => some t
  | _ :: _, [] => none
  | m :: ms, c :: cs => if m = c then stripStart? ms cs else none

/-- What precedes `marker`, when the text ends with it. -/
def stripEnd? (marker t : Text) : Option Text :=
  (stripStart? marker.reverse t.reverse).map List.reverse

/-- The text between two copies of `marker`, when it starts and ends with distinct ones. -/
def stripBoth? (marker t : Text) : Option Text :=
  (stripStart? marker t).bind (stripEnd? marker)

/-- Does the text begin with `marker`? -/
def startsWith (t marker : Text) : Bool := (stripStart? marker t).isSome

/-- The text before and the text after the first occurrence of `marker`. -/
def cut? (marker : Text) : Text → Option (Text × Text)
  | [] => (stripStart? marker []).map fun rest => ([], rest)
  | c :: cs =>
    match stripStart? marker (c :: cs) with
    | some rest => some ([], rest)
    | none => (cut? marker cs).map fun (before, rest) => (c :: before, rest)

/-- Does `marker` occur in the text? -/
def contains (t marker : Text) : Bool := (cut? marker t).isSome

/-- The text without the leftmost, non-overlapping occurrences of the pair `a b`. -/
def remove (a b : Char) : Text → Text
  | [] => []
  | [c] => [c]
  | c :: d :: r => if c = a ∧ d = b then remove a b r else c :: remove a b (d :: r)

/-- Equality that does not tell ASCII capitals from small letters. -/
def sameIgnoringCase (s t : Text) : Bool := s.map Char.toLower == t.map Char.toLower

/-- Is the first text equal to the second or in front of it, character by character? -/
def atMost : (s t : Text) → Bool
  | [], _ => true
  | _ :: _, [] => false
  | a :: s, b :: t => if a = b then atMost s t else a.toNat < b.toNat

theorem stripStart?_eq_some_iff {marker t rest : Text} :
    stripStart? marker t = some rest ↔ t = marker ++ rest := by
  induction marker generalizing t with
  | nil => simp [stripStart?]
  | cons m ms ih =>
    cases t with
    | nil => simp [stripStart?]
    | cons c cs =>
      by_cases h : m = c
      · simp [stripStart?, h, ih]
      · simp [stripStart?, h, Ne.symm h]

theorem stripEnd?_eq_some_iff {marker t front : Text} :
    stripEnd? marker t = some front ↔ t = front ++ marker := by
  simp only [stripEnd?, Option.map_eq_some_iff, stripStart?_eq_some_iff]
  constructor
  · rintro ⟨r, h, rfl⟩
    simpa using congrArg List.reverse h
  · rintro rfl
    exact ⟨front.reverse, by simp, by simp⟩

theorem stripStart?_append (marker rest : Text) :
    stripStart? marker (marker ++ rest) = some rest :=
  stripStart?_eq_some_iff.2 rfl

/-- A cut loses nothing but the marker. -/
theorem cut?_eq_append {marker t before rest : Text} (h : cut? marker t = some (before, rest)) :
    t = before ++ marker ++ rest := by
  induction t generalizing before rest with
  | nil =>
    simp only [cut?, Option.map_eq_some_iff, stripStart?_eq_some_iff] at h
    obtain ⟨r, hr, heq⟩ := h
    simp only [Prod.mk.injEq] at heq
    obtain ⟨rfl, rfl⟩ := heq
    simpa using hr
  | cons c cs ih =>
    rw [cut?] at h
    split at h
    · next hs =>
      simp only [Option.some.injEq, Prod.mk.injEq] at h
      obtain ⟨rfl, rfl⟩ := h
      simpa using stripStart?_eq_some_iff.1 hs
    · simp only [Option.map_eq_some_iff, Prod.exists, Prod.mk.injEq] at h
      obtain ⟨b, r, hcut, rfl, rfl⟩ := h
      simp [ih hcut]

end Text

end TemploTwig
