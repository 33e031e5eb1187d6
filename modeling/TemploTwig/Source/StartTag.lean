import TemploTwig.Markup.Attribute
import TemploTwig.Source.Inline

/-!
# Start tags in a template

A start tag is cut into plain runs and the inline constructs between them, so that a pass over
the template can replace a construct and copy the rest.  Quoted values belong to the plain runs,
whatever stands in them.

* `StartTag.take?`: the start tag at the front of a text
* `StartTag.attributes`: its attributes, inline constructs read as attribute text
-/

namespace TemploTwig

/-- A start tag.  Its pieces make up its source, from `<` to `>`. -/
structure StartTag where
  name : Text
  pieces : List (Piece Inline)
  deriving DecidableEq, Repr

namespace StartTag

/-- The tag as it is written. -/
def source (tag : StartTag) : Text := Piece.renderAll Inline.source tag.pieces

/-- The attributes of the tag. -/
def attributes (tag : StartTag) : List Attribute :=
  Attribute.parse (tag.source.drop (1 + tag.name.length))

/-- May the character stand in an element's name? -/
def isNameChar (c : Char) : Bool :=
  c.isAlphanum || c == '-' || c == '_' || c == ':' || c == '.'

private theorem length_lt_of_cut? {c : Char} {cs value rest : Text}
    (h : Text.cut? [c] cs = some (value, rest)) : rest.length < (c :: cs).length := by
  have := congrArg List.length (Text.cut?_eq_append h)
  simp only [List.length_append, List.length_cons, List.length_nil] at this ⊢
  omega

/-- The pieces from behind the tag's name to its closing `>`, and what follows the tag.  A `<`
    outside quotes means that the tag is never closed. -/
def close? : Text → Option (List (Piece Inline) × Text)
  | [] => none
  | c :: cs =>
    if c = '>' then some ([.plain ['>']], cs)
    else if c = '<' then none
    else if (Quote.ofChar? c).isSome then
      -- A quoted value is plain, whatever it holds.  It has to be closed.
      match _h : Text.cut? [c] cs with
      | some (value, rest) =>
        (close? rest).map fun (pieces, after) => (Piece.prepend (c :: value ++ [c]) pieces, after)
      | none => none
    else
      -- A construct is taken whole, so a `>` or a quote in it does not count.
      match _h : Inline.take? (c :: cs) with
      | some (inline, rest) => (close? rest).map fun (pieces, after) => (.token inline :: pieces, after)
      | none => (close? cs).map fun (pieces, after) => (Piece.prepend [c] pieces, after)
termination_by t => t.length
decreasing_by
  · exact length_lt_of_cut? _h
  · exact Inline.length_lt_of_take? _h
  · simp

/-- The start tag at the front of a text, and what follows. -/
def take? : Text → Option (StartTag × Text)
  | '<' :: c :: cs =>
    if c.isAlpha then
      let name := (c :: cs).takeWhile isNameChar
      (close? ((c :: cs).dropWhile isNameChar)).map fun (pieces, rest) =>
        (⟨name, Piece.prepend ('<' :: name) pieces⟩, rest)
    else none
  | _ => none

theorem close?_eq_append {t rest : Text} {pieces : List (Piece Inline)}
    (h : close? t = some (pieces, rest)) : t = Piece.renderAll Inline.source pieces ++ rest := by
  fun_induction close? t generalizing pieces rest with
  | case1 => simp at h
  | case2 cs =>
    simp only [Option.some.injEq, Prod.mk.injEq] at h
    obtain ⟨rfl, rfl⟩ := h
    simp [Piece.render]
  | case3 => simp at h
  | case4 c cs _ _ _ value r hcut ih =>
    simp only [Option.map_eq_some_iff, Prod.exists, Prod.mk.injEq] at h
    obtain ⟨ps, after, hclose, rfl, rfl⟩ := h
    rw [Text.cut?_eq_append hcut, Piece.renderAll_prepend]
    simp [ih hclose]
  | case5 => simp at h
  | case6 c cs _ _ _ inline r htake ih =>
    simp only [Option.map_eq_some_iff, Prod.exists, Prod.mk.injEq] at h
    obtain ⟨ps, after, hclose, rfl, rfl⟩ := h
    rw [Inline.take?_eq_append htake]
    simp [Piece.render, ih hclose]
  | case7 c cs _ _ _ _ ih =>
    simp only [Option.map_eq_some_iff, Prod.exists, Prod.mk.injEq] at h
    obtain ⟨ps, after, hclose, rfl, rfl⟩ := h
    simp [ih hclose]

/-- A tag and what follows it make up the text that it was taken from. -/
theorem take?_eq_append {t rest : Text} {tag : StartTag} (h : take? t = some (tag, rest)) :
    t = tag.source ++ rest := by
  unfold take? at h
  split at h
  · next c cs =>
    split at h
    · simp only [Option.map_eq_some_iff, Prod.exists, Prod.mk.injEq] at h
      obtain ⟨ps, after, hclose, rfl, rfl⟩ := h
      have happ : c :: cs = (c :: cs).takeWhile isNameChar ++ (c :: cs).dropWhile isNameChar :=
        List.takeWhile_append_dropWhile.symm
      rw [close?_eq_append hclose] at happ
      simp [source, ← happ]
    · simp at h
  · simp at h

/-- The source of a tag is not empty. -/
theorem take?_ne_nil {t rest : Text} {tag : StartTag} (h : take? t = some (tag, rest)) :
    tag.source ≠ [] := by
  unfold take? at h
  split at h
  · split at h
    · simp only [Option.map_eq_some_iff, Prod.exists, Prod.mk.injEq] at h
      obtain ⟨ps, after, hclose, rfl, rfl⟩ := h
      simp [source]
    · simp at h
  · simp at h

end StartTag

end TemploTwig
