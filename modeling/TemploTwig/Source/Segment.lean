import TemploTwig.Source.StartTag

/-!
# Segments of a template

A template is cut into plain text, inline constructs, start tags and other markup, without
building a tree.  The segments make up the template, so a pass can replace the segments that it
cares about and copy the rest.

* `Token.take?`: the construct at the front of a text
* `segments`: the segments of a template
-/

namespace TemploTwig

/-- A construct in a template. -/
inductive Token where
  | inline (construct : Inline)
  | startTag (tag : StartTag)
  /-- An end tag, a comment, a declaration or a processing instruction. -/
  | markup (source : Text)
  deriving DecidableEq, Repr

namespace Token

/-- The construct as it is written. -/
def source : Token → Text
  | inline construct => construct.source
  | startTag tag => tag.source
  | markup source => source

/-- Markup that ends at the first `>`. -/
def takeToClose? (t : Text) : Option (Token × Text) :=
  (Text.cut? ['>'] t).map fun (before, rest) => (markup (before ++ ['>']), rest)

/-- A comment, from what follows its opening.  Without a closing it takes the whole text. -/
def takeComment (body : Text) : Token × Text :=
  match Text.cut? "-->".toList body with
  | some (before, rest) => (markup ("<!--".toList ++ before ++ "-->".toList), rest)
  | none => (markup ("<!--".toList ++ body), [])

/-- The markup at the front of a text, and what follows. -/
def takeMarkup? (t : Text) : Option (Token × Text) :=
  match Text.stripStart? "<!--".toList t with
  | some body => some (takeComment body)
  | none =>
    -- Quotes do not count in these: only a start tag may hold a quoted `>`.
    match t with
    | '<' :: '/' :: c :: _ => if c.isAlpha then takeToClose? t else none
    | '<' :: '!' :: _ => takeToClose? t
    | '<' :: '?' :: _ => takeToClose? t
    | _ => (StartTag.take? t).map fun (tag, rest) => (startTag tag, rest)

/-- The construct at the front of a text, and what follows. -/
def take? (t : Text) : Option (Token × Text) :=
  match takeMarkup? t with
  | some found => some found
  | none => (Inline.take? t).map fun (construct, rest) => (inline construct, rest)

private theorem takeToClose?_spells {t rest : Text} {token : Token}
    (h : takeToClose? t = some (token, rest)) : t = token.source ++ rest ∧ token.source ≠ [] := by
  simp only [takeToClose?, Option.map_eq_some_iff, Prod.exists, Prod.mk.injEq] at h
  obtain ⟨before, r, hcut, rfl, rfl⟩ := h
  exact ⟨Text.cut?_eq_append hcut, by simp [source]⟩

private theorem takeComment_spells (body : Text) :
    "<!--".toList ++ body = (takeComment body).1.source ++ (takeComment body).2 ∧
      (takeComment body).1.source ≠ [] := by
  unfold takeComment
  split
  · next hcut =>
    refine ⟨?_, by simp [source]⟩
    rw [Text.cut?_eq_append hcut]
    simp [source]
  · exact ⟨by simp [source], by simp [source]⟩

theorem takeMarkup?_spells {t rest : Text} {token : Token}
    (h : takeMarkup? t = some (token, rest)) : t = token.source ++ rest ∧ token.source ≠ [] := by
  unfold takeMarkup? at h
  split at h
  · next body hstrip =>
    have hspell := takeComment_spells body
    simp only [Option.some.injEq] at h
    rw [h] at hspell
    rw [Text.stripStart?_eq_some_iff.1 hstrip]
    exact hspell
  · split at h
    · split at h
      · exact takeToClose?_spells h
      · simp at h
    · exact takeToClose?_spells h
    · exact takeToClose?_spells h
    · simp only [Option.map_eq_some_iff, Prod.exists, Prod.mk.injEq] at h
      obtain ⟨tag, r, htag, rfl, rfl⟩ := h
      exact ⟨StartTag.take?_eq_append htag, StartTag.take?_ne_nil htag⟩

/-- A construct and what follows it make up the text that it was taken from, and the construct
    is not empty. -/
theorem take?_spells {t rest : Text} {token : Token} (h : take? t = some (token, rest)) :
    t = token.source ++ rest ∧ token.source ≠ [] := by
  unfold take? at h
  split at h
  · next hmarkup =>
    simp only [Option.some.injEq] at h
    subst h
    exact takeMarkup?_spells hmarkup
  · simp only [Option.map_eq_some_iff, Prod.exists, Prod.mk.injEq] at h
    obtain ⟨construct, r, hinline, rfl, rfl⟩ := h
    exact ⟨Inline.take?_eq_append hinline, Inline.take?_ne_nil hinline⟩

/-- Recognises the constructs of a template. -/
def recogniser : Recogniser Token where
  next? := take?
  shrinks h := by
    obtain ⟨heq, hne⟩ := take?_spells h
    have := List.length_pos_iff.2 hne
    rw [heq, List.length_append]
    omega

end Token

/-- A part of a template. -/
abbrev Segment := Piece Token

/-- The segments of a template. -/
def segments (t : Text) : List Segment := Token.recogniser.scan t

end TemploTwig
