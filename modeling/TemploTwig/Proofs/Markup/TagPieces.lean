import TemploTwig.Proofs.Markup.Tags
import TemploTwig.Proofs.SpanBody
import TemploTwig.Source.Segment

/-!
# Tags in a template

A pass over a template cuts a start tag into plain runs and the directives between them.  On
canonical attributes, and on directives in the place of attributes, it ends where the markup reader
ends.
-/

namespace TemploTwig

variable {t u : Text} {a : Attribute}

/-- `Inline.take?` finds nothing where no span opens and no dollar sign stands. -/
theorem Inline.take?_eq_none (hspan : Span.take? t = none) (hdollars : ¬['$', '$'] <+: t) :
    take? t = none := by
  have hcall : MacroCall.take? t = none := by
    rw [MacroCall.take?.eq_def]
    split
    · next cs => exact absurd ⟨cs, rfl⟩ hdollars
    · rfl
  rw [take?, hspan, hcall]
  rfl

namespace StartTag

/-- In front of `t`, `close?` finds in `u` what `front` puts before the pieces of `t`. -/
def Finds (u : Text) (front : List (Piece Inline) → List (Piece Inline)) (t : Text) : Prop :=
  close? (u ++ t) = (close? t).map fun (pieces, after) => (front pieces, after)

/-- `Finds` for one text behind the other. -/
theorem Finds.append {v : Text} {f g : List (Piece Inline) → List (Piece Inline)}
    (hu : Finds u f (v ++ t)) (hv : Finds v g t) : Finds (u ++ v) (fun ps => f (g ps)) t := by
  rw [Finds] at hu hv ⊢
  rw [List.append_assoc, hu, hv, Option.map_map]
  rfl

/-- Two plain runs that `close?` finds one after the other are one. -/
theorem Finds.append_plain {v : Text} (hu : Finds u (Piece.prepend u) (v ++ t))
    (hv : Finds v (Piece.prepend v) t) : Finds (u ++ v) (Piece.prepend (u ++ v)) t := by
  have happend := hu.append hv
  simp only [Piece.prepend_prepend] at happend
  exact happend

/-- `close?` takes a run without quotes and inline constructs as plain. -/
theorem finds_plain (houtside : ∀ c ∈ u, isOutside c = true) (hdecl : Span.recogniser.Declines u t)
    (hne : u ≠ []) : Finds u (Piece.prepend u) t := by
  induction u with
  | nil => exact absurd rfl hne
  | cons c u ih =>
    obtain ⟨hspan, hu⟩ := Recogniser.declines_cons_iff.1 hdecl
    obtain ⟨hgt, hlt, hdouble, hsingle, hdollar⟩ := isOutside_iff.1 (houtside c List.mem_cons_self)
    have hquote : (Quote.ofChar? c).isSome = false := by simp [Quote.ofChar?, hdouble, hsingle]
    have hinline : Inline.take? (c :: (u ++ t)) = none :=
      Inline.take?_eq_none hspan (by simp [Ne.symm hdollar])
    -- Nothing starts at the first character, so it is passed over.
    have hstep : Finds [c] (Piece.prepend [c]) (u ++ t) := by
      rw [Finds, List.singleton_append, close?, if_neg hgt, if_neg hlt, if_neg (by simp [hquote])]
      split
      · next htake => rw [hinline] at htake; cases htake
      · rfl
    by_cases hnil : u = []
    · subst hnil
      exact hstep
    · exact hstep.append_plain (ih (fun d hd => houtside d (List.mem_cons_of_mem _ hd)) hu hnil)

/-- `close?` takes one harmless character as plain. -/
theorem finds_char {c : Char} (hc : isOutside c = true) (hcolon : c ≠ ':') (t : Text) :
    Finds [c] (Piece.prepend [c]) t := by
  refine finds_plain (List.forall_mem_singleton.2 hc) ?_ (by simp)
  refine Recogniser.declines_cons_iff.2 ⟨Span.take?_of_not_prefix ?_, Recogniser.declines_nil _ _⟩
  rintro ⟨rest, hprefix⟩
  exact hcolon (List.cons.inj hprefix).1.symm

/-- `close?` takes a quoted value as plain, whatever stands in it. -/
theorem finds_enclose {quote : Quote} {value : Text} (h : quote.char ∉ value) (t : Text) :
    Finds (quote.enclose value) (Piece.prepend (quote.enclose value)) t := by
  have hgt : quote.char ≠ '>' := by cases quote <;> decide
  have hlt : quote.char ≠ '<' := by cases quote <;> decide
  have hcut := Text.cut?_char t h
  rw [Finds, Quote.enclose_append, close?, if_neg hgt, if_neg hlt, if_pos (by simp)]
  split
  · next hfound =>
    rw [hcut, Option.some.injEq, Prod.mk.injEq] at hfound
    obtain ⟨rfl, rfl⟩ := hfound
    rfl
  · next hnone => rw [hcut] at hnone; cases hnone

/-- `close?` finds a directive between attributes. -/
theorem finds_span {b : Text} (h : Span.IsBody b) (t : Text) :
    Finds (Span.ofBody b) (.token (.directive (Span.ofBody b)) :: ·) t := by
  have hinline : Inline.take? (Span.ofBody b ++ t) = some (.directive (Span.ofBody b), t) := by
    rw [Inline.take?, Span.take?_ofBody h]
  have hcons : Span.ofBody b ++ t = ':' :: (':' :: (b ++ Span.delimiter ++ t)) := by
    simp [Span.ofBody, Span.delimiter]
  rw [Finds]
  rw [hcons] at hinline ⊢
  rw [close?, if_neg (by decide), if_neg (by decide), if_neg (by decide)]
  split
  · next hfound =>
    rw [hinline, Option.some.injEq, Prod.mk.injEq] at hfound
    obtain ⟨rfl, rfl⟩ := hfound
    rfl
  · next hnone => rw [hinline] at hnone; cases hnone

end StartTag

/-- `close?` takes a canonical value as plain. -/
theorem AttributeValue.finds_assigned {value : AttributeValue} (h : value.IsCanonical)
    (hne : value ≠ .bare) (ht : t.head? ≠ some ':') :
    StartTag.Finds value.assigned (Piece.prepend value.assigned) t := by
  cases value with
  | bare => exact absurd rfl hne
  | quoted value quote =>
    -- The equals sign is outside the quotes, the value inside.
    have hequals := StartTag.finds_char (c := '=') rfl (by decide) (quote.enclose value ++ t)
    exact hequals.append_plain (StartTag.finds_enclose h t)
  | unquoted value =>
    refine StartTag.finds_plain ?_ (Span.declines_of_no_delimiter ?_ ht) (by simp [assigned])
    · rintro c (_ | ⟨_, hc⟩)
      · rfl
      · exact Attribute.isOutside_of_isOpenChar (List.all_eq_true.1 h.2.1 c hc)
    · rw [assigned, Span.delimiter_infix_cons (by decide)]
      exact Text.contains_eq_false_iff.1 h.2.2

namespace Attribute

/-- `close?` takes a canonical name as plain. -/
theorem finds_name (h : a.IsCanonical) (ht : t.head? ≠ some ':') :
    StartTag.Finds (' ' :: a.name) (Piece.prepend (' ' :: a.name)) t := by
  refine StartTag.finds_plain ?_ (Span.declines_of_no_delimiter ?_ ht) (by simp)
  · rintro c (_ | ⟨_, hc⟩)
    · rfl
    · exact h.isOutside_of_mem hc
  · rw [Span.delimiter_infix_cons (by decide)]
    exact Text.contains_eq_false_iff.1 h.name_no_delimiter

/-- A directive in the place of an attribute. -/
def IsSlot (a : Attribute) : Prop := a.value = .bare ∧ ∃ b, Span.IsBody b ∧ a.name = Span.ofBody b

/-- The `text` of an `IsSlot` attribute is the directive behind a blank. -/
theorem IsSlot.text_eq (h : a.IsSlot) : a.text = ' ' :: a.name := by
  rw [Attribute.text_eq, h.1, AttributeValue.assigned, List.append_nil]

/-- Does a directive stand in the place of the attribute? -/
def isDirective (a : Attribute) : Bool :=
  decide (a.value = .bare) && a.name.startsWith Span.delimiter

/-- A canonical attribute is no directive. -/
theorem IsCanonical.isDirective_eq (h : a.IsCanonical) : a.isDirective = false := by
  have hstart : a.name.startsWith Span.delimiter = false := by
    rw [Text.startsWith, ← Bool.not_eq_true, Text.stripStart?_isSome_iff]
    intro hprefix
    exact Text.contains_eq_false_iff.1 h.name_no_delimiter hprefix.isInfix
  rw [isDirective, hstart, Bool.and_false]

/-- An `IsSlot` attribute is a directive. -/
theorem IsSlot.isDirective_eq (h : a.IsSlot) : a.isDirective = true := by
  obtain ⟨hbare, b, -, hname⟩ := h
  have hstart : a.name.startsWith Span.delimiter = true := by
    rw [hname, Text.startsWith, Text.stripStart?_isSome_iff]
    exact ⟨b ++ Span.delimiter, by simp [Span.ofBody]⟩
  simp [isDirective, hbare, hstart]

/-- What a pass over the template finds in an attribute, in front of `pieces`. -/
def pieces (a : Attribute) (pieces : List (Piece Inline)) : List (Piece Inline) :=
  if a.isDirective then .plain [' '] :: .token (.directive a.name) :: pieces
  else Piece.prepend a.text pieces

/-- The `pieces` of a canonical attribute are one plain run. -/
theorem IsCanonical.pieces_eq (h : a.IsCanonical) (ps : List (Piece Inline)) :
    a.pieces ps = Piece.prepend a.text ps := by
  rw [pieces, h.isDirective_eq, if_neg (by simp)]

/-- The `pieces` of an `IsSlot` attribute are a blank and the directive. -/
theorem IsSlot.pieces_eq (h : a.IsSlot) (ps : List (Piece Inline)) :
    a.pieces ps = .plain [' '] :: .token (.directive a.name) :: ps := by
  rw [pieces, h.isDirective_eq, if_pos rfl]

/-- The `pieces` of an attribute spell its `text`. -/
theorem renderAll_pieces (a : Attribute) (ps : List (Piece Inline)) :
    Piece.renderAll Inline.source (a.pieces ps) = a.text ++ Piece.renderAll Inline.source ps := by
  rw [pieces]
  split
  · next h =>
    have hbare : a.value = .bare := of_decide_eq_true (Bool.and_eq_true_iff.1 h).1
    rw [text_eq, hbare, AttributeValue.assigned, List.append_nil]
    rfl
  · exact Piece.renderAll_prepend _ _ _

/-- `close?` finds the `pieces` of a canonical attribute. -/
theorem IsCanonical.finds_text (h : a.IsCanonical) (ht : t.head? ≠ some ':') :
    StartTag.Finds a.text a.pieces t := by
  rw [funext h.pieces_eq, text_eq, ← List.cons_append]
  by_cases hbare : a.value = .bare
  · rw [hbare, AttributeValue.assigned, List.append_nil]
    exact finds_name h ht
  · have hhead : (a.value.assigned ++ t).head? ≠ some ':' := by
      cases hvalue : a.value with
      | bare => exact absurd hvalue hbare
      | quoted value quote | unquoted value => simp [AttributeValue.assigned]
    exact (finds_name h hhead).append_plain (AttributeValue.finds_assigned h.value hbare ht)

/-- `close?` finds the `pieces` of an `IsSlot` attribute. -/
theorem IsSlot.finds_text (h : a.IsSlot) (t : Text) : StartTag.Finds a.text a.pieces t := by
  rw [funext h.pieces_eq, h.text_eq]
  obtain ⟨-, b, hb, hname⟩ := h
  rw [hname]
  -- A directive is a token, so the blank in front of it stays a run of its own.
  have hblank := StartTag.finds_char (c := ' ') rfl (by decide) (Span.ofBody b ++ t)
  exact hblank.append (StartTag.finds_span hb t)

end Attribute

namespace Tag

/-- A start tag as the passes over the template see it. -/
def start (tag : Tag) : StartTag where
  name := tag.name
  pieces := Piece.prepend ('<' :: tag.name)
    (tag.attributes.foldr Attribute.pieces [.plain (tag.slash ++ ['>'])])

/-- `Tag.start` spells `startText`. -/
theorem source_start (tag : Tag) : tag.start.source = tag.startText := by
  have hpieces (attributes : List Attribute) :
      Piece.renderAll Inline.source
        (attributes.foldr Attribute.pieces [.plain (tag.slash ++ ['>'])]) =
      Attribute.textAll attributes ++ (tag.slash ++ ['>']) := by
    induction attributes with
    | nil => simp [Piece.render, Attribute.textAll]
    | cons a attributes ih =>
      rw [List.foldr_cons, Attribute.renderAll_pieces, ih, Attribute.textAll_cons,
        List.append_assoc]
  have htext := startText_append tag []
  rw [List.append_nil] at htext
  rw [StartTag.source, start, Piece.renderAll_prepend, hpieces, htext]
  rfl

end Tag

namespace StartTag

/-- `close?` ends at the `>` of the tag. -/
theorem close?_slash (tag : Tag) (rest : Text) :
    close? (tag.slash ++ '>' :: rest) = some ([.plain (tag.slash ++ ['>'])], rest) := by
  have hend : close? ('>' :: rest) = some ([.plain ['>']], rest) := by
    rw [close?, if_pos rfl]
  rw [Tag.slash]
  split
  · have hslash := finds_char (c := '/') rfl (by decide) ('>' :: rest)
    rw [Finds, hend] at hslash
    exact hslash
  · exact hend

/-- Behind the name of a tag come a blank, a slash or the end. -/
theorem head?_behind_name {attributes : List Attribute} {tag : Tag} {rest : Text} {c : Char}
    (h : (Attribute.textAll attributes ++ (tag.slash ++ '>' :: rest)).head? = some c) :
    c = ' ' ∨ c = '/' ∨ c = '>' := by
  cases attributes with
  | nil =>
    rw [Attribute.textAll, List.flatMap_nil, List.nil_append, Tag.slash] at h
    split at h
    · exact .inr (.inl (Option.some.inj h).symm)
    · exact .inr (.inr (Option.some.inj h).symm)
  | cons a attributes =>
    rw [Attribute.textAll_cons, Attribute.text_eq] at h
    exact .inl (Option.some.inj h).symm

/-- `close?` finds the `pieces` of all attributes, then the end of the tag. -/
theorem close?_textAll {attributes : List Attribute}
    (h : ∀ a ∈ attributes, a.IsCanonical ∨ a.IsSlot) (tag : Tag) (rest : Text) :
    close? (Attribute.textAll attributes ++ (tag.slash ++ '>' :: rest)) =
      some (attributes.foldr Attribute.pieces [.plain (tag.slash ++ ['>'])], rest) := by
  induction attributes with
  | nil => exact close?_slash tag rest
  | cons a attributes ih =>
    -- A colon behind the attribute could open a directive with its last character.
    have hhead : (Attribute.textAll attributes ++ (tag.slash ++ '>' :: rest)).head? ≠ some ':' := by
      intro hcolon
      rcases head?_behind_name hcolon with h | h | h <;> exact absurd h (by decide)
    have ha : Finds a.text a.pieces
        (Attribute.textAll attributes ++ (tag.slash ++ '>' :: rest)) := by
      rcases h a List.mem_cons_self with ha | ha
      · exact ha.finds_text hhead
      · exact ha.finds_text _
    rw [Finds] at ha
    rw [Attribute.textAll_cons, List.append_assoc, ha,
      ih fun b hb => h b (List.mem_cons_of_mem _ hb)]
    rfl

/-- `StartTag.take?` takes a start tag whole, with the directives in it. -/
theorem take?_startText {tag : Tag} (hname : Tag.IsName tag.name)
    (hattributes : ∀ a ∈ tag.attributes, a.IsCanonical ∨ a.IsSlot) (rest : Text) :
    take? (tag.startText ++ rest) = some (tag.start, rest) := by
  have hchars (c : Char) (hc : c ∈ tag.name) : isNameChar c = true := by
    rcases Tag.isNameChar_iff.1 (hname.isNameChar_of_mem hc) with h | rfl | rfl | rfl
    · simp [isNameChar, h]
    · rfl
    · rfl
    · rfl
  -- The name ends where the attributes, the slash or the `>` begin.
  have hstop (c : Char)
      (hc : (Attribute.textAll tag.attributes ++ (tag.slash ++ '>' :: rest)).head? = some c) :
      isNameChar c = false := by
    rcases head?_behind_name hc with rfl | rfl | rfl <;> rfl
  have htake := Text.takeWhile_append hchars hstop
  have hdrop := Text.dropWhile_append hchars hstop
  obtain ⟨c, cs, heq, hc, -⟩ := hname
  rw [Tag.startText_append, Tag.start]
  rw [heq] at htake hdrop ⊢
  rw [List.cons_append] at htake hdrop ⊢
  rw [take?, if_pos hc]
  simp only [htake, hdrop, close?_textAll hattributes]
  rfl

end StartTag

end TemploTwig
