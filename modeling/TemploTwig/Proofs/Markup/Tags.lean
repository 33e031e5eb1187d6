import TemploTwig.Proofs.Markup.Attributes
import TemploTwig.Proofs.Markup.Canonical

/-!
# Tags as markup

The markup reader looks for the `>` that ends a tag outside quotes, and reads the attributes from
what stands in front of it.  On canonical attributes it ends at the tag's own `>`, and the
attributes come back as they were.
-/

namespace TemploTwig

variable {c : Char} {attributes : List Attribute} {name : Text}

/-! ## Characters outside quotes -/

/-- A character that neither ends a tag nor opens anything in it. -/
def isOutside (c : Char) : Bool := c != '>' && c != '<' && c != '"' && c != '\'' && c != '$'

/-- `isOutside` as inequalities. -/
theorem isOutside_iff : isOutside c = true ↔ c ≠ '>' ∧ c ≠ '<' ∧ c ≠ '"' ∧ c ≠ '\'' ∧ c ≠ '$' := by
  simp [isOutside, and_assoc]

namespace Attribute

/-- `isOpenChar` as inequalities. -/
theorem isOpenChar_iff :
    isOpenChar c = true ↔ isAsciiBlank c = false ∧ c ≠ '>' ∧ c ≠ '/' ∧ c ≠ '<' ∧ c ≠ '"' ∧
      c ≠ '\'' ∧ c ≠ '$' := by
  simp [isOpenChar, and_assoc]

theorem isOutside_of_isOpenChar (h : isOpenChar c = true) : isOutside c = true := by
  obtain ⟨-, hgt, -, hlt, hdouble, hsingle, hdollar⟩ := isOpenChar_iff.1 h
  exact isOutside_iff.2 ⟨hgt, hlt, hdouble, hsingle, hdollar⟩

namespace IsCanonical

variable {a : Attribute}

/-- A canonical name is made of `isOpenChar`. -/
theorem isOpenChar_of_mem (h : a.IsCanonical) (hc : c ∈ a.name) :
    isOpenChar c = true := List.all_eq_true.1 h.name_open c hc

/-- Canonical attributes can be read. -/
theorem isReadable (h : a.IsCanonical) : a.IsReadable := by
  refine ⟨h.name_ne_nil, ?_, ?_⟩
  · intro c hc
    obtain ⟨hblank, hgt, hslash, -⟩ := isOpenChar_iff.1 (h.isOpenChar_of_mem hc)
    exact isNameChar_iff.2 ⟨hblank, fun heq => h.name_no_equals (heq ▸ hc), hgt, hslash⟩
  · have hvalue := h.value
    cases hv : a.value with
    | bare => trivial
    | quoted value quote =>
      rw [hv] at hvalue
      exact hvalue
    | unquoted value =>
      rw [hv] at hvalue
      have hchars (c : Char) (hc : c ∈ value) :=
        isOpenChar_iff.1 (List.all_eq_true.1 hvalue.2.1 c hc)
      refine ⟨fun c hc => ?_, fun c hc => ?_⟩
      · obtain ⟨hblank, hgt, -⟩ := hchars c hc
        exact AttributeValue.isUnquotedChar_iff.2 ⟨hblank, hgt⟩
      · obtain ⟨-, -, -, -, hdouble, hsingle, -⟩ := hchars c (List.mem_of_head? hc)
        simp [Quote.ofChar?, hdouble, hsingle]

end IsCanonical

/-- A list of canonical attributes is `ReadableAll`. -/
theorem readableAll_of_isCanonical (h : ∀ a ∈ attributes, a.IsCanonical) :
    ReadableAll attributes := by
  induction attributes with
  | nil => trivial
  | cons a attributes ih =>
    obtain ⟨ha, hattributes⟩ := List.forall_mem_cons.1 h
    refine ⟨ha.isReadable, fun hempty => ?_, ih hattributes⟩
    have hvalue := ha.value
    rw [hempty] at hvalue
    exact absurd rfl hvalue.1

end Attribute

/-! ## The markup reader -/

namespace Literal

theorem restoreChar_of_not_isStandIn (h : isStandIn c = false) : restoreChar c = c := by
  simp only [isStandIn, Bool.or_eq_false_iff, beq_eq_false_iff_ne] at h
  simp [restoreChar, h]

/-- `restore` leaves a text without stand-ins as it is. -/
theorem restore_of_no_stand_in {t : Text} (h : t.any isStandIn = false) : restore t = t := by
  refine (List.map_congr_left ?_).trans (List.map_id t)
  intro c hc
  refine restoreChar_of_not_isStandIn ?_
  rw [List.any_eq_false] at h
  simpa using h c hc

end Literal

namespace Event

/-- `closeTag?` runs over `u`: no `>` outside quotes stands in it, and every quote is closed. -/
def Skips (u : Text) : Prop :=
  ∀ t, closeTag? none (u ++ t) =
    (closeTag? none t).map fun (content, rest) => (u ++ content, rest)

theorem skips_nil : Skips [] := by
  intro t
  cases h : closeTag? none t <;> simp [h]

/-- `Skips` for one text behind the other. -/
theorem Skips.append {u v : Text} (hu : Skips u) (hv : Skips v) : Skips (u ++ v) := by
  intro t
  rw [List.append_assoc, hu, hv, Option.map_map]
  cases closeTag? none t <;> simp

/-- `closeTag?` runs over characters that are `isOutside`. -/
theorem skips_of_all {u : Text} (h : ∀ c ∈ u, isOutside c = true) : Skips u := by
  induction u with
  | nil => exact skips_nil
  | cons c u ih =>
    intro t
    obtain ⟨hgt, -, hdouble, hsingle, -⟩ := isOutside_iff.1 (h c List.mem_cons_self)
    have hquote : quoteAfter none c = none := by simp [quoteAfter, hdouble, hsingle]
    rw [List.cons_append, closeTag?, if_neg (by simp [hgt]), hquote,
      ih (fun d hd => h d (List.mem_cons_of_mem _ hd)), Option.map_map]
    cases closeTag? none t <;> simp

/-- Inside quotes `closeTag?` looks for the quote alone. -/
private theorem closeTag?_some {quote : Char} {value : Text} (h : quote ∉ value) (t : Text) :
    closeTag? (some quote) (value ++ quote :: t) =
      (closeTag? none t).map fun (content, rest) => (value ++ quote :: content, rest) := by
  induction value with
  | nil =>
    rw [List.nil_append, closeTag?, if_neg (by simp)]
    simp [quoteAfter]
  | cons c value ih =>
    rw [List.mem_cons, not_or] at h
    rw [List.cons_append, closeTag?, if_neg (by simp), quoteAfter, if_neg (Ne.symm h.1),
      ih h.2, Option.map_map]
    cases closeTag? none t <;> simp

/-- `closeTag?` runs over a quoted value. -/
theorem skips_enclose {quote : Quote} {value : Text} (h : quote.char ∉ value) :
    Skips (quote.enclose value) := by
  intro t
  have hopen : quoteAfter none quote.char = some quote.char := by cases quote <;> rfl
  have hgt : quote.char ≠ '>' := by cases quote <;> decide
  rw [Quote.enclose_append, closeTag?, if_neg (by simp [hgt]), hopen, closeTag?_some h,
    Option.map_map]
  cases closeTag? none t <;> simp [Quote.enclose]

end Event

namespace Attribute.IsCanonical

variable {a : Attribute}

/-- A canonical name is made of `isOutside`. -/
theorem isOutside_of_mem (h : a.IsCanonical) (hc : c ∈ a.name) : isOutside c = true :=
  isOutside_of_isOpenChar (h.isOpenChar_of_mem hc)

/-- `closeTag?` runs over a canonical value. -/
theorem skips_assigned {value : AttributeValue} (h : value.IsCanonical) :
    Event.Skips value.assigned := by
  cases value with
  | bare => exact Event.skips_nil
  | quoted value quote =>
    have hequals : Event.Skips ['='] := Event.skips_of_all (List.forall_mem_singleton.2 rfl)
    exact hequals.append (Event.skips_enclose h)
  | unquoted value =>
    refine Event.skips_of_all ?_
    intro c hc
    rcases List.mem_cons.1 hc with rfl | hc
    · rfl
    · exact isOutside_of_isOpenChar (List.all_eq_true.1 h.2.1 c hc)

/-- `closeTag?` runs over a canonical attribute. -/
theorem skips_text (h : a.IsCanonical) : Event.Skips a.text := by
  have hname : Event.Skips (' ' :: a.name) := by
    refine Event.skips_of_all ?_
    intro c hc
    rcases List.mem_cons.1 hc with rfl | hc
    · rfl
    · exact h.isOutside_of_mem hc
  rw [text_eq, ← List.cons_append]
  exact hname.append (skips_assigned h.value)

/-- The `text` of an attribute does not end in a slash. -/
theorem getLast?_text_ne (h : a.IsCanonical) : a.text.getLast? ≠ some '/' := by
  have hopen {t : Text} (ht : t.all isOpenChar = true) : t.getLast? ≠ some '/' := by
    intro hlast
    have := List.all_eq_true.1 ht '/' (List.mem_of_getLast? hlast)
    cases this
  have hassigned : a.value.assigned.getLast? ≠ some '/' := by
    have hvalue := h.value
    cases ha : a.value with
    | bare => simp [AttributeValue.assigned]
    | quoted value quote =>
      show (('=' :: quote.char :: value) ++ [quote.char]).getLast? ≠ some '/'
      rw [List.getLast?_concat]
      cases quote <;> decide
    | unquoted value =>
      rw [ha] at hvalue
      exact Text.getLast?_append_ne (s := ['=']) (by decide) (hopen hvalue.2.1)
  rw [text_eq]
  exact Text.getLast?_append_ne (s := [' ']) (by decide)
    (Text.getLast?_append_ne (hopen h.name_open) hassigned)

end Attribute.IsCanonical

namespace Attribute

/-- `closeTag?` runs over canonical attributes. -/
theorem skips_textAll (h : ∀ a ∈ attributes, a.IsCanonical) : Event.Skips (textAll attributes) := by
  induction attributes with
  | nil => exact Event.skips_nil
  | cons a attributes ih =>
    rw [textAll_cons]
    exact (h a List.mem_cons_self).skips_text.append
      (ih fun b hb => h b (List.mem_cons_of_mem _ hb))

/-- The `textAll` of attributes does not end in a slash. -/
theorem getLast?_textAll_ne (h : ∀ a ∈ attributes, a.IsCanonical) :
    (textAll attributes).getLast? ≠ some '/' := by
  induction attributes with
  | nil => simp [textAll]
  | cons a attributes ih =>
    rw [textAll_cons]
    exact Text.getLast?_append_ne (h a List.mem_cons_self).getLast?_text_ne
      (ih fun b hb => h b (List.mem_cons_of_mem _ hb))

/-- `readAttributes` reads canonical attributes back. -/
theorem readAttributes_textAll (h : ∀ a ∈ attributes, a.IsCanonical) :
    Document.readAttributes (textAll attributes) = attributes := by
  have hstand : (textAll attributes).any Literal.isStandIn = false := by
    rw [textAll, List.any_flatMap, List.any_eq_false]
    intro a ha
    rw [(h a ha).no_stand_in]
    exact Bool.false_ne_true
  rw [Document.readAttributes, Literal.restore_of_no_stand_in hstand,
    parse_textAll (readableAll_of_isCanonical h)]

end Attribute

namespace Tag

/-- `isNameChar` as equations. -/
theorem isNameChar_iff :
    isNameChar c = true ↔ c.isAlphanum = true ∨ c = '_' ∨ c = '.' ∨ c = '-' := by
  simp [isNameChar, or_assoc]

/-- An `IsName` is made of `isNameChar`. -/
theorem IsName.isNameChar_of_mem (h : IsName name) (hc : c ∈ name) : isNameChar c = true := by
  obtain ⟨d, cs, rfl, hd, hcs⟩ := h
  rcases List.mem_cons.1 hc with rfl | hc
  · simp [isNameChar, Char.isAlphanum, hd]
  · exact List.all_eq_true.1 hcs c hc

/-- A character of an `IsName` differs from every other character. -/
theorem IsName.ne_of_mem (h : IsName name) {d : Char} (hc : c ∈ name) (hd : isNameChar d = false) :
    c ≠ d := by
  rintro rfl
  rw [h.isNameChar_of_mem hc] at hd
  cases hd

/-- An `IsName` has no blank. -/
theorem IsName.isMarkupBlank_of_mem (h : IsName name) (hc : c ∈ name) :
    Event.isMarkupBlank c = false := by
  simp [Event.isMarkupBlank, h.ne_of_mem hc (d := ' ') (by decide),
    h.ne_of_mem hc (d := '\t') (by decide), h.ne_of_mem hc (d := '\r') (by decide),
    h.ne_of_mem hc (d := '\n') (by decide)]

/-- What stands between the attributes and the `>`. -/
def slash (tag : Tag) : Text := if tag.form = .selfClosing then ['/'] else []

/-- `startText` part by part. -/
theorem startText_append (tag : Tag) (rest : Text) :
    tag.startText ++ rest =
      '<' :: (tag.name ++ (Attribute.textAll tag.attributes ++ (tag.slash ++ '>' :: rest))) := by
  unfold startText slash
  split <;> simp

/-- The event that a start tag is. -/
def startEvent (tag : Tag) : Event :=
  if tag.form = .selfClosing then .empty tag.name (Attribute.textAll tag.attributes)
  else .start tag.name (Attribute.textAll tag.attributes)

end Tag

namespace Event

/-- `closeTag?` runs over an `IsName`. -/
theorem skips_name (h : Tag.IsName name) : Skips name := by
  refine skips_of_all ?_
  intro c hc
  exact isOutside_iff.2 ⟨h.ne_of_mem hc (by decide), h.ne_of_mem hc (by decide),
    h.ne_of_mem hc (by decide), h.ne_of_mem hc (by decide), h.ne_of_mem hc (by decide)⟩

/-- The first blank of a start tag stands behind its name. -/
private theorem name_textAll (hname : Tag.IsName name) (attributes : List Attribute) :
    (name ++ Attribute.textAll attributes).takeWhile (!isMarkupBlank ·) = name ∧
      (name ++ Attribute.textAll attributes).dropWhile (!isMarkupBlank ·) =
        Attribute.textAll attributes := by
  have hchars (c : Char) (hc : c ∈ name) : (!isMarkupBlank c) = true := by
    rw [hname.isMarkupBlank_of_mem hc]; rfl
  have hstop (c : Char) (hc : (Attribute.textAll attributes).head? = some c) :
      (!isMarkupBlank c) = false := by
    rw [Attribute.head?_textAll hc]; rfl
  exact ⟨Text.takeWhile_append hchars hstop, Text.dropWhile_append hchars hstop⟩

/-- `ofTag` takes a slash off only where the element closes itself. -/
private theorem ofTag_startText {tag : Tag} (hname : Tag.IsName tag.name)
    (hattributes : ∀ a ∈ tag.attributes, a.IsCanonical) :
    ofTag (tag.name ++ (Attribute.textAll tag.attributes ++ tag.slash)) = tag.startEvent := by
  obtain ⟨htake, hdrop⟩ := name_textAll hname tag.attributes
  -- Neither the name nor the text of an attribute ends in a slash.
  have hlast : (tag.name ++ Attribute.textAll tag.attributes).getLast? ≠ some '/' := by
    refine Text.getLast?_append_ne ?_ (Attribute.getLast?_textAll_ne hattributes)
    intro hlast
    exact hname.ne_of_mem (List.mem_of_getLast? hlast) (by decide) rfl
  by_cases hform : tag.form = .selfClosing
  · have hstrip : Text.stripEnd? ['/'] (tag.name ++ (Attribute.textAll tag.attributes ++ ['/'])) =
        some (tag.name ++ Attribute.textAll tag.attributes) := by
      rw [Text.stripEnd?_eq_some_iff, List.append_assoc]
    rw [Tag.slash, if_pos hform, ofTag, hstrip, Tag.startEvent, if_pos hform]
    simp only [htake, hdrop]
  · have hstrip : Text.stripEnd? ['/'] (tag.name ++ Attribute.textAll tag.attributes) = none := by
      rw [Option.eq_none_iff_forall_ne_some]
      intro front hfront
      rw [Text.stripEnd?_eq_some_iff] at hfront
      rw [hfront, List.getLast?_concat] at hlast
      exact hlast rfl
    rw [Tag.slash, if_neg hform, List.append_nil, ofTag, hstrip, Tag.startEvent, if_neg hform]
    simp only [htake, hdrop]

/-- `Event.take?` takes a start tag whole. -/
theorem take?_startText {tag : Tag} (hname : Tag.IsName tag.name)
    (hattributes : ∀ a ∈ tag.attributes, a.IsCanonical) (rest : Text) :
    take? (tag.startText ++ rest) = some (tag.startEvent, rest) := by
  have hslash : Skips tag.slash := by
    rw [Tag.slash]
    split
    · exact skips_of_all (List.forall_mem_singleton.2 rfl)
    · exact skips_nil
  -- The `>` behind the attributes is the first that stands outside quotes.
  have hclose : closeTag? none
      (tag.name ++ (Attribute.textAll tag.attributes ++ (tag.slash ++ '>' :: rest))) =
      some (tag.name ++ (Attribute.textAll tag.attributes ++ tag.slash), rest) := by
    have hend : closeTag? none ('>' :: rest) = some ([], rest) := rfl
    rw [skips_name hname, Attribute.skips_textAll hattributes, hslash, hend]
    simp
  have htag : ofTag (tag.name ++ (Attribute.textAll tag.attributes ++ tag.slash)) =
      tag.startEvent := ofTag_startText hname hattributes
  rw [Tag.startText_append, take?, if_pos rfl]
  obtain ⟨c, cs, heq, hc, -⟩ := hname
  rw [heq] at hclose htag ⊢
  -- A letter behind the `<` is neither of the characters that begin other markup.
  have hletter {d : Char} (hd : d.isAlpha = false) : c ≠ d := by
    rintro rfl
    rw [hc] at hd
    cases hd
  rw [List.cons_append, takeMarkup?, if_neg (hletter (by decide)), if_neg (hletter (by decide)),
    if_neg (hletter (by decide)), ← List.cons_append, hclose, Option.map_some]
  show some (ofTag _, rest) = _
  rw [htag]

/-- `closingName` finds an `IsName` whole. -/
theorem closingName_name (h : Tag.IsName name) : closingName name = name := by
  rcases List.eq_nil_or_concat name with rfl | ⟨front, c, rfl⟩
  · rfl
  · rw [List.concat_eq_append] at h ⊢
    -- A name ends in no blank, so there is nothing to cut off.
    have hblank := h.isMarkupBlank_of_mem (c := c) (by simp)
    rw [closingName, List.reverse_append, List.reverse_singleton, List.singleton_append,
      List.dropWhile_cons_of_neg (by simp [hblank])]
    simp

/-- `Event.take?` takes an end tag whole. -/
theorem take?_endTag (h : Tag.IsName name) (rest : Text) :
    take? ("</".toList ++ name ++ ['>'] ++ rest) = some (.close name, rest) := by
  have hclose : closeTag? none (name ++ '>' :: rest) = some (name, rest) := by
    have hend : closeTag? none ('>' :: rest) = some ([], rest) := rfl
    rw [skips_name h, hend]
    simp
  show takeMarkup? ('/' :: (name ++ ['>'] ++ rest)) = _
  rw [takeMarkup?, if_neg (by decide), if_neg (by decide), if_pos rfl, List.append_assoc,
    List.singleton_append, hclose]
  show some (close (closingName name), rest) = _
  rw [closingName_name h]

end Event

end TemploTwig
