import Mathlib.Data.List.TakeWhile
import TemploTwig.Markup.Attribute
import TemploTwig.Proofs.Texts

/-!
# Attributes and their text

A list of attributes is *readable* when a name holds nothing that ends a name, a quoted value does
not hold its own quote, and a value without quotes holds nothing that ends it and does not begin
with a quote.  Such a value may be empty in the last attribute only, since the reader would take the
next one for it.  What is read behind a tag's name is readable, and a readable list is read back
from its own text.
-/

namespace TemploTwig

variable {c : Char} {rest : Text} {attributes : List Attribute}

theorem Quote.enclose_append (quote : Quote) (value t : Text) :
    quote.enclose value ++ t = quote.char :: (value ++ quote.char :: t) := by
  simp [enclose]

/-! ## Values -/

namespace AttributeValue

/-- The value as it is written behind the name. -/
def assigned : AttributeValue → Text
  | bare => []
  | quoted value quote => '=' :: quote.enclose value
  | unquoted value => '=' :: value

/-- A value that can be read: nothing in it ends it early or makes another kind of value of it. -/
def IsReadable : AttributeValue → Prop
  | bare => True
  | quoted value quote => quote.char ∉ value
  | unquoted value =>
    (∀ c ∈ value, isUnquotedChar c = true) ∧ ∀ c, value.head? = some c → Quote.ofChar? c = none

theorem isUnquotedChar_iff : isUnquotedChar c = true ↔ isAsciiBlank c = false ∧ c ≠ '>' := by
  simp [isUnquotedChar]

/-- A quoted value ends at its closing quote, whatever follows. -/
theorem take_quoted {value : Text} {quote : Quote} (h : quote.char ∉ value) (rest : Text) :
    take ((quoted value quote).assigned ++ rest) = (quoted value quote, rest) := by
  -- No blank is skipped in front of the quote, and the value ends at the next quote of its kind.
  have hquote : (quote.char :: (value ++ quote.char :: rest)).dropWhile isAsciiBlank =
      quote.char :: (value ++ quote.char :: rest) := by
    cases quote <;> rfl
  rw [assigned, List.cons_append, Quote.enclose_append]
  show takeAssigned ((quote.char :: (value ++ quote.char :: rest)).dropWhile isAsciiBlank) = _
  rw [hquote, takeAssigned, Quote.ofChar?_char]
  simp only
  rw [Text.cut?_char rest h]

/-- A value is read back in front of the next attribute or the end of the tag. -/
theorem take_assigned {value : AttributeValue} (h : value.IsReadable)
    (hblank : ∀ c, rest.head? = some c → isAsciiBlank c = true)
    (hequals : (rest.dropWhile isAsciiBlank).head? ≠ some '=')
    (hlast : value = unquoted [] → rest = []) : take (value.assigned ++ rest) = (value, rest) := by
  cases value with
  | bare =>
    rw [assigned, List.nil_append, take]
    split
    · next heq => rw [heq] at hequals; exact absurd rfl hequals
    · rfl
  | quoted value quote => exact take_quoted h rest
  | unquoted value =>
    obtain ⟨hrun, hquote⟩ := h
    have hstop (c : Char) (hc : rest.head? = some c) : isUnquotedChar c = false := by
      simp [isUnquotedChar, hblank c hc]
    rw [assigned, List.cons_append]
    show takeAssigned ((value ++ rest).dropWhile isAsciiBlank) = _
    cases value with
    | nil =>
      rw [hlast rfl]
      rfl
    | cons c value =>
      have hc := (isUnquotedChar_iff.1 (hrun c List.mem_cons_self)).1
      have hstart : (c :: value ++ rest).dropWhile isAsciiBlank = c :: value ++ rest := by
        rw [List.cons_append, List.dropWhile_cons_of_neg (by simp [hc])]
      rw [hstart, List.cons_append, takeAssigned, hquote c rfl]
      simp only
      rw [← List.cons_append, Text.takeWhile_append hrun hstop, Text.dropWhile_append hrun hstop]

/-- `takeAssigned` gives a readable value. -/
theorem isReadable_takeAssigned (t : Text) : (takeAssigned t).1.IsReadable := by
  cases t with
  | nil => simp [takeAssigned, IsReadable]
  | cons c cs =>
    rw [takeAssigned]
    cases hquote : Quote.ofChar? c with
    | some quote =>
      simp only
      cases hcut : Text.cut? [quote.char] cs with
      | some found => exact Text.not_mem_of_cut? hcut
      | none => exact Text.not_mem_of_cut?_eq_none hcut
    | none =>
      refine ⟨fun d hd => List.mem_takeWhile_imp hd, fun d hd => ?_⟩
      -- If the value is not empty, it begins with `c`.
      by_cases hc : isUnquotedChar c = true
      · rw [List.takeWhile_cons_of_pos hc] at hd
        obtain rfl : c = d := Option.some.inj hd
        exact hquote
      · rw [List.takeWhile_cons_of_neg hc] at hd
        cases hd

theorem isReadable_take (t : Text) : (take t).1.IsReadable := by
  rw [take]
  split
  · exact isReadable_takeAssigned _
  · trivial

/-- Behind an empty value without quotes the tag ends. -/
theorem eq_of_take_unquoted_nil {t : Text} (h : take t = (unquoted [], rest))
    (hc : rest.head? = some c) : c = '>' := by
  rw [take] at h
  split at h
  · next u _ =>
    cases hdrop : u.dropWhile isAsciiBlank with
    | nil =>
      obtain ⟨-, rfl⟩ := Prod.mk.inj ((congrArg takeAssigned hdrop).symm.trans h)
      cases hc
    | cons d ds =>
      have hblank : isAsciiBlank d = false := by
        have := List.head_dropWhile_not isAsciiBlank (hdrop ▸ List.cons_ne_nil d ds)
        simpa [hdrop] using this
      rw [hdrop, takeAssigned] at h
      cases hquote : Quote.ofChar? d with
      | some quote =>
        cases hcut : Text.cut? [quote.char] ds <;> simp [hquote, hcut] at h
      | none =>
        -- The value is empty, so its first character is no part of it.
        simp only [hquote, Prod.mk.injEq, unquoted.injEq] at h
        by_cases hd : isUnquotedChar d = true
        · rw [List.takeWhile_cons_of_pos hd] at h
          cases h.1
        · rw [List.dropWhile_cons_of_neg hd] at h
          obtain rfl : d = c := by simpa [← h.2] using hc
          simpa [isUnquotedChar, hblank] using hd
  · cases h

end AttributeValue

/-! ## Lists of attributes -/

namespace Attribute

theorem text_eq (a : Attribute) : a.text = ' ' :: (a.name ++ a.value.assigned) := by
  rw [text]
  cases a.value with
  | bare => simp [AttributeValue.assigned]
  | quoted value quote => rfl
  | unquoted value => rfl

theorem textAll_cons (a : Attribute) (attributes : List Attribute) :
    textAll (a :: attributes) = a.text ++ textAll attributes := List.flatMap_cons

/-- An attribute that can be read. -/
structure IsReadable (a : Attribute) : Prop where
  name_ne_nil : a.name ≠ []
  name : ∀ c ∈ a.name, isNameChar c = true
  value : a.value.IsReadable

/-- Attributes that can be read one after the other: only the last may have an empty value without
    quotes. -/
def ReadableAll : List Attribute → Prop
  | [] => True
  | a :: attributes =>
    a.IsReadable ∧ (a.value = .unquoted [] → attributes = []) ∧ ReadableAll attributes

theorem isNameChar_iff :
    isNameChar c = true ↔ isAsciiBlank c = false ∧ c ≠ '=' ∧ c ≠ '>' ∧ c ≠ '/' := by
  simp [isNameChar, and_assoc]

theorem parse_eq_nil {t : Text} (h : ∀ c, t.head? = some c → c = '>') : parse t = [] := by
  cases t with
  | nil => rw [parse]
  | cons c cs =>
    obtain rfl : c = '>' := h c rfl
    rw [parse, if_neg (by decide), if_pos rfl]

/-- What is read is readable. -/
theorem readableAll_parse (t : Text) : ReadableAll (parse t) := by
  fun_induction parse t with
  | case1 => trivial
  | case2 c cs hskip ih => exact ih
  | case3 cs hskip => trivial
  | case4 c cs hskip hgt taken ih =>
    have hc : isNameChar c = true := by
      simp only [Bool.or_eq_true, beq_iff_eq, not_or, Bool.not_eq_true] at hskip
      exact isNameChar_iff.2 ⟨hskip.1.1, hskip.2, hgt, hskip.1.2⟩
    refine ⟨⟨List.cons_ne_nil _ _, ?_, AttributeValue.isReadable_take _⟩, fun hempty => ?_, ih⟩
    · intro d hd
      rcases List.mem_cons.1 hd with rfl | hd
      · exact hc
      · exact List.mem_takeWhile_imp hd
    · have htake : AttributeValue.take (cs.dropWhile isNameChar) = (.unquoted [], taken.2) :=
        Prod.ext hempty rfl
      exact parse_eq_nil fun d hd => AttributeValue.eq_of_take_unquoted_nil htake hd

-- A quote inside a name, blanks around an equals sign, no blank behind a quote, stray marks and a
-- value that is missing.
example : parse "a\"b = 'c' d=\">\"e / =f g=h/=' i= >j".toList =
    [⟨"a\"b".toList, .quoted ['c'] .single⟩, ⟨['d'], .quoted ['>'] .double⟩, ⟨['e'], .bare⟩,
      ⟨['f'], .bare⟩, ⟨['g'], .unquoted "h/='".toList⟩, ⟨['i'], .unquoted []⟩] := by
  decide +kernel

/-- Attributes are written with a blank in front. -/
theorem head?_textAll (h : (textAll attributes).head? = some c) : c = ' ' := by
  cases attributes with
  | nil => cases h
  | cons a attributes =>
    rw [textAll_cons, text_eq] at h
    exact (Option.some.inj h).symm

/-- The first character behind the blank is no equals sign. -/
theorem head?_dropWhile_textAll (h : ReadableAll attributes) :
    ((textAll attributes).dropWhile isAsciiBlank).head? ≠ some '=' := by
  cases attributes with
  | nil => simp [textAll]
  | cons a attributes =>
    obtain ⟨c, cs, hname⟩ := List.exists_cons_of_ne_nil h.1.name_ne_nil
    have hc : c ∈ a.name := by rw [hname]; exact List.mem_cons_self
    obtain ⟨hblank, hequals, -⟩ := isNameChar_iff.1 (h.1.name c hc)
    -- The blank is skipped, the first character of the name is not.
    rw [textAll_cons, text_eq, hname, List.cons_append, List.dropWhile_cons_of_pos rfl,
      List.cons_append, List.cons_append, List.dropWhile_cons_of_neg (by simp [hblank])]
    intro hhead
    exact hequals (Option.some.inj hhead)

/-- An attribute is read back in front of a text that does not change its value. -/
theorem parse_text_append {a : Attribute} (h : a.IsReadable)
    (hstop : ∀ c, (a.value.assigned ++ rest).head? = some c → isNameChar c = false)
    (htake : AttributeValue.take (a.value.assigned ++ rest) = (a.value, rest)) :
    parse (a.text ++ rest) = a :: parse rest := by
  obtain ⟨c, cs, hname⟩ := List.exists_cons_of_ne_nil h.name_ne_nil
  have hc : isNameChar c = true := h.name c (by rw [hname]; exact List.mem_cons_self)
  have hcs (d : Char) (hd : d ∈ cs) : isNameChar d = true :=
    h.name d (by rw [hname]; exact List.mem_cons_of_mem _ hd)
  obtain ⟨hblank, hequals, hgt, hslash⟩ := isNameChar_iff.1 hc
  rw [text_eq, List.cons_append, parse, if_pos (by decide), List.append_assoc, hname,
    List.cons_append, parse, if_neg (by simp [hblank, hslash, hequals]), if_neg hgt,
    Text.takeWhile_append hcs hstop, Text.dropWhile_append hcs hstop, htake]
  simp only [← hname]

/-- A readable list is read back from its text. -/
theorem parse_textAll (h : ReadableAll attributes) : parse (textAll attributes) = attributes := by
  induction attributes with
  | nil => rw [textAll, List.flatMap_nil, parse]
  | cons a attributes ih =>
    obtain ⟨ha, hempty, hattributes⟩ := h
    have hrest (c : Char) (hc : (textAll attributes).head? = some c) : isAsciiBlank c = true := by
      rw [head?_textAll hc]; rfl
    have htake := AttributeValue.take_assigned ha.value hrest
      (head?_dropWhile_textAll hattributes) fun hvalue => by rw [hempty hvalue]; rfl
    -- The name stops at the equals sign, at the blank before the next attribute, or at the end.
    have hstop (c : Char) (hc : (a.value.assigned ++ textAll attributes).head? = some c) :
        isNameChar c = false := by
      cases hvalue : a.value with
      | bare =>
        rw [hvalue, AttributeValue.assigned, List.nil_append] at hc
        rw [head?_textAll hc]; rfl
      | quoted value quote | unquoted value =>
        rw [hvalue] at hc
        rw [← Option.some.inj hc]; rfl
    rw [textAll_cons, parse_text_append ha hstop htake, ih hattributes]

/-- The lists that can be read are the readable ones. -/
theorem exists_parse_eq_iff : (∃ t, parse t = attributes) ↔ ReadableAll attributes := by
  constructor
  · rintro ⟨t, rfl⟩
    exact readableAll_parse t
  · intro h
    exact ⟨textAll attributes, parse_textAll h⟩

/-- Attributes that are read, written and read again stay as they are, whatever stood around and
    between them in the text that they were first read from.  The lists that can be read are the
    readable ones, and no others. -/
theorem parse_textAll_stable :
    (∀ t, parse (textAll (parse t)) = parse t) ∧
      ∀ attributes, (∃ t, parse t = attributes) ↔ ReadableAll attributes :=
  ⟨fun t => parse_textAll (readableAll_parse t), fun _ => exists_parse_eq_iff⟩

end Attribute

end TemploTwig
