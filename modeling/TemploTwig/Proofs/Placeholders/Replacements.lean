import TemploTwig.Proofs.Markup.Held
import TemploTwig.Proofs.Placeholders.Seams
import TemploTwig.Proofs.Placeholders.Tracing

/-!
# The replacements of the passes

Each pass replaces constructs of the template by placeholders, tags, braces or stand-ins, and keeps
everything else.  All replacements are of a few shapes, which begin and end with characters that no
mark has where it matters.  So a template that is traced and seamless stays so through all passes.
-/

namespace TemploTwig

/-- The mark of the attributes that only placeholders have. -/
def Family.holderMark : Text := "data-twig-".toList

/-- The marks that placeholders have. -/
def Family.marks : List Text := [MacroToken.opening, Attribute.tokenMark, Family.holderMark]

/-- The characters with which a part may begin that reading leaves out. -/
def openChars : List Char := ['<', ':']

/-- The characters with which such a part may end. -/
def closeChars : List Char := ['>', ':']

/-- A text has none of the characters if a look at each of them says so. -/
theorem Text.not_mem_of_all {t : Text} {cs : List Char}
    (h : t.all (fun c => !cs.contains c) = true) : ∀ c ∈ t, c ∉ cs := by
  intro c hc
  simpa using List.all_eq_true.1 h c hc

/-! ## The shapes of a placeholder -/

namespace Family

theorem name_eq (f : Family) : f.name = 'T' :: 'W' :: f.name.drop 2 := by
  cases f <;> rfl

theorem not_mem_name (f : Family) : 'W' ∉ f.name.drop 2 := by
  cases f <;> decide

theorem not_mem_holder (f : Family) : 'W' ∉ f.holder ∧ '[' ∉ f.holder := by
  cases f <;> decide

/-- A holder, divided at a character that it has once. -/
theorem holderText_eq (f : Family) (i : Nat) :
    f.holderText i = (f.holder ++ ['=', '"', 'T']) ++
      'W' :: (f.name.drop 2 ++ '_' :: decimal i ++ ['"']) := by
  rw [holderText, Quote.enclose, token, name_eq]
  simp [Quote.char]

theorem token_eq (f : Family) (i : Nat) :
    f.token i = 'T' :: 'W' :: (f.name.drop 2 ++ '_' :: decimal i) := by
  rw [token, name_eq]
  rfl

/-- An inline token, divided at a character that it has once. -/
theorem ofIndex_eq (i : Nat) :
    MacroToken.ofIndex i = ['[', '[', 'T'] ++
      'W' :: (macroCall.name.drop 2 ++ '_' :: decimal i ++ [']', ']']) := by
  have hfront : "[[".toList = ['[', '['] := rfl
  have hback : MacroToken.closing = [']', ']'] := rfl
  rw [MacroToken.ofIndex, token_eq, hfront, hback]
  simp only [List.cons_append, List.nil_append]

end Family

namespace Tables

/-- What may stand where the mark of a token does: the token of an entry, closed by a quote in a
    holder and by brackets in text. -/
inductive Word (tables : Tables) : Text → Prop
  | held (f : Family) {i : Nat} (h : i < (tables.entries f).length) : Word tables (f.token i ++ ['"'])
  | inline {i : Nat} (h : i < (tables.entries .macroCall).length) :
    Word tables (Family.macroCall.token i ++ MacroToken.closing)

/-- The inline tokens of the recorded calls. -/
def Inlined (tables : Tables) (w : Text) : Prop :=
  ∃ i < (tables.entries .macroCall).length, w = MacroToken.ofIndex i

/-- The characters of the words. -/
def isTokenChar (c : Char) : Bool :=
  c.isUpper || c.isDigit || c == '_' || c == '[' || c == ']' || c == '"'

/-- `token` is spelled in token characters. -/
theorem isTokenChar_of_mem_token {f : Family} {i : Nat} {c : Char} (h : c ∈ f.token i) :
    isTokenChar c = true := by
  have hname : f.name.all isTokenChar = true := by cases f <;> decide
  rw [Family.token, List.mem_append, List.mem_cons] at h
  rcases h with h | rfl | h
  · exact List.all_eq_true.1 hname c h
  · rfl
  · simp [isTokenChar, isDigit_of_mem_decimal h]

/-- A `Word` is spelled in token characters. -/
theorem Word.isTokenChar_of_mem {tables : Tables} {w : Text} (hw : tables.Word w) {c : Char}
    (hc : c ∈ w) : isTokenChar c = true := by
  cases hw with
  | held f _ =>
    rcases List.mem_append.1 hc with hc | hc
    · exact isTokenChar_of_mem_token hc
    · rw [List.mem_singleton.1 hc]; rfl
  | inline _ =>
    rcases List.mem_append.1 hc with hc | hc
    · exact isTokenChar_of_mem_token hc
    · rw [show MacroToken.closing = [']', ']'] from rfl] at hc
      simp only [List.mem_cons, List.not_mem_nil, or_false, or_self] at hc
      rw [hc]; rfl

/-- `ofIndex` is spelled in token characters. -/
theorem isTokenChar_of_mem_ofIndex {i : Nat} {c : Char} (hc : c ∈ MacroToken.ofIndex i) :
    isTokenChar c = true := by
  have hbrackets : ("[[".toList ++ MacroToken.closing).all isTokenChar = true := rfl
  rw [MacroToken.ofIndex, List.mem_append, List.mem_append] at hc
  rcases hc with (hc | hc) | hc
  · exact List.all_eq_true.1 hbrackets c (List.mem_append_left _ hc)
  · exact isTokenChar_of_mem_token hc
  · exact List.all_eq_true.1 hbrackets c (List.mem_append_right _ hc)

theorem Inlined.isTokenChar_of_mem {tables : Tables} {w : Text} (hw : tables.Inlined w) {c : Char}
    (hc : c ∈ w) : isTokenChar c = true := by
  obtain ⟨i, -, rfl⟩ := hw
  exact isTokenChar_of_mem_ofIndex hc

theorem Word.mono {t t' : Tables} (h : t.Extends t') {w : Text} (hw : t.Word w) : t'.Word w := by
  cases hw with
  | held f hi => exact .held f (Nat.lt_of_lt_of_le hi (h f).length_le)
  | inline hi => exact .inline (Nat.lt_of_lt_of_le hi (h .macroCall).length_le)

theorem Inlined.mono {t t' : Tables} (h : t.Extends t') {w : Text} (hw : t.Inlined w) :
    t'.Inlined w := by
  obtain ⟨i, hi, rfl⟩ := hw
  exact ⟨i, Nat.lt_of_lt_of_le hi (h .macroCall).length_le, rfl⟩

/-! ## The replacements -/

/-- The replacements of the passes, as far as the tables have entries for them. -/
inductive Replaces (tables : Tables) : Text → Text → Prop
  | inline (call : MacroCall) {i : Nat} (h : i < (tables.entries .macroCall).length) :
    Replaces tables call.source (MacroToken.ofIndex i)
  | heldCall (call : MacroCall) {i : Nat} (h : i < (tables.entries .macroCall).length) :
    Replaces tables call.source (Family.macroCall.holderText i)
  | held (body : Text) (f : Family) {i : Nat} (h : i < (tables.entries f).length) :
    Replaces tables (Span.ofBody body) (f.holderText i)
  | wrapper (body : Text) {new : Text} (h : new ∈ [Inheritance.openTag, Inheritance.closeTag]) :
    Replaces tables (Span.ofBody body) new
  | braces {new : Text} (h : new ∈ ["\x7b\x7b".toList, "\x7d\x7d".toList]) :
    Replaces tables Span.delimiter new
  | hide {c d : Char} (hc : c ∈ ['&', '<', '>'])
    (hd : d ∈ [Literal.ampersand, Literal.lessThan, Literal.greaterThan]) : Replaces tables [c] [d]

namespace Replaces

variable {tables : Tables} {old new : Text}

/-- `Replaces` holds of tables with more entries. -/
theorem mono {tables' : Tables} (ht : tables.Extends tables') (h : tables.Replaces old new) :
    tables'.Replaces old new := by
  have hlt {f : Family} {i : Nat} (hi : i < (tables.entries f).length) :
      i < (tables'.entries f).length := Nat.lt_of_lt_of_le hi (ht f).length_le
  cases h with
  | inline call hi => exact .inline call (hlt hi)
  | heldCall call hi => exact .heldCall call (hlt hi)
  | held body f hi => exact .held body f (hlt hi)
  | wrapper body hnew => exact .wrapper body hnew
  | braces hnew => exact .braces hnew
  | hide hc hd => exact .hide hc hd

/-- What is replaced begins with no character of a token. -/
theorem head_old (h : tables.Replaces old new) : ∃ c cs, old = c :: cs ∧ isTokenChar c = false := by
  cases h with
  | inline call _ | heldCall call _ => exact ⟨'$', _, rfl, rfl⟩
  | held body f _ | wrapper body _ | braces _ => exact ⟨':', _, rfl, rfl⟩
  | hide hc _ =>
    refine ⟨_, [], rfl, ?_⟩
    simp only [List.mem_cons, List.not_mem_nil, or_false] at hc
    rcases hc with rfl | rfl | rfl <;> rfl

/-- A new part is an inline token, a holder, or one of a few short texts. -/
theorem new_cases (h : tables.Replaces old new) :
    (∃ i < (tables.entries .macroCall).length, new = MacroToken.ofIndex i) ∨
      (∃ f i, i < (tables.entries f).length ∧ new = f.holderText i) ∨
      new ∈ [Inheritance.openTag, Inheritance.closeTag, ['\x7b', '\x7b'], ['\x7d', '\x7d'],
        [Literal.ampersand], [Literal.lessThan], [Literal.greaterThan]] := by
  cases h with
  | inline call hi => exact .inl ⟨_, hi, rfl⟩
  | heldCall call hi => exact .inr (.inl ⟨_, _, hi, rfl⟩)
  | held body f hi => exact .inr (.inl ⟨f, _, hi, rfl⟩)
  | wrapper body hnew =>
    simp only [List.mem_cons, List.not_mem_nil, or_false] at hnew
    rcases hnew with rfl | rfl <;> simp
  | braces hnew =>
    rw [show "\x7b\x7b".toList = ['\x7b', '\x7b'] from rfl,
      show "\x7d\x7d".toList = ['\x7d', '\x7d'] from rfl] at hnew
    simp only [List.mem_cons, List.not_mem_nil, or_false] at hnew
    rcases hnew with rfl | rfl <;> simp
  | hide _ hd =>
    simp only [List.mem_cons, List.not_mem_nil, or_false] at hd
    rcases hd with rfl | rfl | rfl <;> simp

/-- A new part begins with two brackets or with no character of a mark behind its first. -/
theorem head_new (h : tables.Replaces old new) :
    (∃ cs, new = '[' :: '[' :: cs) ∨ ∃ c cs, new = c :: cs ∧ ∀ m ∈ Family.marks, c ∉ m.tail := by
  rcases h.new_cases with ⟨i, -, rfl⟩ | ⟨f, i, -, rfl⟩ | h
  · exact .inl ⟨_, rfl⟩
  · refine .inr ?_
    -- The five holders are compared with the marks one by one.
    have hholder : ∃ c cs, f.holder = c :: cs ∧ ∀ m ∈ Family.marks, c ∉ m.tail := by
      cases f
      · exact ⟨'d', "ata-twig-macro".toList, rfl, by decide⟩
      · exact ⟨'d', "ata-twig-cond".toList, rfl, by decide⟩
      · exact ⟨'c', "lass".toList, rfl, by decide⟩
      · exact ⟨'c', "hecked".toList, rfl, by decide⟩
      · exact ⟨'s', "elected".toList, rfl, by decide⟩
    obtain ⟨c, cs, heq, hc⟩ := hholder
    exact ⟨c, _, by rw [Family.holderText, heq]; rfl, hc⟩
  · refine .inr ?_
    simp only [List.mem_cons, List.not_mem_nil, or_false] at h
    rcases h with rfl | rfl | rfl | rfl | rfl | rfl | rfl
    · exact ⟨'<', _, rfl, by decide⟩
    · exact ⟨'<', _, rfl, by decide⟩
    · exact ⟨'\x7b', _, rfl, by decide⟩
    · exact ⟨'\x7d', _, rfl, by decide⟩
    · exact ⟨_, _, rfl, by decide⟩
    · exact ⟨_, _, rfl, by decide⟩
    · exact ⟨_, _, rfl, by decide⟩

/-- No replacement begins inside a mark. -/
theorem avoids (tables : Tables) {m : Text} (hm : m ∈ Family.marks) :
    Substitutes.Avoids tables.Replaces m.tail := by
  intro s hne hs old new after hnew hbegin
  rcases hnew.head_new with ⟨cs, rfl⟩ | ⟨c, cs, rfl, hc⟩
  · -- Only one mark has a bracket behind its first character, and no second one follows.
    have hbracket : ∀ m ∈ Family.marks, ¬['['] <:+ m.tail ∧ ¬['[', '['] <:+: m.tail := by
      decide +kernel
    match s, hne, hs, hbegin with
    | [d], _, hs, hbegin =>
      obtain rfl : d = '[' := (List.cons_prefix_cons.1 hbegin).1
      exact (hbracket m hm).1 hs
    | d :: e :: s, _, hs, hbegin =>
      obtain ⟨rfl, hrest⟩ := List.cons_prefix_cons.1 hbegin
      obtain rfl : e = '[' := (List.cons_prefix_cons.1 hrest).1
      exact (hbracket m hm).2 (List.IsInfix.trans ⟨[], s, rfl⟩ hs.isInfix)
  · cases s with
    | nil => exact hne rfl
    | cons d s =>
      obtain rfl : d = c := (List.cons_prefix_cons.1 hbegin).1
      exact hc m hm (hs.mem List.mem_cons_self)

/-- A new part ends with no character of a mark. -/
theorem last_new (h : tables.Replaces old new) :
    ∃ cs c, new = cs ++ [c] ∧ Text.Bars Family.marks c := by
  rcases h.new_cases with ⟨i, -, rfl⟩ | ⟨f, i, -, rfl⟩ | h
  · refine ⟨"[[".toList ++ Family.macroCall.token i ++ [']'], ']', ?_, by unfold Text.Bars; decide⟩
    rw [MacroToken.ofIndex, List.append_assoc _ [']']]
    rfl
  · refine ⟨f.holder ++ '=' :: '"' :: f.token i, '"', ?_, by unfold Text.Bars; decide⟩
    simp [Family.holderText, Quote.enclose, Quote.char]
  · simp only [List.mem_cons, List.not_mem_nil, or_false] at h
    rcases h with rfl | rfl | rfl | rfl | rfl | rfl | rfl
    · exact ⟨"<twig-use".toList, '>', rfl, by unfold Text.Bars; decide⟩
    · exact ⟨"</twig-use".toList, '>', rfl, by unfold Text.Bars; decide⟩
    · exact ⟨['\x7b'], '\x7b', rfl, by unfold Text.Bars; decide⟩
    · exact ⟨['\x7d'], '\x7d', rfl, by unfold Text.Bars; decide⟩
    · exact ⟨[], _, rfl, by unfold Text.Bars; decide⟩
    · exact ⟨[], _, rfl, by unfold Text.Bars; decide⟩
    · exact ⟨[], _, rfl, by unfold Text.Bars; decide⟩

/-- The characters that neither begin nor end a part which reading leaves out. -/
def isInner (c : Char) : Bool := c != '<' && c != '>' && c != ':'

theorem framed_of_isInner (hne : new ≠ []) (h : ∀ c ∈ new, isInner c = true) :
    Substitutes.Framed openChars closeChars old new := by
  refine Substitutes.framed_of_not_mem hne fun c hc => ?_
  have hinner : (c ≠ '<' ∧ c ≠ '>') ∧ c ≠ ':' := by simpa [isInner] using h c hc
  simp [openChars, closeChars, hinner]

/-- `isInner` holds of token characters. -/
theorem isInner_of_isTokenChar {c : Char} (h : isTokenChar c = true) : isInner c = true := by
  have hne {d : Char} (hd : isTokenChar d = false) : c ≠ d := by
    rintro rfl
    rw [h] at hd
    cases hd
  have hopen : c ≠ '<' := hne rfl
  have hclose : c ≠ '>' := hne rfl
  have hcolon : c ≠ ':' := hne rfl
  simp [isInner, hopen, hclose, hcolon]

/-- Of the new parts only tags begin and end a part that reading leaves out, and they stand for
    directives, which do so as well. -/
theorem framed (h : tables.Replaces old new) : Substitutes.Framed openChars closeChars old new := by
  have hholder (f : Family) (i : Nat) (old : Text) :
      Substitutes.Framed openChars closeChars old (f.holderText i) := by
    have hname : f.holder.all isInner = true := by cases f <;> decide
    refine framed_of_isInner (by simp [Family.holderText]) ?_
    intro c hc
    rw [Family.holderText, Quote.enclose, List.mem_append, List.mem_cons, List.cons_append,
      List.mem_cons, List.mem_append, List.mem_singleton] at hc
    rcases hc with hc | rfl | rfl | hc | rfl
    · exact List.all_eq_true.1 hname c hc
    · rfl
    · rfl
    · exact isInner_of_isTokenChar (isTokenChar_of_mem_token hc)
    · rfl
  have hshort {fixed : Text} (hne : fixed ≠ []) (hfixed : fixed.all isInner = true) (old : Text) :
      Substitutes.Framed openChars closeChars old fixed :=
    framed_of_isInner hne (List.all_eq_true.1 hfixed)
  cases h with
  | inline call hi =>
    refine framed_of_isInner (by simp [MacroToken.ofIndex]) fun c hc => ?_
    exact isInner_of_isTokenChar (Inlined.isTokenChar_of_mem ⟨_, hi, rfl⟩ hc)
  | heldCall call _ => exact hholder .macroCall _ _
  | held body f _ => exact hholder f _ _
  -- The tags around the inherited content begin and end as markup does, and so do directives.
  | wrapper body hnew =>
    have hopen : ∃ d ds, Span.ofBody body = d :: ds ∧ d ∈ openChars := ⟨':', _, rfl, by decide⟩
    have hclose : ∃ ds d, Span.ofBody body = ds ++ [d] ∧ d ∈ closeChars :=
      ⟨':' :: ':' :: body ++ [':'], ':', by simp [Span.ofBody, Span.delimiter], by decide⟩
    simp only [List.mem_cons, List.not_mem_nil, or_false] at hnew
    rcases hnew with rfl | rfl
    · exact ⟨⟨'<', "twig-use>".toList, rfl, Text.not_mem_of_all (by decide), fun _ => hopen⟩,
        ⟨"<twig-use".toList, '>', rfl, Text.not_mem_of_all (by decide), fun _ => hclose⟩⟩
    · exact ⟨⟨'<', "/twig-use>".toList, rfl, Text.not_mem_of_all (by decide), fun _ => hopen⟩,
        ⟨"</twig-use".toList, '>', rfl, Text.not_mem_of_all (by decide), fun _ => hclose⟩⟩
  | braces hnew =>
    simp only [List.mem_cons, List.not_mem_nil, or_false] at hnew
    rcases hnew with rfl | rfl
    · exact hshort (by decide) rfl _
    · exact hshort (by decide) rfl _
  | hide _ hd =>
    simp only [List.mem_cons, List.not_mem_nil, or_false] at hd
    rcases hd with rfl | rfl | rfl
    · exact hshort (by simp) rfl _
    · exact hshort (by simp) rfl _
    · exact hshort (by simp) rfl _

theorem not_mem_short (h : new ∈ [Inheritance.openTag, Inheritance.closeTag, ['\x7b', '\x7b'],
    ['\x7d', '\x7d'], [Literal.ampersand], [Literal.lessThan], [Literal.greaterThan]]) :
    'W' ∉ new := by
  simp only [List.mem_cons, List.not_mem_nil, or_false] at h
  rcases h with rfl | rfl | rfl | rfl | rfl | rfl | rfl <;> decide

theorem traced_short {mark : Text} {words : Text → Prop} (hmark : 'W' ∈ mark)
    (h : new ∈ [Inheritance.openTag, Inheritance.closeTag, ['\x7b', '\x7b'],
      ['\x7d', '\x7d'], [Literal.ampersand], [Literal.lessThan], [Literal.greaterThan]]) :
    Text.Traced mark words new :=
  Text.traced_of_not_occurs fun hoccurs => not_mem_short h (hoccurs.mem hmark)

theorem not_mem_behind_name (f : Family) (i : Nat) (ending : Text) (h : 'W' ∉ ending) :
    'W' ∉ f.name.drop 2 ++ '_' :: decimal i ++ ending := by
  have hdigits : 'W' ∉ decimal i := not_mem_decimal rfl i
  simp [f.not_mem_name, hdigits, h]

/-- The mark of a token stands in a new part only where its token does. -/
theorem traced_token (h : tables.Replaces old new) :
    Text.Traced Attribute.tokenMark tables.Word new := by
  have hmark : Attribute.tokenMark = ['T'] ++ 'W' :: "IG_".toList := rfl
  rcases h.new_cases with ⟨i, hi, rfl⟩ | ⟨f, i, hi, rfl⟩ | h
  · refine Text.traced_of_unique hmark (Family.ofIndex_eq i) (by decide) ?_ fun _ => ?_
    · exact not_mem_behind_name .macroCall i _ (by decide)
    · refine ⟨_, Word.inline hi, ?_⟩
      rw [Family.token_eq, show MacroToken.closing = [']', ']'] from rfl]
      exact List.prefix_refl _
  · refine Text.traced_of_unique hmark (f.holderText_eq i) ?_ ?_ fun _ => ?_
    · simp [f.not_mem_holder.1]
    · exact not_mem_behind_name f i _ (by decide)
    · refine ⟨_, Word.held f hi, ?_⟩
      rw [f.token_eq]
      exact List.prefix_refl _
  · exact traced_short (by decide) h

/-- The opening of an inline token stands in a new part only where the token does. -/
theorem traced_opening (h : tables.Replaces old new) :
    Text.Traced MacroToken.opening tables.Inlined new := by
  have hmark : MacroToken.opening = ['[', '[', 'T'] ++ 'W' :: "IG_MACRO_".toList := rfl
  rcases h.new_cases with ⟨i, hi, rfl⟩ | ⟨f, i, hi, rfl⟩ | h
  · refine Text.traced_of_unique hmark (Family.ofIndex_eq i) (by decide) ?_ fun _ => ?_
    · exact not_mem_behind_name .macroCall i _ (by decide)
    · refine ⟨_, ⟨i, hi, rfl⟩, ?_⟩
      exact Family.ofIndex_eq i ▸ List.prefix_refl _
  · refine Text.traced_of_unique hmark (f.holderText_eq i) ?_ ?_ fun hsuffix => ?_
    · simp [f.not_mem_holder.1]
    · exact not_mem_behind_name f i _ (by decide)
    · -- A holder has no bracket in front of its token.
      have hmem : '[' ∈ f.holder ++ ['=', '"', 'T'] := hsuffix.mem List.mem_cons_self
      simp [f.not_mem_holder.2] at hmem
  · exact traced_short (by decide) h

end Replaces

end Tables

end TemploTwig
