import TemploTwig.Conversion.Tree
import TemploTwig.Proofs.Markup.Passes
import TemploTwig.Proofs.Running

/-!
# Attributes that hold placeholders

A placeholder in a start tag is the value of its family's holder attribute.  Such an attribute is
canonical, and its family and its index are read back from it.  An attribute that says nothing of
placeholders is read as none.
-/

namespace TemploTwig

theorem isDigit_of_mem_decimal {n : Nat} {c : Char} (h : c ∈ decimal n) : c.isDigit = true :=
  Nat.isDigit_of_mem_toDigits (by decide) (by decide) h

theorem not_mem_decimal {c : Char} (hc : c.isDigit = false) (n : Nat) : c ∉ decimal n := by
  intro h
  rw [isDigit_of_mem_decimal h] at hc
  cases hc

/-- A number is read back from its digits, if it is an index. -/
theorem parseIndex?_decimal_eq (n : Nat) :
    parseIndex? (decimal n) = if n < indexBound then some n else none := by
  -- A plus sign would be skipped, but digits are no plus sign.
  have hplus : Text.stripStart? ['+'] (decimal n) = none := by
    rw [Option.eq_none_iff_forall_ne_some]
    intro rest hrest
    apply not_mem_decimal (c := '+') rfl n
    rw [Text.stripStart?_eq_some_iff.1 hrest]
    exact List.mem_cons_self
  have hdigits : decimal n ≠ [] ∧ (decimal n).all Char.isDigit = true :=
    ⟨Nat.toDigits_ne_nil, List.all_eq_true.2 fun c => isDigit_of_mem_decimal⟩
  have hnumber : Nat.ofDigitChars 10 (decimal n) 0 = n := Nat.ofDigitChars_ten_toDigits
  rw [parseIndex?, hplus]
  simp only [Option.getD_none]
  rw [if_pos hdigits, hnumber]

theorem parseIndex?_decimal {n : Nat} (h : n < indexBound) : parseIndex? (decimal n) = some n := by
  rw [parseIndex?_decimal_eq, if_pos h]

namespace Family

theorem parseToken?_token {index : Nat} (h : index < indexBound) (family : Family) :
    family.parseToken? (family.token index) = some index := by
  have htoken : family.token index = family.name ++ ['_'] ++ decimal index := by simp [token]
  rw [parseToken?, htoken, Text.stripStart?_append, Option.bind_some, parseIndex?_decimal h]

/-- `holderAttribute` is canonical. -/
theorem isCanonical_holderAttribute (family : Family) (index : Nat) :
    (family.holderAttribute index).IsCanonical := by
  have hholder : (family.holder ≠ [] ∧ family.holder.all Attribute.isOpenChar = true) ∧
      ('=' ∉ family.holder ∧ family.holder.contains Span.delimiter = false) ∧
      family.holder.any Literal.isStandIn = false := by
    cases family <;> decide
  have hname : '"' ∉ family.name ∧ family.name.any Literal.isStandIn = false := by
    cases family <;> decide
  have hquote : '"' ∉ decimal index := not_mem_decimal rfl index
  have hdigits : (decimal index).any Literal.isStandIn = false := by
    rw [List.any_eq_false]
    intro c hc hstand
    have hdigit := isDigit_of_mem_decimal hc
    simp only [Literal.isStandIn, Bool.or_eq_true, beq_iff_eq] at hstand
    rcases hstand with (rfl | rfl) | rfl <;> cases hdigit
  have htoken : '"' ∉ family.token index := by simp [token, hname.1, hquote]
  have hstand : (family.holderAttribute index).text.any Literal.isStandIn = false := by
    rw [text_holderAttribute, holderText, token, Quote.enclose]
    simp only [List.any_cons, List.any_append, hholder.2.2, hname.2, hdigits]
    rfl
  exact ⟨hholder.1.1, hholder.1.2, hholder.2.1.1, hholder.2.1.2, htoken, hstand⟩

/-- A holder attribute names its family and its index. -/
theorem placeholder?_holderAttribute {index : Nat} (h : index < indexBound) (family : Family) :
    (family.holderAttribute index).placeholder? = some (family, index) := by
  have hindex (other : Family) : (family.holderAttribute index).index? other =
      if family.holder = other.holder then other.parseToken? (family.token index) else none := rfl
  have hself : (family.holderAttribute index).index? family = some index := by
    rw [hindex, if_pos rfl, parseToken?_token h]
  have hother (other : Family) (hne : other ≠ family) :
      (family.holderAttribute index).index? other = none := by
    rw [hindex, if_neg]
    revert hne
    cases family <;> cases other <;> decide
  -- No two families share a holder, so the search ends at the family itself.
  cases family <;> simp [Attribute.placeholder?, all, hself, hother]

end Family

namespace Attribute

/-- The text that every token starts with. -/
def tokenMark : Text := "TWIG_".toList

/-- `parseToken?` needs the mark. -/
theorem parseToken?_eq_none {t : Text} (h : ¬tokenMark <:+: t) (family : Family) :
    family.parseToken? t = none := by
  -- Every family's tokens start with the mark.
  have hname : ∃ rest, family.name ++ ['_'] = tokenMark ++ rest := by
    cases family
    · exact ⟨"MACRO_".toList, rfl⟩
    · exact ⟨"COND_".toList, rfl⟩
    · exact ⟨"CLASS_".toList, rfl⟩
    · exact ⟨"CHECKED_".toList, rfl⟩
    · exact ⟨"SELECTED_".toList, rfl⟩
  obtain ⟨rest, hname⟩ := hname
  have hstrip : Text.stripStart? (family.name ++ ['_']) t = none := by
    rw [Text.stripStart?_eq_none_iff]
    rintro ⟨u, rfl⟩
    refine h ⟨[], rest ++ u, ?_⟩
    rw [hname, List.nil_append, List.append_assoc]
  rw [Family.parseToken?, hstrip]
  rfl

theorem value_infix_text {a : Attribute} {v : Text} (h : a.value.text? = some v) :
    v <:+: a.text := by
  rw [text_eq]
  cases ha : a.value with
  | bare => rw [ha] at h; cases h
  | quoted w quote =>
    rw [ha] at h
    obtain rfl := Option.some.inj h
    exact ⟨' ' :: a.name ++ ['=', quote.char], [quote.char], by
      simp [AttributeValue.assigned, Quote.enclose]⟩
  | unquoted w =>
    rw [ha] at h
    obtain rfl := Option.some.inj h
    exact ⟨' ' :: a.name ++ ['='], [], by simp [AttributeValue.assigned]⟩

/-- An attribute without the mark of a token names no placeholder. -/
theorem placeholder?_eq_none {a : Attribute} (h : a.text.contains tokenMark = false) :
    a.placeholder? = none := by
  have hvalue (v : Text) (hv : a.value.text? = some v) : ¬tokenMark <:+: v := fun hmark =>
    Text.contains_eq_false_iff.1 h (hmark.trans (value_infix_text hv))
  rw [placeholder?, List.findSome?_eq_none_iff]
  intro family _
  rw [Option.map_eq_none_iff, index?]
  split
  · cases hv : a.value.text? with
    | none => rfl
    | some v => exact parseToken?_eq_none (hvalue v hv) family
  · rfl

end Attribute

namespace Convert

/-- An attribute that holds a placeholder of a condition gives that condition, and any other one
    stays an attribute. -/
theorem condition_or_kept_of_run {a : Attribute} {c : Converted} {ctx ctx' : Context}
    (h : (convertAttribute a).run.run ctx = (.ok c, ctx')) :
    (∃ index entry, a.placeholder? = some (.condition, index) ∧
      ctx.tables.conditions[index]? = some entry ∧ c = .condition (Condition.toTwig entry)) ∨
    (∀ index, a.placeholder? ≠ some (.condition, index)) ∧ ∃ kept, c = .kept kept := by
  unfold convertAttribute at h
  split at h
  · -- a condition
    next index hfound =>
    obtain ⟨entry, ctx₁, hresolve, h⟩ := exists_of_run_bind h
    have hc := Except.ok.inj (Prod.mk.inj h).1
    exact .inl ⟨index, entry, hfound, (getElem?_of_run_resolve hresolve).1, hc.symm⟩
  · -- a macro call
    next index hfound =>
    obtain ⟨entry, ctx₁, -, h⟩ := exists_of_run_bind h
    obtain ⟨_, ctx₂, -, h⟩ := exists_of_run_bind h
    exact .inr ⟨fun i => by simp [hfound], _, (Except.ok.inj (Prod.mk.inj h).1).symm⟩
  · -- a value of another family
    next family index hcondition _ hfound =>
    obtain ⟨entry, ctx₁, -, h⟩ := exists_of_run_bind h
    refine .inr ⟨fun i hi => hcondition ?_, _, (Except.ok.inj (Prod.mk.inj h).1).symm⟩
    exact (Prod.mk.inj (Option.some.inj (hfound.symm.trans hi))).1
  · -- no placeholder
    next hfound =>
    exact .inr ⟨fun i => by simp [hfound], _, (Except.ok.inj (Prod.mk.inj h).1).symm⟩

end Convert

end TemploTwig
