import TemploTwig.Proofs.Placeholders.Resolution

/-!
# Tokens are a code

A token says which construct of which family is meant, so no two constructs may share one.  A token
is read back as its index by its own family and by no other.  An inline token in a text without
opening brackets is found where it was put and nowhere else.
-/

namespace TemploTwig

namespace MacroToken

/-- Digits of any script, at least one, stand in the brackets of a token between two texts. -/
structure Occurs (t front digits back : Text) : Prop where
  eq_append : t = front ++ spell digits ++ back
  ne_nil : digits ≠ []
  isAnyDigit_of_mem : ∀ c ∈ digits, isAnyDigit c = true

/-- A token is recognised at the front of a text where one occurs there. -/
theorem take?_eq_some_iff {t digits rest : Text} :
    take? t = some (digits, rest) ↔ Occurs t [] digits rest := by
  constructor
  · intro h
    have happend := take?_eq_append h
    obtain ⟨body, -, hbody⟩ := Option.bind_eq_some_iff.1 h
    dsimp only at hbody
    split at hbody
    · cases hbody
    · next hne =>
      obtain ⟨back, -, heq⟩ := Option.map_eq_some_iff.1 hbody
      obtain ⟨rfl, rfl⟩ := Prod.mk.inj heq
      exact ⟨happend, hne, fun c hc => List.mem_takeWhile_imp hc⟩
  · rintro ⟨rfl, hne, hdigits⟩
    exact take?_spell_append hne hdigits rest

/-- Nothing is recognised where no bracket opens. -/
theorem declines_of_not_mem {t : Text} (h : '[' ∉ t) (after : Text) :
    recogniser.Declines t after := by
  intro front back ht hne
  cases back with
  | nil => exact absurd rfl hne
  | cons c back =>
    rw [Option.eq_none_iff_forall_ne_some]
    rintro ⟨digits, rest⟩ hnext
    -- The token would begin with this character of `t`.
    have hbegin : c :: back ++ after = spell digits ++ rest := (take?_eq_some_iff.1 hnext).eq_append
    have hc : c = '[' := (List.cons.inj hbegin).1
    apply h
    rw [ht, hc]
    simp

theorem spell_append (digits rest : Text) :
    spell digits ++ rest = '[' :: ((spell digits).tail ++ rest) := rfl

theorem count_spell (digits : Text) : (spell digits).count '[' = 2 + digits.count '[' := by
  have hopening : opening.count '[' = 2 := rfl
  have hclosing : closing.count '[' = 0 := rfl
  rw [spell, List.count_append, List.count_append, hopening, hclosing, Nat.add_zero]

theorem occurs_ofIndex (before : Text) (i : Nat) (after : Text) :
    Occurs (before ++ ofIndex i ++ after) before (decimal i) after :=
  ⟨by rw [ofIndex_eq_spell], Nat.toDigits_ne_nil,
    fun _ hc => isAnyDigit_of_isDigit (isDigit_of_mem_decimal hc)⟩

/-- Between texts in which no bracket opens, the inline token of an index is the only token. -/
theorem occurs_iff {before after : Text} (hbefore : '[' ∉ before) (hafter : '[' ∉ after) (i : Nat)
    {front digits back : Text} :
    Occurs (before ++ ofIndex i ++ after) front digits back ↔
      front = before ∧ digits = decimal i ∧ back = after := by
  constructor
  · intro h
    have heq : before ++ (spell (decimal i) ++ after) = front ++ (spell digits ++ back) := by
      rw [← ofIndex_eq_spell, ← List.append_assoc, ← List.append_assoc, h.eq_append]
    -- The brackets of the token are all there are, so none is left for the text in front.
    have hfront : '[' ∉ front := by
      have hcount := congrArg (List.count '[') heq
      have hdecimal : '[' ∉ decimal i := not_mem_decimal rfl i
      simp only [List.count_append, count_spell, List.count_eq_zero.2 hbefore,
        List.count_eq_zero.2 hafter, List.count_eq_zero.2 hdecimal] at hcount
      apply List.count_eq_zero.1
      omega
    have hsame : front = before := by
      rw [spell_append, spell_append] at heq
      exact ((Text.append_cons_inj hbefore hfront).1 heq).1.symm
    subst hsame
    have htake : take? (spell digits ++ back) = some (digits, back) :=
      take?_eq_some_iff.2 ⟨rfl, h.ne_nil, h.isAnyDigit_of_mem⟩
    rw [← List.append_cancel_left heq, ← ofIndex_eq_spell, take?_ofIndex_append] at htake
    obtain ⟨rfl, rfl⟩ := Prod.mk.inj (Option.some.inj htake)
    exact ⟨rfl, rfl, rfl⟩
  · rintro ⟨rfl, rfl, rfl⟩
    exact occurs_ofIndex front i back

end MacroToken

namespace Family

/-- Tokens are an unambiguous code: an index is read back by its own family and by no other, two
    tokens are equal only if they stand for the same construct, and in running text without
    opening brackets an inline token is found once, with the digits of its index. -/
theorem token_unambiguous {i : Nat} (hi : i < UInt64.size) (j : Nat) (f g : Family)
    {before after : Text} (hbefore : '[' ∉ before) (hafter : '[' ∉ after) :
    f.parseToken? (f.token i) = some i ∧
    (g ≠ f → g.parseToken? (f.token i) = none) ∧
    (f.token i = g.token j → f = g ∧ i = j) ∧
    MacroToken.scan (before ++ MacroToken.ofIndex i ++ after) =
      Piece.ofText before ++ .token (decimal i) :: Piece.ofText after ∧
    ∀ front digits back,
      MacroToken.Occurs (before ++ MacroToken.ofIndex i ++ after) front digits back ↔
        front = before ∧ digits = decimal i ∧ back = after := by
  have hindex : i < indexBound := hi
  refine ⟨parseToken?_token hindex f, ?_, ?_, ?_, ?_⟩
  · intro hne
    rw [Option.eq_none_iff_forall_ne_some]
    intro k hk
    exact hne (eq_of_parseToken?_token hk).1
  · intro heq
    have hread := parseToken?_token hindex f
    rw [heq] at hread
    exact eq_of_parseToken?_token hread
  · exact Recogniser.scan_between (MacroToken.declines_of_not_mem hbefore _)
      (MacroToken.declines_of_not_mem hafter []) (MacroToken.take?_ofIndex_append i after)
  · intro front digits back
    exact MacroToken.occurs_iff hbefore hafter i

/-- The largest index of all. -/
theorem token_unambiguous_largest :
    (UInt64.size - 1 < UInt64.size ∧ '[' ∉ "TWIG_MACRO_7 ".toList ∧ '[' ∉ "٣_".toList) ∧
    condition.parseToken? (condition.token (UInt64.size - 1)) = some (UInt64.size - 1) ∧
    className.parseToken? (condition.token (UInt64.size - 1)) = none ∧
    condition.token (UInt64.size - 1) ≠ className.token 7 ∧
    MacroToken.scan
        ("TWIG_MACRO_7 ".toList ++ MacroToken.ofIndex (UInt64.size - 1) ++ "٣_".toList) =
      [.plain "TWIG_MACRO_7 ".toList, .token "18446744073709551615".toList,
        .plain "٣_".toList] := by
  have hindex : UInt64.size - 1 < UInt64.size := by decide
  have hbefore : '[' ∉ "TWIG_MACRO_7 ".toList := by decide
  have hafter : '[' ∉ "٣_".toList := by decide
  have hdecimal : decimal (UInt64.size - 1) = "18446744073709551615".toList := by decide
  obtain ⟨hself, hother, hequal, hscan, -⟩ :=
    token_unambiguous hindex 7 condition className hbefore hafter
  refine ⟨⟨hindex, hbefore, hafter⟩, hself, hother (by decide), ?_, ?_⟩
  · intro heq
    cases (hequal heq).1
  · rw [hscan, hdecimal]
    rfl

end Family

end TemploTwig
