import TemploTwig.Proofs.Groups
import TemploTwig.Proofs.Markup.Placement

/-!
# Conditions of `checked` and `selected`

The directives `::attr checked e::` and `::attr selected e::` print a condition as the value of an
attribute.  If a group leads the argument, the condition is what stands in its parentheses, and what
follows the group is not read.  Otherwise it is the whole argument.
-/

namespace TemploTwig

/-- An attribute whose value is a condition. -/
inductive Flag where
  | checked
  | selected
  deriving DecidableEq, Repr

namespace Flag

/-- The name of the attribute. -/
def word : Flag → Text
  | checked => "checked".toList
  | selected => "selected".toList

/-- The family of its placeholders. -/
def family : Flag → Family
  | checked => .checked
  | selected => .selected

/-- The directive with a given condition. -/
def directive : Flag → Text → AttributeDirective
  | checked => .checked
  | selected => .selected

/-- The span with a given argument. -/
def source (k : Flag) (e : Text) : Text := Span.ofBody ("attr ".toList ++ k.word ++ ' ' :: e)

/-- The condition in an argument: the inner text of the group that leads it, or all of it. -/
def Captures (e c : Text) : Prop :=
  (∃ g : Group, g.Leads e ∧ c = g.inner.trim) ∨ (∀ g : Group, ¬g.Leads e) ∧ c = e

/-- The condition is all of the argument, or what stands in parentheses around all of it. -/
def Carries (e c : Text) : Prop :=
  c = e ∨ ∃ w, Group.Balanced w ∧ e = '(' :: w ++ [')'] ∧ c = w.trim

/-- The condition is printed as the value of the attribute: where the directive's value is recorded,
    the attribute that holds its placeholder is written with the condition between braces. -/
def Prints (k : Flag) (c : Text) : Prop :=
  (k.directive c).family? = some k.family ∧
    ∀ (ctx : Context) (index : Nat), index < indexBound →
      (ctx.tables.entries k.family)[index]? = (k.directive c).value? →
      ∃ a : Attribute,
        (convertAttribute (k.family.holderAttribute index)).run.run ctx = (.ok (.kept a), ctx) ∧
          a.text = ' ' :: k.word ++ "=\x7b\x7b ".toList ++ c ++ " \x7d\x7d".toList

end Flag

/-! ## What is captured -/

/-- `condition?` finds what the argument `Captures`, unless it is blank. -/
theorem AttributeDirective.condition?_eq_some_iff {e c : Text} (h : e.trim = e) :
    condition? (' ' :: e) = some c ↔ Flag.Captures e c ∧ c ≠ [] := by
  have hcondition : condition? (' ' :: e) =
      if (((Group.take? e).map Group.inner).getD e).trim = [] then none
      else some (((Group.take? e).map Group.inner).getD e).trim := by
    simp only [condition?, Text.trim_cons_space, h]
  -- There is at most one group to choose, the one that is read.
  have hcaptures : Flag.Captures e c ↔ c = (((Group.take? e).map Group.inner).getD e).trim := by
    unfold Flag.Captures
    simp only [← Group.take?_eq_some_iff]
    cases Group.take? e with
    | none => simp [h]
    | some g => simp
  rw [hcondition, hcaptures]
  split
  · next hnil => simp [hnil]
  · next hne =>
    constructor
    · intro hc
      obtain rfl := Option.some.inj hc
      exact ⟨rfl, hne⟩
    · rintro ⟨rfl, -⟩
      rfl

namespace Flag

/-- `classify?` of the `source` reads its argument by `condition?`. -/
theorem classify?_source (k : Flag) {e : Text} (htrim : e.trim = e) (hne : e ≠ []) :
    AttributeDirective.classify? (k.source e) =
      (AttributeDirective.condition? (' ' :: e)).map k.directive := by
  -- Neither the body nor what stands behind its first word has blanks at its ends.
  have hargument : Text.trim (' ' :: (k.word ++ ' ' :: e)) = k.word ++ ' ' :: e := by
    have hword : k.word ≠ [] := by cases k <;> decide
    have hfirst (c : Char) (hc : k.word.head? = some c) : isBlank c = false := by
      cases k <;> exact Option.some.inj hc ▸ rfl
    rw [Text.trim_cons_space]
    exact Text.trim_append_space hword hfirst hne htrim
  have hbody : Text.trim ("attr ".toList ++ k.word ++ ' ' :: e) =
      "attr ".toList ++ k.word ++ ' ' :: e :=
    Text.trim_append_space (by simp) (by simp [isBlank]) hne htrim
  have hcond : AttributeDirective.afterKeyword? "cond".toList
      ("attr ".toList ++ k.word ++ ' ' :: e) = none := rfl
  have hattr : AttributeDirective.afterKeyword? "attr".toList
      ("attr ".toList ++ k.word ++ ' ' :: e) =
        some (Text.trim (' ' :: (k.word ++ ' ' :: e))) := by
    cases k <;> rfl
  rw [AttributeDirective.classify?, source, Span.stripBoth?_ofBody, Option.bind_some, hbody,
    AttributeDirective.ofBody?, hcond, hattr, hargument]
  cases k <;> rfl

/-- `classify?` of the `source` finds what the argument `Captures`. -/
theorem classify?_source_iff (k : Flag) {e : Text} (htrim : e.trim = e) (hne : e ≠ [])
    {d : AttributeDirective} :
    AttributeDirective.classify? (k.source e) = some d ↔
      ∃ c, d = k.directive c ∧ Captures e c ∧ c ≠ [] := by
  rw [k.classify?_source htrim hne, Option.map_eq_some_iff]
  simp only [AttributeDirective.condition?_eq_some_iff htrim]
  constructor
  · rintro ⟨c, hc, rfl⟩
    exact ⟨c, rfl, hc⟩
  · rintro ⟨c, rfl, hc⟩
    exact ⟨c, hc, rfl⟩

/-! ## What is printed -/

/-- Every condition is printed. -/
theorem prints (k : Flag) (c : Text) : k.Prints c := by
  refine ⟨by cases k <;> rfl, ?_⟩
  intro ctx index hindex hentry
  have hvalue : (k.directive c).value? = some (Twig.printSpaced c) := by cases k <;> rfl
  have hresolve := Convert.run_resolve (hentry.trans hvalue)
  refine ⟨⟨k.word, .unquoted (Twig.printSpaced c)⟩, ?_, ?_⟩
  · rw [convertAttribute, Family.placeholder?_holderAttribute hindex]
    cases k <;> exact Convert.run_bind_ok hresolve _
  · simp [Attribute.text, Twig.printSpaced, Twig.print]

/-- A condition that an argument `Captures` also `Carries` it if nothing follows the group. -/
theorem carries_iff {e c : Text} (h : Captures e c) :
    Carries e c ↔ ∀ g : Group, g.Leads e → g.rest = [] := by
  constructor
  · rintro (rfl | ⟨w, hw, he, -⟩) g hg
    · -- The inner text of a group is shorter than what the group leads.
      rcases h with ⟨g', hg', htrim⟩ | ⟨hnone, -⟩
      · have hshort := Text.length_trim_le g'.inner
        have hlong := congrArg List.length hg'.eq_append
        rw [← htrim] at hshort
        rw [Group.source, List.length_append, List.length_append, List.length_cons] at hlong
        omega
      · exact absurd hg (hnone g)
    · have hwhole : Group.Leads ⟨w, []⟩ e := ⟨hw, by rw [he, Group.source, List.append_nil]⟩
      rw [hg.unique hwhole]
  · intro hrest
    rcases h with ⟨g, hg, hc⟩ | ⟨-, hc⟩
    · refine .inr ⟨g.inner, hg.balanced, ?_, hc⟩
      have he := hg.eq_append
      rwa [hrest g hg, List.append_nil] at he
    · exact .inl hc

/-- The directive that is read has the inner text of the group that leads the argument as its
    condition, or all of the argument if no group leads it; there is none if that is blank.  The
    condition is what is printed, and nothing of the argument is dropped exactly when nothing
    follows the group. -/
theorem classify?_carries_iff (k : Flag) {e : Text} (htrim : e.trim = e) (hne : e ≠ [])
    (d : AttributeDirective) :
    (AttributeDirective.classify? (k.source e) = some d ↔
        ∃ c, d = k.directive c ∧ Captures e c ∧ c ≠ []) ∧
      ∀ c, AttributeDirective.classify? (k.source e) = some (k.directive c) →
        k.Prints c ∧ (Carries e c ↔ ∀ g : Group, g.Leads e → g.rest = []) := by
  refine ⟨k.classify?_source_iff htrim hne, fun c hc => ⟨k.prints c, ?_⟩⟩
  obtain ⟨c', hd, hcaptures, -⟩ := (k.classify?_source_iff htrim hne).1 hc
  obtain rfl : c = c' := by cases k <;> cases hd <;> rfl
  exact carries_iff hcaptures

/-- A parenthesis between quotes does not close the group. -/
theorem classify?_carries_iff_quoted :
    let e : Text := "(a == f(b, ')'))".toList
    let c : Text := "a == f(b, ')')".toList
    AttributeDirective.classify? (selected.source e) = some (.selected c) ∧ Carries e c := by
  intro e c
  have hread : AttributeDirective.classify? (selected.source e) = some (.selected c) := by decide
  have htake : Group.take? e = some ⟨c, []⟩ := by decide
  refine ⟨hread, (((classify?_carries_iff selected (by decide) (by decide) (.selected c)).2 c
    hread).2).2 fun g hg => ?_⟩
  rw [hg.unique (Group.take?_eq_some_iff.1 htake)]

/-- Of two groups in a row only the first is read. -/
theorem classify?_drops_second_group :
    let e : Text := "(a) && (b)".toList
    let c : Text := "a".toList
    (e.trim = e ∧ e ≠ []) ∧
      AttributeDirective.classify? (checked.source e) = some (.checked c) ∧ ¬Carries e c := by
  intro e c
  refine ⟨by decide, by decide, ?_⟩
  rintro (hc | ⟨w, -, he, hc⟩)
  · exact absurd hc (by decide)
  · have hw : '(' :: "a) && (b".toList ++ [')'] = '(' :: w ++ [')'] := he
    obtain rfl : "a) && (b".toList = w := (List.cons.inj (List.append_cancel_right hw)).2
    exact absurd hc (by decide)

end Flag

end TemploTwig
