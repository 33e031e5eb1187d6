import Mathlib.Logic.Relation
import TemploTwig.Proofs.Placeholders.Marks

/-!
# Leaving parts out

Reading a text may leave parts of it out, such as an end tag that closes nothing or a directive
that prints nothing.  What stood on both sides then meets.  A text is *seamless* when no mark comes
to lie across such a border, however many parts have been left out before.

Replacing parts of a text by others keeps it seamless, since a part that is left out afterwards can
be left out before, as long as what is brought in neither begins nor ends such a part inside.

Key results: `Text.Shortens`, `Text.Seamless`, `Text.EverFree.seamless`,
`Text.Seamless.substitutes`.
-/

namespace TemploTwig

namespace Text

variable {marks : List Text} {opens closes : List Char} {s t u : Text}

/-- The part begins with one of `opens` and ends with one of `closes`. -/
structure Bounded (opens closes : List Char) (d : Text) : Prop where
  head : ∃ c cs, d = c :: cs ∧ c ∈ opens
  last : ∃ cs c, d = cs ++ [c] ∧ c ∈ closes

/-- The second text is the first one without a bounded part. -/
inductive Skips (opens closes : List Char) : Text → Text → Prop
  | skip (a : Text) {d : Text} (b : Text) (h : Bounded opens closes d) :
    Skips opens closes (a ++ d ++ b) (a ++ b)

/-- Bounded parts of the first text are left out, one after the other. -/
def Shortens (opens closes : List Char) : Text → Text → Prop :=
  Relation.ReflTransGen (Skips opens closes)

/-- However parts are left out, no mark comes to lie across the border that is made. -/
def Seamless (marks : List Text) (opens closes : List Char) (t : Text) : Prop :=
  ∀ a d b, Shortens opens closes t (a ++ d ++ b) → Bounded opens closes d → ¬Across marks a b

/-- However parts are left out, no mark occurs in what is left. -/
def EverFree (marks : List Text) (opens closes : List Char) (t : Text) : Prop :=
  ∀ u, Shortens opens closes t u → Free marks u

/-! ## Shortening -/

theorem Shortens.skip (a : Text) {d : Text} (b : Text) (h : Bounded opens closes d) :
    Shortens opens closes (a ++ d ++ b) (a ++ b) := .single (.skip a b h)

theorem Shortens.between (h : Shortens opens closes t u) (x y : Text) :
    Shortens opens closes (x ++ t ++ y) (x ++ u ++ y) := by
  refine Relation.ReflTransGen.lift (fun t => x ++ t ++ y) ?_ _ _ h
  rintro _ _ ⟨a, b, hd⟩
  have hskip := Skips.skip (x ++ a) (b ++ y) hd
  simpa [Function.onFun] using hskip

theorem Shortens.mono {opens' closes' : List Char} (h : Shortens opens closes t u)
    (hopens : opens ⊆ opens') (hcloses : closes ⊆ closes') : Shortens opens' closes' t u := by
  refine Relation.ReflTransGen.mono ?_ _ _ h
  rintro _ _ ⟨a, b, ⟨c, cs, hhead, hc⟩, ⟨ds, d, hlast, hd⟩⟩
  exact .skip a b ⟨⟨c, cs, hhead, hopens hc⟩, ⟨ds, d, hlast, hcloses hd⟩⟩

/-- Nothing is brought in by leaving parts out. -/
theorem Shortens.subset (h : Shortens opens closes t u) : u ⊆ t := by
  induction h with
  | refl => exact List.Subset.refl t
  | tail _ hstep ih =>
    obtain ⟨a, b, -⟩ := hstep
    intro c hc
    apply ih
    rcases List.mem_append.1 hc with hc | hc
    · exact List.mem_append_left b (List.mem_append_left _ hc)
    · exact List.mem_append_right _ hc

/-! ## Seamless texts -/

theorem Seamless.of_within (h : Seamless marks opens closes t) (hs : s <:+: t) :
    Seamless marks opens closes s := by
  obtain ⟨x, y, rfl⟩ := hs
  intro a d b hshort hd hacross
  refine h (x ++ a) d (b ++ y) ?_ hd (hacross.mono (List.suffix_append x a) (List.prefix_append b y))
  simpa using hshort.between x y

theorem Seamless.of_shortens (h : Seamless marks opens closes t) (hu : Shortens opens closes t u) :
    Seamless marks opens closes u := fun a d b hshort => h a d b (hu.trans hshort)

theorem Seamless.mono {opens' closes' : List Char} (h : Seamless marks opens closes t)
    (hopens : opens' ⊆ opens) (hcloses : closes' ⊆ closes) : Seamless marks opens' closes' t := by
  rintro a d b hshort ⟨⟨c, cs, hhead, hc⟩, ⟨ds, e, hlast, he⟩⟩
  exact h a d b (hshort.mono hopens hcloses)
    ⟨⟨c, cs, hhead, hopens hc⟩, ⟨ds, e, hlast, hcloses he⟩⟩

/-- A mark of one character lies across no border. -/
theorem Seamless.of_length {marks' : List Text} (h : Seamless marks opens closes t)
    (hmarks : ∀ m ∈ marks', m ∈ marks ∨ m.length ≤ 1) : Seamless marks' opens closes t := by
  rintro a d b hshort hd ⟨m, hm, front, back, heq, hfront, hback, hsuffix, hbegin⟩
  rcases hmarks m hm with hmem | hlength
  · exact h a d b hshort hd ⟨m, hmem, front, back, heq, hfront, hback, hsuffix, hbegin⟩
  · rw [heq, List.length_append] at hlength
    have := List.length_pos_iff.2 hfront
    have := List.length_pos_iff.2 hback
    omega

namespace EverFree

theorem free (h : EverFree marks opens closes t) : Free marks t := h t .refl

theorem of_within (h : EverFree marks opens closes t) (hs : s <:+: t) :
    EverFree marks opens closes s := by
  obtain ⟨x, y, rfl⟩ := hs
  intro u hu
  exact Free.of_infix (h _ (hu.between x y)) ⟨x, y, rfl⟩

theorem seamless (h : EverFree marks opens closes t) : Seamless marks opens closes t := by
  intro a d b hshort hd hacross
  exact hacross.not_free (h (a ++ b) (hshort.trans (Shortens.skip a b hd)))

end EverFree

/-- A text that lacks a character of each mark does not spell one. -/
theorem everFree_of_missing (h : (marks.all fun m => m.any fun c => !List.contains t c) = true) :
    EverFree marks opens closes t := by
  intro u hu m hm hwithin
  obtain ⟨c, hc, hnot⟩ := List.any_eq_true.1 (List.all_eq_true.1 h m hm)
  have hmem : c ∈ t := hu.subset (hwithin.mem hc)
  simp [hmem] at hnot

/-- Where no character begins a part, nothing is left out. -/
theorem eq_of_shortens_nil (h : Shortens [] closes t u) : u = t := by
  induction h with
  | refl => rfl
  | tail _ hstep _ =>
    obtain ⟨a, b, hd⟩ := hstep
    obtain ⟨c, cs, -, hc⟩ := hd.head
    cases hc

theorem seamless_nil (t : Text) : Seamless marks [] closes t := by
  intro a d b _ hd
  obtain ⟨c, cs, -, hc⟩ := hd.head
  cases hc

/-- Where only the last character of a text ends a part, a part that ends in the text ends there. -/
theorem Bounded.eq_nil_of_end {a d x front back : Text} (hd : Bounded opens closes d)
    (hsuffix : front <:+ a ++ d) (hfront : front ≠ []) (hx : x = front ++ back)
    (hends : ∀ c ∈ x.dropLast, c ∉ closes) : back = [] := by
  obtain ⟨ds, c, rfl, hc⟩ := hd.last
  by_cases hback : back = []
  · exact hback
  · refine absurd hc (hends c ?_)
    rw [hx, List.dropLast_append_of_ne_nil hback]
    rw [← List.append_assoc] at hsuffix
    exact List.mem_append_left _ (mem_of_suffix_concat hsuffix hfront)

/-- A firm text in which no part ends but at its end may follow. -/
theorem Seamless.append {x : Text} (h : Seamless marks opens closes t) (hfirm : Firm marks x)
    (hends : ∀ c ∈ x.dropLast, c ∉ closes) : Seamless marks opens closes (t ++ x) := by
  -- A part ends in front of `x`, or it takes the rest of the text along.
  have hcases {a d b t' : Text} (hd : Bounded opens closes d) (hbegin : a ++ d ++ b <+: t' ++ x) :
      (∃ e, t' = a ++ d ++ e ∧ b <+: e ++ x) ∨ b = [] := by
    obtain ⟨z, hz⟩ := hbegin
    rw [List.append_assoc] at hz
    rcases List.append_eq_append_iff.1 hz with ⟨e, he, hback⟩ | ⟨front, hfront, hx⟩
    · exact .inl ⟨e, he, z, hback⟩
    · by_cases hne : front = []
      · subst hne
        exact .inl ⟨[], by simpa using hfront.symm, z, by simpa using hx.symm⟩
      · have hnil := hd.eq_nil_of_end ⟨t', hfront.symm⟩ hne hx hends
        exact .inr (List.append_eq_nil_iff.1 hnil).1
  -- So what is left begins like a shortened text with `x` behind it.
  have hreach {u : Text} (hu : Shortens opens closes (t ++ x) u) :
      ∃ t', Shortens opens closes t t' ∧ u <+: t' ++ x := by
    induction hu with
    | refl => exact ⟨t, .refl, List.prefix_refl _⟩
    | tail _ hstep ih =>
      obtain ⟨t', ht', hbegin⟩ := ih
      obtain ⟨a, b, hd⟩ := hstep
      rcases hcases hd hbegin with ⟨e, rfl, hb⟩ | rfl
      · refine ⟨a ++ e, ht'.trans (Shortens.skip a e hd), ?_⟩
        rw [List.append_assoc]
        exact (List.prefix_append_right_inj a).2 hb
      · refine ⟨t', ht', List.IsPrefix.trans ?_ hbegin⟩
        rw [List.append_nil, List.append_nil]
        exact List.prefix_append a _
  intro a d b hshort hd hacross
  obtain ⟨t', ht', hbegin⟩ := hreach hshort
  obtain ⟨m, hm, front, back, heq, hfront, hback, hsuffix, hrest⟩ := hacross
  rcases hcases hd hbegin with ⟨e, rfl, hb⟩ | rfl
  · rcases prefix_append_cases (hrest.trans hb) with he | ⟨back', hne, hx, rfl⟩
    · exact h a d e ht' hd ⟨m, hm, front, back, heq, hfront, hback, hsuffix, he⟩
    · have hrestOf := isRest_of_mem hm heq hfront hback
      exact hfirm back' (hrestOf.of_append_left hne) hx
  · exact hback (List.prefix_nil.1 hrest)

end Text

/-! ## Replacements -/

namespace Substitutes

open Text

variable {marks : List Text} {opens closes : List Char} {replaces : Text → Text → Prop}
  {t u : Text}

/-- A text that is put together from two parts was put together from two parts, unless the border
    goes through a replacement. -/
theorem append_cases {a b : Text} (h : Substitutes replaces t (a ++ b)) :
    (∃ ta tb, t = ta ++ tb ∧ Substitutes replaces ta a ∧ Substitutes replaces tb b) ∨
      ∃ ta old tb a' front back b', t = ta ++ old ++ tb ∧ replaces old (front ++ back) ∧
        front ≠ [] ∧ back ≠ [] ∧ a = a' ++ front ∧ b = back ++ b' ∧
        Substitutes replaces ta a' ∧ Substitutes replaces tb b' := by
  generalize hu : a ++ b = u at h
  induction h generalizing a with
  | nil =>
    obtain ⟨rfl, rfl⟩ := List.append_eq_nil_iff.1 hu
    exact .inl ⟨[], [], rfl, nil, nil⟩
  | @keep c t u h ih =>
    cases a with
    | nil =>
      rw [List.nil_append] at hu
      exact .inl ⟨[], c :: t, rfl, nil, hu ▸ keep c h⟩
    | cons d a =>
      obtain ⟨rfl, hrest⟩ := List.cons.inj hu
      rcases ih hrest with ⟨ta, tb, rfl, ha, hb⟩ | ⟨ta, old, tb, a', front, back, b', rfl, hold, hrest⟩
      · exact .inl ⟨d :: ta, tb, rfl, keep d ha, hb⟩
      · obtain ⟨hfront, hback, rfl, rfl, ha, hb⟩ := hrest
        exact .inr ⟨d :: ta, old, tb, d :: a', front, back, b', rfl, hold, hfront, hback, rfl, rfl,
          keep d ha, hb⟩
  | @swap old new t u hold h ih =>
    -- The border lies in the new part or behind it.
    rcases List.append_eq_append_iff.1 hu with ⟨back, rfl, rfl⟩ | ⟨a', rfl, hrest⟩
    · by_cases ha : a = []
      · subst ha
        exact .inl ⟨[], old ++ t, rfl, nil, swap hold h⟩
      · by_cases hback : back = []
        · subst hback
          rw [List.append_nil] at hold
          exact .inl ⟨old, t, rfl, single hold, h⟩
        · exact .inr ⟨[], old, t, [], a, back, u, rfl, hold, ha, hback, rfl, rfl, nil, h⟩
    · rcases ih hrest.symm with ⟨ta, tb, rfl, ha, hb⟩ |
        ⟨ta, old', tb, a'', front, back, b', rfl, hold', hrest⟩
      · exact .inl ⟨old ++ ta, tb, by simp, swap hold ha, hb⟩
      · obtain ⟨hfront, hback, rfl, rfl, ha, hb⟩ := hrest
        exact .inr ⟨old ++ ta, old', tb, new ++ a'', front, back, b', by simp, hold', hfront, hback,
          by simp, rfl, swap hold ha, hb⟩

/-- A new part neither begins nor ends a bounded part inside, and where it begins or ends one, the
    old part did so as well. -/
structure Framed (opens closes : List Char) (old new : Text) : Prop where
  head : ∃ c cs, new = c :: cs ∧ (∀ d ∈ cs, d ∉ opens) ∧
    (c ∈ opens → ∃ d ds, old = d :: ds ∧ d ∈ opens)
  last : ∃ cs c, new = cs ++ [c] ∧ (∀ d ∈ cs, d ∉ closes) ∧
    (c ∈ closes → ∃ ds d, old = ds ++ [d] ∧ d ∈ closes)

theorem Framed.ne_nil {old new : Text} (h : Framed opens closes old new) : new ≠ [] := by
  obtain ⟨c, cs, rfl, -⟩ := h.head
  exact List.cons_ne_nil c cs

/-- A new part without a character that begins or ends a bounded part. -/
theorem framed_of_not_mem {old new : Text} (hne : new ≠ [])
    (h : ∀ c ∈ new, c ∉ opens ∧ c ∉ closes) : Framed opens closes old new where
  head := by
    obtain ⟨c, cs, rfl⟩ := List.exists_cons_of_ne_nil hne
    refine ⟨c, cs, rfl, fun d hd => (h d (List.mem_cons_of_mem c hd)).1, fun hc => ?_⟩
    exact absurd hc (h c List.mem_cons_self).1
  last := by
    refine ⟨new.dropLast, new.getLast hne, (List.dropLast_concat_getLast hne).symm, ?_, ?_⟩
    · exact fun d hd => (h d ((List.dropLast_sublist new).subset hd)).2
    · exact fun hc => absurd hc (h _ (List.getLast_mem hne)).2

theorem eq_nil (h : Substitutes replaces t []) (hnew : ∀ old new, replaces old new → new ≠ []) :
    t = [] := by
  generalize hu : [] = u at h
  cases h with
  | nil => rfl
  | keep c _ => cases hu
  | swap hold _ => exact absurd (List.append_eq_nil_iff.1 hu.symm).1 (hnew _ _ hold)

/-- `Framed` replacements keep an opening at the start. -/
theorem bounded_head {c : Char} {cs : Text} (h : Substitutes replaces t (c :: cs))
    (hframed : ∀ old new, replaces old new → Framed opens closes old new) (hc : c ∈ opens) :
    ∃ d ds, t = d :: ds ∧ d ∈ opens := by
  generalize hu : c :: cs = u at h
  cases h with
  | nil => cases hu
  | @keep d t _ _ =>
    obtain ⟨rfl, -⟩ := List.cons.inj hu
    exact ⟨c, t, rfl, hc⟩
  | @swap old new t _ hold _ =>
    obtain ⟨d, ds, rfl, -, hopens⟩ := (hframed old new hold).head
    obtain ⟨rfl, -⟩ := List.cons.inj hu
    obtain ⟨e, es, rfl, he⟩ := hopens hc
    exact ⟨e, es ++ t, rfl, he⟩

/-- `Framed` replacements keep a closing at the end. -/
theorem bounded_last {c : Char} {cs : Text} (h : Substitutes replaces t (cs ++ [c]))
    (hframed : ∀ old new, replaces old new → Framed opens closes old new) (hc : c ∈ closes) :
    ∃ ds d, t = ds ++ [d] ∧ d ∈ closes := by
  have hne (old new : Text) (hold : replaces old new) : new ≠ [] := (hframed old new hold).ne_nil
  have hlastOld {old front : Text} (hold : replaces old (front ++ [c])) :
      ∃ ds d, old = ds ++ [d] ∧ d ∈ closes := by
    obtain ⟨ds, d, heq, -, hcloses⟩ := (hframed _ _ hold).last
    obtain ⟨-, rfl⟩ := List.concat_inj.1 (by simpa using heq)
    exact hcloses hc
  rcases h.append_cases with ⟨ta, tb, rfl, -, hb⟩ |
    ⟨ta, old, tb, -, front, back, b', rfl, hold, -, hback, -, hsplit, -, hb⟩
  · -- The last character was kept, or it is all of a replacement.
    generalize hu : [c] = u at hb
    cases hb with
    | nil => cases hu
    | @keep d t _ hrest =>
      obtain ⟨rfl, rfl⟩ := List.cons.inj hu
      obtain rfl := hrest.eq_nil hne
      exact ⟨ta, c, rfl, hc⟩
    | @swap old new t u hold hrest =>
      obtain ⟨d, ds, rfl, -⟩ := (hframed old new hold).head
      obtain ⟨rfl, hnil⟩ := List.cons.inj hu
      obtain ⟨rfl, rfl⟩ := List.append_eq_nil_iff.1 hnil.symm
      obtain rfl := hrest.eq_nil hne
      obtain ⟨es, e, rfl, he⟩ := @hlastOld old [] hold
      exact ⟨ta ++ es, e, by simp, he⟩
  · obtain ⟨d, back, rfl⟩ := List.exists_cons_of_ne_nil hback
    obtain ⟨rfl, hnil⟩ := List.cons.inj hsplit
    obtain ⟨rfl, rfl⟩ := List.append_eq_nil_iff.1 hnil.symm
    obtain rfl := hb.eq_nil hne
    obtain ⟨es, e, rfl, he⟩ := hlastOld hold
    exact ⟨ta ++ es, e, by simp, he⟩

/-- A bounded part of the new text comes from a bounded part of the old one. -/
theorem exists_bounded {a d b : Text} (h : Substitutes replaces t (a ++ d ++ b))
    (hframed : ∀ old new, replaces old new → Framed opens closes old new)
    (hd : Bounded opens closes d) :
    ∃ ta td tb, t = ta ++ td ++ tb ∧ Bounded opens closes td ∧ Substitutes replaces ta a ∧
      Substitutes replaces tb b := by
  obtain ⟨c, cs, hcs, hc⟩ := hd.head
  obtain ⟨es, e, hes, he⟩ := hd.last
  rcases h.append_cases with ⟨t₁, tb, rfl, h₁, hb⟩ |
    ⟨-, old, -, a', front, back, -, -, hold, hfront, hback, hsplit, -, -, -⟩
  · rcases h₁.append_cases with ⟨ta, td, rfl, ha, hd'⟩ |
      ⟨-, old, -, -, front, back, b', -, hold, hfront, hback, -, hsplit, -, -⟩
    · refine ⟨ta, td, tb, rfl, ⟨?_, ?_⟩, ha, hb⟩
      · exact bounded_head (hcs ▸ hd') hframed hc
      · exact bounded_last (hes ▸ hd') hframed he
    · -- The part would begin inside a replacement.
      obtain ⟨x, xs, heq, hopens, -⟩ := (hframed _ _ hold).head
      obtain ⟨y, front, rfl⟩ := List.exists_cons_of_ne_nil hfront
      obtain ⟨z, back, rfl⟩ := List.exists_cons_of_ne_nil hback
      obtain ⟨-, rfl⟩ := List.cons.inj heq
      rw [hcs] at hsplit
      obtain ⟨rfl, -⟩ := List.cons.inj hsplit
      exact absurd hc (hopens c (List.mem_append_right front List.mem_cons_self))
  · -- The part would end inside a replacement.
    obtain ⟨xs, x, heq, hcloses, -⟩ := (hframed _ _ hold).last
    have hmem : e ∈ front := by
      refine mem_of_suffix_concat (t := a ++ es) ⟨a', ?_⟩ hfront
      rw [← hsplit, hes, List.append_assoc]
    have hdrop : xs = front ++ back.dropLast := by
      rw [← List.dropLast_append_of_ne_nil hback, heq, List.dropLast_concat]
    exact absurd he (hcloses e (hdrop ▸ List.mem_append_left _ hmem))

/-- What is left out after a replacement can be left out before it. -/
theorem exists_shortens {w : Text} (h : Substitutes replaces t u)
    (hframed : ∀ old new, replaces old new → Framed opens closes old new)
    (hw : Shortens opens closes u w) :
    ∃ v, Shortens opens closes t v ∧ Substitutes replaces v w := by
  induction hw with
  | refl => exact ⟨t, .refl, h⟩
  | tail _ hstep ih =>
    obtain ⟨v, hv, hsub⟩ := ih
    obtain ⟨a, b, hd⟩ := hstep
    obtain ⟨va, vd, vb, rfl, hvd, ha, hb⟩ := hsub.exists_bounded hframed hd
    exact ⟨va ++ vb, hv.trans (Shortens.skip va vb hvd), ha.append hb⟩

/-- `Substitutes` changes nothing where no replacement can end. -/
theorem eq_of_last {lasts : Text} (h : Substitutes replaces t u)
    (hlast : ∀ old new, replaces old new → ∃ cs c, new = cs ++ [c] ∧ c ∉ lasts) (hu : u ⊆ lasts) :
    t = u := by
  induction h with
  | nil => rfl
  | keep c _ ih => rw [ih (List.subset_of_cons_subset hu)]
  | @swap old new t u hold _ _ =>
    obtain ⟨cs, c, rfl, hc⟩ := hlast old new hold
    exact absurd (hu (List.mem_append_left u (List.mem_concat_self))) hc

/-- What stands at the end of the new text without a character that ends a replacement stood at the
    end of the old one. -/
theorem suffix_of_last {w : Text} (h : Substitutes replaces t u)
    (hlast : ∀ old new, replaces old new → ∃ cs c, new = cs ++ [c] ∧ c ∉ w) (hend : w <:+ u) :
    w <:+ t := by
  induction h with
  | nil => exact hend
  | @keep c t u h ih =>
    rcases List.suffix_cons_iff.1 hend with rfl | hend
    · exact eq_of_last h hlast (List.subset_cons_self c u) ▸ List.suffix_refl _
    · exact (ih hend).trans (List.suffix_cons c t)
  | @swap old new t u hold _ ih =>
    obtain ⟨before, hbefore⟩ := hend
    rcases List.append_eq_append_iff.1 hbefore with ⟨front, hfront, rfl⟩ | ⟨more, -, rfl⟩
    · by_cases hne : front = []
      · subst hne
        exact (ih (List.suffix_refl _)).trans (List.suffix_append old t)
      · obtain ⟨cs, c, heq, hc⟩ := hlast old new hold
        refine absurd (List.mem_append_left u ?_) hc
        exact mem_of_suffix_concat ⟨before, by rw [← heq, hfront]⟩ hne
    · exact (ih (List.suffix_append more w)).trans (List.suffix_append old t)

end Substitutes

/-- Replacements keep a text seamless when no mark reaches over the borders of what they bring in. -/
theorem Text.Seamless.substitutes {marks : List Text} {opens closes : List Char}
    {replaces : Text → Text → Prop} {t u : Text} (ht : Text.Seamless marks opens closes t)
    (h : Substitutes replaces t u)
    (hframed : ∀ old new, replaces old new → Substitutes.Framed opens closes old new)
    (havoids : ∀ s, Text.IsRest marks s → Substitutes.Avoids replaces s)
    (hlast : ∀ old new, replaces old new → ∃ cs c, new = cs ++ [c] ∧ Text.Bars marks c) :
    Text.Seamless marks opens closes u := by
  intro a d b hshort hd hacross
  obtain ⟨v, hv, hsub⟩ := h.exists_shortens hframed hshort
  obtain ⟨va, vd, vb, rfl, hvd, ha, hb⟩ := hsub.exists_bounded hframed hd
  obtain ⟨m, hm, front, back, heq, hfront, hback, hsuffix, hbegin⟩ := hacross
  refine ht va vd vb hv hvd ⟨m, hm, front, back, heq, hfront, hback, ?_, ?_⟩
  · refine ha.suffix_of_last ?_ hsuffix
    intro old new hold
    obtain ⟨cs, c, hnew, hbars⟩ := hlast old new hold
    exact ⟨cs, c, hnew, fun hc => hbars m hm (heq ▸ List.mem_append_left back hc)⟩
  · exact hb.prefix_of_avoids (havoids back (Text.isRest_of_mem hm heq hfront hback)) hbegin

end TemploTwig
