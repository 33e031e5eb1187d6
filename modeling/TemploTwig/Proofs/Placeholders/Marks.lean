import TemploTwig.Proofs.Scanning
import TemploTwig.Proofs.Texts

/-!
# Marks in a text

Whether a *mark* occurs in a text is a question about every place of the text, also about the
borders where two texts meet.  A border is harmless when a character next to it occurs in no mark,
or when the text behind it begins with no rest of a mark.

Key results: `Text.free_append`, `Substitutes`, `Substitutes.free`.
-/

namespace TemploTwig

namespace Text

theorem mem_of_suffix_concat {s t : Text} {c : Char} (h : s <:+ t ++ [c]) (hs : s ≠ []) : c ∈ s := by
  rcases List.suffix_concat_iff.1 h with rfl | ⟨u, rfl, -⟩
  · exact absurd rfl hs
  · simp

/-- None of the marks occurs in the text. -/
def Free (marks : List Text) (t : Text) : Prop := ∀ m ∈ marks, ¬m <:+: t

instance (marks : List Text) (t : Text) : Decidable (Free marks t) :=
  inferInstanceAs (Decidable (∀ m ∈ marks, ¬m <:+: t))

/-- A mark lies across the border between the two texts. -/
def Across (marks : List Text) (s t : Text) : Prop :=
  ∃ m ∈ marks, ∃ front back, m = front ++ back ∧ front ≠ [] ∧ back ≠ [] ∧ front <:+ s ∧ back <+: t

/-- The character occurs in no mark, so no mark lies across it. -/
def Bars (marks : List Text) (c : Char) : Prop := ∀ m ∈ marks, c ∉ m

/-- The text begins with a character of no mark. -/
def BeginsBarred (marks : List Text) (t : Text) : Prop := ∃ c cs, t = c :: cs ∧ Bars marks c

/-- The text ends with a character of no mark. -/
def EndsBarred (marks : List Text) (t : Text) : Prop := ∃ cs c, t = cs ++ [c] ∧ Bars marks c

/-- What a cut through a mark leaves behind it. -/
def IsRest (marks : List Text) (s : Text) : Prop := s ≠ [] ∧ ∃ m ∈ marks, s <:+ m.tail

/-- The text begins with no rest of a mark, so no mark ends in it that began in front of it. -/
def Firm (marks : List Text) (t : Text) : Prop := ∀ s, IsRest marks s → ¬s <+: t

variable {marks : List Text} {s t : Text}

theorem Free.of_infix (h : Free marks t) (hs : s <:+: t) : Free marks s :=
  fun m hm hms => h m hm (hms.trans hs)

theorem free_nil (h : [] ∉ marks) : Free marks [] := by
  intro m hm hnil
  rw [List.infix_nil] at hnil
  exact h (hnil ▸ hm)

theorem IsRest.mem (h : IsRest marks s) {c : Char} (hc : c ∈ s) : ∃ m ∈ marks, c ∈ m := by
  obtain ⟨-, m, hm, hsuffix⟩ := h
  exact ⟨m, hm, List.mem_of_mem_tail (hsuffix.mem hc)⟩

/-- What is left of a rest is a rest. -/
theorem IsRest.of_append_left {front : Text} (h : IsRest marks (front ++ s)) (hs : s ≠ []) :
    IsRest marks s := by
  obtain ⟨-, m, hm, hsuffix⟩ := h
  exact ⟨hs, m, hm, (List.suffix_append front s).trans hsuffix⟩

/-- `IsRest` holds of the end of a mark. -/
theorem isRest_of_mem {m front : Text} (hm : m ∈ marks) (heq : m = front ++ s) (hfront : front ≠ [])
    (hs : s ≠ []) : IsRest marks s := by
  refine ⟨hs, m, hm, ?_⟩
  cases front with
  | nil => exact absurd rfl hfront
  | cons c front =>
    rw [heq]
    exact List.suffix_append front s

theorem firm_nil : Firm marks [] := fun _ hs h => hs.1 (List.prefix_nil.1 h)

/-- `Firm` holds behind a character that bars. -/
theorem firm_cons {c : Char} (h : Bars marks c) (t : Text) : Firm marks (c :: t) := by
  intro s hs hbegin
  cases s with
  | nil => exact hs.1 rfl
  | cons d s =>
    obtain rfl : d = c := (List.cons_prefix_cons.1 hbegin).1
    obtain ⟨m, hm, hmem⟩ := hs.mem List.mem_cons_self
    exact h m hm hmem

/-- A mark in two texts one after the other is in one of them or lies across the border. -/
theorem free_append (hs : Free marks s) (ht : Free marks t) (hborder : ¬Across marks s t) :
    Free marks (s ++ t) := by
  intro m hm h
  rcases List.infix_append_iff.1 h with h | h | ⟨front, back, heq, hsuffix, hprefix⟩
  · exact hs m hm h
  · exact ht m hm h
  · -- The mark has a part on either side of the border, or it lies in one of the texts.
    rcases eq_or_ne front [] with rfl | hfront
    · exact ht m hm (heq ▸ hprefix.isInfix)
    · rcases eq_or_ne back [] with rfl | hback
      · rw [List.append_nil] at heq
        exact hs m hm (heq ▸ hsuffix.isInfix)
      · exact hborder ⟨m, hm, front, back, heq, hfront, hback, hsuffix, hprefix⟩

/-- No mark lies across a border behind which no rest of a mark stands. -/
theorem Firm.not_across (h : Firm marks t) (s : Text) : ¬Across marks s t := by
  rintro ⟨m, hm, front, back, heq, hfront, hback, -, hbegin⟩
  exact h back (isRest_of_mem hm heq hfront hback) hbegin

/-- No mark lies across a border in front of which a character of no mark stands. -/
theorem not_across_of_last {c : Char} (hc : Bars marks c) (s t : Text) :
    ¬Across marks (s ++ [c]) t := by
  rintro ⟨m, hm, front, back, heq, hfront, -, hsuffix, -⟩
  refine hc m hm ?_
  rw [heq]
  exact List.mem_append_left _ (mem_of_suffix_concat hsuffix hfront)

theorem Across.mono {s' t' : Text} (h : Across marks s t) (hs : s <:+ s') (ht : t <+: t') :
    Across marks s' t' := by
  obtain ⟨m, hm, front, back, heq, hfront, hback, hsuffix, hbegin⟩ := h
  exact ⟨m, hm, front, back, heq, hfront, hback, hsuffix.trans hs, hbegin.trans ht⟩

/-- A mark that lies across a border occurs in the two texts together. -/
theorem Across.not_free (h : Across marks s t) : ¬Free marks (s ++ t) := by
  intro hfree
  obtain ⟨m, hm, front, back, rfl, -, -, ⟨before, rfl⟩, ⟨after, rfl⟩⟩ := h
  exact hfree _ hm ⟨before, after, by simp⟩

end Text

/-- The second text is the first one with some parts replaced, as `replaces` allows it, and all
    other characters kept. -/
inductive Substitutes (replaces : Text → Text → Prop) : Text → Text → Prop
  | nil : Substitutes replaces [] []
  | keep (c : Char) {t u : Text} (h : Substitutes replaces t u) :
    Substitutes replaces (c :: t) (c :: u)
  | swap {old new t u : Text} (hnew : replaces old new) (h : Substitutes replaces t u) :
    Substitutes replaces (old ++ t) (new ++ u)

namespace Substitutes

variable {replaces : Text → Text → Prop} {t u : Text}

theorem refl (t : Text) : Substitutes replaces t t := by
  induction t with
  | nil => exact nil
  | cons c t ih => exact keep c ih

theorem single {old new : Text} (h : replaces old new) : Substitutes replaces old new := by
  simpa using swap h nil

/-- `Substitutes` goes on over two texts. -/
theorem append {t' u' : Text} (h : Substitutes replaces t u) (h' : Substitutes replaces t' u') :
    Substitutes replaces (t ++ t') (u ++ u') := by
  induction h with
  | nil => exact h'
  | keep c _ ih => exact keep c ih
  | swap hnew _ ih =>
    rw [List.append_assoc, List.append_assoc]
    exact swap hnew ih

theorem mono {replaces' : Text → Text → Prop} (hmono : ∀ old new, replaces old new → replaces' old new)
    (h : Substitutes replaces t u) : Substitutes replaces' t u := by
  induction h with
  | nil => exact nil
  | keep c _ ih => exact keep c ih
  | swap hnew _ ih => exact swap (hmono _ _ hnew) ih

/-- Replacing single characters. -/
theorem map {f : Char → Char} (h : ∀ c, f c = c ∨ replaces [c] [f c]) (t : Text) :
    Substitutes replaces t (t.map f) := by
  induction t with
  | nil => exact nil
  | cons c t ih =>
    rw [List.map_cons]
    rcases h c with hc | hc
    · rw [hc]
      exact keep c ih
    · exact swap hc ih

/-- Replacing the tokens of a text. -/
theorem renderAll_scan {α : Type} {R : Recogniser α} {f : α → Text}
    (h : ∀ {t a rest}, R.next? t = some (a, rest) →
      ∃ old, t = old ++ rest ∧ Substitutes replaces old (f a)) (t : Text) :
    Substitutes replaces t (Piece.renderAll f (R.scan t)) := by
  fun_induction Recogniser.scan R t with
  | case1 => exact nil
  | case2 c cs a rest hnext ih =>
    obtain ⟨old, hold, hsub⟩ := h hnext
    rw [hold]
    exact hsub.append ih
  | case3 c cs _ ih =>
    rw [Piece.renderAll_prepend]
    exact keep c ih

/-- No replacement begins inside `w`. -/
def Avoids (replaces : Text → Text → Prop) (w : Text) : Prop :=
  ∀ s, s ≠ [] → s <:+ w → ∀ old new after, replaces old new → ¬s <+: new ++ after

theorem Avoids.of_suffix {w w' : Text} (h : Avoids replaces w) (hsuffix : w' <:+ w) :
    Avoids replaces w' := fun s hne hs => h s hne (hs.trans hsuffix)

/-- `Avoids` holds if the replacements begin elsewhere. -/
theorem avoids_of_head {w : Text}
    (h : ∀ old new, replaces old new → ∃ c cs, new = c :: cs ∧ c ∉ w) : Avoids replaces w := by
  intro s hne hs old new after hnew hbegin
  obtain ⟨c, cs, rfl, hc⟩ := h old new hnew
  cases s with
  | nil => exact hne rfl
  | cons d s =>
    obtain rfl : d = c := (List.cons_prefix_cons.1 hbegin).1
    exact hc (hs.mem List.mem_cons_self)

/-- What stands at the front of the new text without touching a replacement stood at the front of
    the old one. -/
theorem prefix_of_avoids (h : Substitutes replaces t u) {w : Text} (hw : Avoids replaces w)
    (hbegin : w <+: u) : w <+: t := by
  induction h generalizing w with
  | nil => exact hbegin
  | keep c _ ih =>
    cases w with
    | nil => exact List.nil_prefix
    | cons d w =>
      obtain ⟨rfl, hrest⟩ := List.cons_prefix_cons.1 hbegin
      exact List.cons_prefix_cons.2 ⟨rfl, ih (hw.of_suffix (List.suffix_cons d w)) hrest⟩
  | swap hnew _ _ =>
    by_cases hne : w = []
    · subst hne
      exact List.nil_prefix
    · exact absurd hbegin (hw w hne (List.suffix_refl w) _ _ _ hnew)

/-- A new part that may stand anywhere: no mark is in it, and none reaches over its borders. -/
structure IsBordered (marks : List Text) (new : Text) : Prop where
  head : Text.BeginsBarred marks new
  last : Text.EndsBarred marks new
  free : Text.Free marks new

/-- Replacements between harmless borders bring in no mark. -/
theorem free {marks : List Text} (h : Substitutes replaces t u)
    (hnew : ∀ old new, replaces old new → IsBordered marks new) (hfree : Text.Free marks t) :
    Text.Free marks u := by
  induction h with
  | nil => exact hfree
  | @keep c t u h ih =>
    intro m hm hwithin
    rcases List.infix_cons_iff.1 hwithin with hbegin | hwithin
    · -- The mark begins with the kept character, so the rest of it was there before.
      cases m with
      | nil => exact hfree [] hm (List.nil_infix)
      | cons d m =>
        obtain ⟨rfl, hrest⟩ := List.cons_prefix_cons.1 hbegin
        have havoids : Avoids replaces m := avoids_of_head fun old new hold => by
          obtain ⟨c, cs, heq, hc⟩ := (hnew old new hold).head
          exact ⟨c, cs, heq, fun hmem => hc _ hm (List.mem_cons_of_mem d hmem)⟩
        have hold := h.prefix_of_avoids havoids hrest
        exact hfree _ hm (List.cons_prefix_cons.2 ⟨rfl, hold⟩).isInfix
    · exact ih (hfree.of_infix (List.suffix_cons c t).isInfix) m hm hwithin
  | @swap old new t u hold _ ih =>
    obtain ⟨-, ⟨cs, c, rfl, hc⟩, hfreeNew⟩ := hnew old new hold
    exact Text.free_append hfreeNew (ih (hfree.of_infix (List.suffix_append old t).isInfix))
      (Text.not_across_of_last hc cs u)

end Substitutes

end TemploTwig
