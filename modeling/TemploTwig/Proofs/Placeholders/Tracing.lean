import TemploTwig.Conversion.Substitution
import TemploTwig.Proofs.Markup.Holders
import TemploTwig.Proofs.Placeholders.Marks

/-!
# Tracing tokens through replacements

A text is *traced* when every occurrence of a mark in it begins one of the words that were put
there.  This survives the replacements of the passes and the cuts of the reader, so where a mark
stands it can be told which word it belongs to.
-/

namespace TemploTwig

namespace Text

/-- Every occurrence of the mark begins one of the words. -/
def Traced (mark : Text) (words : Text → Prop) (t : Text) : Prop :=
  ∀ r, mark ++ r <:+ t → ∃ w, words w ∧ w <+: mark ++ r

variable {mark : Text} {words : Text → Prop} {s t u : Text}

/-! ## Traced texts -/

theorem Traced.of_suffix (h : Traced mark words t) (hs : s <:+ t) : Traced mark words s :=
  fun r hr => h r (hr.trans hs)

theorem traced_of_not_occurs (h : ¬mark <:+: t) : Traced mark words t := by
  intro r hr
  exact absurd ((List.prefix_append mark r).isInfix.trans hr.isInfix) h

theorem Traced.mono {words' : Text → Prop} (h : Traced mark words t)
    (hwords : ∀ w, words w → words' w) : Traced mark words' t := by
  intro r hr
  obtain ⟨w, hw, hbegin⟩ := h r hr
  exact ⟨w, hwords w hw, hbegin⟩

/-- A cut in front of a character that no word has goes through no word. -/
theorem Traced.of_append {c : Char} (h : Traced mark words (s ++ c :: t))
    (hc : ∀ w, words w → c ∉ w) : Traced mark words s := by
  intro r hr
  obtain ⟨front, rfl⟩ := hr
  obtain ⟨w, hw, hbegin⟩ := h (r ++ c :: t) ⟨front, by simp⟩
  rw [← List.append_assoc] at hbegin
  rcases prefix_append_cases hbegin with hwithin | ⟨back, hback, hstart, rfl⟩
  · exact ⟨w, hw, hwithin⟩
  · cases back with
    | nil => exact absurd rfl hback
    | cons d back =>
      obtain rfl : d = c := (List.cons_prefix_cons.1 hstart).1
      exact absurd (List.mem_append_right _ List.mem_cons_self) (hc _ hw)

/-- An occurrence in two texts one after the other starts in one of them. -/
theorem suffix_append_cases {p s t : Text} (h : p <:+ s ++ t) :
    p <:+ t ∨ ∃ front, front ≠ [] ∧ front <:+ s ∧ p = front ++ t := by
  obtain ⟨before, hbefore⟩ := h
  rcases List.append_eq_append_iff.1 hbefore with ⟨front, rfl, rfl⟩ | ⟨more, -, rfl⟩
  · by_cases hfront : front = []
    · subst hfront
      exact .inl (List.suffix_refl t)
    · exact .inr ⟨front, hfront, List.suffix_append before front, rfl⟩
  · exact .inl (List.suffix_append more p)

/-- A cut behind a character that no word has goes through no word. -/
theorem Traced.of_append_last {c : Char} (h : Traced mark words (s ++ [c] ++ t))
    (hc : ∀ w, words w → c ∉ w) (hmark : mark ≠ []) : Traced mark words (s ++ [c]) := by
  intro r hr
  obtain ⟨front, hfront⟩ := hr
  obtain ⟨w, hw, hbegin⟩ := h (r ++ t) ⟨front, by rw [← hfront]; simp⟩
  rw [← List.append_assoc] at hbegin
  rcases prefix_append_cases hbegin with hwithin | ⟨back, -, -, rfl⟩
  · exact ⟨w, hw, hwithin⟩
  · refine absurd (List.mem_append_left back ?_) (hc _ hw)
    exact mem_of_suffix_concat ⟨front, hfront⟩ (by simp [hmark])

/-- Two traced texts one after the other, when no mark lies across the border. -/
theorem Traced.append (hs : Traced mark words s) (ht : Traced mark words t)
    (hborder : ¬Across [mark] s t) : Traced mark words (s ++ t) := by
  intro r hr
  rcases suffix_append_cases hr with hr | ⟨front, hfront, hsuffix, heq⟩
  · exact ht r hr
  · have hmark : mark <+: front ++ t := ⟨r, heq⟩
    rcases prefix_append_cases hmark with ⟨r', rfl⟩ | ⟨back, hback, hstart, hsplit⟩
    · obtain ⟨w, hw, hbegin⟩ := hs r' hsuffix
      exact ⟨w, hw, heq ▸ hbegin.trans (List.prefix_append _ t)⟩
    · refine absurd ⟨mark, List.mem_cons_self, front, back, ?_⟩ hborder
      exact ⟨hsplit, hfront, hback, hsuffix, hstart⟩

/-! ## Replacements -/

variable {replaces : Text → Text → Prop}

/-- A word in which no replaced part begins is kept. -/
theorem prefix_of_substitutes (h : Substitutes replaces t u) {w : Text}
    (hw : ∀ old new, replaces old new → ∃ c cs, old = c :: cs ∧ c ∉ w) (hbegin : w <+: t) :
    w <+: u := by
  induction h generalizing w with
  | nil => exact hbegin
  | keep c _ ih =>
    cases w with
    | nil => exact List.nil_prefix
    | cons d w =>
      obtain ⟨rfl, hrest⟩ := List.cons_prefix_cons.1 hbegin
      refine List.cons_prefix_cons.2 ⟨rfl, ih ?_ hrest⟩
      intro old new hold
      obtain ⟨c, cs, heq, hc⟩ := hw old new hold
      exact ⟨c, cs, heq, fun hmem => hc (List.mem_cons_of_mem _ hmem)⟩
  | swap hold _ _ =>
    obtain ⟨c, cs, rfl, hc⟩ := hw _ _ hold
    cases w with
    | nil => exact List.nil_prefix
    | cons d w =>
      obtain rfl : d = c := (List.cons_prefix_cons.1 hbegin).1
      exact absurd List.mem_cons_self hc

/-- Replacements that bring in only traced parts, and go through no word, keep a text traced. -/
theorem Traced.substitutes (ht : Traced mark words t) (h : Substitutes replaces t u)
    (hmark : mark ≠ []) (havoids : Substitutes.Avoids replaces mark.tail)
    (hold : ∀ old new, replaces old new → ∃ c cs, old = c :: cs ∧ ∀ w, words w → c ∉ w)
    (hnew : ∀ old new, replaces old new → Traced mark words new)
    (hlast : ∀ old new, replaces old new → ∃ cs c, new = cs ++ [c] ∧ c ∉ mark) :
    Traced mark words u := by
  induction h with
  | nil => exact ht
  | @keep c t u h ih =>
    have hrest := ih (ht.of_suffix (List.suffix_cons c t))
    intro r hr
    rcases List.suffix_cons_iff.1 hr with heq | hr
    · -- The occurrence starts at the kept character, so it was there before, with its word.
      obtain ⟨d, tail, rfl⟩ := List.exists_cons_of_ne_nil hmark
      obtain ⟨rfl, hu⟩ := List.cons.inj heq
      obtain ⟨r', hr'⟩ : tail <+: t := h.prefix_of_avoids havoids ⟨r, hu⟩
      obtain ⟨w, hw, hbegin⟩ := ht r' ⟨[], by rw [← hr']; rfl⟩
      rw [List.cons_append, hr'] at hbegin
      refine ⟨w, hw, ?_⟩
      rw [heq]
      refine prefix_of_substitutes (.keep d h) ?_ hbegin
      intro old new hold'
      obtain ⟨c, cs, hc, hnot⟩ := hold old new hold'
      exact ⟨c, cs, hc, hnot w hw⟩
    · exact hrest r hr
  | @swap old new t u hold' h ih =>
    obtain ⟨cs, c, rfl, hc⟩ := hlast old new hold'
    refine (hnew old _ hold').append (ih (ht.of_suffix (List.suffix_append old t))) ?_
    apply not_across_of_last
    intro m hm
    rwa [List.mem_singleton.1 hm]

/-- A character that stands once in a text divides it in one way. -/
theorem append_cons_unique {a b before behind : Text} {c : Char}
    (h : a ++ c :: b = before ++ c :: behind) (hbefore : c ∉ before) (hbehind : c ∉ behind) :
    a = before ∧ b = behind := by
  induction a generalizing before with
  | nil =>
    cases before with
    | nil => exact ⟨rfl, (List.cons.inj h).2⟩
    | cons d before =>
      obtain rfl : c = d := (List.cons.inj h).1
      exact absurd List.mem_cons_self hbefore
  | cons e a ih =>
    cases before with
    | nil =>
      obtain ⟨-, rfl⟩ := List.cons.inj h
      exact absurd (List.mem_append_right a List.mem_cons_self) hbehind
    | cons d before =>
      obtain ⟨rfl, hrest⟩ := List.cons.inj h
      obtain ⟨rfl, rfl⟩ := ih hrest fun hmem => hbefore (List.mem_cons_of_mem e hmem)
      exact ⟨rfl, rfl⟩

/-- A mark with a character that a text has once occurs there at one place at most. -/
theorem traced_of_unique {front tail before behind : Text} {c : Char}
    (hmark : mark = front ++ c :: tail) (ht : t = before ++ c :: behind) (hbefore : c ∉ before)
    (hbehind : c ∉ behind)
    (hword : front <:+ before → ∃ w, words w ∧ w <+: front ++ c :: behind) :
    Traced mark words t := by
  intro r hr
  obtain ⟨lead, hlead⟩ := hr
  have hsplit : lead ++ front ++ c :: (tail ++ r) = before ++ c :: behind := by
    rw [← ht, ← hlead, hmark]
    simp
  obtain ⟨rfl, rfl⟩ := append_cons_unique hsplit hbefore hbehind
  obtain ⟨w, hw, hbegin⟩ := hword (List.suffix_append lead front)
  exact ⟨w, hw, by rw [hmark]; simpa using hbegin⟩

end Text

end TemploTwig
