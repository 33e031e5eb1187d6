import Mathlib.Data.List.Infix
import Mathlib.Data.List.TakeWhile
import TemploTwig.Text.Blank

/-!
# What is found in a text

Facts about texts that name no construct of the template language.

Key results: `Text.contains_iff_infix`, `Text.infix_append_cons_iff`, `Text.NoPair`,
`Text.cut?_append`, `Text.not_prefix_of_cut?`, `Text.append_cons_inj`, `Text.takeWhile_append`,
`Text.dropWhile_append`, `Text.trim_eq_self_iff`, `Text.trim_eq_nil_iff`,
`Text.cutAtBlank?_eq_some_iff`.
-/

namespace TemploTwig

variable {marker t s before rest word : Text} {c : Char}

namespace Text

/-- `stripStart?` succeeds on the texts that begin with `marker`. -/
theorem stripStart?_isSome_iff : (stripStart? marker t).isSome = true ↔ marker <+: t := by
  rw [Option.isSome_iff_exists]
  constructor
  · rintro ⟨rest, h⟩
    exact ⟨rest, (stripStart?_eq_some_iff.1 h).symm⟩
  · rintro ⟨rest, h⟩
    exact ⟨rest, stripStart?_eq_some_iff.2 h.symm⟩

/-- `stripStart?` fails on all other texts. -/
theorem stripStart?_eq_none_iff : stripStart? marker t = none ↔ ¬marker <+: t := by
  rw [← stripStart?_isSome_iff]
  cases stripStart? marker t <;> simp

/-- `Text.contains` looks for an infix. -/
theorem contains_iff_infix : t.contains marker = true ↔ marker <:+: t := by
  unfold contains
  induction t with
  | nil =>
    rw [cut?, Option.isSome_map, stripStart?_isSome_iff, List.prefix_nil, List.infix_nil]
  | cons c cs ih =>
    rw [cut?, List.infix_cons_iff, ← ih, ← stripStart?_isSome_iff]
    cases stripStart? marker (c :: cs) with
    | some rest => simp
    | none => simp

/-- `Text.contains` is false where there is no such infix. -/
theorem contains_eq_false_iff : t.contains marker = false ↔ ¬marker <:+: t := by
  rw [← contains_iff_infix, Bool.not_eq_true]

/-- A prefix of `s ++ t` ends in `s` or in `t`. -/
theorem prefix_append_cases {p : Text} (h : p <+: s ++ t) :
    p <+: s ∨ ∃ back, back ≠ [] ∧ back <+: t ∧ p = s ++ back := by
  rcases List.prefix_or_prefix_of_prefix h (List.prefix_append s t) with hs | ⟨back, rfl⟩
  · exact .inl hs
  · by_cases hback : back = []
    · subst hback
      exact .inl (by simp)
    · exact .inr ⟨back, hback, (List.prefix_append_right_inj s).1 h, rfl⟩

/-- The character nowhere stands twice in a row in the run, nor with the last one of the run where
    `after` follows. -/
structure NoPair (c : Char) (run after : Text) : Prop where
  within : ¬[c, c] <:+: run
  border : run.getLast? = some c → after.head? ≠ some c

/-- `NoPair` holds of a run without the character. -/
theorem noPair_of_not_mem {run : Text} (h : c ∉ run) (after : Text) : NoPair c run after where
  within hwithin := h (hwithin.subset List.mem_cons_self)
  border hlast := absurd (List.mem_of_getLast? hlast) h

/-- Wherever one looks in a `NoPair` run, there is no pair. -/
theorem NoPair.not_prefix {run after front back : Text} (h : NoPair c run after)
    (hrun : run = front ++ back) (hne : back ≠ []) : ¬[c, c] <+: back ++ after := by
  rintro ⟨cs, hprefix⟩
  cases back with
  | nil => exact hne rfl
  | cons d back =>
    obtain ⟨rfl, hback⟩ := List.cons.inj hprefix
    cases back with
    | nil =>
      -- The first of the two is the last character of the run.
      apply h.border
      · rw [hrun, List.getLast?_append]
        rfl
      · rw [← show _ = after from hback]
        rfl
    | cons e back =>
      obtain ⟨rfl, -⟩ := List.cons.inj hback
      exact h.within ⟨front, back, by rw [hrun]; simp⟩

/-- An infix lies on one side of a character that it does not hold. -/
theorem infix_append_cons_iff {m : Text} (hc : c ∉ m) :
    m <:+: s ++ c :: t ↔ m <:+: s ∨ m <:+: t := by
  -- Nothing but the empty text begins at `c`.
  have hbegins {u : Text} (hu : u <+: c :: t) (hm : ∀ d ∈ u, d ∈ m) : u = [] := by
    cases u with
    | nil => rfl
    | cons d u =>
      obtain ⟨rfl, -⟩ := List.cons_prefix_cons.1 hu
      exact absurd (hm d List.mem_cons_self) hc
  constructor
  · intro h
    rcases List.infix_append_iff.1 h with hs | ht | ⟨front, back, rfl, hsuffix, hprefix⟩
    · exact .inl hs
    · rcases List.infix_cons_iff.1 ht with hprefix | ht
      · rw [hbegins hprefix fun d hd => hd]
        exact .inl List.nil_infix
      · exact .inr ht
    · rw [hbegins hprefix fun d hd => List.mem_append_right front hd, List.append_nil]
      exact .inl hsuffix.isInfix
  · rintro (⟨front, back, rfl⟩ | ⟨front, back, rfl⟩)
    · exact ⟨front, back ++ c :: t, by simp⟩
    · exact ⟨s ++ c :: front, back, by simp⟩

/-- `cut?` cuts at the first occurrence of the marker. -/
theorem cut?_append (rest : Text)
    (h : ∀ front back, before = front ++ back → back ≠ [] → ¬marker <+: back ++ marker ++ rest) :
    cut? marker (before ++ marker ++ rest) = some (before, rest) := by
  induction before with
  | nil =>
    have hstrip := stripStart?_append marker rest
    rw [List.nil_append]
    cases htext : marker ++ rest with
    | nil =>
      obtain ⟨rfl, rfl⟩ := List.append_eq_nil_iff.1 htext
      rfl
    | cons c cs =>
      rw [htext] at hstrip
      rw [cut?, hstrip]
  | cons c cs ih =>
    have hnone : stripStart? marker (c :: (cs ++ marker ++ rest)) = none :=
      stripStart?_eq_none_iff.2 (h [] (c :: cs) rfl (by simp))
    rw [List.cons_append, List.cons_append, cut?, hnone,
      ih fun front back hcs => h (c :: front) back (by rw [hcs]; rfl)]
    rfl

/-- No occurrence of the marker begins in front of where `cut?` cuts. -/
theorem not_prefix_of_cut? {front back : Text} (h : cut? marker t = some (front ++ back, rest))
    (hne : back ≠ []) : ¬marker <+: back ++ marker ++ rest := by
  induction t generalizing front with
  | nil =>
    simp only [cut?, Option.map_eq_some_iff, Prod.mk.injEq] at h
    obtain ⟨r, -, hnil, -⟩ := h
    exact absurd (List.append_eq_nil_iff.1 hnil.symm).2 hne
  | cons c cs ih =>
    have ht := cut?_eq_append h
    rw [cut?] at h
    cases hstrip : stripStart? marker (c :: cs) with
    | some r =>
      simp only [hstrip, Option.some.injEq, Prod.mk.injEq] at h
      exact absurd (List.append_eq_nil_iff.1 h.1.symm).2 hne
    | none =>
      simp only [hstrip, Option.map_eq_some_iff, Prod.exists, Prod.mk.injEq] at h
      obtain ⟨b, r, hcut, hb, rfl⟩ := h
      -- At the front the cut would have been made here; further on the induction knows.
      cases front with
      | nil =>
        rw [List.nil_append] at ht
        rw [← ht]
        exact stripStart?_eq_none_iff.1 hstrip
      | cons d front =>
        obtain ⟨-, rfl⟩ := List.cons.inj hb
        exact ih hcut

/-- `cut? [c]` leaves no `c` in front. -/
theorem not_mem_of_cut? (h : cut? [c] t = some (before, rest)) : c ∉ before := by
  intro hmem
  obtain ⟨front, back, rfl⟩ := List.append_of_mem hmem
  exact not_prefix_of_cut? h (by simp) ⟨back ++ [c] ++ rest, by simp⟩

/-- `cut? [c]` fails only on a text without `c`. -/
theorem not_mem_of_cut?_eq_none (h : cut? [c] t = none) : c ∉ t := by
  intro hmem
  obtain ⟨front, back, rfl⟩ := List.append_of_mem hmem
  have hcontains : contains (front ++ c :: back) [c] = false := by rw [contains, h]; rfl
  exact contains_eq_false_iff.1 hcontains ⟨front, back, by simp⟩

/-- `cut? [c]` cuts at a `c` that does not occur before. -/
theorem cut?_char (rest : Text) (h : c ∉ before) :
    cut? [c] (before ++ c :: rest) = some (before, rest) := by
  rw [show before ++ c :: rest = before ++ [c] ++ rest by simp]
  apply cut?_append
  intro front back hbefore hne hprefix
  cases back with
  | nil => exact hne rfl
  | cons d back =>
    obtain rfl : c = d := by simpa using hprefix
    exact h (by rw [hbefore]; simp)

/-- A text falls apart in one way at its first `c`. -/
theorem append_cons_inj {s' t' : Text} (hs : c ∉ s) (hs' : c ∉ s') :
    s ++ c :: t = s' ++ c :: t' ↔ s = s' ∧ t = t' := by
  constructor
  · intro h
    have hcut := cut?_char t hs
    rw [h, cut?_char t' hs'] at hcut
    obtain ⟨rfl, rfl⟩ := Prod.mk.inj (Option.some.inj hcut)
    exact ⟨rfl, rfl⟩
  · rintro ⟨rfl, rfl⟩
    rfl

/-- `cut?` finds the same place when text comes behind. -/
theorem cut?_append_of_some (h : cut? marker t = some (before, rest)) (after : Text) :
    cut? marker (t ++ after) = some (before, rest ++ after) := by
  have ht := cut?_eq_append h
  induction t generalizing before with
  | nil =>
    obtain ⟨hfront, rfl⟩ := List.append_eq_nil_iff.1 ht.symm
    obtain ⟨rfl, rfl⟩ := List.append_eq_nil_iff.1 hfront
    cases after <;> rfl
  | cons c cs ih =>
    rw [cut?] at h
    rw [List.cons_append, cut?]
    cases hstrip : stripStart? marker (c :: cs) with
    | some r =>
      rw [hstrip] at h
      simp only [Option.some.injEq, Prod.mk.injEq] at h
      obtain ⟨rfl, rfl⟩ := h
      have hcons := stripStart?_eq_some_iff.1 hstrip
      rw [← List.cons_append, hcons, List.append_assoc, stripStart?_append]
    | none =>
      rw [hstrip] at h
      simp only [Option.map_eq_some_iff, Prod.exists, Prod.mk.injEq] at h
      obtain ⟨b, r, hcut, rfl, rfl⟩ := h
      -- The marker fits into the text, so it would be at its front already.
      have hnone : stripStart? marker (c :: (cs ++ after)) = none := by
        rw [stripStart?_eq_none_iff] at hstrip ⊢
        intro hprefix
        apply hstrip
        have hlength := congrArg List.length (cut?_eq_append hcut)
        rw [List.length_append, List.length_append] at hlength
        refine List.prefix_of_prefix_length_le hprefix (List.prefix_append (c :: cs) after) ?_
        rw [List.length_cons]
        omega
      rw [hnone, ih hcut (cut?_eq_append hcut)]
      rfl

/-- Two texts that do not end with `c` do not end with it together. -/
theorem getLast?_append_ne (hs : s.getLast? ≠ some c) (ht : t.getLast? ≠ some c) :
    (s ++ t).getLast? ≠ some c := by
  rw [List.getLast?_append]
  cases hlast : t.getLast? with
  | none => exact hs
  | some d => rwa [hlast] at ht

/-- `takeWhile` stops at the first character that does not belong. -/
theorem takeWhile_append {p : Char → Bool} (hs : ∀ c ∈ s, p c = true)
    (ht : ∀ c, t.head? = some c → p c = false) : (s ++ t).takeWhile p = s := by
  rw [List.takeWhile_append_of_pos hs]
  cases t with
  | nil => simp
  | cons c t => simp [ht c rfl]

/-- `dropWhile` leaves what starts with that character. -/
theorem dropWhile_append {p : Char → Bool} (hs : ∀ c ∈ s, p c = true)
    (ht : ∀ c, t.head? = some c → p c = false) : (s ++ t).dropWhile p = t := by
  rw [List.dropWhile_append_of_pos hs]
  cases t with
  | nil => rfl
  | cons c t => simp [ht c rfl]

/-- `trim` keeps the texts without a blank at their ends. -/
theorem trim_eq_self_iff :
    t.trim = t ↔ (∀ c, t.head? = some c → isBlank c = false) ∧
      ∀ c, t.getLast? = some c → isBlank c = false := by
  have hstays (u : Text) :
      (∀ c, u.head? = some c → isBlank c = false) ↔ u.dropWhile isBlank = u := by
    rw [List.dropWhile_eq_self_iff]
    cases u <;> simp
  rw [hstays, ← List.head?_reverse, hstays]
  unfold trim trimEnd trimStart
  constructor
  · intro h
    -- Neither end can lose a character, since nothing is lost in the end.
    have hstart := List.dropWhile_suffix (l := t) isBlank
    have hend := List.dropWhile_suffix (l := (t.dropWhile isBlank).reverse) isBlank
    have hlen := congrArg List.length h
    have hle := hend.length_le
    rw [List.length_reverse] at hlen hle
    have heq : t.dropWhile isBlank = t := hstart.eq_of_length_le (by omega)
    refine ⟨heq, ?_⟩
    rw [heq] at h
    have := congrArg List.reverse h
    rwa [List.reverse_reverse] at this
  · rintro ⟨hstart, hend⟩
    rw [hstart, hend, List.reverse_reverse]

/-- `trim` drops a space in front. -/
theorem trim_cons_space (t : Text) : trim (' ' :: t) = t.trim := rfl

/-- `trim` keeps two texts with a space between them, if no blank stands outside. -/
theorem trim_append_space (hs : s ≠ []) (hfirst : ∀ c, s.head? = some c → isBlank c = false)
    (ht : t ≠ []) (htrim : t.trim = t) : trim (s ++ ' ' :: t) = s ++ ' ' :: t := by
  rw [trim_eq_self_iff]
  constructor
  · intro c hc
    rw [List.head?_append, List.head?_eq_some_head hs, Option.some_or, ← List.head?_eq_some_head hs]
      at hc
    exact hfirst c hc
  · intro c hc
    rw [List.append_cons, List.getLast?_append, List.getLast?_eq_some_getLast ht, Option.some_or,
      ← List.getLast?_eq_some_getLast ht] at hc
    exact (trim_eq_self_iff.1 htrim).2 c hc

/-- `trimStart` leaves no blank in front. -/
theorem not_blank_of_head?_trimStart (h : t.trimStart.head? = some c) : isBlank c = false := by
  have hhead := List.head?_dropWhile_not isBlank t
  rw [show t.dropWhile isBlank = t.trimStart from rfl, h] at hhead
  simpa using hhead

/-- `trimEnd` leaves no blank at the end. -/
theorem not_blank_of_getLast?_trimEnd (h : t.trimEnd.getLast? = some c) : isBlank c = false := by
  rw [trimEnd, List.getLast?_reverse] at h
  exact not_blank_of_head?_trimStart h

/-- `trimEnd` keeps a prefix. -/
theorem isPrefix_trimEnd (t : Text) : t.trimEnd <+: t := by
  rw [trimEnd, ← List.reverse_suffix, List.reverse_reverse]
  exact List.dropWhile_suffix isBlank

/-- `trim` makes no text longer. -/
theorem length_trim_le (t : Text) : t.trim.length ≤ t.length :=
  Nat.le_trans (isPrefix_trimEnd t.trimStart).length_le (List.dropWhile_suffix isBlank).length_le

/-- `trim` is idempotent. -/
@[simp] theorem trim_trim (t : Text) : t.trim.trim = t.trim := by
  rw [trim_eq_self_iff]
  constructor
  · intro c hc
    obtain ⟨back, hback⟩ := isPrefix_trimEnd t.trimStart
    obtain ⟨cs, hcs⟩ := List.head?_eq_some_iff.1 hc
    apply not_blank_of_head?_trimStart (t := t)
    rw [← hback, show t.trimStart.trimEnd = c :: cs from hcs]
    rfl
  · intro c hc
    exact not_blank_of_getLast?_trimEnd hc

/-- `trimStart` leaves nothing of blanks only. -/
theorem trimStart_eq_nil_iff : t.trimStart = [] ↔ ∀ c ∈ t, isBlank c = true := by
  constructor
  · intro h
    have hsplit : t.takeWhile isBlank ++ t.trimStart = t := List.takeWhile_append_dropWhile
    rw [h, List.append_nil] at hsplit
    rw [← hsplit]
    exact List.all_eq_true.1 List.all_takeWhile
  · intro h
    rw [trimStart, ← List.append_nil t, List.dropWhile_append_of_pos h, List.dropWhile_nil]

/-- `trim` leaves nothing exactly of a blank text. -/
theorem trim_eq_nil_iff : t.trim = [] ↔ t.isBlankText = true := by
  rw [isBlankText, List.all_eq_true, ← trimStart_eq_nil_iff]
  constructor
  · intro h
    rw [trim, trimEnd, List.reverse_eq_nil_iff, ← trimStart, trimStart_eq_nil_iff] at h
    -- The first character that is left would be no blank.
    cases hstart : t.trimStart with
    | nil => rfl
    | cons c cs =>
      have hc := not_blank_of_head?_trimStart (t := t) (c := c) (by rw [hstart]; rfl)
      rw [h c (by simp [hstart])] at hc
      cases hc
  · intro h
    rw [trim, h]
    rfl

/-- `cutAtBlank?` cuts at the first blank. -/
theorem cutAtBlank?_eq_some_iff :
    cutAtBlank? t = some (word, rest) ↔
      (∀ c ∈ word, isBlank c = false) ∧ ∃ b, isBlank b = true ∧ t = word ++ b :: rest := by
  constructor
  · intro h
    have hsplit : t.takeWhile (!isBlank ·) ++ t.dropWhile (!isBlank ·) = t :=
      List.takeWhile_append_dropWhile
    have hword : (t.takeWhile (!isBlank ·)).all (!isBlank ·) = true := List.all_takeWhile
    have hhead := List.head?_dropWhile_not (!isBlank ·) t
    rw [cutAtBlank?] at h
    cases hdrop : t.dropWhile (!isBlank ·) with
    | nil => simp [hdrop] at h
    | cons b r =>
      rw [hdrop] at h hsplit hhead
      obtain ⟨rfl, rfl⟩ : t.takeWhile (!isBlank ·) = word ∧ r = rest := by simpa using h
      refine ⟨fun c hc => ?_, b, by simpa using hhead, hsplit.symm⟩
      simpa using List.all_eq_true.1 hword c hc
  · rintro ⟨hword, b, hb, rfl⟩
    have hpos : ∀ c ∈ word, (!isBlank c) = true := by
      intro c hc
      rw [hword c hc]; rfl
    rw [cutAtBlank?, dropWhile_append hpos, takeWhile_append hpos]
    all_goals
      intro c hc
      rw [← Option.some.inj hc, hb]
      rfl

/-- `cutAtBlank?` takes the word in front of a space. -/
theorem cutAtBlank?_append (rest : Text) (h : ∀ c ∈ word, isBlank c = false) :
    cutAtBlank? (word ++ ' ' :: rest) = some (word, rest) :=
  cutAtBlank?_eq_some_iff.2 ⟨h, ' ', rfl, rfl⟩

/-- `cutAtBlank?` fails where there is no blank. -/
theorem cutAtBlank?_of_no_blank (h : ∀ c ∈ word, isBlank c = false) : cutAtBlank? word = none := by
  have hpos : ∀ c ∈ word, (!isBlank c) = true := by
    intro c hc
    rw [h c hc]; rfl
  have hnil : word.dropWhile (!isBlank ·) = [] := by
    rw [← List.append_nil word, List.dropWhile_append_of_pos hpos, List.dropWhile_nil]
  rw [cutAtBlank?, hnil]

end Text

end TemploTwig
