import TemploTwig.Proofs.Conditions.Operators

/-!
# The normal form of a condition

A condition in Twig's spelling holds neither `&&` nor `||`, and every `!` in it stands, blanks
aside, in front of `=` or at the end.  Each pass brings one of these three about, and the passes
behind it keep it: a word in the place of a sign has blanks at its ends, so nothing in front of it
meets what follows it.
-/

namespace TemploTwig

variable {s t : Text} {a : Char}

namespace Condition

/-! ## Exclamation marks -/

/-- No exclamation mark is a negation. -/
def BangsKept (t : Text) : Prop := ∀ front back, t = front ++ '!' :: back → KeepsBang back

theorem bangsKept_nil : BangsKept [] := by
  intro front back h
  simp at h

/-- `BangsKept` at the first character. -/
theorem bangsKept_cons_iff {c : Char} {cs : Text} :
    BangsKept (c :: cs) ↔ (c = '!' → KeepsBang cs) ∧ BangsKept cs := by
  constructor
  · intro h
    constructor
    · intro hc
      exact h [] cs (by rw [hc]; rfl)
    · intro front back hcs
      exact h (c :: front) back (by rw [hcs]; rfl)
  · intro h front back hsplit
    cases front with
    | nil =>
      obtain ⟨hc, rfl⟩ := List.cons.inj hsplit
      exact h.1 hc
    | cons d front =>
      obtain ⟨-, hcs⟩ := List.cons.inj hsplit
      exact h.2 front back hcs

theorem BangsKept.of_suffix (h : BangsKept t) (hs : s <:+ t) : BangsKept s := by
  obtain ⟨before, rfl⟩ := hs
  intro front back hsplit
  exact h (before ++ front) back (by rw [hsplit, List.append_assoc])

/-- `BangsKept` behind a text without `!`. -/
theorem BangsKept.append_of_not_mem (hs : '!' ∉ s) (h : BangsKept t) : BangsKept (s ++ t) := by
  induction s with
  | nil => exact h
  | cons c s ih =>
    rw [List.mem_cons, not_or] at hs
    rw [List.cons_append, bangsKept_cons_iff]
    exact ⟨fun hc => absurd hc.symm hs.1, ih hs.2⟩

/-- `KeepsBang` survives a pass that leaves blanks and an equals sign behind them alone. -/
theorem KeepsBang.map {pass : Text → Text} (hblanks : ∀ b : Blanks, pass b.1 = b.1)
    (hequals : ∀ (b : Blanks) rest, pass (b.1 ++ '=' :: rest) = b.1 ++ '=' :: pass rest)
    (h : KeepsBang t) : KeepsBang (pass t) := by
  obtain ⟨b, rfl | ⟨rest, rfl⟩⟩ := h
  · exact ⟨b, .inl (hblanks b)⟩
  · exact ⟨b, .inr ⟨pass rest, hequals b rest⟩⟩

/-- `KeepsBang` survives `spellNot`. -/
theorem KeepsBang.spellNot (h : KeepsBang t) : KeepsBang (spellNot t) := by
  have hbang (b : Blanks) : '!' ∉ b.1 := b.sign_not_mem (List.mem_cons_self ..)
  refine h.map (fun b => ?_) (fun b rest => ?_)
  · have hb := spellNot_append_of_not_mem (hbang b) []
    rwa [spellNot_nil, List.append_nil] at hb
  · rw [spellNot_append_of_not_mem (hbang b), spellNot_cons_of_ne (by decide)]

/-- `spellNot` leaves no negation. -/
theorem bangsKept_spellNot (t : Text) : BangsKept (spellNot t) := by
  induction t using dropBlanks_induction with
  | nil =>
    rw [spellNot_nil]
    exact bangsKept_nil
  | cons c cs ih ihDrop =>
    by_cases hc : c = '!'
    · subst hc
      by_cases hkeeps : KeepsBang cs
      · rw [spellNot_of_keepsBang hkeeps, bangsKept_cons_iff]
        exact ⟨fun _ => hkeeps.spellNot, ih⟩
      · have hword : '!' ∉ "not ".toList := by decide
        rw [spellNot_of_not_keepsBang hkeeps]
        exact .append_of_not_mem hword ihDrop
    · rw [spellNot_cons_of_ne hc, bangsKept_cons_iff]
      exact ⟨fun h => absurd h hc, ih⟩

/-- `spellNot` changes nothing where no `!` is a negation. -/
theorem BangsKept.spellNot_eq (h : BangsKept t) : spellNot t = t := by
  induction t with
  | nil => exact spellNot_nil
  | cons c cs ih =>
    obtain ⟨hkeeps, hcs⟩ := bangsKept_cons_iff.1 h
    by_cases hc : c = '!'
    · rw [hc, spellNot_of_keepsBang (hkeeps hc), ih hcs]
    · rw [spellNot_cons_of_ne hc, ih hcs]

/-! ## Doubled signs -/

/-- Two equal characters in a row stand behind a text that does not hold them. -/
theorem doubled_infix_of_append (ha : a ∉ s) (h : [a, a] <:+: s ++ t) : [a, a] <:+: t := by
  induction s with
  | nil => exact h
  | cons c s ih =>
    rw [List.mem_cons, not_or] at ha
    rcases List.infix_cons_iff.1 h with hprefix | hs
    · exact absurd (List.cons_prefix_cons.1 hprefix).1 ha.1
    · exact ih ha.2 hs

section

variable {mark : Char} {word : Text}

/-- `takeOperator?` takes a doubled sign. -/
theorem doubled_infix_of_takeOperator? {rest : Text} (h : takeOperator? mark t = some ((), rest)) :
    [mark, mark] <:+: t := by
  obtain ⟨r, hdrop, -⟩ := takeOperator?_eq_some_iff.1 h
  have hsigns : mark :: mark :: r <:+ t := hdrop ▸ List.dropWhile_suffix isBlank
  exact List.IsInfix.trans ⟨[], r, rfl⟩ hsigns.isInfix

/-- `spellOperator` changes nothing without a doubled sign. -/
theorem spellOperator_eq_self (h : ¬[mark, mark] <:+: t) : spellOperator mark word t = t := by
  induction t with
  | nil => exact spellOperator_nil
  | cons c cs ih =>
    cases hnext : takeOperator? mark (c :: cs) with
    | some found => exact absurd (doubled_infix_of_takeOperator? hnext) h
    | none => rw [spellOperator_of_none hnext, ih fun hcs => h (List.infix_cons hcs)]

/-- A first character of `spellOperator` that is not of the word was there before. -/
theorem head?_of_head?_spellOperator (ha : a ∉ word) (hword : word ≠ [])
    (h : (spellOperator mark word t).head? = some a) : t.head? = some a := by
  cases t with
  | nil =>
    rw [spellOperator_nil] at h
    cases h
  | cons c cs =>
    cases hnext : takeOperator? mark (c :: cs) with
    | some found =>
      obtain ⟨d, ds, rfl⟩ := List.exists_cons_of_ne_nil hword
      rw [spellOperator_of_some hnext] at h
      obtain rfl : d = a := Option.some.inj h
      exact absurd List.mem_cons_self ha
    | none =>
      rw [spellOperator_of_none hnext] at h
      exact h

/-- No two `a` in a row are behind `spellOperator` if it is over `a` or there were none. -/
theorem not_doubled_spellOperator (ha : a ∉ word) (hword : word ≠ []) (hmark : isBlank mark = false)
    (h : a = mark ∨ ¬[a, a] <:+: t) : ¬[a, a] <:+: spellOperator mark word t := by
  induction t using Recogniser.scan.induct (operator mark) with
  | case1 =>
    rw [spellOperator_nil]
    simp
  | case2 c cs found rest hnext ih =>
    rw [spellOperator_of_some hnext]
    intro hinfix
    have hrest : rest <:+ c :: cs := suffix_of_takeOperator? hnext
    exact ih (h.imp_right fun hnone hdouble => hnone (hdouble.trans hrest.isInfix))
      (doubled_infix_of_append ha hinfix)
  | case3 c cs hnext ih =>
    rw [spellOperator_of_none hnext]
    intro hinfix
    rcases List.infix_cons_iff.1 hinfix with hprefix | hcs
    · -- Both characters stand in front of the text as it was before.
      obtain ⟨rfl, hsecond⟩ := List.cons_prefix_cons.1 hprefix
      obtain ⟨r, hr⟩ := hsecond
      have hhead : (spellOperator mark word cs).head? = some a := by rw [← hr]; rfl
      obtain ⟨ds, rfl⟩ := List.head?_eq_some_iff.1 (head?_of_head?_spellOperator ha hword hhead)
      rcases h with rfl | hnone
      · have hsome : takeOperator? a (a :: a :: ds) = some ((), ds.dropWhile isBlank) :=
          takeOperator?_eq_some_iff.2 ⟨ds, List.dropWhile_cons_of_neg (by simp [hmark]), rfl⟩
        exact absurd (hnext.symm.trans hsome) (by simp)
      · exact hnone ⟨[], ds, rfl⟩
    · exact ih (h.imp_right fun hnone hdouble => hnone (List.infix_cons hdouble)) hcs

/-- `KeepsBang` survives `spellOperator`. -/
theorem KeepsBang.spellOperator (hmark : isBlank mark = false) (hequals : mark ≠ '=')
    (h : KeepsBang t) : KeepsBang (spellOperator mark word t) := by
  have hblanks (b : Blanks) : mark ∉ b.1 := by
    intro hmem
    rw [b.2 mark hmem] at hmark
    cases hmark
  refine h.map (fun b => ?_) (fun b rest => ?_)
  · apply spellOperator_eq_self
    intro hdouble
    exact hblanks b (hdouble.subset List.mem_cons_self)
  · have hlast : ∃ c, (b.1 ++ ['=']).getLast? = some c ∧ isBlank c = false := ⟨'=', by simp, rfl⟩
    have hmem : mark ∉ b.1 ++ ['='] := by simp [hblanks b, hequals]
    simpa using spellOperator_of_last hmem hlast rest

/-- `BangsKept` survives `spellOperator`. -/
theorem bangsKept_spellOperator (hword : '!' ∉ word) (hmark : isBlank mark = false)
    (hequals : mark ≠ '=') (h : BangsKept t) : BangsKept (spellOperator mark word t) := by
  induction t using Recogniser.scan.induct (operator mark) with
  | case1 =>
    rw [spellOperator_nil]
    exact h
  | case2 c cs found rest hnext ih =>
    have hrest : rest <:+ c :: cs := suffix_of_takeOperator? hnext
    rw [spellOperator_of_some hnext]
    exact .append_of_not_mem hword (ih (h.of_suffix hrest))
  | case3 c cs hnext ih =>
    obtain ⟨hbang, hcs⟩ := bangsKept_cons_iff.1 h
    rw [spellOperator_of_none hnext, bangsKept_cons_iff]
    exact ⟨fun hc => (hbang hc).spellOperator hmark hequals, ih hcs⟩

end

/-! ## The normal form -/

/-- A condition in which nothing is left to respell. -/
structure IsNormal (t : Text) : Prop where
  no_conj : ¬['&', '&'] <:+: t
  no_disj : ¬['|', '|'] <:+: t
  bangs : BangsKept t

theorem IsNormal.toTwig_eq (h : IsNormal t) : toTwig t = t := by
  rw [toTwig, h.bangs.spellNot_eq, spellOperator_eq_self h.no_conj, spellOperator_eq_self h.no_disj]

/-- `toTwig` leaves an `IsNormal` condition. -/
theorem isNormal_toTwig (t : Text) : IsNormal (toTwig t) := by
  have hbangs : BangsKept (spellOperator '&' " and ".toList (spellNot t)) :=
    bangsKept_spellOperator (by decide) rfl (by decide) (bangsKept_spellNot t)
  have hconj : ¬['&', '&'] <:+: spellOperator '&' " and ".toList (spellNot t) :=
    not_doubled_spellOperator (by decide) (by decide) rfl (.inl rfl)
  constructor
  · exact not_doubled_spellOperator (by decide) (by decide) rfl (.inr hconj)
  · exact not_doubled_spellOperator (by decide) (by decide) rfl (.inl rfl)
  · exact bangsKept_spellOperator (by decide) rfl (by decide) hbangs

/-- `toTwig` changes nothing exactly where the condition `IsNormal`. -/
theorem toTwig_eq_self_iff : toTwig t = t ↔ IsNormal t := by
  constructor
  · intro h
    rw [← h]
    exact isNormal_toTwig t
  · exact IsNormal.toTwig_eq

/-- One application reaches the normal form: the result holds neither operator, each `!` that is
    left in it stands in front of `=` or at the end, blanks aside, and a second application changes
    nothing.  The conditions that an application does not change are those in normal form. -/
theorem toTwig_reaches_normal (t : Text) :
    toTwig (toTwig t) = toTwig t ∧ IsNormal (toTwig t) ∧ (toTwig t = t ↔ IsNormal t) :=
  ⟨(isNormal_toTwig t).toTwig_eq, isNormal_toTwig t, toTwig_eq_self_iff⟩

end Condition

end TemploTwig
