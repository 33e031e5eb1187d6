import TemploTwig.Proofs.Conditions.Operators

/-!
# Formulas and their spellings

A condition is a formula over atoms.  Its operators are signs in a template and words in Twig; the
blanks around a sign are free.  Each of the three passes of `Condition.toTwig` takes one spelling to
the next, so that the template's spelling of a formula becomes Twig's spelling of it.
-/

namespace TemploTwig

variable {t rest : Text}

namespace Condition

/-! ## Syntax -/

/-- Every exclamation mark belongs to a `!=`. -/
def BangsBeforeEquals : Text → Prop
  | [] => True
  | c :: cs => (c = '!' → cs.head? = some '=') ∧ BangsBeforeEquals cs

instance decidableBangsBeforeEquals : (t : Text) → Decidable (BangsBeforeEquals t)
  | [] => isTrue trivial
  | c :: cs =>
    have := decidableBangsBeforeEquals cs
    inferInstanceAs (Decidable ((c = '!' → cs.head? = some '=') ∧ BangsBeforeEquals cs))

/-- An operand that holds no operator. -/
structure Atom where
  text : Text
  ne_nil : text ≠ []
  trimmed : text.trim = text
  no_ampersand : '&' ∉ text
  no_bar : '|' ∉ text
  head_ne : text.head? ≠ some '='
  bangs : BangsBeforeEquals text

/-- The atom with a given text. -/
def Atom.ofText (t : Text)
    (h : (t ≠ [] ∧ t.trim = t) ∧ ('&' ∉ t ∧ '|' ∉ t) ∧ t.head? ≠ some '=' ∧ BangsBeforeEquals t) :
    Atom where
  text := t
  ne_nil := h.1.1
  trimmed := h.1.2
  no_ampersand := h.2.1.1
  no_bar := h.2.1.2
  head_ne := h.2.2.1
  bangs := h.2.2.2

/-- A formula, with the blanks in its source. -/
inductive Formula where
  | atom (a : Atom)
  | neg (after : Blanks) (p : Formula)
  | conj (p : Formula) (before after : Blanks) (q : Formula)
  | disj (p : Formula) (before after : Blanks) (q : Formula)
  | group (before : Blanks) (p : Formula) (after : Blanks)

/-- How the operators are written. -/
structure Spelling where
  neg : Blanks → Text
  conj : Blanks → Blanks → Text
  disj : Blanks → Blanks → Text

namespace Spelling

/-- Signs, with blanks around them. -/
def source : Spelling where
  neg after := '!' :: after.1
  conj before after := before.1 ++ '&' :: '&' :: after.1
  disj before after := before.1 ++ '|' :: '|' :: after.1

/-- Words, with one space on each side that has an operand. -/
def twig : Spelling where
  neg _ := "not ".toList
  conj _ _ := " and ".toList
  disj _ _ := " or ".toList

end Spelling

/-- The text of a formula. -/
def Formula.print (s : Spelling) : Formula → Text
  | atom a => a.text
  | neg after p => s.neg after ++ p.print s
  | conj p before after q => p.print s ++ (s.conj before after ++ q.print s)
  | disj p before after q => p.print s ++ (s.disj before after ++ q.print s)
  | group before p after => '(' :: before.1 ++ (p.print s ++ (after.1 ++ [')']))

/-! ## What a formula begins with -/

/-- The text begins with a character of no operator, no blank, and leaves a `!` a negation. -/
def Opens (t : Text) : Prop :=
  ∃ c, t.head? = some c ∧ isBlank c = false ∧ c ∉ ['=', '&', '|']

theorem Opens.append (h : Opens t) (rest : Text) : Opens (t ++ rest) := by
  obtain ⟨c, hhead, hc⟩ := h
  exact ⟨c, by rw [List.head?_append, hhead, Option.some_or], hc⟩

/-- A text that `Opens` begins with no blank. -/
theorem Opens.head_not_blank (h : Opens t) (c : Char) (hc : t.head? = some c) :
    isBlank c = false := by
  obtain ⟨d, hhead, hd, -⟩ := h
  obtain rfl := Option.some.inj (hhead.symm.trans hc)
  exact hd

/-- A text that `Opens` begins with no sign. -/
theorem Opens.head_ne (h : Opens t) {c : Char} (hc : c ∈ ['=', '&', '|']) : t.head? ≠ some c := by
  obtain ⟨d, hhead, -, hd⟩ := h
  rw [hhead]
  intro heq
  exact hd (Option.some.inj heq ▸ hc)

/-- Blanks in front of a text that `Opens` are dropped. -/
theorem Opens.dropWhile (h : Opens t) (b : Blanks) : (b.1 ++ t).dropWhile isBlank = t :=
  Text.dropWhile_append b.2 h.head_not_blank

/-- An `Atom` `Opens`. -/
theorem Atom.opens (a : Atom) : Opens a.text := by
  cases hhead : a.text.head? with
  | none => exact absurd (List.head?_eq_none_iff.1 hhead) a.ne_nil
  | some c =>
    have hmem := List.mem_of_head? hhead
    refine ⟨c, hhead, (Text.trim_eq_self_iff.1 a.trimmed).1 c hhead, ?_⟩
    simp only [List.mem_cons, List.not_mem_nil, or_false, not_or]
    exact ⟨fun h => a.head_ne (h ▸ hhead), fun h => a.no_ampersand (h ▸ hmem),
      fun h => a.no_bar (h ▸ hmem)⟩

theorem Atom.last_not_blank (a : Atom) : ∃ c, a.text.getLast? = some c ∧ isBlank c = false := by
  have hlast := List.getLast?_eq_some_getLast a.ne_nil
  exact ⟨_, hlast, (Text.trim_eq_self_iff.1 a.trimmed).2 _ hlast⟩

/-- The `print` of a formula `Opens`. -/
theorem Formula.opens_print {s : Spelling} (hneg : ∀ b, Opens (s.neg b)) :
    (p : Formula) → Opens (p.print s)
  | atom a => a.opens
  | neg after _ => (hneg after).append _
  | conj p _ _ _ | disj p _ _ _ => (opens_print hneg p).append _
  | group _ _ _ => ⟨'(', rfl, by decide, by decide⟩

/-! ## Passes -/

/-- `pass` leaves atoms and parentheses alone and takes the operators of `s` to those of `s'`. -/
structure Respells (pass : Text → Text) (s s' : Spelling) : Prop where
  opens : ∀ b, Opens (s.neg b)
  nil : pass [] = []
  atom : ∀ (a : Atom) rest, pass (a.text ++ rest) = a.text ++ pass rest
  neg : ∀ after {rest}, Opens rest → pass (s.neg after ++ rest) = s'.neg after ++ pass rest
  conj : ∀ before after {rest}, Opens rest →
    pass (s.conj before after ++ rest) = s'.conj before after ++ pass rest
  disj : ∀ before after {rest}, Opens rest →
    pass (s.disj before after ++ rest) = s'.disj before after ++ pass rest
  opening : ∀ (before : Blanks) {rest}, Opens rest →
    pass ('(' :: before.1 ++ rest) = '(' :: before.1 ++ pass rest
  closing : ∀ (after : Blanks) rest,
    pass (after.1 ++ ([')'] ++ rest)) = after.1 ++ ([')'] ++ pass rest)

namespace Respells

variable {pass : Text → Text} {s s' : Spelling}

/-- A pass that `Respells` goes over a formula and on. -/
theorem print_append (h : Respells pass s s') (p : Formula) (rest : Text) :
    pass (p.print s ++ rest) = p.print s' ++ pass rest := by
  have hopens (p : Formula) (rest : Text) : Opens (p.print s ++ rest) :=
    (p.opens_print h.opens).append rest
  induction p generalizing rest with
  | atom a => exact h.atom a rest
  | neg after p ih =>
    simp only [Formula.print, List.append_assoc]
    rw [h.neg after (hopens p rest), ih]
  | conj p before after q ihp ihq =>
    simp only [Formula.print, List.append_assoc]
    rw [ihp, h.conj before after (hopens q rest), ihq]
  | disj p before after q ihp ihq =>
    simp only [Formula.print, List.append_assoc]
    rw [ihp, h.disj before after (hopens q rest), ihq]
  | group before p after ih =>
    simp only [Formula.print, List.append_assoc]
    rw [h.opening before (hopens p _), ih, h.closing after rest]

/-- A pass that `Respells` the operators respells every formula. -/
theorem print (h : Respells pass s s') (p : Formula) : pass (p.print s) = p.print s' := by
  have hprint := h.print_append p []
  rwa [h.nil, List.append_nil, List.append_nil] at hprint

end Respells

/-! ## Negations -/

/-- A `!` in front of a text that `Opens` is a negation. -/
theorem Opens.not_keepsBang (h : Opens t) (b : Blanks) : ¬KeepsBang (b.1 ++ t) := by
  rw [keepsBang_iff, h.dropWhile]
  obtain ⟨c, hhead, -, hc⟩ := h
  cases t with
  | nil => cases hhead
  | cons d ds =>
    obtain rfl : d = c := Option.some.inj hhead
    have hd : d ≠ '=' := fun heq => hc (heq ▸ List.mem_cons_self)
    simp [Text.startsWith, Text.stripStart?, Ne.symm hd]

/-- `spellNot` spells a `!` in front of a formula out. -/
theorem spellNot_neg (after : Blanks) (h : Opens rest) :
    spellNot ('!' :: after.1 ++ rest) = "not ".toList ++ spellNot rest := by
  rw [List.cons_append, spellNot_of_not_keepsBang (h.not_keepsBang after), h.dropWhile]

/-- `spellNot` keeps the `!=` of an atom. -/
theorem spellNot_atom (h : BangsBeforeEquals t) (rest : Text) :
    spellNot (t ++ rest) = t ++ spellNot rest := by
  induction t with
  | nil => rfl
  | cons c cs ih =>
    obtain ⟨hc, hcs⟩ := h
    by_cases hbang : c = '!'
    · obtain ⟨ds, rfl⟩ : ∃ ds, cs = '=' :: ds := List.head?_eq_some_iff.1 (hc hbang)
      have hkeeps : KeepsBang ('=' :: ds ++ rest) := ⟨.none, .inr ⟨ds ++ rest, rfl⟩⟩
      rw [hbang, List.cons_append, spellNot_of_keepsBang hkeeps]
      exact congrArg ('!' :: ·) (ih hcs)
    · rw [List.cons_append, spellNot_cons_of_ne hbang, ih hcs, List.cons_append]

/-- `spellNot` `Respells` negations. -/
theorem respells_spellNot :
    Respells spellNot .source { Spelling.source with neg := Spelling.twig.neg } where
  opens _ := ⟨'!', rfl, by decide, by decide⟩
  nil := spellNot_nil
  atom a rest := spellNot_atom a.bangs rest
  neg after _ h := spellNot_neg after h
  conj before after rest _ :=
    spellNot_append_of_not_mem (by simp [Spelling.source, Blanks.sign_not_mem]) rest
  disj before after rest _ :=
    spellNot_append_of_not_mem (by simp [Spelling.source, Blanks.sign_not_mem]) rest
  opening before rest _ := spellNot_append_of_not_mem (by simp [Blanks.sign_not_mem]) rest
  closing after rest := by
    simpa using spellNot_append_of_not_mem (t := after.1 ++ [')'])
      (by simp [Blanks.sign_not_mem]) rest

/-! ## Conjunctions and disjunctions -/

section

variable {mark : Char} {word : Text}

/-- `spellOperator` keeps a text without the sign in front of a formula. -/
theorem spellOperator_of_opens (hmark : mark ∉ t) (hsign : mark ∈ ['=', '&', '|'])
    (hrest : Opens rest) :
    spellOperator mark word (t ++ rest) = t ++ spellOperator mark word rest := by
  refine spellOperator_append fun front back ht hback => ?_
  have hmem : mark ∉ back := fun h => hmark (by rw [ht]; exact List.mem_append_right _ h)
  refine takeOperator?_eq_none hmem fun _ => ?_
  have hdrop : rest.dropWhile isBlank = rest := hrest.dropWhile Blanks.none
  rw [hdrop]
  exact hrest.head_ne hsign

/-- `spellOperator` spells the operator in front of a formula out. -/
theorem spellOperator_operator (hmark : isBlank mark = false) (before after : Blanks)
    (h : Opens rest) :
    spellOperator mark word (before.1 ++ mark :: mark :: after.1 ++ rest) =
      word ++ spellOperator mark word rest := by
  have hdrop : (before.1 ++ mark :: mark :: after.1 ++ rest).dropWhile isBlank =
      mark :: mark :: (after.1 ++ rest) := by
    rw [List.append_assoc]
    exact Text.dropWhile_append before.2 fun c hc => Option.some.inj hc ▸ hmark
  exact spellOperator_of_some (takeOperator?_eq_some_iff.2 ⟨_, hdrop, (h.dropWhile after).symm⟩)

/-- `spellOperator` `Respells` if it respells the two operators. -/
theorem respells_spellOperator {s s' : Spelling} (hsign : mark ∈ ['&', '|'])
    (hatom : ∀ a : Atom, mark ∉ a.text) (hopens : ∀ b, Opens (s.neg b))
    (hneg : ∀ b, mark ∉ s.neg b ∧ s'.neg b = s.neg b)
    (hconj : ∀ b c {rest}, Opens rest →
      spellOperator mark word (s.conj b c ++ rest) = s'.conj b c ++ spellOperator mark word rest)
    (hdisj : ∀ b c {rest}, Opens rest →
      spellOperator mark word (s.disj b c ++ rest) = s'.disj b c ++ spellOperator mark word rest) :
    Respells (spellOperator mark word) s s' where
  opens := hopens
  nil := spellOperator_nil
  atom a rest := spellOperator_of_last (hatom a) a.last_not_blank rest
  neg after rest h := by
    rw [(hneg after).2]
    exact spellOperator_of_opens (hneg after).1 (List.mem_cons_of_mem _ hsign) h
  conj := hconj
  disj := hdisj
  -- A parenthesis is no operator, so the pass goes over it.
  opening before rest h := by
    refine spellOperator_of_opens ?_ (List.mem_cons_of_mem _ hsign) h
    have hparenthesis : mark ≠ '(' := by rintro rfl; simp at hsign
    simp [hparenthesis, before.sign_not_mem (List.mem_cons_of_mem _ hsign)]
  closing after rest := by
    have hparenthesis : mark ≠ ')' := by rintro rfl; simp at hsign
    have hmark : mark ∉ after.1 ++ [')'] := by
      simp [hparenthesis, after.sign_not_mem (List.mem_cons_of_mem _ hsign)]
    have hlast : ∃ c, (after.1 ++ [')']).getLast? = some c ∧ isBlank c = false :=
      ⟨')', by simp, rfl⟩
    simpa using spellOperator_of_last hmark hlast rest

end

/-- The second pass `Respells` conjunctions. -/
theorem respells_conj :
    Respells (spellOperator '&' " and ".toList) { Spelling.source with neg := Spelling.twig.neg }
      { Spelling.twig with disj := Spelling.source.disj } := by
  refine respells_spellOperator (by simp) (fun a => a.no_ampersand)
    (fun _ => ⟨'n', rfl, by decide, by decide⟩) (fun _ => ⟨?_, rfl⟩) ?_ ?_
  · show '&' ∉ "not ".toList
    decide
  · intro before after rest h
    exact spellOperator_operator rfl before after h
  · intro before after rest h
    exact spellOperator_of_opens (by simp [Spelling.source, Blanks.sign_not_mem]) (by simp) h

/-- The third pass `Respells` disjunctions. -/
theorem respells_disj :
    Respells (spellOperator '|' " or ".toList) { Spelling.twig with disj := Spelling.source.disj }
      Spelling.twig := by
  refine respells_spellOperator (by simp) (fun a => a.no_bar)
    (fun _ => ⟨'n', rfl, by decide, by decide⟩) (fun _ => ⟨?_, rfl⟩) ?_ ?_
  · show '|' ∉ "not ".toList
    decide
  · intro before after rest h
    have hword : '|' ∉ " and ".toList := by decide
    exact spellOperator_of_opens hword (by simp) h
  · intro before after rest h
    exact spellOperator_operator rfl before after h

/-! ## All three passes -/

namespace Formula

/-- The text of a formula in a template. -/
def source (p : Formula) : Text := p.print .source

/-- The text of a formula in Twig. -/
def twig (p : Formula) : Text := p.print .twig

/-- `toTwig` makes the `twig` text of the `source`, whatever the blanks are. -/
theorem toTwig_source (p : Formula) : toTwig p.source = p.twig := by
  rw [toTwig, source, respells_spellNot.print, respells_conj.print, respells_disj.print, twig]

end Formula

/-! ## Expressions -/

/-- A formula without its blanks. -/
inductive Expression where
  | atom (a : Atom)
  | neg (e : Expression)
  | conj (e f : Expression)
  | disj (e f : Expression)
  | group (e : Expression)

namespace Expression

/-- The text of an expression in Twig. -/
def twig : Expression → Text
  | atom a => a.text
  | neg e => "not ".toList ++ e.twig
  | conj e f => e.twig ++ " and ".toList ++ f.twig
  | disj e f => e.twig ++ " or ".toList ++ f.twig
  | group e => '(' :: e.twig ++ [')']

/-- The text is a way to write the expression in a template.  Blanks are free behind `!` and on
    both sides of `&&` and `||`. -/
inductive Writes : Expression → Text → Prop
  | atom (a : Atom) : Writes (.atom a) a.text
  | neg {e : Expression} {t : Text} (after : Blanks) (ht : Writes e t) :
    Writes (.neg e) ('!' :: after.1 ++ t)
  | conj {e f : Expression} {s t : Text} (before after : Blanks) (hs : Writes e s)
    (ht : Writes f t) : Writes (.conj e f) (s ++ before.1 ++ "&&".toList ++ after.1 ++ t)
  | disj {e f : Expression} {s t : Text} (before after : Blanks) (hs : Writes e s)
    (ht : Writes f t) : Writes (.disj e f) (s ++ before.1 ++ "||".toList ++ after.1 ++ t)
  | group {e : Expression} {t : Text} (ht : Writes e t) : Writes (.group e) ('(' :: t ++ [')'])

/-- A text that `Writes` an expression is the `source` of a formula. -/
theorem Writes.exists_formula {e : Expression} (h : e.Writes t) :
    ∃ p : Formula, p.source = t ∧ p.twig = e.twig := by
  induction h with
  | atom a => exact ⟨.atom a, rfl, rfl⟩
  | neg after _ ih =>
    obtain ⟨p, rfl, htwig⟩ := ih
    exact ⟨.neg after p, rfl, congrArg ("not ".toList ++ ·) htwig⟩
  | conj before after _ _ ihe ihf =>
    obtain ⟨p, rfl, hp⟩ := ihe
    obtain ⟨q, rfl, hq⟩ := ihf
    refine ⟨.conj p before after q, ?_, ?_⟩
    · simp [Formula.source, Formula.print, Spelling.source]
    · rw [twig, ← hp, ← hq, List.append_assoc]
      rfl
  | disj before after _ _ ihe ihf =>
    obtain ⟨p, rfl, hp⟩ := ihe
    obtain ⟨q, rfl, hq⟩ := ihf
    refine ⟨.disj p before after q, ?_, ?_⟩
    · simp [Formula.source, Formula.print, Spelling.source]
    · rw [twig, ← hp, ← hq, List.append_assoc]
      rfl
  | group _ ih =>
    obtain ⟨p, rfl, htwig⟩ := ih
    refine ⟨.group .none p .none, rfl, ?_⟩
    rw [twig, ← htwig]
    rfl

/-- Whichever way an expression is written, its Twig text is the same expression with words for
    signs: nothing is grouped, dropped or spaced in another way. -/
theorem toTwig_of_writes {e : Expression} {t : Text} (h : e.Writes t) : toTwig t = e.twig := by
  obtain ⟨p, rfl, htwig⟩ := h.exists_formula
  rw [p.toTwig_source, htwig]

/-- A negated group in front of an atom.  One atom holds a `!=`, another begins with it. -/
def crowded : Expression :=
  .conj
    (.neg (.group (.disj (.atom (.ofText "a != b".toList (by decide)))
      (.neg (.atom (.ofText "!=c".toList (by decide)))))))
    (.atom (.ofText "d".toList (by decide)))

/-- The signs of an atom stay, those around it become words. -/
theorem toTwig_of_writes_crowded :
    crowded.Writes "! (a != b||!!=c) &&d".toList ∧
      toTwig "! (a != b||!!=c) &&d".toList = "not (a != b or not !=c) and d".toList := by
  have hwrites : crowded.Writes "! (a != b||!!=c) &&d".toList :=
    .conj .space .none
      (.neg .space (.group (.disj .none .none (.atom _) (.neg .none (.atom _))))) (.atom _)
  have htwig : crowded.twig = "not (a != b or not !=c) and d".toList := by decide +kernel
  exact ⟨hwrites, (toTwig_of_writes hwrites).trans htwig⟩

end Expression

end Condition

end TemploTwig
