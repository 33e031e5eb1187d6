import TemploTwig.Proofs.Template.Expression

/-!
# The grammar of directives

A body spells a directive by one of a few rules: a keyword, a blank and an argument, or a keyword
alone.  The rules are stated here without the reader.  They give the directive that the reader
finds, and a body that no rule fits is printed.
-/

namespace TemploTwig

variable {argument body : Text} {d : Directive}

namespace Directive

/-! ## The rules -/

namespace Keyword

/-- The body is the keyword, one blank and a text that trims to `argument`. -/
def Takes (k : Keyword) (body argument : Text) : Prop :=
  ∃ (b : Char) (rest : Text), isBlank b = true ∧ body = k.word ++ b :: rest ∧ rest.trim = argument

/-- The body is the keyword, with nothing or only blanks behind it. -/
def StandsAlone (k : Keyword) (body : Text) : Prop :=
  body = k.word ∨ ∃ (b : Char) (rest : Text), isBlank b = true ∧ body = k.word ++ b :: rest ∧
    rest.isBlankText = true

end Keyword

/-- The rules by which a body spells a directive.  There is none for print directives. -/
def Spells (body : Text) : Directive → Prop
  | switch e => Keyword.switch.Takes body e ∧ e ≠ []
  | nextCase => Keyword.nextCase.StandsAlone body
  | ifThen e => Keyword.ifThen.Takes body e ∧ e ≠ []
  | elseIf e => Keyword.elseIf.Takes body e ∧ e ≠ []
  | otherwise => Keyword.otherwise.StandsAlone body
  | endBlock => Keyword.endBlock.StandsAlone body
  | foreach item collection => (∀ c ∈ item, isBlank c = false) ∧
      ∃ (b : Char) (rest : Text), isBlank b = true ∧
        Keyword.foreach.Takes body (item ++ b :: rest) ∧ rest.trim = collection ∧ collection ≠ []
  | contentBlock => Keyword.raw.Takes body contentName
  | raw e => Keyword.raw.Takes body e ∧ e ≠ [] ∧ e ≠ contentName
  | fill e => Keyword.fill.Takes body e ∧ e ≠ []
  | assign e => Keyword.assign.Takes body e ∧ e ≠ []
  | inherit e => Keyword.inherit.Takes body e ∧ e ≠ []
  | print _ => False

/-- The expressions in a directive that is no print are such as the rules give. -/
def Admissible : Directive → Prop
  | switch e | ifThen e | elseIf e | fill e | assign e | inherit e => e.trim = e ∧ e ≠ []
  | raw e => e.trim = e ∧ e ≠ [] ∧ e ≠ contentName
  | foreach item collection => item ≠ [] ∧ (∀ c ∈ item, isBlank c = false) ∧
      collection.trim = collection ∧ collection ≠ []
  | nextCase | otherwise | endBlock | contentBlock => True
  | print _ => False

/-! ## A keyword and its argument -/

namespace Keyword

/-- `ofWord?` finds a keyword by its `word` alone. -/
theorem ofWord?_eq_some_iff {word : Text} {k : Keyword} :
    ofWord? word = some k ↔ word = k.word := by
  constructor
  · intro h
    have hword := List.find?_some h
    exact (of_decide_eq_true hword).symm
  · rintro rfl
    exact ofWord?_word k

variable {k : Keyword} {body argument : Text}

/-- `splitBody` finds a keyword alone or one that `Takes` the argument. -/
theorem splitBody_eq_iff :
    splitBody body = (k.word, argument) ↔
      body = k.word ∧ argument = [] ∨ k.Takes body argument := by
  rw [splitBody]
  constructor
  · intro h
    cases hcut : Text.cutAtBlank? body with
    | none =>
      obtain ⟨hword, hargument⟩ : body = k.word ∧ [] = argument := by simpa [hcut] using h
      exact .inl ⟨hword, hargument.symm⟩
    | some found =>
      obtain ⟨word, rest⟩ := found
      obtain ⟨rfl, htrim⟩ : word = k.word ∧ rest.trim = argument := by simpa [hcut] using h
      obtain ⟨-, b, hb, hbody⟩ := Text.cutAtBlank?_eq_some_iff.1 hcut
      exact .inr ⟨b, rest, hb, hbody, htrim⟩
  · rintro (⟨rfl, rfl⟩ | ⟨b, rest, hb, rfl, rfl⟩)
    · rw [Text.cutAtBlank?_of_no_blank not_blank_of_mem_word]
    · rw [Text.cutAtBlank?_eq_some_iff.2 ⟨not_blank_of_mem_word, b, hb, rfl⟩]

theorem takes_iff (h : argument ≠ []) :
    k.Takes body argument ↔ splitBody body = (k.word, argument) := by
  rw [splitBody_eq_iff, or_iff_right fun hnil => h hnil.2]

theorem standsAlone_iff : k.StandsAlone body ↔ splitBody body = (k.word, []) := by
  simp only [splitBody_eq_iff, StandsAlone, Takes, Text.trim_eq_nil_iff, and_true]

end Keyword

/-! ## What a keyword makes of its argument -/

theorem withArgument?_eq_some_iff {make : Text → Directive} :
    withArgument? make argument = some d ↔ argument ≠ [] ∧ make argument = d := by
  rw [withArgument?]
  split <;> simp_all

theorem alone?_eq_some_iff {d' : Directive} :
    alone? d argument = some d' ↔ argument = [] ∧ d = d' := by
  rw [alone?]
  split <;> simp_all

/-- `foreach?` cuts the argument at its first blank. -/
theorem foreach?_eq_some_iff :
    foreach? argument = some d ↔ ∃ (item : Text) (b : Char) (rest : Text),
      (∀ c ∈ item, isBlank c = false) ∧ isBlank b = true ∧ argument = item ++ b :: rest ∧
      rest.trim ≠ [] ∧ foreach item rest.trim = d := by
  rw [foreach?, Option.bind_eq_some_iff]
  constructor
  · rintro ⟨⟨item, rest⟩, hcut, hmake⟩
    obtain ⟨hitem, b, hb, hargument⟩ := Text.cutAtBlank?_eq_some_iff.1 hcut
    obtain ⟨hne, hd⟩ := withArgument?_eq_some_iff.1 hmake
    exact ⟨item, b, rest, hitem, hb, hargument, hne, hd⟩
  · rintro ⟨item, b, rest, hitem, hb, hargument, hne, hd⟩
    exact ⟨(item, rest), Text.cutAtBlank?_eq_some_iff.2 ⟨hitem, b, hb, hargument⟩,
      withArgument?_eq_some_iff.2 ⟨hne, hd⟩⟩

/-- `Spells` gives the directives that `ofKeyword?` makes of an argument. -/
theorem spells_iff :
    Spells body d ↔
      ∃ k argument, splitBody body = (Keyword.word k, argument) ∧
        ofKeyword? argument k = some d := by
  constructor
  · intro h
    cases d with
    | switch e | ifThen e | elseIf e | fill e | assign e | inherit e =>
      obtain ⟨htakes, he⟩ := h
      exact ⟨_, e, (Keyword.takes_iff he).1 htakes, withArgument?_eq_some_iff.2 ⟨he, rfl⟩⟩
    | nextCase | otherwise | endBlock =>
      exact ⟨_, [], Keyword.standsAlone_iff.1 h, rfl⟩
    | foreach item collection =>
      obtain ⟨hitem, b, rest, hb, htakes, rfl, hne⟩ := h
      exact ⟨_, _, (Keyword.takes_iff (by simp)).1 htakes,
        foreach?_eq_some_iff.2 ⟨item, b, rest, hitem, hb, rfl, hne, rfl⟩⟩
    | contentBlock => exact ⟨_, _, (Keyword.takes_iff (by decide)).1 h, rfl⟩
    | raw e =>
      obtain ⟨htakes, he, hcontent⟩ := h
      refine ⟨_, e, (Keyword.takes_iff he).1 htakes, ?_⟩
      rw [ofKeyword?, if_neg hcontent]
      exact withArgument?_eq_some_iff.2 ⟨he, rfl⟩
    -- No keyword makes a print directive.
    | print e => exact h.elim
  · rintro ⟨k, argument, hsplit, hmake⟩
    cases k with
    | switch | ifThen | elseIf | fill | assign | inherit =>
      obtain ⟨he, rfl⟩ := withArgument?_eq_some_iff.1 hmake
      exact ⟨(Keyword.takes_iff he).2 hsplit, he⟩
    | nextCase | otherwise | endBlock =>
      obtain ⟨rfl, rfl⟩ := alone?_eq_some_iff.1 hmake
      exact Keyword.standsAlone_iff.2 hsplit
    | foreach =>
      obtain ⟨item, b, rest, hitem, hb, rfl, hne, rfl⟩ := foreach?_eq_some_iff.1 hmake
      exact ⟨hitem, b, rest, hb, (Keyword.takes_iff (by simp)).2 hsplit, rfl, hne⟩
    | raw =>
      rw [ofKeyword?] at hmake
      split at hmake
      · next hcontent =>
        obtain rfl := Option.some.inj hmake
        exact (Keyword.takes_iff (by decide)).2 (hcontent ▸ hsplit)
      · next hcontent =>
        obtain ⟨he, rfl⟩ := withArgument?_eq_some_iff.1 hmake
        exact ⟨(Keyword.takes_iff he).2 hsplit, he, hcontent⟩

/-- `ofBody` finds what the body `Spells`, or a print directive. -/
theorem ofBody_eq_iff :
    ofBody body = d ↔ Spells body d ∨ d = print body ∧ ∀ d', ¬Spells body d' := by
  -- What is found behind the first word is what the rules give.
  have hfound (d : Directive) : (Keyword.ofWord? (splitBody body).1).bind
      (ofKeyword? (splitBody body).2) = some d ↔ Spells body d := by
    rw [spells_iff, Option.bind_eq_some_iff]
    constructor
    · rintro ⟨k, hword, hmake⟩
      exact ⟨k, _, Prod.ext (Keyword.ofWord?_eq_some_iff.1 hword) rfl, hmake⟩
    · rintro ⟨k, argument, hsplit, hmake⟩
      rw [hsplit]
      exact ⟨k, Keyword.ofWord?_word k, hmake⟩
  have hbody : ofBody body = ((Keyword.ofWord? (splitBody body).1).bind
      (ofKeyword? (splitBody body).2)).getD (print body) := rfl
  rw [hbody]
  simp only [← hfound]
  cases (Keyword.ofWord? (splitBody body).1).bind (ofKeyword? (splitBody body).2) with
  | none => simp [eq_comm]
  | some d₀ => simp

/-! ## The canonical spelling -/

theorem Keyword.Takes.trim_eq {k : Keyword} (h : k.Takes body argument) :
    argument.trim = argument := by
  obtain ⟨b, rest, -, -, rfl⟩ := h
  exact rest.trim_trim

/-- `Spells` gives `Admissible` directives. -/
theorem admissible_of_spells (h : Spells body d) : d.Admissible := by
  cases d with
  | switch e | ifThen e | elseIf e | fill e | assign e | inherit e => exact ⟨h.1.trim_eq, h.2⟩
  | nextCase | otherwise | endBlock | contentBlock => trivial
  | raw e => exact ⟨h.1.trim_eq, h.2⟩
  | foreach item collection =>
    obtain ⟨hitem, b, rest, hb, htakes, rfl, hne⟩ := h
    refine ⟨?_, hitem, rest.trim_trim, hne⟩
    -- An argument without an item would start with the blank.
    rintro rfl
    have hhead := (Text.trim_eq_self_iff.1 htakes.trim_eq).1 b rfl
    rw [hb] at hhead
    cases hhead
  | print e => exact h.elim

/-- The `canonicalBody` of an `Admissible` directive `Spells` it. -/
theorem spells_canonicalBody (h : d.Admissible) : Spells d.canonicalBody d := by
  cases d with
  | switch e | ifThen e | elseIf e | fill e | assign e | inherit e =>
    exact ⟨⟨' ', e, rfl, rfl, h.1⟩, h.2⟩
  | nextCase | otherwise | endBlock => exact .inl rfl
  | contentBlock => exact ⟨' ', contentName, rfl, rfl, by decide⟩
  | raw e => exact ⟨⟨' ', e, rfl, rfl, h.1⟩, h.2⟩
  | foreach item collection =>
    obtain ⟨hne, hitem, htrim, hcollection⟩ := h
    refine ⟨hitem, ' ', collection, rfl, ⟨' ', item ++ ' ' :: collection, rfl, ?_, ?_⟩, htrim,
      hcollection⟩
    · simp [canonicalBody]
    · have hfirst c hc := hitem c (List.mem_of_head? hc)
      exact Text.trim_append_space hne hfirst hcollection htrim
  | print e => exact h.elim

/-- A span is read as a directive exactly when its body spells it by the rules; a body that spells
    no directive is printed.  The directives that are read back from their canonical spelling, print
    directives aside, are those with admissible expressions. -/
theorem classify_iff_spells (body : Text) (d : Directive) :
    (classify (Span.ofBody body) = d ↔ Spells body d ∨ d = print body ∧ ∀ d', ¬Spells body d') ∧
      (d.Admissible ↔ classify d.source = d ∧ ∀ t, d ≠ print t) := by
  have hclassify (b : Text) : classify (Span.ofBody b) = ofBody b := by
    rw [classify, Span.body_ofBody]
  rw [source, hclassify, hclassify]
  refine ⟨ofBody_eq_iff, ?_, ?_⟩
  · intro h
    refine ⟨ofBody_eq_iff.2 (.inl (spells_canonicalBody h)), ?_⟩
    rintro t rfl
    exact h
  · rintro ⟨hread, hprint⟩
    rcases ofBody_eq_iff.1 hread with hspells | ⟨hd, -⟩
    · exact admissible_of_spells hspells
    · exact absurd hd (hprint _)

end Directive

end TemploTwig
