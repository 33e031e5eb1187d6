import TemploTwig.Proofs.Conditions.Conjunction
import TemploTwig.Proofs.Conditions.NormalForm
import TemploTwig.Proofs.Groups

/-!
# Strings in a condition

A string stands between two quotes.  The passes that respell a condition do not look at quotes, but
none takes a quote away, adds one or moves text across one: the strings of the result are those of
the condition, each respelled as if it were a condition of its own.
-/

namespace TemploTwig

variable {t s c : Text} {ls : List Text}

namespace Condition

/-! ## The strings of a text -/

/-- The strings of a text, with their quotes.  Behind the opening quote `quote` the first is what is
    left of its string. -/
def stringsFrom? : (quote : Option Char) → Text → Option (List Text)
  | none, [] => some []
  | some _, [] => none
  | some q, c :: cs =>
    if c = q then (stringsFrom? none cs).map ([c] :: ·)
    else (stringsFrom? (some q) cs).map (List.modifyHead (c :: ·))
  | none, c :: cs =>
    if c = '"' ∨ c = '\'' then (stringsFrom? (some c) cs).map (List.modifyHead (c :: ·))
    else stringsFrom? none cs

/-- The strings of a text, if every quote is closed, each by the next one of its kind. -/
def strings? (t : Text) : Option (List Text) := stringsFrom? none t

/-- Texts in which every quote is closed, with their strings. -/
inductive HasStrings : Text → List Text → Prop
  | nil : HasStrings [] []
  | char {c : Char} {t : Text} {ls : List Text} (hquote : Quote.ofChar? c = none)
    (ht : HasStrings t ls) : HasStrings (c :: t) ls
  | quoted (q : Quote) {value t : Text} {ls : List Text} (hvalue : q.char ∉ value)
    (ht : HasStrings t ls) : HasStrings (q.enclose value ++ t) (q.enclose value :: ls)

/-- What has been read from behind an opening quote: the rest of its string comes first. -/
def HasStringsFrom : Option Char → Text → List Text → Prop
  | none, t, ls => HasStrings t ls
  | some q, t, ls => ∃ value rest ms,
    t = value ++ q :: rest ∧ q ∉ value ∧ ls = (value ++ [q]) :: ms ∧ HasStrings rest ms

/-- `stringsFrom?` finds what the grammar gives. -/
theorem hasStringsFrom_of_stringsFrom? {quote : Option Char} (h : stringsFrom? quote t = some ls) :
    HasStringsFrom quote t ls := by
  fun_induction stringsFrom? quote t generalizing ls with
  | case1 =>
    obtain rfl : [] = ls := Option.some.inj h
    exact .nil
  | case2 => cases h
  | case3 c cs ih =>
    obtain ⟨ms, hms, rfl⟩ := Option.map_eq_some_iff.1 h
    exact ⟨[], cs, ms, rfl, List.not_mem_nil, rfl, ih hms⟩
  | case4 q c cs hc ih =>
    obtain ⟨_, hms, rfl⟩ := Option.map_eq_some_iff.1 h
    obtain ⟨value, rest, ms, rfl, hvalue, rfl, hrest⟩ := ih hms
    exact ⟨c :: value, rest, ms, rfl, by simp [Ne.symm hc, hvalue], rfl, hrest⟩
  | case5 c cs hquote ih =>
    -- The quote that opens the string goes in front of what is left of it.
    obtain ⟨_, hms, rfl⟩ := Option.map_eq_some_iff.1 h
    obtain ⟨value, rest, ms, rfl, hvalue, rfl, hrest⟩ := ih hms
    obtain ⟨q, rfl⟩ := Quote.exists_eq_char hquote
    have hstring : HasStrings (q.enclose value ++ rest) (q.enclose value :: ms) :=
      .quoted q hvalue hrest
    show HasStrings _ _
    simpa [Quote.enclose] using hstring
  | case6 c cs hquote ih => exact .char (Quote.ofChar?_eq_none_iff.2 hquote) (ih h)

/-- `stringsFrom?` goes on behind the closing quote. -/
theorem stringsFrom?_some {q : Char} {value : Text} (h : q ∉ value) (t : Text) :
    stringsFrom? (some q) (value ++ q :: t) = (strings? t).map ((value ++ [q]) :: ·) := by
  induction value with
  | nil => rw [List.nil_append, stringsFrom?, if_pos rfl]; rfl
  | cons c value ih =>
    rw [List.mem_cons, not_or] at h
    rw [List.cons_append, stringsFrom?, if_neg (Ne.symm h.1), ih h.2, Option.map_map]
    rfl

/-- `strings?` finds the strings of the grammar. -/
theorem strings?_eq_some_iff : strings? t = some ls ↔ HasStrings t ls := by
  constructor
  · exact hasStringsFrom_of_stringsFrom?
  · intro h
    induction h with
    | nil => rfl
    | char hquote _ ih => rwa [strings?, stringsFrom?, if_neg (Quote.ofChar?_eq_none_iff.1 hquote)]
    | quoted q hvalue _ ih =>
      rw [Quote.enclose, List.append_assoc, List.cons_append, strings?, stringsFrom?,
        if_pos q.char_cases, List.singleton_append, stringsFrom?_some hvalue, ih]
      rfl

/-- `HasStrings` for one text behind the other. -/
theorem HasStrings.append {ms : List Text} (hs : HasStrings s ls) (ht : HasStrings t ms) :
    HasStrings (s ++ t) (ls ++ ms) := by
  induction hs with
  | nil => exact ht
  | char hquote _ ih => exact .char hquote ih
  | quoted q hvalue _ ih =>
    rw [List.append_assoc]
    exact .quoted q hvalue ih

/-- `HasStrings` behind a text without quotes. -/
theorem HasStrings.append_front (hs : ∀ q : Quote, s.count q.char = 0) (ht : HasStrings t ls) :
    HasStrings (s ++ t) ls := by
  induction s with
  | nil => exact ht
  | cons c s ih =>
    have hc : Quote.ofChar? c = none := by
      rw [Option.eq_none_iff_forall_ne_some]
      intro q hq
      have hcount := hs q
      rw [Quote.ofChar?_eq_some_iff.1 hq, List.count_cons_self] at hcount
      cases hcount
    refine .char hc (ih fun q => ?_)
    have hle := List.count_le_count_cons (a := q.char) (b := c) (l := s)
    rw [hs q] at hle
    exact Nat.le_zero.1 hle

/-- A text without quotes has no strings. -/
theorem hasStrings_of_count (hs : ∀ q : Quote, s.count q.char = 0) : HasStrings s [] := by
  have h := HasStrings.append_front hs .nil
  rwa [List.append_nil] at h

/-! ## What a pass does at a quote -/

/-- What stands in front of a quote is treated on its own, what stands behind it as well, and no
    quote comes or goes. -/
structure SparesQuotes (pass : Text → Text) : Prop where
  nil : pass [] = []
  front (q : Quote) (t : Text) : pass (q.char :: t) = q.char :: pass t
  seam (q : Quote) (s : Text) : ∃ s', ∀ t, pass (s ++ q.char :: t) = s' ++ q.char :: pass t
  count (q : Quote) (t : Text) : (pass t).count q.char = t.count q.char

/-- Two passes that each `SparesQuotes`. -/
theorem SparesQuotes.comp {f g : Text → Text} (hg : SparesQuotes g) (hf : SparesQuotes f) :
    SparesQuotes fun t => g (f t) where
  nil := by rw [hf.nil, hg.nil]
  front q t := by rw [hf.front, hg.front]
  seam q s := by
    obtain ⟨s', hs'⟩ := hf.seam q s
    obtain ⟨s'', hs''⟩ := hg.seam q s'
    exact ⟨s'', fun t => by rw [hs', hs'']⟩
  count q t := by rw [hg.count, hf.count]

/-- The text in front of a quote keeps its number of quotes of each kind. -/
theorem SparesQuotes.count_eq_of_seam {pass : Text → Text} (h : SparesQuotes pass) {q : Quote}
    {s' : Text} (hs : ∀ t, pass (s ++ q.char :: t) = s' ++ q.char :: pass t) (r : Quote) :
    s'.count r.char = s.count r.char := by
  -- With nothing behind the quote, the counts on both sides differ by what stands in front of it.
  have hcount := h.count r (s ++ q.char :: [])
  rw [hs, h.nil, List.count_append, List.count_append] at hcount
  omega

section

variable (q : Quote)

theorem isBlank_quote : isBlank q.char = false := by cases q <;> rfl

/-- No blank is dropped behind a quote. -/
theorem dropBlanks_append_quote (s t : Text) :
    (s ++ q.char :: t).dropWhile isBlank = s.dropWhile isBlank ++ q.char :: t := by
  rw [List.dropWhile_append]
  split
  · next hempty =>
    rw [List.isEmpty_iff.1 hempty, List.dropWhile_cons_of_neg (by simp [isBlank_quote])]
    rfl
  · rfl

/-- Dropping blanks drops no quote. -/
theorem count_dropBlanks (t : Text) : (t.dropWhile isBlank).count q.char = t.count q.char := by
  induction t with
  | nil => rfl
  | cons c t ih =>
    cases hc : isBlank c with
    | false => rw [List.dropWhile_cons_of_neg (by simp [hc])]
    | true =>
      have hne : c ≠ q.char := by
        rintro rfl
        rw [isBlank_quote] at hc
        cases hc
      rw [List.dropWhile_cons_of_pos hc, ih, List.count_cons_of_ne hne]

/-- What `KeepsBang` in front of a quote. -/
theorem keepsBang_append_quote :
    KeepsBang (s ++ q.char :: t) ↔ (s.dropWhile isBlank).head? = some '=' := by
  have hquote : '=' ≠ q.char := by cases q <;> decide
  rw [keepsBang_iff, dropBlanks_append_quote]
  cases s.dropWhile isBlank with
  | nil => simp [Text.startsWith, Text.stripStart?, hquote]
  | cons c cs => simp [Text.startsWith, Text.stripStart?, eq_comm (a := '=')]

theorem spellNot_quote (t : Text) : spellNot (q.char :: t) = q.char :: spellNot t :=
  spellNot_cons_of_ne (by cases q <;> decide) t

/-- `spellNot` stops at a quote. -/
theorem seam_spellNot (s : Text) :
    ∃ s', ∀ t, spellNot (s ++ q.char :: t) = s' ++ q.char :: spellNot t := by
  induction s using dropBlanks_induction with
  | nil => exact ⟨[], spellNot_quote q⟩
  | cons c cs ih ihDrop =>
    by_cases hc : c = '!'
    · subst hc
      -- Whether the mark is a negation is settled in front of the quote.
      by_cases hkeeps : (cs.dropWhile isBlank).head? = some '='
      · obtain ⟨s', hs'⟩ := ih
        refine ⟨'!' :: s', fun t => ?_⟩
        rw [List.cons_append, spellNot_of_keepsBang ((keepsBang_append_quote q).2 hkeeps), hs']
        rfl
      · obtain ⟨s', hs'⟩ := ihDrop
        refine ⟨"not ".toList ++ s', fun t => ?_⟩
        rw [List.cons_append, spellNot_of_not_keepsBang (mt (keepsBang_append_quote q).1 hkeeps),
          dropBlanks_append_quote, hs', List.append_assoc]
    · obtain ⟨s', hs'⟩ := ih
      refine ⟨c :: s', fun t => ?_⟩
      rw [List.cons_append, spellNot_cons_of_ne hc, hs']
      rfl

/-- `spellNot` keeps the quotes. -/
theorem count_spellNot (t : Text) : (spellNot t).count q.char = t.count q.char := by
  induction t using dropBlanks_induction with
  | nil => rw [spellNot_nil]
  | cons c cs ih ihDrop =>
    by_cases hc : c = '!'
    · have hquote : '!' ≠ q.char := by cases q <;> decide
      have hword : "not ".toList.count q.char = 0 := by cases q <;> rfl
      subst hc
      by_cases hkeeps : KeepsBang cs
      · rw [spellNot_of_keepsBang hkeeps, List.count_cons, List.count_cons, ih]
      · rw [spellNot_of_not_keepsBang hkeeps, List.count_append, hword, ihDrop, count_dropBlanks,
          List.count_cons_of_ne hquote, Nat.zero_add]
    · rw [spellNot_cons_of_ne hc, List.count_cons, List.count_cons, ih]

end

/-- `spellNot` `SparesQuotes`. -/
theorem sparesQuotes_spellNot : SparesQuotes spellNot where
  nil := spellNot_nil
  front := spellNot_quote
  seam := seam_spellNot
  count := count_spellNot

section

variable {mark : Char} {word : Text} (hmark : ∀ q : Quote, q.char ≠ mark)
include hmark

/-- `takeOperator?` does not look behind a quote. -/
theorem takeOperator?_append_quote (q : Quote) (s t : Text) :
    takeOperator? mark (s ++ q.char :: t) =
      (takeOperator? mark s).map fun found => (found.1, found.2 ++ q.char :: t) := by
  unfold takeOperator?
  rw [dropBlanks_append_quote]
  -- The quote is no sign, so both signs of an operator stand in front of it or none is found.
  rcases s.dropWhile isBlank with _ | ⟨a, _ | ⟨b, r⟩⟩
  · cases t <;> simp [hmark q]
  · simp [hmark q]
  · by_cases hsigns : a = mark ∧ b = mark
    · simp [hsigns, dropBlanks_append_quote]
    · simp [hsigns]

theorem spellOperator_quote (q : Quote) (t : Text) :
    spellOperator mark word (q.char :: t) = q.char :: spellOperator mark word t :=
  spellOperator_of_none (takeOperator?_append_quote hmark q [] t)

/-- `spellOperator` stops at a quote. -/
theorem seam_spellOperator (q : Quote) (s : Text) :
    ∃ s', ∀ t, spellOperator mark word (s ++ q.char :: t) =
      s' ++ q.char :: spellOperator mark word t := by
  induction s using Recogniser.scan.induct (operator mark) with
  | case1 => exact ⟨[], spellOperator_quote hmark q⟩
  | case2 c cs found rest hnext ih =>
    obtain ⟨s', hs'⟩ := ih
    refine ⟨word ++ s', fun t => ?_⟩
    have hsome : takeOperator? mark (c :: cs ++ q.char :: t) = some ((), rest ++ q.char :: t) := by
      rw [takeOperator?_append_quote hmark, show takeOperator? mark (c :: cs) = _ from hnext]
      rfl
    rw [spellOperator_of_some hsome, hs', List.append_assoc]
  | case3 c cs hnext ih =>
    obtain ⟨s', hs'⟩ := ih
    refine ⟨c :: s', fun t => ?_⟩
    have hnone : takeOperator? mark (c :: cs ++ q.char :: t) = none := by
      rw [takeOperator?_append_quote hmark, show takeOperator? mark (c :: cs) = _ from hnext]
      rfl
    rw [List.cons_append] at hnone ⊢
    rw [spellOperator_of_none hnone, hs']
    rfl

/-- `spellOperator` keeps the quotes. -/
theorem count_spellOperator (hword : ∀ q : Quote, word.count q.char = 0) (q : Quote) (t : Text) :
    (spellOperator mark word t).count q.char = t.count q.char := by
  induction t using Recogniser.scan.induct (operator mark) with
  | case1 => rw [spellOperator_nil]
  | case2 c cs found rest hnext ih =>
    obtain ⟨r, hdrop, rfl⟩ := takeOperator?_eq_some_iff.1 hnext
    -- Blanks and signs are all that the operator takes, and none of them is a quote.
    have hcount : (c :: cs).count q.char = r.count q.char := by
      rw [← count_dropBlanks, hdrop, List.count_cons_of_ne (hmark q).symm,
        List.count_cons_of_ne (hmark q).symm]
    rw [spellOperator_of_some hnext, List.count_append, hword, ih, count_dropBlanks, hcount,
      Nat.zero_add]
  | case3 c cs hnext ih =>
    rw [spellOperator_of_none hnext, List.count_cons, List.count_cons, ih]

/-- `spellOperator` `SparesQuotes`. -/
theorem sparesQuotes_spellOperator (hword : ∀ q : Quote, word.count q.char = 0) :
    SparesQuotes (spellOperator mark word) where
  nil := spellOperator_nil
  front := spellOperator_quote hmark
  seam := seam_spellOperator hmark
  count := count_spellOperator hmark hword

end

/-- `toTwig` `SparesQuotes`. -/
theorem sparesQuotes_toTwig : SparesQuotes toTwig :=
  have hconj : SparesQuotes (spellOperator '&' " and ".toList) :=
    sparesQuotes_spellOperator (fun q => by cases q <;> decide) fun q => by cases q <;> rfl
  have hdisj : SparesQuotes (spellOperator '|' " or ".toList) :=
    sparesQuotes_spellOperator (fun q => by cases q <;> decide) fun q => by cases q <;> rfl
  hdisj.comp (hconj.comp sparesQuotes_spellNot)

/-! ## The strings of what has been respelled -/

/-- `toTwig` makes a string of a string. -/
theorem exists_toTwig_enclose (q : Quote) {value : Text} (h : q.char ∉ value) :
    ∃ value', q.char ∉ value' ∧ toTwig (q.enclose value) = q.enclose value' ∧
      ∀ t, toTwig (q.enclose value ++ t) = q.enclose value' ++ toTwig t := by
  obtain ⟨value', hseam⟩ := sparesQuotes_toTwig.seam q value
  have htwig (t : Text) : toTwig (q.enclose value ++ t) = q.enclose value' ++ toTwig t := by
    have hfront := sparesQuotes_toTwig.front q (value ++ q.char :: t)
    rw [hseam] at hfront
    simpa [Quote.enclose] using hfront
  refine ⟨value', ?_, ?_, htwig⟩
  · have hcount := sparesQuotes_toTwig.count_eq_of_seam hseam q
    rwa [List.count_eq_zero.2 h, List.count_eq_zero] at hcount
  · simpa [sparesQuotes_toTwig.nil] using htwig []

/-- `toTwig` respells text without quotes in front of strings, and each string. -/
theorem HasStrings.toTwig_append (hs : ∀ q : Quote, s.count q.char = 0) (h : HasStrings t ls) :
    HasStrings (toTwig (s ++ t)) (ls.map toTwig) := by
  -- Each character is handed over to the front, and a string closes it.
  induction h generalizing s with
  | nil =>
    rw [List.append_nil]
    exact hasStrings_of_count fun q => by rw [sparesQuotes_toTwig.count, hs]
  | @char c t ls hquote ht ih =>
    have hfront (q : Quote) : (s ++ [c]).count q.char = 0 := by
      have hc : c ≠ q.char := by
        rintro rfl
        rw [Quote.ofChar?_char] at hquote
        cases hquote
      rw [List.count_append, hs, List.count_singleton, beq_eq_false_iff_ne.2 hc]
      rfl
    rw [← List.singleton_append, ← List.append_assoc]
    exact ih hfront
  | @quoted q value t ls hvalue ht ih =>
    obtain ⟨value', hvalue', hstring, htwig⟩ := exists_toTwig_enclose q hvalue
    obtain ⟨s', hseam⟩ := sparesQuotes_toTwig.seam q s
    have hs' (r : Quote) : s'.count r.char = 0 := by
      rw [sparesQuotes_toTwig.count_eq_of_seam hseam, hs]
    -- The opening quote parts what is respelled in front of the string from the string itself.
    have htext : toTwig (s ++ (q.enclose value ++ t)) = s' ++ toTwig (q.enclose value ++ t) := by
      have hfront := sparesQuotes_toTwig.front q (value ++ q.char :: t)
      have hsplit := hseam (value ++ q.char :: t)
      rw [← hfront] at hsplit
      simpa [Quote.enclose] using hsplit
    rw [htext, htwig, List.map_cons, hstring]
    exact .append_front hs' (.quoted q hvalue' (ih (s := []) fun _ => rfl))

/-- `toTwig` respells strings one by one. -/
theorem HasStrings.respelled (h : HasStrings c ls) : HasStrings (toTwig c) (ls.map toTwig) :=
  toTwig_append (s := []) (fun _ => rfl) h

/-- A text has the strings `ls`, each respelled; they are `ls` only if there is nothing to
    respell. -/
def StringsRespelled (ls : List Text) (out : Text) : Prop :=
  strings? out = some (ls.map toTwig) ∧ (strings? out = some ls ↔ ∀ l ∈ ls, IsNormal l)

/-- `StringsRespelled` by the grammar. -/
theorem HasStrings.stringsRespelled {out : Text} (h : HasStrings out (ls.map toTwig)) :
    StringsRespelled ls out := by
  have hout := strings?_eq_some_iff.2 h
  refine ⟨hout, ?_⟩
  calc
    strings? out = some ls ↔ ls.map toTwig = ls.map id := by
      rw [hout, Option.some_inj, List.map_id]
    _ ↔ ∀ l ∈ ls, toTwig l = id l := List.map_inj_left
    _ ↔ ∀ l ∈ ls, IsNormal l := forall₂_congr fun l _ => toTwig_eq_self_iff

/-! ## Statements and guards -/

/-- `Twig.tag` adds no quotes. -/
theorem HasStrings.tag {content : Text} (h : HasStrings content ls) :
    HasStrings (Twig.tag content) ls := by
  have hopen (q : Quote) : "\x7b% ".toList.count q.char = 0 := by cases q <;> rfl
  have hclose (q : Quote) : " %\x7d".toList.count q.char = 0 := by cases q <;> rfl
  have htag := (append_front hopen h).append (hasStrings_of_count hclose)
  rwa [List.append_nil] at htag

theorem HasStrings.ifThen (h : HasStrings c ls) : HasStrings (Twig.Statement.ifThen c).text ls :=
  tag (append_front (fun q => by cases q <;> rfl) h)

theorem HasStrings.elseIf (h : HasStrings c ls) : HasStrings (Twig.Statement.elseIf c).text ls :=
  tag (append_front (fun q => by cases q <;> rfl) h)

/-- Conditions that are joined keep their strings, in order. -/
theorem hasStrings_joined {cs : List Text} {lss : List (List Text)}
    (h : List.Forall₂ HasStrings cs lss) :
    HasStrings (cs.intersperse " and ".toList).flatten lss.flatten := by
  have hand (q : Quote) : " and ".toList.count q.char = 0 := by cases q <;> rfl
  induction h with
  | nil => exact .nil
  | @cons c ls cs lss hc hcs ih =>
    cases cs with
    | nil =>
      cases hcs
      simpa using hc
    | cons d ds => exact hc.append (.append_front hand ih)

end Condition

open Condition

/-- `convertNode` puts a guard of its conditions around an element. -/
theorem exists_wrapConditions_of_run_convertNode {tag : Tag} {children nodes : List Node}
    {ctx ctx' : Context}
    (h : (convertNode (.element tag children)).run.run ctx = (.ok nodes, ctx')) :
    ∃ element, nodes = wrapConditions
      ((tag.attributes.filterMap (·.condition? ctx.tables)).map toTwig) element := by
  rw [convertNode] at h
  obtain ⟨converted, ctx₁, hattributes, h⟩ := Convert.exists_of_run_bind h
  obtain ⟨children', ctx₂, -, h⟩ := Convert.exists_of_run_bind h
  rw [← Convert.conditions_of_run_mapM hattributes]
  exact ⟨_, (Except.ok.inj (Prod.mk.inj h).1).symm⟩

/-- Strings are respelled like what stands around them, in a condition, in the statement for it and
    in the guard of an element with further conditions.  They stay as they are if they hold no
    operator, and only then. -/
theorem strings_respelled {c : Text} {ls : List Text} {cs : List Text} {lss : List (List Text)}
    (hc : strings? c = some ls) (hcs : List.Forall₂ (fun c ls => strings? c = some ls) cs lss) :
    StringsRespelled ls (toTwig c) ∧
    (∀ span ctx, Directive.classify span = .ifThen c ∨ Directive.classify span = .elseIf c →
      ∃ out ctx', (renderDirective span).run.run ctx = (.ok out, ctx') ∧
        StringsRespelled ls out) ∧
    ∀ tag children nodes ctx ctx', tag.attributes.filterMap (·.condition? ctx.tables) = c :: cs →
      (convertNode (.element tag children)).run.run ctx = (.ok nodes, ctx') →
      ∃ guard rest, nodes = .text guard :: rest ∧
        StringsRespelled (ls ++ lss.flatten) guard := by
  have hout := (strings?_eq_some_iff.1 hc).respelled
  refine ⟨hout.stringsRespelled, ?_, ?_⟩
  · rintro span ctx (hspan | hspan)
    · exact ⟨_, _, by rw [renderDirective, hspan]; rfl, hout.ifThen.stringsRespelled⟩
    · exact ⟨_, _, by rw [renderDirective, hspan]; rfl, hout.elseIf.stringsRespelled⟩
  · intro tag children nodes ctx ctx' hconditions hrun
    obtain ⟨element, hnodes⟩ := exists_wrapConditions_of_run_convertNode hrun
    rw [hconditions, wrapConditions_of_ne_nil (by simp)] at hnodes
    -- The conditions are respelled one by one, and joined afterwards.
    have hothers : List.Forall₂ HasStrings (cs.map toTwig) (lss.map (List.map toTwig)) :=
      List.forall₂_map_left_iff.2 <| List.forall₂_map_right_iff.2 <|
        hcs.imp fun c ls h => (strings?_eq_some_iff.1 h).respelled
    have hjoined := hasStrings_joined (.cons hout hothers)
    rw [List.flatten_cons, ← List.map_flatten, ← List.map_append] at hjoined
    have hbreak : HasStrings ['\n'] [] := .char rfl .nil
    have hguard := hjoined.ifThen.append hbreak
    rw [List.append_nil] at hguard
    exact ⟨_, _, hnodes, hguard.stringsRespelled⟩

/-- A condition whose strings hold no operator, and one whose string does, in a directive and in
    the guard of an element. -/
theorem strings_respelled_mixed :
    let kept := "name != 'a!=b' && !(kind == \"it's\")".toList
    let keptStrings := ["'a!=b'".toList, "\"it's\"".toList]
    let changed := "x||y == 'p && !q'".toList
    let changedStrings := ["'p && !q'".toList]
    let span := "::if name != 'a!=b' && !(kind == \"it's\")::".toList
    let ctx : Context :=
      { options := {}, kind := .document, tables := { conditions := [kept, changed] } }
    let tag : Tag := ⟨"p".toList, [Family.condition.holderAttribute 0,
      Family.condition.holderAttribute 1], .normal⟩
    (strings? kept = some keptStrings ∧ StringsRespelled keptStrings (toTwig kept)) ∧
    (Directive.classify span = .ifThen kept ∧
      ∃ out ctx', (renderDirective span).run.run ctx = (.ok out, ctx') ∧
        StringsRespelled keptStrings out) ∧
    strings? changed = some changedStrings ∧
    ∃ nodes ctx', (convertNode (.element tag [])).run.run ctx = (.ok nodes, ctx') ∧
      ∃ guard rest, nodes = .text guard :: rest ∧
        StringsRespelled (keptStrings ++ changedStrings) guard := by
  intro kept keptStrings changed changedStrings span ctx tag
  have hkept : strings? kept = some keptStrings := by decide +kernel
  have hchanged : strings? changed = some changedStrings := by decide +kernel
  have hspan : Directive.classify span = .ifThen kept := by decide +kernel
  have hconditions : tag.attributes.filterMap (·.condition? ctx.tables) = [kept, changed] := by
    decide +kernel
  have hok : ((convertNode (.element tag [])).run.run ctx).1.toOption.isSome = true := by
    decide +kernel
  obtain ⟨htwig, hdirective, hguard⟩ := strings_respelled hkept (.cons hchanged .nil)
  refine ⟨⟨hkept, htwig⟩, ⟨hspan, hdirective span ctx (.inl hspan)⟩, hchanged, ?_⟩
  rcases hrun : (convertNode (.element tag [])).run.run ctx with ⟨result, ctx'⟩
  cases result with
  | error e => rw [hrun] at hok; cases hok
  | ok nodes => exact ⟨nodes, ctx', rfl, hguard tag [] nodes ctx ctx' hconditions hrun⟩

/-- A string with an operator in it does not stay as it is. -/
theorem toTwig_changes_string :
    let c := "a == 'x && y'".toList
    strings? c = some ["'x && y'".toList] ∧ toTwig c = "a == 'x and y'".toList ∧
      strings? (toTwig c) ≠ strings? c := by
  decide +kernel

end TemploTwig
