import TemploTwig.Proofs.Files.Locations
import TemploTwig.Proofs.Settings.Loading
import TemploTwig.Proofs.Texts

/-!
# References in a configured path

A configured path refers to variables by `${NAME}` and `${NAME:-default}`, and to the home directory
by a `~` in front.  A dollar sign with a name behind it becomes a reference only in a path that has
one of the others, so what such a path expands to is not what its references alone say.
-/

namespace TemploTwig

variable {default? : Option Text} {c : Char} {counts : Bool} {s : Surroundings}

/-! ## Reading a path -/

namespace Reference

/-- What stands between braces is a name, alone or with a default behind it.  A `:-` at the front
    is part of the name. -/
inductive Names : Text → Text → Option Text → Prop
  | alone {name : Text} (h : ":-".toList <:+: name → ":-".toList <+: name) : Names name name none
  | withDefault {name : Text} (default : Text) (hne : name ≠ []) (h : ¬":-".toList <:+: name) :
      Names (name ++ ":-".toList ++ default) name (some default)

/-- `Text.cut?` finds the first `:-`, behind the name. -/
theorem cut?_default {name : Text} (h : ¬":-".toList <:+: name) (default : Text) :
    Text.cut? ":-".toList (name ++ ":-".toList ++ default) = some (name, default) := by
  refine Text.cut?_append default fun front back hname hne hprefix => h ?_
  obtain ⟨c, cs, rfl⟩ := List.exists_cons_of_ne_nil hne
  rw [hname]
  cases cs with
  | nil => simp at hprefix
  | cons d back =>
    obtain ⟨rfl, rfl⟩ : ':' = c ∧ '-' = d := by simpa using hprefix
    exact ⟨front, back, by simp⟩

/-- `Names` describes what `ofBraced` gives. -/
theorem Names.ofBraced_eq {inside name : Text} (h : Names inside name default?) :
    ofBraced inside = .named name default? := by
  cases h with
  | alone h =>
    rw [ofBraced]
    cases hcut : Text.cut? ":-".toList inside with
    | none => rfl
    | some found =>
      obtain ⟨front, back⟩ := found
      have hinside := Text.cut?_eq_append hcut
      obtain ⟨rest, rfl⟩ := h ⟨front, back, hinside.symm⟩
      cases hcut
      rfl
  | withDefault default hne h =>
    obtain ⟨c, cs, rfl⟩ := List.exists_cons_of_ne_nil hne
    rw [ofBraced, cut?_default h]

/-- Every text between braces names something. -/
theorem exists_names (inside : Text) : ∃ name default?, Names inside name default? := by
  cases hcut : Text.cut? ":-".toList inside with
  | none =>
    refine ⟨inside, none, .alone fun hinfix => ?_⟩
    have hcontains : inside.contains ":-".toList = false := by rw [Text.contains, hcut]; rfl
    exact absurd hinfix (Text.contains_eq_false_iff.1 hcontains)
  | some found =>
    obtain ⟨name, default⟩ := found
    obtain rfl := Text.cut?_eq_append hcut
    by_cases hne : name = []
    · subst hne
      exact ⟨_, none, .alone fun _ => List.prefix_append _ _⟩
    · refine ⟨name, some default, .withDefault default hne ?_⟩
      rintro ⟨front, back, rfl⟩
      rw [List.append_assoc front] at hcut
      exact Text.not_prefix_of_cut? hcut (by simp) ⟨back ++ ":-".toList ++ default, by simp⟩

end Reference

/-- A part of a configured path: a character, a reference in braces, or a dollar sign with a name
    behind it. -/
inductive PathPart where
  | plain (c : Char)
  | braced (name : Text) (default? : Option Text)
  | bare (name : Text)
  deriving DecidableEq, Repr

namespace PathPart

open Reference (isNameChar Names)

/-- Behind a dollar sign: a name, or braces that are closed. -/
def OpensReference (rest : Text) : Prop :=
  (∃ c, rest.head? = some c ∧ isNameChar c = true) ∨
    ∃ body, rest = '\x7b' :: body ∧ '\x7d' ∈ body

/-- The path consists of these parts.  Names without braces are as long as they can be. -/
inductive Reading : Text → List PathPart → Prop
  | nil : Reading [] []
  | plain {c : Char} {rest : Text} {parts : List PathPart} (h : c = '$' → ¬OpensReference rest)
      (hrest : Reading rest parts) : Reading (c :: rest) (.plain c :: parts)
  | braced {inside name rest : Text} {default? : Option Text} {parts : List PathPart}
      (hinside : '\x7d' ∉ inside) (hnames : Names inside name default?)
      (hrest : Reading rest parts) :
      Reading ('$' :: '\x7b' :: (inside ++ '\x7d' :: rest)) (.braced name default? :: parts)
  | bare {name rest : Text} {parts : List PathPart} (hne : name ≠ [])
      (hname : ∀ c ∈ name, isNameChar c = true)
      (hend : ∀ c, rest.head? = some c → isNameChar c = false)
      (hrest : Reading rest parts) : Reading ('$' :: (name ++ rest)) (.bare name :: parts)

end PathPart

namespace Reference

theorem take?_braced {inside name : Text} (hinside : '\x7d' ∉ inside)
    (h : Names inside name default?) (rest : Text) :
    take? ('$' :: '\x7b' :: (inside ++ '\x7d' :: rest)) = some (.named name default?, rest) := by
  rw [take?, Text.cut?_char rest hinside]
  exact congrArg (fun r => some (r, rest)) h.ofBraced_eq

/-- `Reference.take?` takes a bare name as far as it goes. -/
theorem take?_bare {name rest : Text} (hne : name ≠ []) (hname : ∀ c ∈ name, isNameChar c = true)
    (hend : ∀ c, rest.head? = some c → isNameChar c = false) :
    take? ('$' :: (name ++ rest)) = some (.named name none, rest) := by
  obtain ⟨c, cs, rfl⟩ := List.exists_cons_of_ne_nil hne
  have hc : isNameChar c = true := hname c List.mem_cons_self
  have hother (d : Char) (hd : isNameChar d = false) : c ≠ d := by
    rintro rfl
    rw [hd] at hc
    cases hc
  rw [take?, Text.takeWhile_append hname hend, Text.dropWhile_append hname hend]
  · exact if_neg hne
  · intro rest' h
    exact hother '$' (by decide) (List.cons.inj h).1
  · intro body h
    exact hother '\x7b' (by decide) (List.cons.inj h).1

end Reference

namespace PathPart

open Reference (isNameChar)

theorem opensReference_braced (inside rest : Text) :
    OpensReference ('\x7b' :: (inside ++ '\x7d' :: rest)) := .inr ⟨_, rfl, by simp⟩

theorem opensReference_bare {name : Text} (hne : name ≠ [])
    (hname : ∀ c ∈ name, isNameChar c = true) (rest : Text) : OpensReference (name ++ rest) := by
  obtain ⟨c, cs, rfl⟩ := List.exists_cons_of_ne_nil hne
  exact .inl ⟨c, rfl, hname c List.mem_cons_self⟩

/-- A name does not begin with a brace. -/
theorem append_ne_brace {name : Text} (hne : name ≠ []) (hname : ∀ c ∈ name, isNameChar c = true)
    (rest body : Text) : name ++ rest ≠ '\x7b' :: body := by
  obtain ⟨c, cs, rfl⟩ := List.exists_cons_of_ne_nil hne
  intro heq
  have hc := hname c List.mem_cons_self
  rw [(List.cons.inj heq).1] at hc
  cases hc

/-- A path can be read in one way only. -/
theorem Reading.eq_of_eq {path path' : Text} {parts parts' : List PathPart}
    (h : Reading path parts) (h' : Reading path' parts') (heq : path = path') : parts = parts' := by
  -- What stands at the front decides which kind of part is there, and how far it goes.
  induction h generalizing path' parts' with
  | nil =>
    cases h' with
    | nil => rfl
    | plain => cases heq
    | braced => cases heq
    | bare => cases heq
  | plain hplain _ ih =>
    cases h' with
    | nil => cases heq
    | plain _ hrest' =>
      obtain ⟨rfl, hrest⟩ := List.cons.inj heq
      rw [ih hrest' hrest]
    | braced =>
      obtain ⟨hc, rfl⟩ := List.cons.inj heq
      exact absurd (opensReference_braced _ _) (hplain hc)
    | bare hne hname =>
      obtain ⟨hc, rfl⟩ := List.cons.inj heq
      exact absurd (opensReference_bare hne hname _) (hplain hc)
  | @braced inside _ rest _ _ hinside hnames _ ih =>
    cases h' with
    | nil => cases heq
    | plain hplain' =>
      obtain ⟨hc, rfl⟩ := List.cons.inj heq
      exact absurd (opensReference_braced _ _) (hplain' hc.symm)
    | braced hinside' hnames' hrest' =>
      have htail := (List.cons.inj (List.cons.inj heq).2).2
      obtain ⟨rfl, hrest⟩ := (Text.append_cons_inj hinside hinside').1 htail
      have hnamed := hnames.ofBraced_eq.symm.trans hnames'.ofBraced_eq
      obtain ⟨rfl, rfl⟩ := Reference.named.inj hnamed
      rw [ih hrest' hrest]
    | bare hne hname => exact absurd (List.cons.inj heq).2.symm (append_ne_brace hne hname _ _)
  | bare hne hname hend _ ih =>
    cases h' with
    | nil => cases heq
    | plain hplain' =>
      obtain ⟨hc, rfl⟩ := List.cons.inj heq
      exact absurd (opensReference_bare hne hname _) (hplain' hc.symm)
    | braced => exact absurd (List.cons.inj heq).2 (append_ne_brace hne hname _ _)
    | bare hne' hname' hend' hrest' =>
      have htake := Text.takeWhile_append hname hend
      have hdrop := Text.dropWhile_append hname hend
      rw [(List.cons.inj heq).2] at htake hdrop
      rw [Text.takeWhile_append hname' hend'] at htake
      rw [Text.dropWhile_append hname' hend'] at hdrop
      rw [htake, ih hrest' hdrop.symm]

/-- Where a reference opens, one is read, and what is left can be read if all shorter paths can. -/
theorem exists_reading_of_opens {cs : Text} (hopens : OpensReference cs)
    (hshorter : ∀ rest : Text, rest.length ≤ cs.length → ∃ parts, Reading rest parts) :
    ∃ parts, Reading ('$' :: cs) parts := by
  obtain ⟨d, hd, hname⟩ | ⟨body, rfl, hclosed⟩ := hopens
  · -- A bare name goes as far as its characters do.
    have hne : cs.takeWhile isNameChar ≠ [] := by
      obtain ⟨ds, rfl⟩ := List.head?_eq_some_iff.1 hd
      simp [hname]
    have hname' : ∀ c ∈ cs.takeWhile isNameChar, isNameChar c = true :=
      List.all_eq_true.1 List.all_takeWhile
    have hend : ∀ c, (cs.dropWhile isNameChar).head? = some c → isNameChar c = false := by
      intro c hc
      have hstop := List.head?_dropWhile_not isNameChar cs
      rwa [hc] at hstop
    obtain ⟨parts, hparts⟩ := hshorter _ (List.dropWhile_suffix isNameChar).length_le
    have hreads := Reading.bare hne hname' hend hparts
    rw [List.takeWhile_append_dropWhile] at hreads
    exact ⟨_, hreads⟩
  · -- A name in braces goes up to the first closing brace, and there is one.
    cases hcut : Text.cut? ['\x7d'] body with
    | none => exact absurd hclosed (Text.not_mem_of_cut?_eq_none hcut)
    | some found =>
      obtain ⟨inside, rest⟩ := found
      have hbody : body = inside ++ '\x7d' :: rest := by
        rw [Text.cut?_eq_append hcut, List.append_assoc]
        rfl
      subst hbody
      obtain ⟨name, default?, hnames⟩ := Reference.exists_names inside
      obtain ⟨parts, hparts⟩ := hshorter rest (by simp; omega)
      exact ⟨_, .braced (Text.not_mem_of_cut? hcut) hnames hparts⟩

/-- Every path can be read. -/
theorem exists_reading (path : Text) : ∃ parts, Reading path parts := by
  induction hn : path.length using Nat.strongRecOn generalizing path with
  | ind n ih =>
    subst hn
    cases path with
    | nil => exact ⟨[], .nil⟩
    | cons c cs =>
      have hshorter (rest : Text) (hrest : rest.length ≤ cs.length) :
          ∃ parts, Reading rest parts :=
        ih rest.length (by rw [List.length_cons]; omega) rest rfl
      by_cases hopens : c = '$' ∧ OpensReference cs
      · obtain ⟨rfl, hopens⟩ := hopens
        exact exists_reading_of_opens hopens hshorter
      · obtain ⟨parts, hparts⟩ := hshorter cs (Nat.le_refl _)
        exact ⟨.plain c :: parts, .plain (fun hc hopen => hopens ⟨hc, hopen⟩) hparts⟩

end PathPart

/-! ## What a path stands for -/

/-- The texts that several parts stand for, put together.  It fails at the first part that stands
    for none. -/
def Text.gather {ε α : Type} (f : α → Except ε Text) (as : List α) : Except ε Text :=
  (as.mapM f).map List.flatten

namespace Text

variable {ε α : Type} {f : α → Except ε Text} {a : α} {t : Text} {e : ε}

@[simp] theorem gather_nil : gather f [] = .ok [] := rfl

theorem gather_cons_ok (h : f a = .ok t) (as : List α) :
    gather f (a :: as) = (gather f as).map (t ++ ·) := by
  rw [gather, gather, List.mapM_cons, h]
  cases as.mapM f <;> rfl

theorem gather_cons_error (h : f a = .error e) (as : List α) :
    gather f (a :: as) = .error e := by
  rw [gather, List.mapM_cons, h]
  rfl

/-- `gather` depends on the members only. -/
theorem gather_congr {g : α → Except ε Text} {as : List α} (h : ∀ a ∈ as, f a = g a) :
    gather f as = gather g as := by
  induction as with
  | nil => rfl
  | cons a as ih =>
    have hrest := ih fun b hb => h b (List.mem_cons_of_mem a hb)
    have hhead := h a List.mem_cons_self
    cases hvalue : g a with
    | ok t => rw [gather_cons_ok hvalue, gather_cons_ok (hhead.trans hvalue), hrest]
    | error e => rw [gather_cons_error hvalue, gather_cons_error (hhead.trans hvalue)]

end Text

/-- The value of a variable. -/
def Surroundings.valueOf? (s : Surroundings) (name : Text) : Option Text :=
  (s.environment.find? (·.1 = name)).map Prod.snd

section

variable (lookup? : Text → Option Text)

/-- What a variable stands for: its value, or else the default. -/
def variableText (name : Text) (default? : Option Text) : Except UnsetVariable Text :=
  match (lookup? name).or default? with
  | some value => .ok value
  | none => .error ⟨name⟩

/-- What a piece of a path stands for. -/
def Reference.pieceText : Piece Reference → Except UnsetVariable Text
  | .plain t => .ok t
  | .token (.literal t) => .ok t
  | .token (.named name default?) => variableText lookup? name default?

namespace PathPart

/-- What a part of a path stands for.  A dollar sign with a name behind it is a reference if it
    counts as one. -/
def text (counts : Bool) : PathPart → Except UnsetVariable Text
  | plain c => .ok [c]
  | braced name default? => variableText lookup? name default?
  | bare name => if counts then variableText lookup? name none else .ok ('$' :: name)

/-- The variable that a part needs and that is not set. -/
def missing? (counts : Bool) : PathPart → Option Text
  | plain _ => none
  | braced name default? => if (lookup? name).or default? = none then some name else none
  | bare name => if counts = true ∧ lookup? name = none then some name else none

end PathPart

end

namespace PathPart

open Reference (isNameChar pieceText scan take?)

variable {lookup? : Text → Option Text} {path rest name : Text} {parts : List PathPart}

theorem text_plain (counts : Bool) (c : Char) : (plain c).text lookup? counts = .ok [c] := rfl

theorem text_bare_false (name : Text) : (bare name).text lookup? false = .ok ('$' :: name) := rfl

/-- `gather` puts plain text in front of what it gathers. -/
theorem gather_prepend (t : Text) (ps : List (Piece Reference)) :
    Text.gather (pieceText lookup?) (Piece.prepend t ps) =
      (Text.gather (pieceText lookup?) ps).map (t ++ ·) := by
  have hplain (u : Text) : pieceText lookup? (.plain u) = .ok u := rfl
  cases ps with
  | nil => exact Text.gather_cons_ok (hplain t) []
  | cons p ps =>
    cases p with
    | plain u =>
      rw [Piece.prepend, Text.gather_cons_ok (hplain _), Text.gather_cons_ok (hplain _)]
      cases Text.gather (pieceText lookup?) ps with
      | error e => rfl
      | ok v => exact congrArg Except.ok (List.append_assoc t u v)
    | token r => exact Text.gather_cons_ok (hplain t) _

/-- `scan` passes over a character other than a dollar sign. -/
theorem gather_scan_of_ne_dollar (hc : c ≠ '$') (rest : Text) :
    Text.gather (pieceText lookup?) (scan (c :: rest)) =
      (Text.gather (pieceText lookup?) (scan rest)).map (c :: ·) := by
  have hnone : take? (c :: rest) = none := by
    rw [take?]
    all_goals simp [hc]
  rw [scan, Recogniser.scan_of_none hnone, gather_prepend]
  rfl

theorem gather_scan_literal {t u : Text} (htake : take? ('$' :: rest) = some (.literal t, u)) :
    Text.gather (pieceText lookup?) (scan ('$' :: rest)) =
      (Text.gather (pieceText lookup?) (scan u)).map (t ++ ·) := by
  have hpiece : pieceText lookup? (.token (.literal t)) = .ok t := rfl
  rw [scan, Recogniser.scan_of_some htake, Text.gather_cons_ok hpiece]
  rfl

/-- A character that starts no reference is copied. -/
theorem gather_scan_cons (hplain : c = '$' → ¬OpensReference rest)
    (hdouble : ¬"$$".toList <+: c :: rest) :
    Text.gather (pieceText lookup?) (scan (c :: rest)) =
      (Text.gather (pieceText lookup?) (scan rest)).map (c :: ·) := by
  by_cases hc : c = '$'
  · subst hc
    cases rest with
    | nil =>
      have htake : take? ['$'] = some (.literal ['$'], []) := by decide
      exact gather_scan_literal htake
    | cons d ds =>
      have hd : d ≠ '$' := by
        rintro rfl
        exact hdouble ⟨ds, rfl⟩
      by_cases hbrace : d = '\x7b'
      · subst hbrace
        -- Braces that are not closed are copied with the dollar sign.
        have hopen : '\x7d' ∉ ds := fun hmem => hplain rfl (.inr ⟨ds, rfl, hmem⟩)
        have hcut : Text.cut? ['\x7d'] ds = none := by
          cases hcut : Text.cut? ['\x7d'] ds with
          | none => rfl
          | some found =>
            refine absurd ?_ hopen
            rw [Text.cut?_eq_append hcut]
            simp
        have htake : take? ('$' :: '\x7b' :: ds) = some (.literal ['$', '\x7b'], ds) := by
          rw [take?, hcut]
        rw [gather_scan_literal htake, gather_scan_of_ne_dollar (by decide)]
        cases Text.gather (pieceText lookup?) (scan ds) <;> rfl
      · have hname : isNameChar d = false :=
          Bool.eq_false_iff.2 fun hname => hplain rfl (.inl ⟨d, rfl, hname⟩)
        have htake : take? ('$' :: d :: ds) = some (.literal ['$'], d :: ds) := by
          rw [take?]
          all_goals simp [hd, hbrace, hname]
        exact gather_scan_literal htake
  · exact gather_scan_of_ne_dollar hc rest

/-- A reference that the scanner takes stands for what the part stands for. -/
theorem gather_scan_reference {part : PathPart} {cs : Text}
    (htake : take? (c :: cs) = some (.named name default?, rest))
    (hpart : part.text lookup? true = variableText lookup? name default?)
    (hrest : Text.gather (pieceText lookup?) (scan rest) =
      Text.gather (PathPart.text lookup? true) parts) :
    Text.gather (pieceText lookup?) (scan (c :: cs)) =
      Text.gather (PathPart.text lookup? true) (part :: parts) := by
  have hpiece : pieceText lookup? (.token (.named name default?)) = part.text lookup? true :=
    hpart.symm
  rw [scan, Recogniser.scan_of_some htake]
  cases hvalue : part.text lookup? true with
  | ok t =>
    rw [Text.gather_cons_ok (hpiece.trans hvalue), Text.gather_cons_ok hvalue, ← hrest]
    rfl
  | error e => rw [Text.gather_cons_error (hpiece.trans hvalue), Text.gather_cons_error hvalue]

/-- The scanner finds the parts of a path without a doubled dollar sign, and it takes every name
    behind a dollar sign for a reference. -/
theorem Reading.gather_scan (h : Reading path parts) (hdouble : ¬"$$".toList <:+: path) :
    Text.gather (pieceText lookup?) (scan path) =
      Text.gather (PathPart.text lookup? true) parts := by
  induction h with
  | nil =>
    rw [scan, Recogniser.scan_nil]
    rfl
  | plain hplain _ ih =>
    rw [gather_scan_cons hplain fun h => hdouble h.isInfix,
      ih fun h => hdouble (h.trans (List.suffix_cons _ _).isInfix),
      Text.gather_cons_ok (text_plain true _)]
    rfl
  | braced hinside hnames _ ih =>
    refine gather_scan_reference (Reference.take?_braced hinside hnames _) rfl
      (ih fun h => hdouble (h.trans ?_))
    exact (((List.suffix_cons _ _).trans (List.suffix_append _ _)).trans
      ((List.suffix_cons _ _).trans (List.suffix_cons _ _))).isInfix
  | bare hne hname hend _ ih =>
    refine gather_scan_reference (Reference.take?_bare hne hname hend) rfl
      (ih fun h => hdouble (h.trans ?_))
    exact ((List.suffix_append _ _).trans (List.suffix_cons _ _)).isInfix

/-- A path without braces is its own text as long as bare names do not count. -/
theorem Reading.gather_of_no_braces (h : Reading path parts) (hbraces : ¬['$', '\x7b'] <:+: path) :
    Text.gather (PathPart.text lookup? false) parts = .ok path := by
  induction h with
  | nil => rfl
  | plain _ _ ih =>
    rw [Text.gather_cons_ok (text_plain false _),
      ih fun h => hbraces (h.trans (List.suffix_cons _ _).isInfix)]
    rfl
  | @braced inside _ rest _ _ _ _ _ _ =>
    exact absurd ⟨[], inside ++ '\x7d' :: rest, rfl⟩ hbraces
  | @bare name rest _ _ _ _ _ ih =>
    have hrest : rest <:+ '$' :: (name ++ rest) :=
      (List.suffix_append _ _).trans (List.suffix_cons _ _)
    rw [Text.gather_cons_ok (text_bare_false name), ih fun h => hbraces (h.trans hrest.isInfix)]
    rfl

/-- `missing?` names the variable in the error of `text`. -/
theorem missing?_eq_some_iff {part : PathPart} :
    part.missing? lookup? counts = some name ↔ part.text lookup? counts = .error ⟨name⟩ := by
  cases part with
  | plain c => simp [missing?, PathPart.text]
  | braced name' default? =>
    cases hvalue : (lookup? name').or default? <;>
      simp [missing?, PathPart.text, variableText, hvalue]
  | bare name' =>
    cases counts <;> cases hvalue : lookup? name' <;>
      simp [missing?, PathPart.text, variableText, hvalue]

/-- A path fails to expand at the first variable that is not set. -/
theorem gather_eq_error_iff {e : UnsetVariable} :
    Text.gather (PathPart.text lookup? counts) parts = .error e ↔
      parts.findSome? (missing? lookup? counts) = some e.name := by
  induction parts with
  | nil => simp
  | cons part parts ih =>
    rw [List.findSome?_cons]
    cases hvalue : part.text lookup? counts with
    | error e' =>
      rw [Text.gather_cons_error hvalue, missing?_eq_some_iff.2 hvalue]
      obtain ⟨name⟩ := e
      obtain ⟨name'⟩ := e'
      simp
    | ok t =>
      have hnone : part.missing? lookup? counts = none := by
        refine Option.eq_none_iff_forall_ne_some.2 fun name hname => ?_
        rw [missing?_eq_some_iff.1 hname] at hvalue
        cases hvalue
      rw [hnone, Text.gather_cons_ok hvalue, ← ih]
      cases Text.gather (PathPart.text lookup? counts) parts <;> simp [Except.map]

end PathPart

/-! ## Configured directories -/

/-- The text with a directory in the place of a `~` that is alone or has a slash behind it. -/
def Text.underHome (home? : Option Text) (t : Text) : Text :=
  match home?, Text.stripStart? ['~'] t with
  | some home, some rest => if rest = [] ∨ ['/'] <+: rest then home ++ rest else t
  | _, _ => t

/-- The path has a reference in braces, or a `~` in front. -/
def refers (path : Text) : Bool := path.contains ['$', '\x7b'] || path.startsWith ['~']

/-- What a path with these parts expands to. -/
def Surroundings.expansion (s : Surroundings) (counts : Bool) (path : Text)
    (parts : List PathPart) : Except UnsetVariable Text :=
  (Text.gather (PathPart.text s.valueOf? counts) parts).map fun t =>
    if path.startsWith ['~'] then t.underHome (s.valueOf? "HOME".toList) else t

/-- `expandHome` is `underHome`. -/
theorem expandHome_eq (home? : Option Text) (t : Text) :
    expandHome home? t = t.underHome home? := by
  unfold expandHome Text.underHome
  cases home? with
  | none => rfl
  | some home =>
    rcases t with _ | ⟨c, _ | ⟨d, rest⟩⟩
    · rfl
    · by_cases hc : c = '~'
      · subst hc
        exact (List.append_nil home).symm
      · have hstrip : Text.stripStart? ['~'] [c] = none := by simp [Text.stripStart?, Ne.symm hc]
        simp [hstrip, hc]
    · by_cases hc : c = '~'
      · subst hc
        by_cases hd : d = '/' <;> simp [Text.stripStart?, hd, eq_comm]
      · have hstrip : Text.stripStart? ['~'] (c :: d :: rest) = none := by
          simp [Text.stripStart?, Ne.symm hc]
        simp [hstrip, hc]

namespace Surroundings

/-- What a piece of a path stands for, as a step that looks variables up. -/
def resolvePiece : Piece Reference → ExceptT UnsetVariable (StateM Surroundings) Text
  | .plain t => pure t
  | .token r => resolveReference Platform.lookup? r

/-- The last step of an expansion, which puts the home directory in. -/
def resolveHome (path expanded : Text) : ExceptT UnsetVariable (StateM Surroundings) Text :=
  if path.startsWith ['~'] then do
    return expandHome (← Platform.lookup? (m := StateM Surroundings) "HOME".toList) expanded
  else return expanded

theorem expandPath_eq (path : Text) :
    expandPath (m := StateM Surroundings) Platform.lookup? path =
      if refers path then do resolveHome path (← (Reference.scan path).mapM resolvePiece).flatten
      else pure path := rfl

/-- `resolvePiece` looks a reference up in the surroundings and changes nothing. -/
theorem run_resolvePiece (piece : Piece Reference) (s : Surroundings) :
    (resolvePiece piece).run.run s = (Reference.pieceText s.valueOf? piece, s) := by
  rcases piece with t | (⟨name, default?⟩ | t)
  · rfl
  · have hlookup : (Platform.lookup? (m := StateM Surroundings) name).run s =
        (s.valueOf? name, s) := rfl
    rw [resolvePiece, resolveReference, run_lift_bind, hlookup, Reference.pieceText, variableText]
    cases s.valueOf? name with
    | some value => rfl
    | none => cases default? <;> rfl
  · rfl

/-- `resolveHome` reads `HOME` for a path with a tilde only. -/
theorem run_resolveHome (path expanded : Text) (s : Surroundings) :
    (resolveHome path expanded).run.run s =
      (.ok (if path.startsWith ['~'] then expanded.underHome (s.valueOf? "HOME".toList)
        else expanded), s) := by
  rw [resolveHome]
  split
  · rw [run_lift_bind, expandHome_eq]
    rfl
  · rfl

/-- A step for each of several things, none of which changes anything. -/
theorem run_mapM {ε α β : Type} {f : α → ExceptT ε (StateM Surroundings) β} {g : α → Except ε β}
    (h : ∀ a, (f a).run.run s = (g a, s)) (as : List α) :
    (as.mapM f).run.run s = (as.mapM g, s) := by
  induction as with
  | nil => rfl
  | cons a as ih =>
    rw [List.mapM_cons, List.mapM_cons]
    cases hvalue : g a with
    | error e => rw [run_bind_error ((h a).trans (by rw [hvalue]))]; rfl
    | ok b =>
      rw [run_bind_ok ((h a).trans (by rw [hvalue]))]
      cases hvalues : as.mapM g with
      | error e => rw [run_bind_error (ih.trans (by rw [hvalues]))]; rfl
      | ok bs => rw [run_bind_ok (ih.trans (by rw [hvalues]))]; rfl

/-- What a path expands to.  Bare names count as soon as the path refers to anything. -/
theorem run_expandPath {path : Text} {parts : List PathPart} (h : PathPart.Reading path parts)
    (hdouble : ¬"$$".toList <:+: path) (s : Surroundings) :
    (expandPath (m := StateM Surroundings) Platform.lookup? path).run.run s =
      (s.expansion (refers path) path parts, s) := by
  rw [expandPath_eq, expansion]
  cases hrefers : refers path with
  | false =>
    obtain ⟨hbraces, hhome⟩ := Bool.or_eq_false_iff.1 hrefers
    rw [h.gather_of_no_braces (Text.contains_eq_false_iff.1 hbraces), hhome]
    rfl
  | true =>
    rw [← h.gather_scan hdouble, Text.gather, if_pos rfl]
    have hpieces := run_mapM (fun piece => run_resolvePiece piece s) (Reference.scan path)
    cases hvalues : (Reference.scan path).mapM (Reference.pieceText s.valueOf?) with
    | error e => exact run_bind_error (hpieces.trans (by rw [hvalues])) _
    | ok texts =>
      rw [run_bind_ok (hpieces.trans (by rw [hvalues])), run_resolveHome]
      rfl

end Surroundings

namespace PathPart

/-- The variable that a part names. -/
def name? : PathPart → Option Text
  | plain _ => none
  | braced name _ => some name
  | bare name => some name

/-- A bare name of a `Reading` is not empty. -/
theorem Reading.ne_nil_of_bare_mem {path name : Text} {parts : List PathPart}
    (h : Reading path parts) (hmem : .bare name ∈ parts) : name ≠ [] := by
  induction h with
  | nil => cases hmem
  | plain _ _ ih | braced _ _ _ ih => exact ih (by simpa using hmem)
  | bare hne _ _ _ ih =>
    rcases List.mem_cons.1 hmem with hhead | htail
    · exact bare.inj hhead ▸ hne
    · exact ih htail

/-- If the variables of a path are empty, a bare name that is copied makes its text longer. -/
theorem exists_gather_of_empty {lookup? : Text → Option Text} {parts : List PathPart}
    (hempty : ∀ part ∈ parts, ∀ name, part.name? = some name → lookup? name = some [])
    (hnames : ∀ name, .bare name ∈ parts → name ≠ []) :
    ∃ t u, Text.gather (PathPart.text lookup? true) parts = .ok t ∧
      Text.gather (PathPart.text lookup? false) parts = .ok u ∧ t.length ≤ u.length ∧
      ((∃ name, .bare name ∈ parts) → t.length + 2 ≤ u.length) := by
  induction parts with
  | nil => exact ⟨[], [], rfl, rfl, Nat.le_refl _, by simp⟩
  | cons part parts ih =>
    obtain ⟨t, u, ht, hu, hle, hbare⟩ := ih
      (fun p hp => hempty p (List.mem_cons_of_mem part hp))
      (fun name hname => hnames name (List.mem_cons_of_mem part hname))
    have hvalue (name : Text) (default? : Option Text) (hname : part.name? = some name) :
        variableText lookup? name default? = .ok [] := by
      rw [variableText, hempty part List.mem_cons_self name hname]
      rfl
    cases part with
    | plain c =>
      refine ⟨c :: t, c :: u, ?_, ?_, by simpa using hle, by simpa using hbare⟩
      · rw [Text.gather_cons_ok (text_plain true c), ht]; rfl
      · rw [Text.gather_cons_ok (text_plain false c), hu]; rfl
    | braced name default? =>
      have htext (counts : Bool) : (braced name default?).text lookup? counts = .ok [] :=
        hvalue name default? rfl
      refine ⟨t, u, ?_, ?_, hle, by simpa using hbare⟩
      · rw [Text.gather_cons_ok (htext true), ht]; rfl
      · rw [Text.gather_cons_ok (htext false), hu]; rfl
    -- Counted, the name leaves nothing; copied, it leaves two characters at least.
    | bare name =>
      have htext : (bare name).text lookup? true = .ok [] := hvalue name none rfl
      have hlength := List.length_pos_iff.2 (hnames name List.mem_cons_self)
      refine ⟨t, '$' :: name ++ u, ?_, ?_, ?_, fun _ => ?_⟩
      · rw [Text.gather_cons_ok htext, ht]; rfl
      · rw [Text.gather_cons_ok (text_bare_false name), hu]; rfl
      · simp only [List.length_append, List.length_cons]; omega
      · simp only [List.length_append, List.length_cons]; omega

end PathPart

/-- An empty home directory takes at most the `~` away. -/
theorem Text.length_underHome {home? : Option Text} (h : ∀ home, home? = some home → home = [])
    (t : Text) :
    (t.underHome home?).length ≤ t.length ∧ t.length ≤ (t.underHome home?).length + 1 := by
  unfold underHome
  split
  · next home rest hstrip =>
    have ht : t = '~' :: rest := Text.stripStart?_eq_some_iff.1 hstrip
    obtain rfl := h home rfl
    subst ht
    split <;> simp
  · simp

/-- Surroundings in which the variables of a path are set, but empty. -/
def Surroundings.withEmpty (parts : List PathPart) : Surroundings where
  files := ⟨[]⟩
  environment := (parts.filterMap PathPart.name?).map (·, [])

namespace Surroundings

variable {parts : List PathPart} {name : Text}

theorem eq_nil_of_valueOf?_withEmpty {value : Text}
    (h : (withEmpty parts).valueOf? name = some value) : value = [] := by
  obtain ⟨entry, hfound, rfl⟩ := Option.map_eq_some_iff.1 h
  obtain ⟨name', -, rfl⟩ := List.mem_map.1 (List.mem_of_find?_eq_some hfound)
  rfl

/-- `withEmpty` gives each name of the parts the empty value. -/
theorem valueOf?_withEmpty {part : PathPart} (hpart : part ∈ parts)
    (hname : part.name? = some name) : (withEmpty parts).valueOf? name = some [] := by
  have hmem : (name, []) ∈ (withEmpty parts).environment :=
    List.mem_map_of_mem (List.mem_filterMap.2 ⟨part, hpart, hname⟩)
  have hsome : ((withEmpty parts).valueOf? name).isSome = true := by
    rw [valueOf?, Option.isSome_map, List.find?_isSome]
    exact ⟨_, hmem, by simp⟩
  obtain ⟨value, hvalue⟩ := Option.isSome_iff_exists.1 hsome
  rw [hvalue, eq_nil_of_valueOf?_withEmpty hvalue]

end Surroundings

namespace Settings

variable {path : Text} {parts : List PathPart}

open PathPart (missing?)

/-- What a configured directory expands to, or the setting and the variable that it fails with. -/
theorem run_expandField
    (h : PathPart.Reading path parts) (hdouble : ¬"$$".toList <:+: path) (field : Text)
    (s : Surroundings) :
    (expandField (m := StateM Surroundings) field (some path)).run.run s =
      (((s.expansion (refers path) path parts).map some).mapError (.unsetVariable field), s) := by
  have hrun := Surroundings.run_expandPath h hdouble s
  rw [expandField, Surroundings.run_lift_bind, hrun]
  cases s.expansion (refers path) path parts <;> rfl

/-- A bare name in a path that refers to something shows: it is copied in no surroundings in which
    all variables of the path are empty. -/
theorem expansion_ne_of_bare_mem {path name : Text}
    (h : PathPart.Reading path parts) (hmem : .bare name ∈ parts) :
    (Surroundings.withEmpty parts).expansion true path parts ≠
      (Surroundings.withEmpty parts).expansion false path parts := by
  obtain ⟨t, u, ht, hu, -, hlonger⟩ := PathPart.exists_gather_of_empty
    (fun part hpart name hname => Surroundings.valueOf?_withEmpty hpart hname)
    (fun name hname => h.ne_nil_of_bare_mem hname)
  have hlonger := hlonger ⟨name, hmem⟩
  intro heq
  rw [Surroundings.expansion, Surroundings.expansion, ht, hu] at heq
  have hsame := Except.ok.inj heq
  dsimp only at hsame
  split at hsame
  · -- The home directory accounts for one character at most.
    have hhome : ∀ home, (Surroundings.withEmpty parts).valueOf? "HOME".toList = some home →
        home = [] := fun home => Surroundings.eq_nil_of_valueOf?_withEmpty
    have hlength := congrArg List.length hsame
    have ht := (Text.length_underHome hhome t).1
    have hu := (Text.length_underHome hhome u).2
    omega
  · rw [hsame] at hlonger
    omega

/-- `expansion` treats bare names alone differently. -/
theorem expansion_eq_of_no_bare (h : ∀ name, .bare name ∉ parts) (s : Surroundings) :
    s.expansion true path parts = s.expansion false path parts := by
  have hsame : ∀ part ∈ parts, part.text s.valueOf? true = part.text s.valueOf? false := by
    intro part hpart
    cases part with
    | plain c => rfl
    | braced name default? => rfl
    | bare name => exact absurd hpart (h name)
  rw [Surroundings.expansion, Surroundings.expansion, Text.gather_congr hsame]

theorem expansion_eq_error_iff {e : UnsetVariable} :
    s.expansion counts path parts = .error e ↔
      parts.findSome? (missing? s.valueOf? counts) = some e.name := by
  rw [← PathPart.gather_eq_error_iff, Surroundings.expansion]
  cases Text.gather (PathPart.text s.valueOf? counts) parts <;> simp [Except.map]

/-- A configured directory fails at the first variable that is not set, with the name of the
    setting. -/
theorem expansion_mapError_eq_error_iff {path field : Text} {e : SettingsError} :
    ((s.expansion counts path parts).map some).mapError (.unsetVariable field) = .error e ↔
      ∃ name, parts.findSome? (missing? s.valueOf? counts) = some name ∧
        e = .unsetVariable field ⟨name⟩ := by
  cases hexpansion : s.expansion counts path parts with
  | ok t =>
    constructor
    · intro h
      cases h
    · rintro ⟨name, hname, -⟩
      have herror : s.expansion counts path parts = .error ⟨name⟩ := expansion_eq_error_iff.2 hname
      rw [hexpansion] at herror
      cases herror
  | error missing =>
    rw [expansion_eq_error_iff.1 hexpansion]
    constructor
    · intro h
      exact ⟨missing.name, rfl, (Except.error.inj h).symm⟩
    · rintro ⟨name, hname, rfl⟩
      rw [← Option.some.inj hname]
      rfl

/-- A configured path without a doubled dollar sign has one reading.  What is expanded are its
    references in braces, a `~` in front and, if there is one of these, the bare names too.  It
    fails at the first of them that has no default and names a variable that is not set.  So
    references in braces and the `~` are all that is expanded, whatever the variables, exactly if no
    bare name stands in a path with one of the others. -/
theorem expands_only_references_iff {path : Text} (hdouble : ¬"$$".toList <:+: path)
    (field : Text) :
    ∃ parts, PathPart.Reading path parts ∧
      (∀ parts', PathPart.Reading path parts' → parts' = parts) ∧
      (∀ s, (expandField (m := StateM Surroundings) field (some path)).run.run s =
        (((s.expansion (refers path) path parts).map some).mapError (.unsetVariable field), s)) ∧
      (∀ s e, ((expandField (m := StateM Surroundings) field (some path)).run.run s).1 = .error e ↔
        ∃ name, parts.findSome? (missing? s.valueOf? (refers path)) = some name ∧
          e = .unsetVariable field ⟨name⟩) ∧
      ((∀ s, ((expandField (m := StateM Surroundings) field (some path)).run.run s).1 =
          ((s.expansion false path parts).map some).mapError (.unsetVariable field)) ↔
        (refers path = true → ∀ name, .bare name ∉ parts)) := by
  obtain ⟨parts, hparts⟩ := PathPart.exists_reading path
  have hrun := run_expandField hparts hdouble field
  refine ⟨parts, hparts, fun parts' h => h.eq_of_eq hparts rfl, hrun, fun s e => ?_, ?_, ?_⟩
  · rw [hrun]
    exact expansion_mapError_eq_error_iff
  · -- Where every variable is empty, a bare name that is copied shows.
    intro hall hrefers name hmem
    have hsame := hall (Surroundings.withEmpty parts)
    rw [hrun, hrefers] at hsame
    refine expansion_ne_of_bare_mem hparts hmem ?_
    revert hsame
    cases (Surroundings.withEmpty parts).expansion true path parts <;>
      cases (Surroundings.withEmpty parts).expansion false path parts <;>
      simp [Except.map, Except.mapError]
  · intro hnone s
    rw [hrun]
    cases hrefers : refers path with
    | false => rfl
    | true => rw [expansion_eq_of_no_bare (hnone hrefers)]

/-- A path with a reference in braces and a bare name. -/
def mixedPath : Text := "$\x7bA\x7d/$N".toList

/-- A braced name and a bare one. -/
theorem reading_mixedPath :
    PathPart.Reading mixedPath [.braced "A".toList none, .plain '/', .bare "N".toList] := by
  have hname : ∀ c ∈ "N".toList, Reference.isNameChar c = true := List.all_eq_true.1 rfl
  have hbare : PathPart.Reading "$N".toList [.bare "N".toList] :=
    .bare (List.cons_ne_nil _ _) hname (fun c hc => nomatch hc) .nil
  have hslash : PathPart.Reading "/$N".toList [.plain '/', .bare "N".toList] :=
    .plain (fun h => absurd h (by decide)) hbare
  have hnames : Reference.Names "A".toList "A".toList none :=
    .alone fun h => absurd h.length_le (by decide)
  exact .braced (by decide) hnames hslash

/-- A bare name is expanded as well. -/
theorem expands_only_references_iff_mixed :
    ¬"$$".toList <:+: mixedPath ∧ ∃ parts, PathPart.Reading mixedPath parts ∧
      ¬∀ s, ((expandField (m := StateM Surroundings) "paths.input_dir".toList
          (some mixedPath)).run.run s).1 =
        ((s.expansion false mixedPath parts).map some).mapError
          (.unsetVariable "paths.input_dir".toList) := by
  have hdouble : ¬"$$".toList <:+: mixedPath := Text.contains_eq_false_iff.1 (by decide)
  obtain ⟨parts, hparts, hunique, -, -, hiff⟩ :=
    expands_only_references_iff hdouble "paths.input_dir".toList
  obtain rfl := hunique _ reading_mixedPath
  refine ⟨hdouble, _, hparts, fun hall => ?_⟩
  exact hiff.1 hall (by decide) "N".toList (by simp)

/-- A bare name is no reference, but beside one it makes loading fail if no variable has its
    name. -/
theorem load_fails_at_bare_name :
    let s : Surroundings := {
      files := ⟨[(["w".toList], .directory), (["w".toList, "twigify.toml".toList],
        .file (Platform.encode ("[paths]\ninput_dir = '".toList ++ mixedPath ++ ['\''])))]⟩
      working := ["w".toList]
      environment := [("A".toList, "va".toList)] }
    ((load (m := StateM Surroundings) none {}).run.run s).1 =
      .error (.unsetVariable "paths.input_dir".toList ⟨"N".toList⟩) ∧
    ∃ parts, PathPart.Reading mixedPath parts ∧
      s.expansion false mixedPath parts = .ok "va/$N".toList := by
  intro s
  have hload : ((load (m := StateM Surroundings) none {}).run.run s).1 =
      .error (.unsetVariable "paths.input_dir".toList ⟨"N".toList⟩) := by decide +kernel
  exact ⟨hload, _, reading_mixedPath, by decide⟩

end Settings

end TemploTwig
