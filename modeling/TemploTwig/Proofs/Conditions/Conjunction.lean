import TemploTwig.Conversion.Template
import TemploTwig.Proofs.Conditions.Formula
import TemploTwig.Proofs.Markup.Passes
import TemploTwig.Proofs.Template.Calls

/-!
# What the guard of an element means

The conditions of an element are respelled one by one and joined by `and`.  In the guard conjunction
binds tighter than disjunction, so a disjunction among several conditions comes apart: only its last
part belongs to the conjunction with the next condition.  A small machine that reads the words from
left to right shows that they can be read in one way only.
-/

namespace TemploTwig

variable {p q : Formula} {ps : List Formula}

namespace Condition

/-! ## Formulas, their words and their values -/

/-- A word of a formula in Twig. -/
inductive Token where
  | atom (a : Atom)
  | neg
  | conj
  | disj
  | opening (after : Blanks)
  | closing (before : Blanks)

namespace Token

/-- The text of a word. -/
def twig : Token → Text
  | atom a => a.text
  | neg => "not ".toList
  | conj => " and ".toList
  | disj => " or ".toList
  | opening after => '(' :: after.1
  | closing before => before.1 ++ [')']

/-- The text of a list of words. -/
def twigAll (ts : List Token) : Text := ts.flatMap twig

theorem twigAll_append (ts us : List Token) : twigAll (ts ++ us) = twigAll ts ++ twigAll us :=
  List.flatMap_append

theorem twigAll_cons (t : Token) (ts : List Token) : twigAll (t :: ts) = t.twig ++ twigAll ts :=
  List.flatMap_cons

end Token

namespace Formula

/-- The words of a formula. -/
def tokens : Formula → List Token
  | atom a => [.atom a]
  | neg _ p => .neg :: p.tokens
  | conj p _ _ q => p.tokens ++ .conj :: q.tokens
  | disj p _ _ q => p.tokens ++ .disj :: q.tokens
  | group before p after => .opening before :: (p.tokens ++ [.closing after])

/-- The `tokens` of a formula spell its `twig` text. -/
theorem twigAll_tokens (p : Formula) : Token.twigAll p.tokens = p.twig := by
  unfold twig
  induction p with
  | atom a => exact List.append_nil _
  | neg _ p ih => rw [tokens, Token.twigAll_cons, ih]; rfl
  | conj p _ _ q ihp ihq | disj p _ _ q ihp ihq =>
    rw [tokens, Token.twigAll_append, Token.twigAll_cons, ihp, ihq]; rfl
  | group before p after ih =>
    rw [tokens, Token.twigAll_cons, Token.twigAll_append, ih, Token.twigAll_cons]
    simp [print, Token.twig, Token.twigAll]

/-- The value of a formula, when `v` gives the value of an atom's text. -/
def eval (v : Text → Bool) : Formula → Bool
  | atom a => v a.text
  | neg _ p => !p.eval v
  | conj p _ _ q => p.eval v && q.eval v
  | disj p _ _ q => p.eval v || q.eval v
  | group _ p _ => p.eval v

/-- Is the formula a disjunction, with no parentheses around it? -/
def isDisj : Formula → Bool
  | disj .. => true
  | _ => false

/-- Is the formula neither a conjunction nor a disjunction? -/
def isFactor : Formula → Bool
  | conj .. | disj .. => false
  | _ => true

/-- `neg` binds tighter than `conj`, and `conj` tighter than `disj`. -/
def Binds : Formula → Prop
  | atom _ => True
  | neg _ p => p.isFactor = true ∧ p.Binds
  | conj p _ _ q => (p.isDisj = false ∧ q.isDisj = false) ∧ p.Binds ∧ q.Binds
  | disj p _ _ q => p.Binds ∧ q.Binds
  | group _ p _ => p.Binds

/-- The formula is a reading of the words. -/
structure Reads (p : Formula) (ts : List Token) : Prop where
  binds : p.Binds
  tokens_eq : p.tokens = ts

end Formula

/-! ## Reading words from left to right -/

/-- What has been read of a formula, or of a part in parentheses. -/
structure Frame where
  /-- Does a part in front of the last `or` hold? -/
  any : Bool
  /-- Does everything since the last `or` hold? -/
  all : Bool
  /-- Is the next operand negated? -/
  negated : Bool

namespace Frame

/-- Nothing has been read. -/
def start : Frame := ⟨false, true, false⟩

/-- The value of what has been read. -/
def value (f : Frame) : Bool := f.any || f.all

/-- Read an operand. -/
def operand (f : Frame) (b : Bool) : Frame := ⟨f.any, f.all && (b ^^ f.negated), false⟩

end Frame

variable {v : Text → Bool}

/-- Read a word.  The frames of open parentheses are kept, innermost first. -/
def step (v : Text → Bool) : Frame × List Frame → Token → Frame × List Frame
  | (f, outer), .atom a => (f.operand (v a.text), outer)
  | (f, outer), .neg => ({ f with negated := !f.negated }, outer)
  | (f, outer), .conj => (f, outer)
  | (f, outer), .disj => (⟨f.value, true, false⟩, outer)
  | (f, outer), .opening _ => (.start, f :: outer)
  | (f, g :: outer), .closing _ => (g.operand f.value, outer)
  | (f, []), .closing _ => (f, [])

/-- What reading the words of a formula does to a frame. -/
structure Formula.Read (v : Text → Bool) (p : Formula) (outer : List Frame) : Prop where
  factor : p.isFactor = true → ∀ f,
    p.tokens.foldl (step v) (f, outer) = (f.operand (p.eval v), outer)
  conjunct : p.isDisj = false → ∀ f : Frame, f.negated = false →
    p.tokens.foldl (step v) (f, outer) = (f.operand (p.eval v), outer)
  disjunct : ∀ f : Frame, f.negated = false → ∃ f',
    p.tokens.foldl (step v) (f, outer) = (f', outer) ∧ f'.negated = false ∧
      (f.any = true → f'.any = true) ∧ (f.all = true → f'.value = (f.any || p.eval v))

namespace Formula

/-- `Read` for a formula that is no disjunction. -/
theorem Read.of_conjunct {outer : List Frame}
    (hfactor : p.isFactor = true → ∀ f,
      p.tokens.foldl (step v) (f, outer) = (f.operand (p.eval v), outer))
    (hconjunct : ∀ f : Frame, f.negated = false →
      p.tokens.foldl (step v) (f, outer) = (f.operand (p.eval v), outer)) : p.Read v outer where
  factor := hfactor
  conjunct _ := hconjunct
  disjunct f hf := by
    refine ⟨_, hconjunct f hf, rfl, id, fun hall => ?_⟩
    simp [Frame.value, Frame.operand, hall, hf]

theorem Read.of_factor {outer : List Frame}
    (h : ∀ f, p.tokens.foldl (step v) (f, outer) = (f.operand (p.eval v), outer)) :
    p.Read v outer :=
  .of_conjunct (fun _ => h) fun f _ => h f

/-- The `tokens` of a formula that `Binds` are read as the formula. -/
theorem read (p : Formula) (h : p.Binds) (outer : List Frame) : p.Read v outer := by
  induction p generalizing outer with
  | atom a => exact .of_factor fun f => rfl
  | neg after p ih =>
    refine .of_factor fun f => ?_
    rw [tokens, List.foldl_cons]
    refine ((ih h.2 outer).factor h.1 _).trans ?_
    cases hn : f.negated <;> simp [Frame.operand, eval, hn]
  | conj p before after q ihp ihq =>
    obtain ⟨⟨hp, hq⟩, hbp, hbq⟩ := h
    refine .of_conjunct (fun h => (by cases h)) fun f hf => ?_
    rw [tokens, List.foldl_append, List.foldl_cons, (ihp hbp outer).conjunct hp f hf]
    refine ((ihq hbq outer).conjunct hq _ rfl).trans ?_
    simp [Frame.operand, eval, hf, Bool.and_assoc]
  | disj p before after q ihp ihq =>
    refine ⟨fun h => (by cases h), fun h => (by cases h), fun f hf => ?_⟩
    obtain ⟨f₁, hrun₁, -, hany₁, hvalue₁⟩ := (ihp h.1 outer).disjunct f hf
    -- Behind `or` a new conjunction begins.
    obtain ⟨f₂, hrun₂, hneg₂, hany₂, hvalue₂⟩ :=
      (ihq h.2 outer).disjunct ⟨f₁.value, true, false⟩ rfl
    refine ⟨f₂, ?_, hneg₂, fun hany => hany₂ ?_, fun hall => ?_⟩
    · rw [tokens, List.foldl_append, List.foldl_cons, hrun₁]
      exact hrun₂
    · simp [Frame.value, hany₁ hany]
    · rw [hvalue₂ rfl, hvalue₁ hall, eval, Bool.or_assoc]
  | group before p after ih =>
    refine .of_factor fun f => ?_
    obtain ⟨f', hrun, -, -, hvalue⟩ := (ih h (f :: outer)).disjunct .start rfl
    rw [tokens, List.foldl_cons, List.foldl_append]
    show ([Token.closing after]).foldl (step v) (p.tokens.foldl (step v) (.start, f :: outer)) = _
    rw [hrun]
    show (f.operand f'.value, outer) = _
    rw [hvalue rfl, eval]
    rfl

end Formula

/-- The value that is read from words. -/
def Token.value (v : Text → Bool) (ts : List Token) : Bool :=
  (ts.foldl (step v) (.start, [])).1.value

namespace Formula

theorem eval_eq_value {ts : List Token} (h : p.Reads ts) : p.eval v = Token.value v ts := by
  obtain ⟨f, hrun, -, -, hvalue⟩ := (p.read h.binds []).disjunct (v := v) .start rfl
  rw [Token.value, ← h.tokens_eq, hrun, hvalue rfl]
  rfl

/-- `Token.value` is the value of every formula that `Reads` the words. -/
theorem eval_eq_of_reads {ts : List Token} (hp : p.Reads ts) (hq : q.Reads ts) :
    p.eval v = q.eval v := by
  rw [eval_eq_value hp, eval_eq_value hq]

end Formula

/-! ## Joining conditions -/

/-- The words of conditions that are joined by `and`. -/
def joined (ps : List Formula) : List Token := ((ps.map Formula.tokens).intersperse [.conj]).flatten

theorem joined_cons_cons (p q : Formula) (ps : List Formula) :
    joined (p :: q :: ps) = p.tokens ++ .conj :: joined (q :: ps) := by
  simp [joined]

theorem joined_singleton (p : Formula) : joined [p] = p.tokens := by
  simp [joined]

/-- `joined` spells the conditions with `and` between them. -/
theorem twigAll_joined (ps : List Formula) :
    Token.twigAll (joined ps) = ((ps.map Formula.twig).intersperse " and ".toList).flatten := by
  induction ps with
  | nil => rfl
  | cons p ps ih =>
    cases ps with
    | nil => simp [joined_singleton, Formula.twigAll_tokens]
    | cons q ps =>
      rw [joined_cons_cons, Token.twigAll_append, Token.twigAll_cons, ih, Formula.twigAll_tokens]
      simp [Token.twig]

namespace Formula

/-- The conjunction of `p`, no disjunction, and a formula behind it, as it is read. -/
def joinFirst (p : Formula) : Formula → Formula
  | disj q b c r => disj (joinFirst p q) b c r
  | q => conj p Blanks.none Blanks.none q

/-- The conjunction of two formulas, as it is read: of a disjunction it takes the part beside it. -/
def join : Formula → Formula → Formula
  | disj p b c q, r => disj p b c (join q r)
  | p, r => joinFirst p r

/-- `joinFirst` keeps the words. -/
theorem tokens_joinFirst (p : Formula) (q : Formula) :
    (joinFirst p q).tokens = p.tokens ++ .conj :: q.tokens := by
  fun_induction joinFirst p q with
  | case1 q b c r ih => simp [tokens, ih]
  | case2 q _ => rfl

theorem tokens_join (p q : Formula) : (join p q).tokens = p.tokens ++ .conj :: q.tokens := by
  fun_induction join p q with
  | case1 r p b c q ih => simp [tokens, ih]
  | case2 p r _ => exact tokens_joinFirst p r

/-- `joinFirst` gives a formula that `Binds`. -/
theorem binds_joinFirst (hp : p.isDisj = false) (hbp : p.Binds) (hbq : q.Binds) :
    (joinFirst p q).Binds := by
  fun_induction joinFirst p q with
  | case1 q b c r ih => exact ⟨ih hbq.1, hbq.2⟩
  | case2 q hq =>
    refine ⟨⟨hp, ?_⟩, hbp, hbq⟩
    cases q with
    | disj => exact absurd rfl (hq _ _ _ _)
    | _ => rfl

/-- `join` gives a formula that `Binds`. -/
theorem binds_join (hp : p.Binds) (hq : q.Binds) : (join p q).Binds := by
  fun_induction join p q with
  | case1 r p b c q ih => exact ⟨hp.1, ih hp.2 hq⟩
  | case2 p r hdisj =>
    refine binds_joinFirst ?_ hp hq
    cases p with
    | disj => exact absurd rfl (hdisj _ _ _ _)
    | _ => rfl

end Formula

/-- Some formula `Reads` joined conditions. -/
theorem exists_reads_joined (hne : ps ≠ []) (h : ∀ p ∈ ps, p.Binds) :
    ∃ q : Formula, q.Reads (joined ps) := by
  induction ps with
  | nil => exact absurd rfl hne
  | cons p ps ih =>
    obtain ⟨hp, hps⟩ := List.forall_mem_cons.1 h
    cases ps with
    | nil => exact ⟨p, hp, (joined_singleton p).symm⟩
    | cons q ps =>
      obtain ⟨r, hr⟩ := ih (List.cons_ne_nil q ps) hps
      refine ⟨p.join r, Formula.binds_join hp hr.binds, ?_⟩
      rw [Formula.tokens_join, hr.tokens_eq, joined_cons_cons]

/-- Where all conditions hold, what is read of them holds at every point. -/
theorem exists_foldl_joined_of_eval (hbinds : ∀ p ∈ ps, p.Binds) (heval : ∀ p ∈ ps, p.eval v = true)
    {f : Frame} (hneg : f.negated = false) (hvalue : f.value = true) (outer : List Frame) :
    ∃ f', (joined ps).foldl (step v) (f, outer) = (f', outer) ∧ f'.value = true := by
  induction ps generalizing f with
  | nil => exact ⟨f, rfl, hvalue⟩
  | cons p ps ih =>
    obtain ⟨hp, hps⟩ := List.forall_mem_cons.1 hbinds
    obtain ⟨hvp, hvps⟩ := List.forall_mem_cons.1 heval
    obtain ⟨f₁, hrun, hneg₁, hany, hall⟩ := (p.read hp outer).disjunct (v := v) f hneg
    have hvalue₁ : f₁.value = true := by
      rcases Bool.or_eq_true_iff.1 hvalue with h | h
      · simp [Frame.value, hany h]
      · simp [hall h, hvp]
    cases ps with
    | nil => exact ⟨f₁, by rw [joined_singleton, hrun], hvalue₁⟩
    | cons q ps =>
      obtain ⟨f₂, hrun₂, hvalue₂⟩ := ih hps hvps hneg₁ hvalue₁
      refine ⟨f₂, ?_, hvalue₂⟩
      rw [joined_cons_cons, List.foldl_append, List.foldl_cons, hrun]
      exact hrun₂

/-- Conditions that are no disjunctions are read as one conjunction. -/
theorem foldl_joined_of_not_disj (hbinds : ∀ p ∈ ps, p.Binds) (hdisj : ∀ p ∈ ps, p.isDisj = false)
    {f : Frame} (hneg : f.negated = false) (outer : List Frame) :
    (joined ps).foldl (step v) (f, outer) = (f.operand (ps.all (·.eval v)), outer) := by
  induction ps generalizing f with
  | nil =>
    obtain ⟨any, all, negated⟩ := f
    obtain rfl : negated = false := hneg
    simp [joined, Frame.operand]
  | cons p ps ih =>
    obtain ⟨hp, hps⟩ := List.forall_mem_cons.1 hbinds
    obtain ⟨hdp, hdps⟩ := List.forall_mem_cons.1 hdisj
    have hrun := (p.read hp outer).conjunct (v := v) hdp f hneg
    cases ps with
    | nil => simp [joined_singleton, hrun]
    | cons q ps =>
      rw [joined_cons_cons, List.foldl_append, List.foldl_cons, hrun]
      refine (ih hps hdps rfl).trans ?_
      simp [Frame.operand, hneg, Bool.and_assoc]

/-- A formula that `Reads` joined conditions holds where all of them do. -/
theorem eval_of_forall_eval (hq : q.Reads (joined ps)) (hbinds : ∀ p ∈ ps, p.Binds)
    (heval : ∀ p ∈ ps, p.eval v = true) : q.eval v = true := by
  obtain ⟨f, hrun, hvalue⟩ := exists_foldl_joined_of_eval hbinds heval (f := .start) rfl rfl []
  rw [Formula.eval_eq_value hq, Token.value, hrun]
  exact hvalue

/-- One condition, or several that are no disjunctions, hold where their joint reading does. -/
theorem forall_eval_of_eval (hq : q.Reads (joined ps)) (hbinds : ∀ p ∈ ps, p.Binds)
    (h : ps.length = 1 ∨ ∀ p ∈ ps, p.isDisj = false) (heval : q.eval v = true) :
    ∀ p ∈ ps, p.eval v = true := by
  rcases h with hlength | hdisj
  · obtain ⟨p, rfl⟩ := List.length_eq_one_iff.1 hlength
    have hp : p.Reads (joined [p]) :=
      ⟨hbinds p List.mem_cons_self, (joined_singleton p).symm⟩
    intro r hr
    rw [List.mem_singleton.1 hr, Formula.eval_eq_of_reads hp hq, heval]
  · rw [Formula.eval_eq_value hq, Token.value,
      foldl_joined_of_not_disj hbinds hdisj (f := .start) rfl] at heval
    have hall : ps.all (·.eval v) = true := by
      simpa [Frame.value, Frame.operand, Frame.start] using heval
    exact List.all_eq_true.1 hall

end Condition

/-! ## The conditions of an element -/

/-- The recorded condition whose placeholder the attribute holds. -/
def Attribute.condition? (tables : Tables) (a : Attribute) : Option Text :=
  match a.placeholder? with
  | some (.condition, index) => tables.conditions[index]?
  | _ => none

namespace Convert

/-- `convertAttribute` gives the condition of a placeholder, respelled. -/
theorem conditions_of_run_convertAttribute {a : Attribute} {c : Converted} {ctx ctx' : Context}
    (h : (convertAttribute a).run.run ctx = (.ok c, ctx')) :
    Converted.conditions [c] = (a.condition? ctx.tables).toList.map Condition.toTwig := by
  unfold Attribute.condition?
  rcases condition_or_kept_of_run h with ⟨index, entry, hfound, hentry, rfl⟩ | ⟨hother, kept, rfl⟩
  · rw [hfound]
    simp [Converted.conditions, hentry]
  · split
    · next index hfound => exact absurd hfound (hother index)
    · rfl

/-- `convertAttribute` gives the conditions of all attributes, in order. -/
theorem conditions_of_run_mapM {attributes : List Attribute} {converted : List Converted}
    {ctx ctx' : Context}
    (h : (attributes.mapM convertAttribute).run.run ctx = (.ok converted, ctx')) :
    Converted.conditions converted =
      (attributes.filterMap (·.condition? ctx.tables)).map Condition.toTwig := by
  induction attributes generalizing converted ctx ctx' with
  | nil => rw [← Except.ok.inj (Prod.mk.inj h).1]; rfl
  | cons a attributes ih =>
    rw [List.mapM_cons] at h
    obtain ⟨c, ctx₁, hc, h⟩ := exists_of_run_bind h
    obtain ⟨cs, ctx₂, hcs, h⟩ := exists_of_run_bind h
    have hputs : PutsCalls True a.isCall _ (convertAttribute a) := putsCalls_convertAttribute a
    have htables : ctx₁.tables = ctx.tables := (hputs ctx c ctx₁ hc).1.tables
    have hsplit : Converted.conditions (c :: cs) =
        Converted.conditions [c] ++ Converted.conditions cs := by cases c <;> rfl
    rw [← Except.ok.inj (Prod.mk.inj h).1, hsplit, conditions_of_run_convertAttribute hc, ih hcs,
      htables]
    cases hfirst : a.condition? ctx.tables <;> simp [hfirst]

end Convert

/-- `wrapConditions` joins the conditions by `and`. -/
theorem wrapConditions_of_ne_nil {conditions : List Text} (h : conditions ≠ []) (element : Node) :
    let condition := (conditions.intersperse " and ".toList).flatten
    wrapConditions conditions element = [.text ((Twig.Statement.ifThen condition).text ++ ['\n']),
      element, .text ('\n' :: (Twig.Statement.close .conditional).text)] := by
  cases conditions with
  | nil => exact absurd rfl h
  | cons c cs => rfl

section

open Condition

/-- An element whose placeholders stand for the sources of formulas gets their Twig texts, joined by
    `and`, as its guard.  The words of the guard can be read, in one way only up to their value, and
    the guard holds where all the conditions hold.  Where it holds, all the conditions hold if there
    is only one of them or if none is a disjunction without parentheses around it. -/
theorem convertNode_guard {tag : Tag} {children nodes : List Node} {ctx ctx' : Context}
    {ps : List Formula} (hne : ps ≠ []) (hbinds : ∀ p ∈ ps, p.Binds)
    (hconditions : tag.attributes.filterMap (·.condition? ctx.tables) = ps.map Formula.source)
    (hrun : (convertNode (.element tag children)).run.run ctx = (.ok nodes, ctx')) :
    (∃ attributes children', nodes = [
      .text ((Twig.Statement.ifThen (Token.twigAll (joined ps))).text ++ ['\n']),
      .element { tag with attributes } children',
      .text ('\n' :: (Twig.Statement.close .conditional).text)]) ∧
    (∃ q : Formula, q.Reads (joined ps)) ∧
    ∀ q : Formula, q.Reads (joined ps) → ∀ v,
      ((∀ p ∈ ps, p.eval v = true) → q.eval v = true) ∧
      ((ps.length = 1 ∨ ∀ p ∈ ps, p.isDisj = false) →
        q.eval v = true → ∀ p ∈ ps, p.eval v = true) := by
  refine ⟨?_, exists_reads_joined hne hbinds, fun q hq v =>
    ⟨eval_of_forall_eval hq hbinds, forall_eval_of_eval hq hbinds⟩⟩
  rw [convertNode] at hrun
  obtain ⟨converted, ctx₁, hattributes, hrun⟩ := Convert.exists_of_run_bind hrun
  obtain ⟨children', ctx₂, -, hrun⟩ := Convert.exists_of_run_bind hrun
  -- Each attribute with a placeholder gives one condition, respelled.
  have htwig : Converted.conditions converted = ps.map Formula.twig := by
    rw [Convert.conditions_of_run_mapM hattributes, hconditions, List.map_map]
    exact List.map_congr_left fun p _ => p.toTwig_source
  refine ⟨Converted.attributes converted, children', ?_⟩
  rw [← Except.ok.inj (Prod.mk.inj hrun).1, htwig, twigAll_joined,
    wrapConditions_of_ne_nil fun hnil => hne (List.map_eq_nil_iff.1 hnil)]

namespace Condition

/-- A formula of one atom, for a text that can be one. -/
def Formula.ofAtom (t : Text)
    (h : (t ≠ [] ∧ t.trim = t) ∧ ('&' ∉ t ∧ '|' ∉ t) ∧ t.head? ≠ some '=' ∧ BangsBeforeEquals t) :
    Formula :=
  .atom (.ofText t h)

/-- Three conditions, with a disjunction in parentheses and with blanks of all kinds. -/
def severalConditions : List Formula :=
  let user := Formula.ofAtom "user != null".toList (by decide)
  let admin := Formula.ofAtom "admin".toList (by decide)
  let editor := Formula.ofAtom "role == 'editor'".toList (by decide)
  [.conj user Blanks.none Blanks.space (.neg Blanks.space (.neg Blanks.none admin)),
    .group Blanks.none (.disj admin Blanks.none Blanks.none editor) Blanks.space,
    .neg Blanks.space (.group Blanks.none (.conj editor Blanks.space Blanks.none user) Blanks.none)]

/-- A disjunction and an atom. -/
def eitherAndOther : List Formula :=
  let a := Formula.ofAtom "a".toList (by decide)
  let b := Formula.ofAtom "b".toList (by decide)
  [.disj a Blanks.space Blanks.space b, .ofAtom "c".toList (by decide)]

end Condition

/-- A `p` element with a placeholder for each of the first three conditions. -/
def Tag.conditional : Tag :=
  ⟨"p".toList, [Family.condition.holderAttribute 0, ⟨"id".toList, .unquoted "x".toList⟩,
    Family.condition.holderAttribute 1, Family.condition.holderAttribute 2], .normal⟩

/-- The guard of the element means the conjunction of the three conditions. -/
theorem convertNode_guard_several :
    let ps := severalConditions
    let ctx : Context :=
      { options := {}, kind := .document, tables := { conditions := ps.map Formula.source } }
    (ps ≠ [] ∧ (∀ p ∈ ps, p.Binds) ∧
      Tag.conditional.attributes.filterMap (·.condition? ctx.tables) = ps.map Formula.source) ∧
    ∃ nodes ctx', (convertNode (.element .conditional [])).run.run ctx = (.ok nodes, ctx') ∧
      ∃ q : Formula, q.Reads (joined ps) ∧
        ∀ v, q.eval v = true ↔ ∀ p ∈ ps, p.eval v = true := by
  intro ps ctx
  have hne : ps ≠ [] := by simp [ps, severalConditions]
  have hbinds : ∀ p ∈ ps, p.Binds := by
    simp [ps, severalConditions, Formula.Binds, Formula.isFactor, Formula.isDisj, Formula.ofAtom]
  have hdisj : ∀ p ∈ ps, p.isDisj = false := by simp [ps, severalConditions, Formula.isDisj]
  have hconditions : Tag.conditional.attributes.filterMap (·.condition? ctx.tables) =
      ps.map Formula.source := by decide +kernel
  have hok : ((convertNode (.element .conditional [])).run.run ctx).1.toOption.isSome = true := by
    decide +kernel
  rcases hrun : (convertNode (.element .conditional [])).run.run ctx with ⟨result, ctx'⟩
  cases result with
  | error e => rw [hrun] at hok; cases hok
  | ok nodes =>
    obtain ⟨-, ⟨q, hq⟩, hvalue⟩ := convertNode_guard hne hbinds hconditions hrun
    refine ⟨⟨hne, hbinds, hconditions⟩, nodes, ctx', rfl, q, hq, fun v => ?_⟩
    exact ⟨(hvalue q hq v).2 (.inr hdisj), (hvalue q hq v).1⟩

/-- The guard for a disjunction and an atom holds although the atom does not. -/
theorem guard_misses_condition :
    let source := "<p ::cond a || b:: ::cond c::>x</p>"
    let guarded := "\x7b% if a or b and c %\x7d\n<p>x</p>\n\x7b% endif %\x7d"
    (convertTemplate {} (some .document) source.toList).result.toOption = some guarded.toList ∧
    eitherAndOther.map Formula.source = ["a || b".toList, "c".toList] ∧
    Token.twigAll (joined eitherAndOther) = "a or b and c".toList ∧
    ∃ q : Formula, q.Reads (joined eitherAndOther) ∧ ∃ v, q.eval v = true ∧
      ∃ p ∈ eitherAndOther, p.eval v = false := by
  refine ⟨by decide +kernel, by decide +kernel, by decide +kernel, ?_⟩
  have hbinds : ∀ p ∈ eitherAndOther, p.Binds := by
    simp [eitherAndOther, Formula.Binds, Formula.ofAtom]
  obtain ⟨q, hq⟩ := exists_reads_joined (by simp [eitherAndOther]) hbinds
  -- Only the first part of the disjunction holds.
  refine ⟨q, hq, fun t => decide (t = "a".toList), ?_, .ofAtom "c".toList (by decide), ?_,
    by decide⟩
  · rw [Formula.eval_eq_value hq]
    decide +kernel
  · simp [eitherAndOther]

end

end TemploTwig
