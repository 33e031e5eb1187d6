import TemploTwig.Proofs.Nesting.Switches

/-!
# When the tags of switches nest

A switch opens its block where it stands, but the tag that opens the block is printed by its first
case, and the tag that closes it by the end of the block.  So the tags nest exactly when no switch
is closed before its first case, and when between a switch and its first case no block other than a
conditional has been left open.
-/

namespace TemploTwig

variable {ls : List OpenTag} {ds : List Directive} {d : Directive} {scopes scopes' : List BlockKind}
  {b : OpenBlock}

/-- An open block, as the output shows it. -/
inductive OpenTag where
  /-- A block with a tag in front. -/
  | block (kind : BlockKind)
  /-- A switch.  Its tag is printed once it has `begun`, with its first case. -/
  | switch (begun : Bool)
  deriving DecidableEq, Repr

namespace OpenTag

/-! ## The tags that directives print -/

/-- The kind of the tag that is printed for the block so far. -/
def printed? : OpenTag → Option BlockKind
  | block kind => some kind
  | switch begun => if begun then some .conditional else none

/-- The kind of the tag that closes the block. -/
def kind : OpenTag → BlockKind
  | block kind => kind
  | switch _ => .conditional

/-- The tags of open blocks that are printed so far. -/
def printed (ls : List OpenTag) : List BlockKind := ls.filterMap printed?

/-- The innermost switch has had no case yet. -/
def awaitsCase : List OpenTag → Bool
  | [] => false
  | switch begun :: _ => !begun
  | block _ :: ls => awaitsCase ls

/-- The open blocks behind a case. -/
def beginSwitch : List OpenTag → List OpenTag
  | [] => []
  | switch _ :: ls => switch true :: ls
  | block kind :: ls => block kind :: beginSwitch ls

/-- All blocks inside the innermost switch are conditionals. -/
def onlyConditionals : List OpenTag → Bool
  | block kind :: ls => kind = .conditional && onlyConditionals ls
  | _ => true

/-- The open blocks behind a directive. -/
def step (ls : List OpenTag) : Directive → List OpenTag
  | .switch _ => switch false :: ls
  | .nextCase => beginSwitch ls
  | .endBlock => ls.tail
  | d => (d.blockKind?.map block).toList ++ ls

/-- The tags that a directive prints. -/
def tags (ls : List OpenTag) : Directive → List (Bracket BlockKind)
  | .switch _ => []
  | .nextCase => if awaitsCase ls then [.opening .conditional] else []
  | .endBlock => (ls.head?.map fun l => .closing l.kind).toList
  | d => (d.blockKind?.map .opening).toList

/-- The open blocks behind directives. -/
def after (ls : List OpenTag) (ds : List Directive) : List OpenTag := ds.foldl step ls

/-- The tags that directives print, one after the other. -/
def tagsAll : List OpenTag → List Directive → List (Bracket BlockKind)
  | _, [] => []
  | ls, d :: ds => tags ls d ++ tagsAll (step ls d) ds

@[simp] theorem printed_nil : printed [] = [] := rfl

@[simp] theorem printed_block (kind : BlockKind) (ls : List OpenTag) :
    printed (block kind :: ls) = kind :: printed ls := rfl

@[simp] theorem printed_begun (ls : List OpenTag) :
    printed (switch true :: ls) = .conditional :: printed ls := rfl

@[simp] theorem printed_awaiting (ls : List OpenTag) : printed (switch false :: ls) = printed ls := rfl

theorem after_append (ls : List OpenTag) (ds es : List Directive) :
    after ls (ds ++ es) = after (after ls ds) es := List.foldl_append

/-- `tagsAll` goes on from the tags that are open `after` the first directives. -/
theorem tagsAll_append (ls : List OpenTag) (ds es : List Directive) :
    tagsAll ls (ds ++ es) = tagsAll ls ds ++ tagsAll (after ls ds) es := by
  induction ds generalizing ls with
  | nil => rfl
  | cons d ds ih =>
    rw [List.cons_append, tagsAll, ih, tagsAll, List.append_assoc]
    rfl

/-- `beginSwitch` leaves no switch without a case. -/
theorem awaitsCase_beginSwitch (ls : List OpenTag) : awaitsCase (beginSwitch ls) = false := by
  induction ls with
  | nil => rfl
  | cons l ls ih =>
    cases l with
    | block kind => exact ih
    | switch begun => rfl

/-- `beginSwitch` changes nothing when the innermost switch has had a case. -/
theorem beginSwitch_eq_self (h : awaitsCase ls = false) : beginSwitch ls = ls := by
  induction ls with
  | nil => rfl
  | cons l ls ih =>
    cases l with
    | block kind => rw [beginSwitch, ih h]
    | switch begun =>
      cases begun with
      | true => rfl
      | false => cases h

/-- `beginSwitch` prints its tag in its place when only conditionals are inside. -/
theorem printed_beginSwitch (hawaits : awaitsCase ls = true) (honly : onlyConditionals ls = true) :
    printed (beginSwitch ls) = .conditional :: printed ls := by
  induction ls with
  | nil => cases hawaits
  | cons l ls ih =>
    cases l with
    | block kind =>
      simp only [onlyConditionals, Bool.and_eq_true, decide_eq_true_eq] at honly
      obtain ⟨rfl, honly⟩ := honly
      rw [beginSwitch, printed_block, printed_block, ih hawaits honly]
    | switch begun =>
      cases begun with
      | true => cases hawaits
      | false => rfl

/-- `beginSwitch` adds one printed tag. -/
theorem length_printed_beginSwitch (hawaits : awaitsCase ls = true) :
    (printed (beginSwitch ls)).length = (printed ls).length + 1 := by
  induction ls with
  | nil => cases hawaits
  | cons l ls ih =>
    cases l with
    | block kind => simp [beginSwitch, ih hawaits]
    | switch begun =>
      cases begun with
      | true => cases hawaits
      | false => rfl

/-! ## Steps in their place -/

/-- A first case of a switch has only conditionals between itself and the switch. -/
def BeginsInPlace (ls : List OpenTag) (d : Directive) : Prop :=
  d = .nextCase → awaitsCase ls = true → onlyConditionals ls = true

/-- An end closes no switch that has had no case. -/
def ClosesPrinted (ls : List OpenTag) (d : Directive) : Prop :=
  d = .endBlock → ls.head? ≠ some (switch false)

instance (ls : List OpenTag) (d : Directive) : Decidable (BeginsInPlace ls d) :=
  inferInstanceAs (Decidable (d = .nextCase → awaitsCase ls = true → onlyConditionals ls = true))

instance (ls : List OpenTag) (d : Directive) : Decidable (ClosesPrinted ls d) :=
  inferInstanceAs (Decidable (d = .endBlock → ls.head? ≠ some (switch false)))

/-- Something holds at each directive of a run. -/
def Along (P : List OpenTag → Directive → Prop) : List OpenTag → List Directive → Prop
  | _, [] => True
  | ls, d :: ds => P ls d ∧ Along P (step ls d) ds

instance decidableAlong {P : List OpenTag → Directive → Prop} [∀ ls d, Decidable (P ls d)] :
    (ls : List OpenTag) → (ds : List Directive) → Decidable (Along P ls ds)
  | _, [] => inferInstanceAs (Decidable True)
  | ls, d :: ds =>
    have := decidableAlong (P := P) (step ls d) ds
    inferInstanceAs (Decidable (P ls d ∧ Along P (step ls d) ds))

/-- `Along` holds of each directive behind those in front of it. -/
theorem along_iff {P : List OpenTag → Directive → Prop} :
    Along P ls ds ↔ ∀ front d back, ds = front ++ d :: back → P (after ls front) d := by
  induction ds generalizing ls with
  | nil => simp [Along]
  | cons d ds ih =>
    rw [Along, ih]
    constructor
    · rintro ⟨hd, hds⟩ front e back heq
      cases front with
      | nil =>
        obtain ⟨rfl, -⟩ := List.cons.inj heq
        exact hd
      | cons f front =>
        obtain ⟨rfl, hrest⟩ := List.cons.inj heq
        exact hds front e back hrest
    · intro h
      constructor
      · exact h [] d ds rfl
      · intro front e back heq
        exact h (d :: front) e back (by rw [heq]; rfl)

/-- A directive in its place prints the `tags` by which the open tags change. -/
theorem run_tags (hcase : BeginsInPlace ls d) (hend : ClosesPrinted ls d) :
    Bracket.run (printed ls) (tags ls d) = some (printed (step ls d)) := by
  cases d with
  | nextCase =>
    rw [tags, step]
    -- Only the first case of a switch opens its conditional.
    by_cases hawaits : awaitsCase ls = true
    · rw [if_pos hawaits, printed_beginSwitch hawaits (hcase rfl hawaits)]
      rfl
    · rw [if_neg hawaits, beginSwitch_eq_self (Bool.eq_false_iff.2 hawaits)]
      rfl
  | endBlock =>
    cases ls with
    | nil => rfl
    | cons l ls =>
      cases l with
      | block kind => exact if_pos rfl
      | switch begun =>
        cases begun with
        | true => exact if_pos rfl
        -- This switch has printed nothing that an end could close.
        | false => exact absurd rfl (hend rfl)
  | _ => rfl

end OpenTag

/-! ## Brackets behind each other -/

/-- `Bracket.run` goes on where the first brackets end. -/
theorem Bracket.run_append {α : Type} [DecidableEq α] (scopes : List α) (bs cs : List (Bracket α)) :
    run scopes (bs ++ cs) = (run scopes bs).bind (run · cs) := by
  fun_induction run scopes bs with
  | case1 scopes => rfl
  | case2 scopes a bs ih => exact ih
  | case3 a scopes bs ih => rw [List.cons_append, run, if_pos rfl, ih]
  | case4 a scopes b bs hne => rw [List.cons_append, run, if_neg hne]; rfl
  | case5 b bs => rfl

/-- `Bracket.run` closes the innermost scope only. -/
theorem Bracket.run_closing {α : Type} [DecidableEq α] {a : α} {scopes scopes' : List α}
    (h : run scopes [closing a] = some scopes') : scopes = a :: scopes' := by
  cases scopes with
  | nil => cases h
  | cons b scopes =>
    rw [run] at h
    split at h
    · next hb => rw [hb, Option.some.inj h]
    · cases h

namespace OpenTag

/-- `Bracket.run` takes `tagsAll` directive by directive. -/
theorem exists_of_run_tagsAll_cons (h : Bracket.run scopes (tagsAll ls (d :: ds)) = some scopes') :
    ∃ between, Bracket.run scopes (tags ls d) = some between ∧
      Bracket.run between (tagsAll (step ls d) ds) = some scopes' := by
  rw [tagsAll, Bracket.run_append] at h
  exact Option.bind_eq_some_iff.1 h

/-- Directives in their places print the tags by which the open tags change. -/
theorem run_tagsAll (hcase : Along BeginsInPlace ls ds) (hend : Along ClosesPrinted ls ds) :
    Bracket.run (printed ls) (tagsAll ls ds) = some (printed (after ls ds)) := by
  induction ds generalizing ls with
  | nil => rfl
  | cons d ds ih =>
    rw [tagsAll, Bracket.run_append, run_tags hcase.1 hend.1, Option.bind_some, ih hcase.2 hend.2]
    rfl

/-! ## Ends of switches without a case -/

/-- `Bracket.run` opens at most as many scopes as the printed tags grow by. -/
theorem length_run_tags_le (h : Bracket.run scopes (tags ls d) = some scopes') :
    scopes'.length + (printed ls).length ≤ scopes.length + (printed (step ls d)).length := by
  cases d with
  | nextCase =>
    rw [tags] at h
    rw [step]
    by_cases hawaits : awaitsCase ls = true
    · rw [if_pos hawaits] at h
      obtain rfl := Option.some.inj h
      rw [length_printed_beginSwitch hawaits, List.length_cons]
      omega
    · rw [if_neg hawaits] at h
      obtain rfl := Option.some.inj h
      rw [beginSwitch_eq_self (Bool.eq_false_iff.2 hawaits)]
  | endBlock =>
    cases ls with
    | nil =>
      obtain rfl := Option.some.inj h
      exact Nat.le_refl _
    | cons l ls =>
      -- A scope goes with every end, a printed tag only with some.
      obtain rfl := Bracket.run_closing h
      rcases l with kind | _ | _ <;> simp only [step, List.tail_cons, printed_block, printed_begun,
        printed_awaiting, List.length_cons] <;> omega
  | ifThen _ | foreach _ _ | fill _ | assign _ =>
    obtain rfl := Option.some.inj h
    simp only [step, Directive.blockKind?, Option.map_some, Option.toList_some, List.singleton_append,
      printed_block, List.length_cons]
    omega
  | switch _ | elseIf _ | otherwise | contentBlock | raw _ | inherit _ | print _ =>
    obtain rfl := Option.some.inj h
    exact Nat.le_refl _

/-- Over directives too, scopes grow at most as the printed tags do. -/
theorem length_run_tagsAll_le (h : Bracket.run scopes (tagsAll ls ds) = some scopes') :
    scopes'.length + (printed ls).length ≤ scopes.length + (printed (after ls ds)).length := by
  induction ds generalizing ls scopes with
  | nil =>
    obtain rfl := Option.some.inj h
    exact Nat.le_refl _
  | cons d ds ih =>
    obtain ⟨between, hd, hds⟩ := exists_of_run_tagsAll_cons h
    have hstep := length_run_tags_le hd
    have hrest := ih hds
    show _ ≤ scopes.length + (printed (after (step ls d) ds)).length
    omega

/-- Tags that nest are printed without ends of switches that had no case. -/
theorem closesPrinted_of_run (hclosed : after [] ds = [])
    (h : Bracket.run [] (tagsAll [] ds) = some []) : Along ClosesPrinted [] ds := by
  rw [along_iff]
  rintro front d back rfl rfl hhead
  rw [tagsAll_append, Bracket.run_append] at h
  obtain ⟨scopes, hfront, hrest⟩ := Option.bind_eq_some_iff.1 h
  obtain ⟨scopes', hend, hback⟩ := exists_of_run_tagsAll_cons hrest
  obtain ⟨ls, hls⟩ : ∃ ls, after [] front = switch false :: ls := by
    cases hfront : after [] front with
    | nil => rw [hfront] at hhead; cases hhead
    | cons l ls =>
      rw [hfront] at hhead
      exact ⟨ls, by rw [Option.some.inj hhead]⟩
  rw [after_append, hls] at hclosed
  -- The end takes a scope away, but no printed tag with it.
  rw [hls] at hend hback
  obtain rfl := Bracket.run_closing hend
  have hlength := length_run_tagsAll_le hfront
  have hlength' := length_run_tagsAll_le hback
  have hnil : after (step (switch false :: ls) .endBlock) back = [] := hclosed
  rw [hls] at hlength
  rw [hnil] at hlength'
  simp only [step, List.tail_cons, printed_awaiting, printed_nil, List.length_cons,
    List.length_nil] at hlength hlength'
  omega

/-! ## First cases that come too far inside -/

/-- The stack of scopes has a conditional where the open blocks have one of another kind.  The
    scopes above may be any, there are as many as there are printed tags. -/
inductive Surplus : List OpenTag → List BlockKind → Prop
  | here {kind : BlockKind} {ls : List OpenTag} (hkind : kind ≠ .conditional)
    (hawaits : awaitsCase ls = false) (scopes : List BlockKind) :
    Surplus (block kind :: ls) (.conditional :: scopes)
  | block {ls : List OpenTag} {scopes : List BlockKind} (kind scope : BlockKind)
    (h : Surplus ls scopes) : Surplus (block kind :: ls) (scope :: scopes)
  | begun {ls : List OpenTag} {scopes : List BlockKind} (scope : BlockKind)
    (h : Surplus ls scopes) : Surplus (switch true :: ls) (scope :: scopes)
  | awaiting {ls : List OpenTag} {scopes : List BlockKind} (h : Surplus ls scopes) :
    Surplus (switch false :: ls) scopes

namespace Surplus

variable {ls : List OpenTag} {scopes scopes' : List BlockKind} {d : Directive}

theorem ne_nil (h : Surplus ls scopes) : ls ≠ [] := by
  cases h <;> simp

/-- A first case prints a tag for a switch further in. -/
theorem beginSwitch (h : Surplus ls scopes) (hawaits : awaitsCase ls = true) (scope : BlockKind) :
    Surplus (OpenTag.beginSwitch ls) (scope :: scopes) := by
  induction h generalizing scope with
  | here _ hnone _ => cases hnone.symm.trans hawaits
  | block kind scope' _ ih => exact .block kind scope (ih hawaits scope')
  | begun _ _ _ => cases hawaits
  | awaiting h _ => exact .begun scope h

/-- When a first case comes inside another block than a conditional, its tag is the surplus. -/
theorem of_not_onlyConditionals (hawaits : awaitsCase ls = true)
    (honly : onlyConditionals ls ≠ true) :
    Surplus (OpenTag.beginSwitch ls) (.conditional :: printed ls) := by
  induction ls with
  | nil => cases hawaits
  | cons l ls ih =>
    cases l with
    | switch begun => exact absurd rfl honly
    | block kind =>
      by_cases hkind : kind = .conditional
      · subst hkind
        refine .block _ _ (ih hawaits fun h => honly ?_)
        simp [onlyConditionals, h]
      · exact .here hkind (awaitsCase_beginSwitch ls) _

/-- A directive either cannot follow or keeps the surplus. -/
theorem step (h : Surplus ls scopes) (hend : ClosesPrinted ls d)
    (hrun : Bracket.run scopes (tags ls d) = some scopes') : Surplus (OpenTag.step ls d) scopes' := by
  cases d with
  | switch _ =>
    obtain rfl := Option.some.inj hrun
    exact .awaiting h
  | nextCase =>
    rw [tags] at hrun
    rw [OpenTag.step]
    by_cases hawaits : awaitsCase ls = true
    · rw [if_pos hawaits] at hrun
      obtain rfl := Option.some.inj hrun
      exact h.beginSwitch hawaits _
    · rw [if_neg hawaits] at hrun
      obtain rfl := Option.some.inj hrun
      rw [beginSwitch_eq_self (Bool.eq_false_iff.2 hawaits)]
      exact h
  | endBlock =>
    cases h with
    | here hkind _ _ =>
      -- The block would have to be closed here, but the scope is a conditional.
      exact absurd (List.cons.inj (Bracket.run_closing hrun)).1.symm hkind
    | block _ _ h | begun _ h =>
      obtain ⟨-, rfl⟩ := List.cons.inj (Bracket.run_closing hrun)
      exact h
    | awaiting _ => exact absurd rfl (hend rfl)
  | ifThen _ | foreach _ _ | fill _ | assign _ =>
    obtain rfl := Option.some.inj hrun
    exact .block _ _ h
  | elseIf _ | otherwise | contentBlock | raw _ | inherit _ | print _ =>
    obtain rfl := Option.some.inj hrun
    exact h

/-- With a surplus, not everything is closed in the end. -/
theorem run_tagsAll_ne (h : Surplus ls scopes) (hend : Along ClosesPrinted ls ds)
    (hclosed : after ls ds = []) : Bracket.run scopes (tagsAll ls ds) ≠ some scopes' := by
  induction ds generalizing ls scopes with
  | nil => exact absurd hclosed h.ne_nil
  | cons d ds ih =>
    intro hrun
    obtain ⟨between, hd, hds⟩ := exists_of_run_tagsAll_cons hrun
    exact ih (h.step hend.1 hd) hend.2 hclosed hds

end Surplus

/-- Tags that `Bracket.run` accepts have every first case in its place. -/
theorem beginsInPlace_of_run (hend : Along ClosesPrinted ls ds) (hclosed : after ls ds = [])
    (h : Bracket.run (printed ls) (tagsAll ls ds) = some scopes) : Along BeginsInPlace ls ds := by
  induction ds generalizing ls with
  | nil => trivial
  | cons d ds ih =>
    obtain ⟨between, hd, hds⟩ := exists_of_run_tagsAll_cons h
    have hplace : BeginsInPlace ls d := by
      rintro rfl hawaits
      by_contra honly
      rw [tags, if_pos hawaits] at hd
      obtain rfl := Option.some.inj hd
      have hsurplus := Surplus.of_not_onlyConditionals hawaits honly
      exact hsurplus.run_tagsAll_ne hend.2 hclosed hds
    refine ⟨hplace, ih hend.2 hclosed ?_⟩
    rw [run_tags hplace hend.1] at hd
    rw [Option.some.inj hd]
    exact hds

/-- `tagsAll` is well nested exactly when each step is in its place. -/
theorem wellNested_tagsAll_iff (hclosed : after [] ds = []) :
    WellNested (tagsAll [] ds) ↔ Along BeginsInPlace [] ds ∧ Along ClosesPrinted [] ds := by
  rw [wellNested_iff_run]
  constructor
  · intro h
    have hend := closesPrinted_of_run hclosed h
    exact ⟨beginsInPlace_of_run hend hclosed h, hend⟩
  · rintro ⟨hcase, hend⟩
    have h := run_tagsAll hcase hend
    rwa [hclosed] at h

end OpenTag

/-! ## The open tags behind directives -/

/-- An open block, as the output shows it. -/
def OpenBlock.openTag (b : OpenBlock) : OpenTag :=
  match b.opener with
  | .switch _ => .switch (ownCases b.inside ≠ 0)
  | d => .block (d.blockKind?.getD .conditional)

/-- The blocks that are open behind a sequence of directives, as the output shows them. -/
def openTags (ds : List Directive) : List OpenTag := (openBlocks ds).map OpenBlock.openTag

namespace OpenBlock

theorem openTag_of_switch? {s : Text × List Directive} (h : b.switch? = some s) :
    b.openTag = .switch (ownCases s.2 ≠ 0) := by
  obtain rfl := switch?_eq_some_iff.1 h
  rfl

/-- A block other than a switch is open by its own tag. -/
theorem openTag_of_no_switch (h : b.switch? = none) :
    b.openTag = .block (b.opener.blockKind?.getD .conditional) := by
  obtain ⟨opener, inside⟩ := b
  cases opener with
  | switch _ => cases h
  | _ => rfl

/-- `extend` changes nothing when the directive is no case that belongs to the block. -/
theorem openTag_extend (h : ¬(d = .nextCase ∧ NoSwitchOpen b.inside)) :
    (b.extend d).openTag = b.openTag := by
  obtain ⟨opener, inside⟩ := b
  cases opener with
  | switch _ => simp [extend, openTag, ownCases_concat, h]
  | _ => rfl

end OpenBlock

/-- A case inside an open switch is none of the blocks further out. -/
theorem map_openTag_extend_of_switch {front back : List OpenBlock}
    (h : openBlocks ds = front ++ back) (hfront : front.filterMap OpenBlock.switch? ≠ []) :
    (back.map (.extend .nextCase)).map OpenBlock.openTag = back.map OpenBlock.openTag := by
  rw [List.map_map]
  refine List.map_congr_left fun b hb => OpenBlock.openTag_extend ?_
  rintro ⟨-, hnone⟩
  obtain ⟨bs, cs, rfl⟩ := List.append_of_mem hb
  rw [← List.append_assoc] at h
  rw [noSwitchOpen_iff, openSwitches, openBlocks_inside h, List.filterMap_append] at hnone
  exact hfront (List.append_eq_nil_iff.1 hnone).1

/-- A case begins the innermost switch. -/
theorem map_openTag_extend {front back : List OpenBlock} (h : openBlocks ds = front ++ back)
    (hfront : front.filterMap OpenBlock.switch? = []) :
    (back.map (.extend .nextCase)).map OpenBlock.openTag =
      OpenTag.beginSwitch (back.map OpenBlock.openTag) := by
  induction back generalizing front with
  | nil => rfl
  | cons b back ih =>
    have hinside : NoSwitchOpen b.inside := by
      rw [noSwitchOpen_iff, openSwitches, openBlocks_inside h, hfront]
    rw [← List.singleton_append, ← List.append_assoc] at h
    simp only [List.map_cons]
    cases hswitch : b.switch? with
    -- A block that is no switch is passed over.
    | none =>
      have hextend : (b.extend .nextCase).switch? = none := by
        rw [OpenBlock.switch?_extend, hswitch]
        rfl
      rw [OpenBlock.openTag_of_no_switch hswitch, OpenBlock.openTag_of_no_switch hextend,
        OpenTag.beginSwitch, ih h (by simp [hfront, hswitch])]
      rfl
    -- The innermost switch begins, and those around it stay as they are.
    | some s =>
      obtain rfl := OpenBlock.switch?_eq_some_iff.1 hswitch
      have hbegun : (OpenBlock.extend .nextCase ⟨.switch s.1, s.2⟩).openTag = .switch true := by
        simp [OpenBlock.extend, OpenBlock.openTag, ownCases_concat, hinside]
      rw [hbegun, OpenBlock.openTag_of_switch? hswitch, OpenTag.beginSwitch,
        map_openTag_extend_of_switch h (by simp [hswitch])]

/-- `openTags` changes by `OpenTag.step` from directive to directive. -/
theorem openTags_concat (ds : List Directive) (d : Directive) :
    openTags (ds ++ [d]) = OpenTag.step (openTags ds) d := by
  have hextend (hd : d ≠ .nextCase) (bs : List OpenBlock) :
      (bs.map (.extend d)).map OpenBlock.openTag = bs.map OpenBlock.openTag := by
    rw [List.map_map]
    exact List.map_congr_left fun b _ => OpenBlock.openTag_extend fun h => hd h.1
  have hone (hd : d.IsOpener) : openBlocks [d] = [⟨d, []⟩] :=
    openBlocks_cons_of_open hd (Leaves.balanced .nil).unclosed
  rw [openTags, openTags]
  cases d with
  | nextCase =>
    rw [openBlocks_concat (by simp), OpenTag.step, ← map_openTag_extend (List.nil_append _).symm rfl]
    rfl
  | endBlock =>
    rw [openBlocks_concat_endBlock, hextend (by simp), OpenTag.step, List.map_tail]
  | switch _ | ifThen _ | foreach _ _ | fill _ | assign _ =>
    rw [openBlocks_concat (by simp), List.map_append, hextend (by simp), hone rfl]
    rfl
  | elseIf _ | otherwise | contentBlock | raw _ | inherit _ | print _ =>
    rw [openBlocks_concat (by simp), List.map_append, hextend (by simp)]
    rfl

/-- `openTags` follows directives by `OpenTag.after`. -/
theorem after_openTags (ds es : List Directive) :
    OpenTag.after (openTags ds) es = openTags (ds ++ es) := by
  induction es generalizing ds with
  | nil => rw [List.append_nil]; rfl
  | cons e es ih =>
    show OpenTag.after (OpenTag.step (openTags ds) e) es = _
    rw [← openTags_concat, ih, List.append_assoc, List.singleton_append]

theorem after_nil (ds : List Directive) : OpenTag.after [] ds = openTags ds :=
  after_openTags [] ds

/-! ## The condition on the directives -/

namespace OpenTag

/-- The tags of blocks other than switches. -/
def IsBlock (l : OpenTag) : Prop := ∃ kind, l = block kind

/-- `awaitsCase` looks at the innermost switch. -/
theorem awaitsCase_append {front : List OpenTag} (h : ∀ l ∈ front, l.IsBlock) (begun : Bool)
    (rest : List OpenTag) : awaitsCase (front ++ switch begun :: rest) = !begun := by
  induction front with
  | nil => rfl
  | cons l front ih =>
    obtain ⟨kind, rfl⟩ := h l List.mem_cons_self
    exact ih fun l hl => h l (List.mem_cons_of_mem _ hl)

/-- `onlyConditionals` looks at what is inside the innermost switch. -/
theorem onlyConditionals_append {front : List OpenTag} (h : ∀ l ∈ front, l.IsBlock) (begun : Bool)
    (rest : List OpenTag) :
    onlyConditionals (front ++ switch begun :: rest) = true ↔ ∀ l ∈ front, l = block .conditional := by
  induction front with
  | nil => simp [onlyConditionals]
  | cons l front ih =>
    obtain ⟨kind, rfl⟩ := h l List.mem_cons_self
    have hrest := ih fun l hl => h l (List.mem_cons_of_mem _ hl)
    simp [onlyConditionals, hrest]

/-- `awaitsCase` finds the innermost switch without a case. -/
theorem exists_of_awaitsCase (h : awaitsCase ls = true) :
    ∃ front rest, ls = front ++ switch false :: rest ∧ ∀ l ∈ front, l.IsBlock := by
  induction ls with
  | nil => cases h
  | cons l ls ih =>
    cases l with
    | block kind =>
      obtain ⟨front, rest, rfl, hfront⟩ := ih h
      exact ⟨block kind :: front, rest, rfl, List.forall_mem_cons.2 ⟨⟨kind, rfl⟩, hfront⟩⟩
    | switch begun =>
      cases begun with
      | true => cases h
      | false => exact ⟨[], ls, rfl, by simp⟩

end OpenTag

/-- Without an open switch, `openTags` are blocks. -/
theorem isBlock_of_noSwitchOpen (h : NoSwitchOpen ds) : ∀ l ∈ openTags ds, l.IsBlock := by
  intro l hl
  obtain ⟨b, hb, rfl⟩ := List.mem_map.1 hl
  exact ⟨_, OpenBlock.openTag_of_no_switch
    (List.filterMap_eq_nil_iff.1 (noSwitchOpen_iff.1 h) b hb)⟩

/-- A switch that no end has matched, and what is open inside. -/
theorem exists_openTags_eq (before : List Directive) (subject : Text) {inside : List Directive}
    (h : Unclosed inside) : ∃ rest, openTags (before ++ .switch subject :: inside) =
      openTags inside ++ .switch (ownCases inside ≠ 0) :: rest := by
  obtain ⟨bs, hbs⟩ := openBlocks_prefix before (.switch subject :: inside)
  rw [openBlocks_cons_of_open (d := .switch subject) rfl h] at hbs
  refine ⟨bs.map OpenBlock.openTag, ?_⟩
  rw [openTags, ← hbs, List.map_append, List.map_append, List.append_assoc]
  rfl

/-- `awaitsCase` finds a switch among the directives that has had no case. -/
theorem exists_of_awaitsCase_openTags (h : OpenTag.awaitsCase (openTags ds) = true) :
    ∃ before subject inside, ds = before ++ .switch subject :: inside ∧ Unclosed inside ∧
      NoSwitchOpen inside ∧ ownCases inside = 0 := by
  obtain ⟨front, rest, hls, hfront⟩ := OpenTag.exists_of_awaitsCase h
  obtain ⟨bs, cs, hblocks, rfl, hcs⟩ := List.map_eq_append_iff.1 hls
  obtain ⟨b, cs, rfl, hb, -⟩ := List.map_eq_cons_iff.1 hcs
  have hinside := openBlocks_inside hblocks
  -- All that is open inside the switch are blocks of other kinds.
  have hnone : NoSwitchOpen b.inside := by
    rw [noSwitchOpen_iff, openSwitches, hinside, List.filterMap_eq_nil_iff]
    intro c hc
    obtain ⟨kind, hkind⟩ := hfront _ (List.mem_map_of_mem hc)
    cases hswitch : c.switch? with
    | none => rfl
    | some s => rw [OpenBlock.openTag_of_switch? hswitch] at hkind; cases hkind
  cases hswitch : b.switch? with
  | none => rw [OpenBlock.openTag_of_no_switch hswitch] at hb; cases hb
  | some s =>
    rw [OpenBlock.openTag_of_switch? hswitch] at hb
    obtain rfl := OpenBlock.switch?_eq_some_iff.1 hswitch
    have hmem : ⟨.switch s.1, s.2⟩ ∈ openBlocks ds := by rw [hblocks]; simp
    obtain ⟨-, hunclosed, before, hds⟩ := exists_of_mem_openBlocks hmem
    exact ⟨before, s.1, s.2, hds, hunclosed, hnone, by simpa using hb⟩

/-- `openTags` are conditionals exactly if the unmatched openers are. -/
theorem forall_mem_openTags_iff (h : NoSwitchOpen ds) :
    (∀ l ∈ openTags ds, l = .block .conditional) ↔
      ∀ d ∈ unmatched ds, d.blockKind? = some .conditional := by
  have hmem (d : Directive) : d ∈ unmatched ds ↔ ∃ b ∈ openBlocks ds, b.opener = d := by
    rw [← List.mem_reverse, ← map_opener_openBlocks, List.mem_map]
  have htag (b : OpenBlock) (hb : b ∈ openBlocks ds) :
      b.openTag = .block .conditional ↔ b.opener.blockKind? = some .conditional := by
    have hopener : b.opener.blockKind?.isSome := (exists_of_mem_openBlocks hb).1
    obtain ⟨kind, hkind⟩ := Option.isSome_iff_exists.1 hopener
    rw [OpenBlock.openTag_of_no_switch
      (List.filterMap_eq_nil_iff.1 (noSwitchOpen_iff.1 h) b hb), hkind]
    simp
  constructor
  · intro h d hd
    obtain ⟨b, hb, rfl⟩ := (hmem d).1 hd
    exact (htag b hb).1 (h _ (List.mem_map_of_mem hb))
  · intro h l hl
    obtain ⟨b, hb, rfl⟩ := List.mem_map.1 hl
    exact (htag b hb).2 (h _ ((hmem _).2 ⟨b, hb, rfl⟩))

/-- Each switch begins with its first case in the place where the switch itself stands. -/
structure BeginsSwitches (ds : List Directive) : Prop where
  /-- What is open between a switch and its first case are conditionals. -/
  inPlace : ∀ before subject inside rest,
    ds = before ++ .switch subject :: (inside ++ .nextCase :: rest) →
    Unclosed inside → NoSwitchOpen inside → ownCases inside = 0 →
    ∀ d ∈ unmatched inside, d.blockKind? = some .conditional
  /-- No end matches a switch without a case. -/
  inTime : ∀ before subject inside rest,
    ds = before ++ .switch subject :: (inside ++ .endBlock :: rest) →
    Balanced inside → ownCases inside ≠ 0

/-- `BeginsInPlace` in terms of the directives. -/
theorem beginsInPlace_openTags_iff :
    OpenTag.BeginsInPlace (openTags ds) .nextCase ↔
      ∀ before subject inside, ds = before ++ .switch subject :: inside → Unclosed inside →
        NoSwitchOpen inside → ownCases inside = 0 →
        ∀ d ∈ unmatched inside, d.blockKind? = some .conditional := by
  constructor
  · rintro h before subject inside rfl hunclosed hnone hcases
    obtain ⟨rest, hrest⟩ := exists_openTags_eq before subject hunclosed
    have hblocks := isBlock_of_noSwitchOpen hnone
    have honly := h rfl (by rw [hrest, OpenTag.awaitsCase_append hblocks, hcases]; rfl)
    rw [hrest, OpenTag.onlyConditionals_append hblocks] at honly
    exact (forall_mem_openTags_iff hnone).1 honly
  · intro h _ hawaits
    obtain ⟨before, subject, inside, rfl, hunclosed, hnone, hcases⟩ :=
      exists_of_awaitsCase_openTags hawaits
    obtain ⟨rest, hrest⟩ := exists_openTags_eq before subject hunclosed
    rw [hrest, OpenTag.onlyConditionals_append (isBlock_of_noSwitchOpen hnone),
      forall_mem_openTags_iff hnone]
    exact h before subject inside rfl hunclosed hnone hcases

/-- `ClosesPrinted` in terms of the directives. -/
theorem closesPrinted_openTags_iff :
    OpenTag.ClosesPrinted (openTags ds) .endBlock ↔
      ∀ before subject inside, ds = before ++ .switch subject :: inside → Balanced inside →
        ownCases inside ≠ 0 := by
  constructor
  · rintro h before subject inside hds hinside hcases
    obtain ⟨bs, hbs⟩ := exists_openBlocks_eq_cons_iff (b := ⟨.switch subject, inside⟩).2
      ⟨rfl, hinside, before, hds⟩
    refine h rfl ?_
    rw [openTags, hbs]
    simp [OpenBlock.openTag, hcases]
  · intro h _ hhead
    cases hblocks : openBlocks ds with
    | nil => rw [openTags, hblocks] at hhead; cases hhead
    | cons b bs =>
      rw [openTags, hblocks, List.map_cons, List.head?_cons, Option.some.injEq] at hhead
      cases hswitch : b.switch? with
      | none => rw [OpenBlock.openTag_of_no_switch hswitch] at hhead; cases hhead
      | some s =>
        rw [OpenBlock.openTag_of_switch? hswitch] at hhead
        obtain rfl := OpenBlock.switch?_eq_some_iff.1 hswitch
        obtain ⟨-, hinside, before, hds⟩ := exists_openBlocks_eq_cons_iff.1 ⟨bs, hblocks⟩
        exact h before s.1 s.2 hds hinside (by simpa using hhead)

/-- `BeginsSwitches` says that each step is in its place. -/
theorem beginsSwitches_iff :
    BeginsSwitches ds ↔
      OpenTag.Along OpenTag.BeginsInPlace [] ds ∧ OpenTag.Along OpenTag.ClosesPrinted [] ds := by
  -- Both sides look at each case and each end with what stands in front of it.
  rw [OpenTag.along_iff, OpenTag.along_iff]
  constructor
  · intro h
    constructor
    · rintro front d back hds rfl
      rw [after_nil]
      refine beginsInPlace_openTags_iff.2 (fun before subject inside hfront => ?_) rfl
      exact h.inPlace before subject inside back (by rw [hds, hfront]; simp)
    · rintro front d back hds rfl
      rw [after_nil]
      refine closesPrinted_openTags_iff.2 (fun before subject inside hfront => ?_) rfl
      exact h.inTime before subject inside back (by rw [hds, hfront]; simp)
  · rintro ⟨hcase, hend⟩
    constructor
    · intro before subject inside rest hds
      have h := hcase (before ++ .switch subject :: inside) .nextCase rest (by rw [hds]; simp)
      rw [after_nil, beginsInPlace_openTags_iff] at h
      exact h before subject inside rfl
    · intro before subject inside rest hds
      have h := hend (before ++ .switch subject :: inside) .endBlock rest (by rw [hds]; simp)
      rw [after_nil, closesPrinted_openTags_iff] at h
      exact h before subject inside rfl

instance : DecidablePred BeginsSwitches := fun _ => decidable_of_iff _ beginsSwitches_iff.symm

end TemploTwig
