import TemploTwig.Proofs.Nesting.Emission
import TemploTwig.Proofs.Template.Cuts

/-!
# Macro definitions and blocks

The definitions of a library are told by their tags, without asking whether one is open, and all of
them share one block stack with the text between them.  No definition ends with a block open, but
one may begin with a block open, and close it.
-/

namespace TemploTwig

open Emitted (sourceAll brackets)

/-! ## Definitions that take turns -/

/-- Opening and closing brackets take turns, and the last one closes; `inside` says that one is
    open in front of them. -/
def Bracket.Alternate {α : Type} : (inside : Bool) → List (Bracket α) → Prop
  | inside, [] => inside = false
  | inside, opening _ :: bs => inside = false ∧ Alternate true bs
  | inside, closing _ :: bs => inside = true ∧ Alternate false bs

/-- The bracket of an enclosure. -/
def Bracket.enclosure? : Bracket Scope → Option (Bracket Enclosure)
  | opening (.enclosure e) => some (opening e)
  | closing (.enclosure e) => some (closing e)
  | _ => none

namespace Mark

/-- The directives among marks. -/
def directives (ms : List Mark) : List Directive :=
  ms.filterMap fun
    | directive d => some d
    | _ => none

theorem directives_directive (d : Directive) (ms : List Mark) :
    directives (directive d :: ms) = d :: directives ms := rfl

/-- The enclosures among marks, as brackets. -/
def enclosures (ms : List Mark) : List (Bracket Enclosure) :=
  ms.filterMap fun
    | directive _ => none
    | enter e => some (.opening e)
    | leave e => some (.closing e)

/-- No block is open where an enclosure begins, if `n` blocks are open in front. -/
def EntersClear (n : Nat) (ms : List Mark) : Prop :=
  ∀ front e back, ms = front ++ enter e :: back → depthAfter? n (directives front) = some 0

variable {n : Nat} {ms : List Mark}

theorem entersClear_nil : EntersClear n [] := by
  intro front e back h
  exact absurd h (by simp)

/-- `EntersClear` skips a mark that does not begin an enclosure. -/
private theorem entersClear_cons_iff {m : Mark} (hm : ∀ e, m ≠ enter e) :
    EntersClear n (m :: ms) ↔ ∀ front e back, ms = front ++ enter e :: back →
      depthAfter? n (directives (m :: front)) = some 0 := by
  constructor
  · intro h front e back hms
    exact h (m :: front) e back (by rw [hms]; rfl)
  · intro h front e back hms
    cases front with
    | nil => exact absurd (List.cons.inj hms).1 (hm e)
    | cons m' front =>
      obtain ⟨rfl, hrest⟩ := List.cons.inj hms
      exact h front e back hrest

theorem entersClear_opener_iff {d : Directive} (hd : d.IsOpener) :
    EntersClear n (directive d :: ms) ↔ EntersClear (n + 1) ms := by
  rw [entersClear_cons_iff (by simp)]
  simp only [EntersClear, directives_directive, depthAfter?, if_pos hd]

/-- `EntersClear` behind an end has one block fewer. -/
theorem entersClear_endBlock_iff :
    EntersClear (n + 1) (directive .endBlock :: ms) ↔ EntersClear n ms := by
  rw [entersClear_cons_iff (by simp)]
  simp only [EntersClear, directives_directive, depthAfter?, if_neg not_isOpener_endBlock, if_true,
    if_neg (Nat.succ_ne_zero n), Nat.add_sub_cancel]

theorem entersClear_other_iff {d : Directive} (hd : ¬d.IsOpener) (hend : d ≠ .endBlock) :
    EntersClear n (directive d :: ms) ↔ EntersClear n ms := by
  rw [entersClear_cons_iff (by simp)]
  simp only [EntersClear, directives_directive, depthAfter?, if_neg hd, if_neg hend]

theorem entersClear_leave_iff {e : Enclosure} :
    EntersClear n (leave e :: ms) ↔ EntersClear n ms := by
  rw [entersClear_cons_iff (by simp)]
  rfl

/-- `EntersClear` needs every block closed where an enclosure begins. -/
theorem entersClear_enter_iff {e : Enclosure} :
    EntersClear n (enter e :: ms) ↔ n = 0 ∧ EntersClear n ms := by
  constructor
  · intro h
    refine ⟨Option.some.inj (h [] e ms rfl), fun front e' back hms => ?_⟩
    exact h (enter e :: front) e' back (by rw [hms]; rfl)
  · rintro ⟨rfl, h⟩ front e' back hms
    cases front with
    | nil => rfl
    | cons m front =>
      obtain ⟨rfl, hrest⟩ := List.cons.inj hms
      exact h front e' back hrest

end Mark

namespace Tags

open Mark (EntersClear)

variable {kinds kinds' : List BlockKind} {ms : List Mark} {bs : List (Bracket Scope)}

/-- `Tags` has the brackets of the enclosures, in order. -/
theorem filterMap_enclosure? (h : Tags kinds ms bs kinds') :
    bs.filterMap Bracket.enclosure? = Mark.enclosures ms := by
  induction h with
  | nil => rfl
  | opener _ _ ih => exact ih
  | endBlock _ ih => exact ih
  | other _ _ _ ih => exact ih
  | enter _ ih => exact congrArg (_ :: ·) ih
  | leave _ _ ih => exact congrArg (_ :: ·) ih

/-- Marks between definitions, and marks inside a definition that began with `m` blocks open. -/
private theorem run_eq_some_iff_aux (h : Tags kinds ms bs kinds') (hkinds : kinds' = [])
    (hms : ∀ e, .enter e ∈ ms ∨ .leave e ∈ ms → e = .definition) :
    (Bracket.Alternate false (Mark.enclosures ms) →
      (Mark.run (kinds.length, []) ms = some (0, []) ↔ EntersClear kinds.length ms)) ∧
    ∀ m k, kinds.length = m + k → Bracket.Alternate true (Mark.enclosures ms) →
      (Mark.run (k, [(.definition, m)]) ms = some (0, []) ↔
        m = 0 ∧ EntersClear kinds.length ms) := by
  have hrest {m : Mark} {ms : List Mark}
      (h : ∀ e, .enter e ∈ m :: ms ∨ .leave e ∈ m :: ms → e = .definition) :
      ∀ e, .enter e ∈ ms ∨ .leave e ∈ ms → e = .definition :=
    fun e he => h e (he.imp (List.mem_cons_of_mem _) (List.mem_cons_of_mem _))
  induction h with
  | nil =>
    subst hkinds
    refine ⟨fun _ => ⟨fun _ => Mark.entersClear_nil, fun _ => rfl⟩, fun m k _ hinside => ?_⟩
    cases hinside
  | @opener d kind kinds _ ms bs hkind _ ih =>
    have hd : d.IsOpener := by rw [Directive.IsOpener, hkind]; rfl
    obtain ⟨houtside, hinside⟩ := ih hkinds (hrest hms)
    refine ⟨fun halternate => ?_, fun m k hlength halternate => ?_⟩
    · rw [Mark.run, if_pos hd, Mark.entersClear_opener_iff hd]
      exact houtside halternate
    · rw [Mark.run, if_pos hd, Mark.entersClear_opener_iff hd]
      exact hinside m (k + 1) (by rw [List.length_cons, hlength]; omega) halternate
  | @endBlock kind kinds _ ms bs _ ih =>
    obtain ⟨houtside, hinside⟩ := ih hkinds (hrest hms)
    refine ⟨fun halternate => ?_, fun m k hlength halternate => ?_⟩
    · rw [Mark.run, if_neg not_isOpener_endBlock, if_pos rfl, List.length_cons,
        if_neg (Nat.succ_ne_zero _), Mark.entersClear_endBlock_iff]
      exact houtside halternate
    · rw [Mark.run, if_neg not_isOpener_endBlock, if_pos rfl]
      rw [List.length_cons] at hlength ⊢
      cases k with
      | zero =>
        -- The end closes a block that was open before the definition.
        rw [if_pos rfl]
        have hm : ¬(m = 0 ∧ EntersClear (kinds.length + 1) (.directive .endBlock :: ms)) :=
          fun hm => absurd hm.1 (by omega)
        simp [hm]
      | succ k =>
        rw [if_neg (Nat.succ_ne_zero k), Mark.entersClear_endBlock_iff]
        exact hinside m k (by omega) halternate
  | other hd hend _ ih =>
    obtain ⟨houtside, hinside⟩ := ih hkinds (hrest hms)
    simp only [Mark.run, if_neg hd, if_neg hend, Mark.entersClear_other_iff hd hend]
    exact ⟨houtside, hinside⟩
  | @enter e kinds _ ms bs _ ih =>
    obtain rfl : e = .definition := hms e (.inl List.mem_cons_self)
    refine ⟨fun halternate => ?_, fun m k _ halternate => (by cases halternate.1)⟩
    rw [Mark.run, Mark.entersClear_enter_iff]
    exact (ih hkinds (hrest hms)).2 kinds.length 0 rfl halternate.2
  | @leave e kinds _ ms bs hclosed _ ih =>
    obtain rfl : e = .definition := hms e (.inr List.mem_cons_self)
    obtain rfl := hclosed rfl
    refine ⟨fun halternate => (by cases halternate.1), fun m k hlength halternate => ?_⟩
    -- No block is open, so none was open when the definition began.
    obtain ⟨rfl, rfl⟩ : m = 0 ∧ k = 0 := by
      rw [List.length_nil] at hlength
      omega
    rw [Mark.run, if_pos ⟨rfl, rfl⟩, Mark.entersClear_leave_iff, eq_self, true_and]
    exact (ih hkinds (hrest hms)).1 halternate.2

/-- Definitions that take turns nest with the blocks exactly when each begins with no block
    open. -/
theorem wellNested_iff_entersClear (h : Tags [] ms bs [])
    (hms : ∀ e, .enter e ∈ ms ∨ .leave e ∈ ms → e = .definition)
    (halternate : Bracket.Alternate false (Mark.enclosures ms)) :
    WellNested bs ↔ EntersClear 0 ms := by
  rw [h.wellNested_iff]
  exact (h.run_eq_some_iff_aux rfl hms).1 halternate

end Tags

/-! ## The tags of a library -/

namespace Convert

theorem keepsBlocks_get : KeepsBlocks (get : Convert Context) := by
  intro blocks ctx hctx
  exact ⟨hctx, fun _ _ => trivial, fun _ _ => trivial⟩

/-- `ensureClosed` passes with no block open, and changes nothing. -/
theorem kinds_of_run_ensureClosed {ctx ctx' : Context} {u : Unit}
    (h : ensureClosed.run.run ctx = (.ok u, ctx')) : ctx.blocks.kinds = [] ∧ ctx = ctx' := by
  cases hkinds : ctx.blocks.kinds with
  | nil =>
    have hclosed : ensureClosed.run.run ctx = (.ok (), ctx) :=
      run_nesting_ok (by rw [BlockStack.ensureClosed, hkinds])
    exact ⟨rfl, (Prod.mk.inj (hclosed.symm.trans h)).2⟩
  | cons kind kinds =>
    have hopen : ensureClosed.run.run ctx =
        (.error (.malformedNesting (.unclosed ctx.blocks.depth kind)), ctx) :=
      run_nesting_error (by rw [BlockStack.ensureClosed, hkinds])
    cases hopen.symm.trans h

end Convert

namespace Library

/-- The output for a directive between the attributes of a start tag. -/
def emitAttributeSpan (span : Text) : Convert (List Emitted) :=
  match AttributeDirective.classify? span with
  | some _ => return [.text (← convertAttributeSpan span)]
  | none => emitDirective span

/-- The output for a piece of a start tag. -/
def emitTagPiece : Piece Inline → Convert (List Emitted)
  | .token (.directive span) => emitAttributeSpan span
  | p => return [.text (← convertTagPiece p)]

/-- The output for the start tag at `offset`. -/
def emitTag (source : Text) (offset : Nat) (tag : StartTag) : Convert (List Emitted) :=
  if tag.name = containerName then return []
  else if tag.name = definitionElement then
    match definitionName? tag with
    | some name => return [.opening (.enclosure .definition) name]
    | none => throw (missingName source offset)
  else do return (← tag.pieces.mapM emitTagPiece).flatten

/-- The output for markup other than a start tag. -/
def emitMarkup (markup : Text) : Convert (List Emitted) :=
  if isEndTag containerName markup then return []
  else if isEndTag definitionElement markup then do
    Convert.ensureClosed
    return [.closing (.enclosure .definition)]
  else return [.text markup]

/-- The output for the segment at `offset`. -/
def emitSegment (source : Text) (offset : Nat) : Segment → Convert (List Emitted)
  | .plain t => return [.text t]
  | .token (.inline (.directive span)) => emitDirective span
  | .token (.inline (.call call)) => return [.text ((← get).renderCall call)]
  | .token (.startTag tag) => emitTag source offset tag
  | .token (.markup markup) => emitMarkup markup

/-- The output for segments, the first of them at `offset`. -/
def emitSegments (source : Text) (offset : Nat) : List Segment → Convert (List Emitted)
  | [] => return []
  | s :: ss => do
    let front ← emitSegment source offset s
    let back ← emitSegments source (offset + (s.render Token.source).byteSize) ss
    return front ++ back

/-- `convertTagPiece` prints what `emitTagPiece` emits. -/
theorem convertTagPiece_eq_emitTagPiece (p : Piece Inline) :
    convertTagPiece p = sourceAll <$> emitTagPiece p := by
  cases p with
  | plain t => simp [emitTagPiece, Emitted.source]
  | token inline =>
    cases inline with
    | call call => simp [emitTagPiece, Emitted.source]
    | directive span =>
      rw [convertTagPiece, emitTagPiece, emitAttributeSpan]
      cases hspan : AttributeDirective.classify? span with
      | none =>
        rw [convertAttributeSpan, hspan]
        exact renderDirective_eq_emitDirective span
      | some directive => simp [Emitted.source]

/-- `convertTag` prints what `emitTag` emits. -/
theorem convertTag_eq_emitTag (source : Text) (offset : Nat) (tag : StartTag) :
    convertTag source offset tag = sourceAll <$> emitTag source offset tag := by
  unfold convertTag emitTag
  split
  · rfl
  · split
    · cases definitionName? tag with
      | none => rfl
      | some name =>
        have hopening : sourceAll [.opening (.enclosure .definition) name] =
            (Twig.Statement.defineMacro name).text := List.append_nil _
        simp only [map_pure, hopening]
    · exact flatten_mapM_eq_sourceAll convertTagPiece_eq_emitTagPiece _

/-- `convertMarkup` prints what `emitMarkup` emits. -/
theorem convertMarkup_eq_emitMarkup (markup : Text) :
    convertMarkup markup = sourceAll <$> emitMarkup markup := by
  have hclosing : sourceAll [.closing (.enclosure .definition)] = Twig.Statement.endMacro.text := rfl
  unfold convertMarkup emitMarkup
  split
  · rfl
  · split
    · simp only [map_eq_pure_bind, bind_assoc, pure_bind, hclosing]
    · simp [Emitted.source]

/-- `convertSegment` prints what `emitSegment` emits. -/
theorem convertSegment_eq_emitSegment (source : Text) (offset : Nat) (s : Segment) :
    convertSegment source offset s = sourceAll <$> emitSegment source offset s := by
  match s with
  | .plain t => simp [convertSegment, emitSegment, Emitted.source]
  | .token (.inline (.directive span)) => exact renderDirective_eq_emitDirective span
  | .token (.inline (.call call)) => simp [convertSegment, emitSegment, Emitted.source]
  | .token (.startTag tag) => exact convertTag_eq_emitTag source offset tag
  | .token (.markup markup) => exact convertMarkup_eq_emitMarkup markup

/-- `convertSegments` prints what `emitSegments` emits. -/
theorem convertSegments_eq_emitSegments (source : Text) (offset : Nat) (ss : List Segment) :
    convertSegments source offset ss = sourceAll <$> emitSegments source offset ss := by
  induction ss generalizing offset with
  | nil => rfl
  | cons s ss ih =>
    rw [convertSegments, emitSegments, convertSegment_eq_emitSegment, ih]
    simp

/-! ## The marks of a library -/

/-- What decides about the tags of a piece of a start tag: a directive that is no attribute. -/
def tagPieceMarks : Piece Inline → List Mark
  | .token (.directive span) =>
    if (AttributeDirective.classify? span).isSome then [] else [.directive (Directive.classify span)]
  | _ => []

/-- What decides about the tags of a segment. -/
def segmentMarks : Segment → List Mark
  | .token (.inline (.directive span)) => [.directive (Directive.classify span)]
  | .token (.startTag tag) =>
    if tag.name = containerName then []
    else if tag.name = definitionElement then [.enter .definition]
    else tag.pieces.flatMap tagPieceMarks
  | .token (.markup markup) =>
    if isEndTag containerName markup then []
    else if isEndTag definitionElement markup then [.leave .definition]
    else []
  | _ => []

/-- What decides about the tags of a library. -/
def marks (source : Text) : List Mark := (segments source).flatMap segmentMarks

/-- `tagPieceMarks` are directives. -/
theorem exists_directive_of_mem_tagPieceMarks {p : Piece Inline} {m : Mark}
    (hm : m ∈ tagPieceMarks p) : ∃ d, m = .directive d := by
  unfold tagPieceMarks at hm
  split at hm
  · split at hm
    · cases hm
    · exact ⟨_, List.mem_singleton.1 hm⟩
  · cases hm

/-- `segmentMarks` are directives, or the start or end of a definition. -/
theorem cases_of_mem_segmentMarks {s : Segment} {m : Mark} (hm : m ∈ segmentMarks s) :
    (∃ d, m = .directive d) ∨ m = .enter .definition ∨ m = .leave .definition := by
  unfold segmentMarks at hm
  split at hm
  · exact .inl ⟨_, List.mem_singleton.1 hm⟩
  · -- a start tag
    split at hm
    · cases hm
    · split at hm
      · exact .inr (.inl (List.mem_singleton.1 hm))
      · obtain ⟨p, -, hp⟩ := List.mem_flatMap.1 hm
        exact .inl (exists_directive_of_mem_tagPieceMarks hp)
  · -- an end tag or other markup
    split at hm
    · cases hm
    · split at hm
      · exact .inr (.inr (List.mem_singleton.1 hm))
      · cases hm
  · cases hm

/-- The enclosures among the `marks` of a library are its definitions. -/
theorem eq_definition_of_mem_marks {source : Text} {e : Enclosure}
    (h : .enter e ∈ marks source ∨ .leave e ∈ marks source) : e = .definition := by
  rcases h with h | h
  · obtain ⟨s, -, hs⟩ := List.mem_flatMap.1 h
    rcases cases_of_mem_segmentMarks hs with ⟨d, hd⟩ | hd | hd
    · cases hd
    · exact Mark.enter.inj hd
    · cases hd
  · obtain ⟨s, -, hs⟩ := List.mem_flatMap.1 h
    rcases cases_of_mem_segmentMarks hs with ⟨d, hd⟩ | hd | hd
    · cases hd
    · cases hd
    · exact Mark.leave.inj hd

/-- `emitTagPiece` prints the tags of the marks of a piece. -/
theorem printsTags_emitTagPiece {p : Piece Inline}
    (h : ∀ d ∈ Mark.directives (tagPieceMarks p), d.isSwitching = false) :
    Convert.PrintsTags (tagPieceMarks p) (emitTagPiece p) := by
  match p with
  | .plain t =>
    exact (Convert.keepsBlocks_pure _).printsTags_bind fun _ => Convert.printsTags_pure rfl
  | .token (.call call) =>
    refine Convert.KeepsBlocks.printsTags_bind ?_ fun _ => Convert.printsTags_pure rfl
    exact Convert.keepsBlocks_get.bind fun _ => Convert.keepsBlocks_pure _
  | .token (.directive span) =>
    rw [tagPieceMarks] at h ⊢
    rw [emitTagPiece, emitAttributeSpan]
    cases hspan : AttributeDirective.classify? span with
    -- What is no attribute directive is rendered as in running text.
    | none =>
      rw [hspan] at h
      exact Convert.printsTags_emitDirective (h _ (by simp [Mark.directives]))
    -- An attribute directive opens and closes nothing.
    | some directive =>
      refine Convert.KeepsBlocks.printsTags_bind ?_ fun _ => Convert.printsTags_pure rfl
      rw [convertAttributeSpan, hspan]
      simp only
      split
      · exact Convert.keepsBlocks_pure _
      · exact (Convert.keepsBlocks_modify fun _ => rfl).bind fun _ => Convert.keepsBlocks_pure _

/-- `emitTag` prints the tags of the marks of a start tag. -/
theorem printsTags_emitTag {tag : StartTag}
    (h : ∀ d ∈ Mark.directives (segmentMarks (.token (.startTag tag))), d.isSwitching = false)
    (source : Text) (offset : Nat) :
    Convert.PrintsTags (segmentMarks (.token (.startTag tag))) (emitTag source offset tag) := by
  rw [segmentMarks] at h ⊢
  unfold emitTag
  split
  · -- The tag of the container is dropped.
    exact Convert.printsTags_pure rfl
  · next hcontainer =>
    rw [if_neg hcontainer] at h
    split
    · -- A definition opens an enclosure; without a name it is an error.
      intro ctx es ctx' hrun
      cases hname : definitionName? tag with
      | none => rw [hname] at hrun; cases hrun
      | some name =>
        rw [hname] at hrun
        obtain ⟨hes, rfl⟩ := Prod.mk.inj hrun
        rw [← Except.ok.inj hes]
        exact .enter .nil
    · next hdefinition =>
      rw [if_neg hdefinition] at h
      refine Convert.printsTags_flatten_mapM fun p hp => printsTags_emitTagPiece fun d hd => ?_
      rw [Mark.directives, List.filterMap_flatMap] at h
      exact h d (List.mem_flatMap.2 ⟨p, hp, hd⟩)

/-- `emitMarkup` leaves a definition only when no block is open. -/
theorem printsTags_emitMarkup (markup : Text) :
    Convert.PrintsTags (segmentMarks (.token (.markup markup))) (emitMarkup markup) := by
  rw [segmentMarks]
  unfold emitMarkup
  split
  · exact Convert.printsTags_pure rfl
  · split
    · intro ctx es ctx' hrun
      obtain ⟨_, ctx₁, hclosed, hrun⟩ := Convert.exists_of_run_bind hrun
      obtain ⟨hes, rfl⟩ := Prod.mk.inj hrun
      obtain ⟨hkinds, rfl⟩ := Convert.kinds_of_run_ensureClosed hclosed
      rw [← Except.ok.inj hes]
      exact .leave (fun _ => hkinds) .nil
    · exact Convert.printsTags_pure rfl

/-- `emitSegment` prints the tags of the marks of a segment. -/
theorem printsTags_emitSegment {s : Segment}
    (h : ∀ d ∈ Mark.directives (segmentMarks s), d.isSwitching = false) (source : Text)
    (offset : Nat) :
    Convert.PrintsTags (segmentMarks s) (emitSegment source offset s) := by
  match s with
  | .plain t => exact Convert.printsTags_pure rfl
  | .token (.inline (.directive span)) =>
    exact Convert.printsTags_emitDirective (h _ (by simp [Mark.directives, segmentMarks]))
  | .token (.inline (.call call)) =>
    exact Convert.keepsBlocks_get.printsTags_bind fun _ => Convert.printsTags_pure rfl
  | .token (.startTag tag) => exact printsTags_emitTag h source offset
  | .token (.markup markup) => exact printsTags_emitMarkup markup

/-- `emitSegments` prints the tags of the marks of a library. -/
theorem printsTags_emitSegments {ss : List Segment}
    (h : ∀ d ∈ Mark.directives (ss.flatMap segmentMarks), d.isSwitching = false) (source : Text)
    (offset : Nat) :
    Convert.PrintsTags (ss.flatMap segmentMarks) (emitSegments source offset ss) := by
  induction ss generalizing offset with
  | nil => exact Convert.printsTags_pure rfl
  | cons s ss ih =>
    rw [List.flatMap_cons, Mark.directives, List.filterMap_append] at h
    rw [emitSegments, List.flatMap_cons]
    exact (printsTags_emitSegment (fun d hd => h d (List.mem_append_left _ hd)) source offset).append
      (ih (fun d hd => h d (List.mem_append_right _ hd)) _)

/-- The tags of an accepted library are well nested, with definitions that take turns, exactly when
    its definition tags take turns and each definition begins where the directives in front of it
    are balanced. -/
theorem tags_wellNested_iff {options : Options} {source out : Text}
    (hswitching : ∀ d ∈ Mark.directives (marks source), d.isSwitching = false)
    (hout : ((convert source).run.run { options, kind := .library }).1 = .ok out) :
    ∃ es,
      ((emitSegments source 0 (segments source)).run.run { options, kind := .library }).1 = .ok es ∧
      sourceAll es = out ∧
      (WellNested (brackets es) ∧
          Bracket.Alternate false ((brackets es).filterMap Bracket.enclosure?) ↔
        Bracket.Alternate false (Mark.enclosures (marks source)) ∧
          ∀ front e back, marks source = front ++ .enter e :: back →
            Balanced (Mark.directives front)) := by
  have hrun : (convert source).run.run { options, kind := .library } =
      (.ok out, ((convert source).run.run { options, kind := .library }).2) := Prod.ext hout rfl
  obtain ⟨output, ctx, houtput, hrun⟩ := Convert.exists_of_run_bind hrun
  obtain ⟨_, ctx', hclosed, hrun⟩ := Convert.exists_of_run_bind hrun
  obtain rfl := Except.ok.inj (Prod.mk.inj hrun).1
  obtain ⟨hkinds, -⟩ := Convert.kinds_of_run_ensureClosed hclosed
  rw [convertSegments_eq_emitSegments] at houtput
  obtain ⟨es, hes, hsource⟩ := Convert.exists_of_run_map houtput
  have htags : Tags [] (marks source) (brackets es) ctx.blocks.kinds :=
    printsTags_emitSegments hswitching source 0 _ es ctx hes
  rw [hkinds] at htags
  refine ⟨es, congrArg Prod.fst hes, hsource, ?_⟩
  -- The definition tags of the output are those of the source.
  rw [htags.filterMap_enclosure?, and_comm]
  refine and_congr_right fun halternate => ?_
  rw [htags.wellNested_iff_entersClear (fun _ => eq_definition_of_mem_marks) halternate]
  simp only [Mark.EntersClear, balanced_iff_depthAfter?]

/-- A definition with a loop in it, behind a block that is closed. -/
def tidy : Text :=
  "<macros>::if x::y::end::<macro name=\"a(b)\">::foreach i b::z::end::</macro></macros>".toList

/-- A definition with a block of its own. -/
theorem tags_wellNested_iff_tidy :
    let ctx : Context := { options := {}, kind := .library }
    (∀ d ∈ Mark.directives (marks tidy), d.isSwitching = false) ∧
      ∃ out es, ((convert tidy).run.run ctx).1 = .ok out ∧ sourceAll es = out ∧
        WellNested (brackets es) := by
  intro ctx
  have hswitching : ∀ d ∈ Mark.directives (marks tidy), d.isSwitching = false := by decide +kernel
  have hmarks : marks tidy = [.directive (.ifThen "x".toList), .directive .endBlock,
      .enter .definition, .directive (.foreach "i".toList "b".toList), .directive .endBlock,
      .leave .definition] := by decide +kernel
  have halternate : Bracket.Alternate false (Mark.enclosures (marks tidy)) := by
    rw [hmarks]
    exact ⟨rfl, rfl, rfl⟩
  have hclear : Mark.EntersClear 0 (marks tidy) := by
    rw [hmarks, Mark.entersClear_opener_iff (by decide), Mark.entersClear_endBlock_iff,
      Mark.entersClear_enter_iff, Mark.entersClear_opener_iff (by decide),
      Mark.entersClear_endBlock_iff, Mark.entersClear_leave_iff]
    exact ⟨rfl, Mark.entersClear_nil⟩
  obtain ⟨out, hout⟩ : ∃ out, ((convert tidy).run.run ctx).1 = .ok out := by
    have hok : ((convert tidy).run.run ctx).1.isOk = true := by decide +kernel
    cases hresult : ((convert tidy).run.run ctx).1 with
    | ok out => exact ⟨out, rfl⟩
    | error e => rw [hresult] at hok; cases hok
  obtain ⟨es, -, hsource, hiff⟩ := tags_wellNested_iff hswitching hout
  have hbalanced (front : List Mark) (e : Enclosure) (back : List Mark)
      (h : marks tidy = front ++ .enter e :: back) : Balanced (Mark.directives front) :=
    balanced_iff_depthAfter?.2 (hclear front e back h)
  exact ⟨hswitching, out, es, hout, hsource, (hiff.2 ⟨halternate, hbalanced⟩).1⟩

/-- The block in front of the definition is closed inside it. -/
theorem tags_cross_definition :
    let source := "<macros>::if x::<macro name=\"a()\">::end::</macro></macros>"
    let crossed := "\x7b% if x %\x7d\x7b% macro a() %\x7d\x7b% endif %\x7d\x7b% endmacro %\x7d"
    let ctx : Context := { options := {}, kind := .library }
    ((convert source.toList).run.run ctx).1.toOption = some crossed.toList ∧
      ((emitSegments source.toList 0 (segments source.toList)).run.run ctx).1.toOption.map sourceAll =
        some crossed.toList ∧
      (((emitSegments source.toList 0 (segments source.toList)).run.run ctx).1.toOption.map fun es =>
        decide (WellNested ((brackets es).map (Bracket.map Scope.keyword)))) = some false := by
  decide +kernel

end Library

end TemploTwig
