import TemploTwig.Proofs.Lossless
import TemploTwig.Proofs.Nesting.Definitions
import TemploTwig.Proofs.Nesting.Document

/-!
# Definitions without a name

A library is converted up to the first thing that is wrong with it: a directive that is not allowed
where it stands, a definition that is left with a block open, or a definition without a name.  The
last of these is reported with the line of its tag.
-/

namespace TemploTwig

/-! ## Marks without a problem -/

namespace Mark

/-- Behind the directives `before` the marks meet no nesting error: each directive is allowed where
    it stands, and no block is open where an enclosure is left. -/
def Passes : (before : List Directive) → List Mark → Prop
  | _, [] => True
  | before, directive d :: ms => Allowed before d ∧ Passes (before ++ [d]) ms
  | before, enter _ :: ms => Passes before ms
  | before, leave _ :: ms => unmatched before = [] ∧ Passes before ms

theorem directives_append (ms ms' : List Mark) :
    directives (ms ++ ms') = directives ms ++ directives ms' := List.filterMap_append

/-- `Passes` goes on behind the directives in front. -/
theorem passes_append_iff {before : List Directive} {ms ms' : List Mark} :
    Passes before (ms ++ ms') ↔ Passes before ms ∧ Passes (before ++ directives ms) ms' := by
  induction ms generalizing before with
  | nil => simp [Passes, directives]
  | cons m ms ih =>
    rw [List.cons_append]
    cases m with
    | directive d =>
      have hassoc : before ++ d :: directives ms = before ++ [d] ++ directives ms := by simp
      rw [Passes, Passes, ih, directives_directive, hassoc, and_assoc]
    | enter e => exact ih
    | leave e =>
      rw [Passes, Passes, ih, and_assoc]
      rfl

/-- Marks are accepted as long as they meet no nesting error. -/
def nesting : Criterion Mark where
  Accepts ms ctx := Follows (directives ms) ctx ∧ Passes [] ms
  Refuses ms e := ¬Passes [] ms ∧ ∃ problem, e = .malformedNesting problem
  refuses_append _ := And.imp_left fun hfails hpasses => hfails (passes_append_iff.1 hpasses).1

variable {α : Type} {ms : List Mark}

/-- A step without directives that goes on and leaves the blocks alone. -/
theorem judges_of_run {x : Convert α} (hms : directives ms = []) (hpasses : ∀ ds, Passes ds ms)
    (hx : ∀ ctx, ∃ a ctx', x.run.run ctx = (.ok a, ctx') ∧ ctx'.blocks = ctx.blocks ∧
      ctx'.switches = ctx.switches) : nesting.Judges ms x := by
  rintro before ctx ⟨hfollows, hbefore⟩
  obtain ⟨a, ctx', hrun, hblocks, hswitches⟩ := hx ctx
  refine .inl ⟨a, ctx', hrun, ?_, passes_append_iff.2 ⟨hbefore, hpasses _⟩⟩
  rw [directives_append, hms, List.append_nil]
  exact hfollows.congr hblocks hswitches

theorem judges_get : nesting.Judges [] (get : Convert Context) :=
  judges_of_run rfl (fun _ => trivial) fun ctx => ⟨ctx, ctx, rfl, rfl, rfl⟩

theorem judges_warn (w : Warning) : nesting.Judges [] (Convert.warn w) :=
  judges_of_run rfl (fun _ => trivial) fun ctx => ⟨(), ctx.warn w, rfl, rfl, rfl⟩

/-- `renderDirective` goes on as its mark passes. -/
theorem judges_renderDirective (span : Text) :
    nesting.Judges [.directive (Directive.classify span)] (renderDirective span) := by
  rintro before ctx ⟨hfollows, hbefore⟩
  rcases hfollows.step span (Directive.classify span) with ⟨out, ctx', hrun, hfollows', -⟩ |
    ⟨e, ctx', hrun, hrefuses⟩
  · refine .inl ⟨out, ctx', hrun, ?_, passes_append_iff.2 ⟨hbefore, ?_, trivial⟩⟩
    · rw [directives_append]
      exact hfollows'
    · exact hfollows'.nested _ _ [] rfl
  · refine .inr ⟨_, ctx', hrun, fun hpasses => ?_, e, rfl⟩
    exact hrefuses.not_allowed (passes_append_iff.1 hpasses).2.1

/-- `ensureClosed` goes on as the end of an enclosure passes. -/
theorem judges_ensureClosed (e : Enclosure) : nesting.Judges [.leave e] Convert.ensureClosed := by
  rintro before ctx ⟨hfollows, hbefore⟩
  rcases hfollows.ensureClosed with ⟨hnil, hrun⟩ | ⟨opener, kind, hlast, -, hrun⟩
  · refine .inl ⟨(), ctx, hrun, ?_, passes_append_iff.2 ⟨hbefore, hnil, trivial⟩⟩
    rw [directives_append]
    simpa [directives] using hfollows
  · refine .inr ⟨_, ctx, hrun, fun hpasses => ?_, _, rfl⟩
    obtain ⟨hnil, -⟩ := (passes_append_iff.1 hpasses).2
    rw [List.nil_append] at hnil
    rw [hnil] at hlast
    cases hlast

end Mark

/-! ## Names of definitions -/

namespace Library

/-- The tag begins a definition, but it has no attribute `name`, or the first one has no value or a
    blank one. -/
def IsNameless (tag : StartTag) : Prop :=
  tag.name = definitionElement ∧
    ((∀ a ∈ tag.attributes, a.name ≠ "name".toList) ∨
      ∃ front a back, tag.attributes = front ++ a :: back ∧
        (∀ b ∈ front, b.name ≠ "name".toList) ∧ a.name = "name".toList ∧
        ∀ value, a.value.text? = some value → value.trim = [])

/-- `IsNameless` says that `definitionName?` finds no name. -/
theorem isNameless_iff {tag : StartTag} :
    IsNameless tag ↔ tag.name = definitionElement ∧ definitionName? tag = none := by
  refine and_congr_right fun _ => ?_
  -- Only the first attribute of the name counts, and its value may be missing or blank.
  rw [definitionName?]
  constructor
  · rintro (hnone | ⟨front, a, back, hsplit, hfront, hname, hblank⟩)
    · have hfind : tag.attributes.find? (·.name = "name".toList) = none :=
        List.find?_eq_none.2 fun a ha => by simpa using hnone a ha
      rw [hfind]
      rfl
    · have hfind : tag.attributes.find? (·.name = "name".toList) = some a :=
        List.find?_eq_some_iff_append.2
          ⟨by simpa using hname, front, back, hsplit, fun b hb => by simpa using hfront b hb⟩
      rw [hfind, Option.bind_some]
      cases hvalue : a.value.text? with
      | none => rfl
      | some value => simp [Option.filter, Text.trim_eq_nil_iff.1 (hblank value hvalue)]
  · intro h
    cases hfind : tag.attributes.find? (·.name = "name".toList) with
    | none =>
      refine .inl fun a ha => ?_
      simpa using List.find?_eq_none.1 hfind a ha
    | some a =>
      obtain ⟨hname, front, back, hsplit, hfront⟩ := List.find?_eq_some_iff_append.1 hfind
      refine .inr ⟨front, a, back, hsplit, fun b hb => by simpa using hfront b hb,
        by simpa using hname, fun value hvalue => Text.trim_eq_nil_iff.2 ?_⟩
      rw [hfind, Option.bind_some, hvalue] at h
      simpa [Option.filter] using h

/-- `convertTagPiece` goes on as its marks pass. -/
theorem judges_convertTagPiece (p : Piece Inline) :
    Mark.nesting.Judges (tagPieceMarks p) (convertTagPiece p) := by
  rcases p with t | (span | call)
  · exact Criterion.judges_pure _
  · rw [tagPieceMarks, convertTagPiece, convertAttributeSpan]
    cases AttributeDirective.classify? span with
    | none => exact Mark.judges_renderDirective span
    | some directive =>
      rw [if_pos (Option.isSome_some)]
      dsimp only
      split
      · exact Criterion.judges_pure _
      · exact (Mark.judges_warn _).map _
  · exact Mark.judges_get.map _

variable (source : Text) (offset : Nat)

/-- `convertTag` goes on as its marks pass, if it has a name. -/
theorem judges_convertTag {tag : StartTag} (h : ¬IsNameless tag) :
    Mark.nesting.Judges (segmentMarks (.token (.startTag tag))) (convertTag source offset tag) := by
  rw [segmentMarks]
  unfold convertTag
  split
  · exact Criterion.judges_pure _
  · split
    · next hname =>
      cases hdefinition : definitionName? tag with
      | none => exact absurd (isNameless_iff.2 ⟨hname, hdefinition⟩) h
      | some name =>
        exact Mark.judges_of_run rfl (fun _ => trivial) fun ctx => ⟨_, ctx, rfl, rfl, rfl⟩
    · exact (Criterion.judges_mapM fun p _ => judges_convertTagPiece p).map _

/-- `convertMarkup` goes on as its marks pass. -/
theorem judges_convertMarkup (markup : Text) :
    Mark.nesting.Judges (segmentMarks (.token (.markup markup))) (convertMarkup markup) := by
  rw [segmentMarks]
  unfold convertMarkup
  split
  · exact Criterion.judges_pure _
  · split
    · exact (Mark.judges_ensureClosed .definition).map _
    · exact Criterion.judges_pure _

/-- `convertSegment` goes on as its marks pass, if it has a name. -/
theorem judges_convertSegment {s : Segment}
    (h : ∀ tag, s = .token (.startTag tag) → ¬IsNameless tag) :
    Mark.nesting.Judges (segmentMarks s) (convertSegment source offset s) := by
  rcases s with t | ((span | call) | tag | markup)
  · exact Criterion.judges_pure _
  · exact Mark.judges_renderDirective span
  · exact Mark.judges_get.map _
  · exact judges_convertTag source offset (h tag rfl)
  · exact judges_convertMarkup markup

/-- `convertSegments` goes on as the marks pass, if no definition lacks a name. -/
theorem judges_convertSegments {ss : List Segment}
    (h : ∀ tag, .token (.startTag tag) ∈ ss → ¬IsNameless tag) :
    Mark.nesting.Judges (ss.flatMap segmentMarks) (convertSegments source offset ss) := by
  induction ss generalizing offset with
  | nil => exact Criterion.judges_pure _
  | cons s ss ih =>
    rw [convertSegments, List.flatMap_cons]
    have hhead := judges_convertSegment source offset
      fun tag (htag : s = _) => h tag (htag ▸ List.mem_cons_self)
    exact hhead.bind fun front =>
      (ih _ fun tag htag => h tag (List.mem_cons_of_mem s htag)).map (front ++ ·)

/-- The marks of segments pass exactly if no nesting error comes from converting the segments. -/
theorem passes_iff_not_malformedNesting (options : Options) {ss : List Segment}
    (h : ∀ tag, .token (.startTag tag) ∈ ss → ¬IsNameless tag) :
    Mark.Passes [] (ss.flatMap segmentMarks) ↔
      ∀ e, ((convertSegments source offset ss).run.run { options, kind := .library }).1 ≠
        .error (.malformedNesting e) := by
  rcases judges_convertSegments source offset h [] _ ⟨Follows.fresh options .library, trivial⟩ with
    ⟨out, ctx, hrun, -, hpasses⟩ | ⟨_, ctx, hrun, hfails, e, rfl⟩
  · refine iff_of_true hpasses fun e he => ?_
    rw [hrun] at he
    cases he
  · exact iff_of_false hfails fun hnone => hnone e (congrArg Prod.fst hrun)

/-- `convertSegments` comes to the segments `ss'` with the offset moved on by the bytes of all the
    segments in front of them. -/
theorem convertSegments_append (ss ss' : List Segment) :
    convertSegments source offset (ss ++ ss') = do
      let front ← convertSegments source offset ss
      let back ← convertSegments source (offset + (Piece.renderAll Token.source ss).byteSize) ss'
      return front ++ back := by
  induction ss generalizing offset with
  | nil =>
    have hzero : Text.byteSize [] = 0 := rfl
    simp [convertSegments, hzero]
  | cons s ss ih =>
    have hoffset : offset + (s.render Token.source).byteSize +
        (Piece.renderAll Token.source ss).byteSize =
          offset + (Piece.renderAll Token.source (s :: ss)).byteSize := by
      rw [Piece.renderAll_cons, Text.byteSize_append, Nat.add_assoc]
    rw [List.cons_append, convertSegments, convertSegments, ih, hoffset]
    simp only [bind_assoc, pure_bind, List.append_assoc]

variable {source : Text} {front back : List Segment} {s : Segment}

/-- What stands in front of a segment is cut off at its offset. -/
theorem isSlice_of_segments (hsource : segments source = front ++ s :: back) :
    source = Piece.renderAll Token.source front ++ s.render Token.source ++
      Piece.renderAll Token.source back ∧
    source.IsSlice 0 (Piece.renderAll Token.source front).byteSize
      (Piece.renderAll Token.source front) := by
  have hall := renderAll_segments source
  rw [hsource, Piece.renderAll_append, Piece.renderAll_cons, ← List.append_assoc] at hall
  have hslice := Text.isSlice_append [] (Piece.renderAll Token.source front)
    (s.render Token.source ++ Piece.renderAll Token.source back)
  have hzero : Text.byteSize [] = 0 := rfl
  rw [List.nil_append, ← List.append_assoc, hall, hzero, Nat.zero_add] at hslice
  exact ⟨hall.symm, hslice⟩

/-- `takeBytes?` never cuts through a character at the offset of a segment. -/
theorem takeBytes?_of_segments (hsource : segments source = front ++ s :: back) :
    source.takeBytes? (Piece.renderAll Token.source front).byteSize =
      some (Piece.renderAll Token.source front) := by
  refine Text.takeBytes?_eq_some_iff.2
    ⟨⟨s.render Token.source ++ Piece.renderAll Token.source back, ?_⟩, rfl⟩
  rw [← List.append_assoc]
  exact (isSlice_of_segments hsource).1

/-- The line in the error about a segment is that of the segment. -/
theorem missingName_of_segments (hsource : segments source = front ++ s :: back) :
    missingName source (Piece.renderAll Token.source front).byteSize =
      .missingMacroName ((Piece.renderAll Token.source front).count '\n' + 1) := by
  rw [missingName, lineAt?, takeBytes?_of_segments hsource]
  rfl

/-- Segments have a first definition without a name, or none. -/
theorem exists_first_nameless (ss : List Segment) :
    (∀ tag, .token (.startTag tag) ∈ ss → ¬IsNameless tag) ∨
      ∃ front tag back, ss = front ++ .token (.startTag tag) :: back ∧ IsNameless tag ∧
        ∀ tag', .token (.startTag tag') ∈ front → ¬IsNameless tag' := by
  induction ss with
  | nil => exact .inl fun tag htag => (by cases htag)
  | cons s ss ih =>
    by_cases hs : ∃ tag, s = .token (.startTag tag) ∧ IsNameless tag
    · obtain ⟨tag, rfl, htag⟩ := hs
      exact .inr ⟨[], tag, ss, rfl, htag, fun tag' htag' => (by cases htag')⟩
    · have hhead (tag : StartTag) (heq : s = .token (.startTag tag)) : ¬IsNameless tag :=
        fun htag => hs ⟨tag, heq, htag⟩
      rcases ih with hnone | ⟨front, tag, back, rfl, htag, hfront⟩
      · refine .inl fun tag hmem => ?_
        rcases List.mem_cons.1 hmem with heq | hmem
        · exact hhead tag heq.symm
        · exact hnone tag hmem
      · refine .inr ⟨s :: front, tag, back, rfl, htag, fun tag' hmem => ?_⟩
        rcases List.mem_cons.1 hmem with heq | hmem
        · exact hhead tag' heq.symm
        · exact hfront tag' hmem

/-- A definition without a name ends the conversion with the line of its offset. -/
theorem run_convertSegments_nameless {tag : StartTag} (htag : IsNameless tag) (source : Text)
    (offset : Nat) (ss : List Segment) (ctx : Context) :
    (convertSegments source offset (.token (.startTag tag) :: ss)).run.run ctx =
      (.error (missingName source offset), ctx) := by
  obtain ⟨hname, hnone⟩ := isNameless_iff.1 htag
  have hcontainer : tag.name ≠ containerName := by
    rw [hname]
    decide
  have hthrow : (convertSegment source offset (.token (.startTag tag))).run.run ctx =
      (.error (missingName source offset), ctx) := by
    rw [convertSegment, convertTag, if_neg hcontainer, if_pos hname, hnone]
    rfl
  exact Convert.run_bind_error hthrow _

/-- If every definition has a name, the conversion gives an output or a nesting error. -/
theorem result_convert_of_named (options : Options)
    (h : ∀ tag, .token (.startTag tag) ∈ segments source → ¬IsNameless tag) :
    (∃ e, ((convert source).run.run { options, kind := .library }).1 =
        .error (.malformedNesting e)) ∨
      ∃ out, ((convert source).run.run { options, kind := .library }).1 = .ok out := by
  have hjudges := (judges_convertSegments source 0 h).bind fun out =>
    (Mark.judges_ensureClosed .definition).map fun _ => out
  rcases hjudges [] _ ⟨Follows.fresh options .library, trivial⟩ with
    ⟨out, ctx, hrun, -⟩ | ⟨_, ctx, hrun, -, e, rfl⟩
  · exact .inr ⟨out, congrArg Prod.fst hrun⟩
  · exact .inl ⟨e, congrArg Prod.fst hrun⟩

/-- The definitions in front of one without a name are converted, and then the line of its tag is
    reported, unless a nesting error comes first. -/
theorem result_convert_of_nameless (options : Options) {tag : StartTag}
    (hsource : segments source = front ++ .token (.startTag tag) :: back)
    (htag : IsNameless tag) (hfront : ∀ tag', .token (.startTag tag') ∈ front → ¬IsNameless tag') :
    (Mark.Passes [] (front.flatMap segmentMarks) ∧
      ((convert source).run.run { options, kind := .library }).1 =
        .error (.missingMacroName ((Piece.renderAll Token.source front).count '\n' + 1))) ∨
    (¬Mark.Passes [] (front.flatMap segmentMarks) ∧
      ∃ e, ((convert source).run.run { options, kind := .library }).1 =
        .error (.malformedNesting e)) := by
  have hjudges :=
    judges_convertSegments source 0 hfront [] _ ⟨Follows.fresh options .library, trivial⟩
  rw [convert, hsource, convertSegments_append, Nat.zero_add]
  rcases hjudges with ⟨out, ctx, hrun, -, hpasses⟩ | ⟨_, ctx, hrun, hfails, e, rfl⟩
  · refine .inl ⟨hpasses, ?_⟩
    have hmissing := run_convertSegments_nameless htag source
      (Piece.renderAll Token.source front).byteSize back ctx
    rw [missingName_of_segments hsource] at hmissing
    rw [Convert.run_bind_error
      ((Convert.run_bind_ok hrun _).trans (Convert.run_bind_error hmissing _))]
  · refine .inr ⟨hfails, e, ?_⟩
    rw [Convert.run_bind_error (Convert.run_bind_error hrun _)]

/-- `convert` reports a missing name exactly if there is a definition without a name and the marks in
    front of the first one pass, which they do if `convertSegments` raises no nesting error on what
    stands there.  The line is that of its tag: one more than the line breaks in front of it.
    `convertSegments` comes to each segment with the number of bytes in front of it as the offset,
    and the slice of the source up to this offset ends between two characters. -/
theorem missingMacroName_iff (options : Options) (source : Text) (line : Nat) :
    (((convert source).run.run { options, kind := .library }).1 =
        .error (.missingMacroName line) ↔
      ∃ front tag back, segments source = front ++ .token (.startTag tag) :: back ∧
        IsNameless tag ∧ (∀ tag', .token (.startTag tag') ∈ front → ¬IsNameless tag') ∧
        Mark.Passes [] (front.flatMap segmentMarks) ∧
        line = (Piece.renderAll Token.source front).count '\n' + 1) ∧
    (∀ front : List Segment, (∀ tag, .token (.startTag tag) ∈ front → ¬IsNameless tag) →
      (Mark.Passes [] (front.flatMap segmentMarks) ↔
        ∀ e, ((convertSegments source 0 front).run.run { options, kind := .library }).1 ≠
          .error (.malformedNesting e))) ∧
    ∀ front s back, segments source = front ++ s :: back →
      source = Piece.renderAll Token.source front ++ s.render Token.source ++
        Piece.renderAll Token.source back ∧
      (convertSegments source 0 (segments source) = do
        let first ← convertSegments source 0 front
        let last ←
          convertSegments source (Piece.renderAll Token.source front).byteSize (s :: back)
        return first ++ last) ∧
      source.takeBytes? (Piece.renderAll Token.source front).byteSize =
        some (Piece.renderAll Token.source front) ∧
      source.IsSlice 0 (Piece.renderAll Token.source front).byteSize
        (Piece.renderAll Token.source front) := by
  refine ⟨⟨fun hresult => ?_, ?_⟩, fun front => passes_iff_not_malformedNesting source 0 options,
    fun front s back hsource => ⟨(isSlice_of_segments hsource).1, ?_,
      takeBytes?_of_segments hsource, (isSlice_of_segments hsource).2⟩⟩
  · rcases exists_first_nameless (segments source) with hnone |
      ⟨front, tag, back, hsource, htag, hfront⟩
    · -- Every definition has a name, so the conversion ends in another way.
      obtain ⟨e, hother⟩ | ⟨out, hother⟩ := result_convert_of_named options hnone
      · rw [hother] at hresult
        cases hresult
      · rw [hother] at hresult
        cases hresult
    · refine ⟨front, tag, back, hsource, htag, hfront, ?_⟩
      rcases result_convert_of_nameless options hsource htag hfront with
        ⟨hpasses, hmissing⟩ | ⟨-, e, hother⟩
      · rw [hmissing] at hresult
        exact ⟨hpasses, (ConvertError.missingMacroName.inj (Except.error.inj hresult)).symm⟩
      · rw [hother] at hresult
        cases hresult
  · rintro ⟨front, tag, back, hsource, htag, hfront, hpasses, rfl⟩
    rcases result_convert_of_nameless options hsource htag hfront with
      ⟨-, hmissing⟩ | ⟨hfails, -⟩
    · exact hmissing
    · exact absurd hpasses hfails
  · rw [hsource, convertSegments_append, Nat.zero_add]

end Library

end TemploTwig
