import TemploTwig.Proofs.Nesting.Matching

/-!
# The verdict on a sequence of directives

A sequence of directives is nested when every end has an opener to match and every case stands in
an open switch.  Rendering the directives one after the other follows the bracket matching: it goes
on as long as the sequence is nested, and stops at the first directive that is not allowed.
-/

namespace TemploTwig

/-- The directive may stand behind `before`. -/
def Allowed (before : List Directive) : Directive → Prop
  | .endBlock => unmatched before ≠ []
  | .nextCase => ∃ subject, .switch subject ∈ unmatched before
  | _ => True

/-- Every end has an unmatched opener before it, and every case stands in an open switch. -/
def Nested (ds : List Directive) : Prop :=
  ∀ before d after, ds = before ++ d :: after → Allowed before d

instance (before : List Directive) : DecidablePred (Allowed before)
  | .endBlock => inferInstanceAs (Decidable (unmatched before ≠ []))
  | .nextCase => decidable_of_iff (switchDepths (unmatched before) ≠ []) (by
      rw [ne_eq, switchDepths_eq_nil_iff]
      show _ ↔ ∃ subject, .switch subject ∈ unmatched before
      constructor
      · intro h
        apply Classical.byContradiction
        intro hnone
        exact h fun subject hmem => hnone ⟨subject, hmem⟩
      · rintro ⟨subject, hmem⟩ h
        exact h subject hmem)
  | .switch _ | .ifThen _ | .elseIf _ | .otherwise | .foreach _ _ | .contentBlock | .raw _
  | .fill _ | .assign _ | .inherit _ | .print _ => .isTrue trivial

/-- `Nested` by positions. -/
theorem nested_iff_getElem {ds : List Directive} :
    Nested ds ↔ ∀ i, (h : i < ds.length) → Allowed (ds.take i) (ds.get ⟨i, h⟩) := by
  constructor
  · intro h i hi
    apply h (ds.take i) (ds.get ⟨i, hi⟩) (ds.drop (i + 1))
    rw [List.get_eq_getElem, List.getElem_cons_drop, List.take_append_drop]
  · rintro h before d after rfl
    have hd := h before.length (by simp)
    simpa using hd

instance : DecidablePred Nested := fun _ => decidable_of_iff _ nested_iff_getElem.symm

/-- The error for a directive that may not stand behind `before`. -/
inductive Refuses (before : List Directive) : Directive → NestingError → Prop
  | endBlock (h : unmatched before = []) :
    Refuses before .endBlock (.unexpectedEnd (before.count .endBlock + 1))
  | nextCase (h : ∀ subject, .switch subject ∉ unmatched before) :
    Refuses before .nextCase .caseOutsideSwitch

/-- What is wrong with a sequence: the first directive that is not allowed or, when all are, the
    openers that are left. -/
inductive FirstProblem (ds : List Directive) : NestingError → Prop
  | refused {before after : List Directive} {d : Directive} {e : NestingError}
    (hds : ds = before ++ d :: after) (hbefore : Nested before) (h : Refuses before d e) :
    FirstProblem ds e
  | unclosed {opener : Directive} {kind : BlockKind} (hds : Nested ds)
    (hlast : (unmatched ds).getLast? = some opener) (hkind : opener.blockKind? = some kind) :
    FirstProblem ds (.unclosed (unmatched ds).length kind)

section Sequences

variable {ds before before' after after' : List Directive} {d d' : Directive} {e e' : NestingError}

theorem nested_nil : Nested [] := by
  intro before d after h
  exact absurd h (by simp)

/-- `Nested` directives go on with one that is allowed. -/
theorem Nested.concat (h : Nested ds) (hd : Allowed ds d) : Nested (ds ++ [d]) := by
  intro before d' after hsplit
  -- The directive in question is the new one, or it stands in the old sequence.
  rcases List.append_eq_append_iff.1 hsplit with ⟨mid, rfl, hmid⟩ | ⟨mid, rfl, hmid⟩
  · cases mid with
    | nil =>
      obtain ⟨rfl, -⟩ : d = d' ∧ [] = after := by simpa using hmid
      rwa [List.append_nil]
    | cons c mid => simp at hmid
  · cases mid with
    | nil =>
      obtain ⟨rfl, -⟩ : d' = d ∧ after = [] := by simpa using hmid
      rwa [List.append_nil] at hd
    | cons c mid =>
      obtain ⟨rfl, -⟩ := List.cons.inj hmid
      exact h before d' mid rfl

theorem Refuses.not_allowed (h : Refuses before d e) : ¬Allowed before d := by
  cases h with
  | endBlock h => exact fun hne => hne h
  | nextCase h => exact fun ⟨subject, hmem⟩ => h subject hmem

/-- `Refuses` has one error for a directive. -/
theorem Refuses.unique (h : Refuses before d e) (h' : Refuses before d e') : e = e' := by
  cases h with
  | endBlock _ => cases h' with
    | endBlock _ => rfl
  | nextCase _ => cases h' with
    | nextCase _ => rfl

/-- `Refuses` ends a nested sequence, so that none goes on behind it. -/
private theorem not_refuses_of_longer (hds : ds = before ++ d :: after) (h : Refuses before d e)
    (hds' : ds = before' ++ d' :: after') (hbefore' : Nested before') :
    ¬∃ c mid, before' = before ++ c :: mid := by
  rintro ⟨c, mid, rfl⟩
  rw [hds, List.append_assoc, List.append_cancel_left_eq] at hds'
  obtain ⟨rfl, -⟩ := List.cons.inj hds'
  exact h.not_allowed (hbefore' before d mid rfl)

/-- A sequence has one first directive that is not allowed. -/
theorem FirstProblem.unique_refused (hds : ds = before ++ d :: after) (hbefore : Nested before)
    (h : Refuses before d e) (hds' : ds = before' ++ d' :: after') (hbefore' : Nested before')
    (h' : Refuses before' d' e') : e = e' := by
  have heq := hds.symm.trans hds'
  -- Of two directives that are not allowed, the later one would stand behind a sequence that is
  -- not nested.
  have hsame : before = before' := by
    rcases List.append_eq_append_iff.1 heq with ⟨mid, hmid, -⟩ | ⟨mid, hmid, -⟩
    · cases mid with
      | nil => rw [hmid, List.append_nil]
      | cons c mid => exact absurd ⟨c, mid, hmid⟩ (not_refuses_of_longer hds h hds' hbefore')
    · cases mid with
      | nil => rw [hmid, List.append_nil]
      | cons c mid => exact absurd ⟨c, mid, hmid⟩ (not_refuses_of_longer hds' h' hds hbefore)
  subst hsame
  obtain ⟨rfl, -⟩ := List.cons.inj (List.append_cancel_left heq)
  exact h.unique h'

/-- A nested sequence has no directive that is not allowed. -/
theorem Nested.not_refused (hnested : Nested ds) (hds : ds = before ++ d :: after) :
    ¬Refuses before d e :=
  fun h => h.not_allowed (hnested before d after hds)

/-- A sequence has one first problem. -/
theorem FirstProblem.unique (h : FirstProblem ds e) (h' : FirstProblem ds e') : e = e' := by
  cases h with
  | refused hds hbefore h =>
    cases h' with
    | refused hds' hbefore' h' =>
      exact FirstProblem.unique_refused hds hbefore h hds' hbefore' h'
    | unclosed hnested _ _ => exact absurd h (hnested.not_refused hds)
  | unclosed hnested hlast hkind =>
    cases h' with
    | refused hds' _ h' => exact absurd h' (hnested.not_refused hds')
    | unclosed _ hlast' hkind' =>
      obtain rfl : _ = _ := Option.some.inj (hlast.symm.trans hlast')
      obtain rfl : _ = _ := Option.some.inj (hkind.symm.trans hkind')
      rfl

/-- A nested sequence that leaves no opener has no problem. -/
theorem FirstProblem.not_closed (h : FirstProblem ds e) : ¬(Nested ds ∧ unmatched ds = []) := by
  rintro ⟨hnested, hnil⟩
  cases h with
  | refused hds _ h => exact hnested.not_refused hds h
  | unclosed _ hlast _ =>
    rw [hnil] at hlast
    cases hlast

end Sequences

/-- The context after directives that were rendered one after the other: their unmatched openers
    are open, and their ends are counted. -/
structure Follows (ds : List Directive) (ctx : Context) : Prop where
  nested : Nested ds
  openers : ∃ openers, Leaves ds openers ∧ ctx.OpenedBy openers.reverse
  ends : ctx.blocks.endsSeen = ds.count .endBlock

namespace Follows

variable {ds : List Directive} {ctx : Context}

/-- `Follows` looks at the blocks and switches only. -/
theorem congr {ctx' : Context} (h : Follows ds ctx)
    (hblocks : ctx'.blocks = ctx.blocks) (hswitches : ctx'.switches = ctx.switches) :
    Follows ds ctx' := by
  obtain ⟨openers, hleaves, hopened⟩ := h.openers
  exact ⟨h.nested, ⟨openers, hleaves, hopened.congr (by rw [hblocks]) hswitches⟩,
    by rw [hblocks]; exact h.ends⟩

theorem openedBy (h : Follows ds ctx) : ctx.OpenedBy (unmatched ds).reverse := by
  obtain ⟨openers, hleaves, hopened⟩ := h.openers
  rw [hleaves.unmatched_eq]
  exact hopened

theorem leaves (h : Follows ds ctx) : Leaves ds (unmatched ds) := by
  obtain ⟨openers, hleaves, -⟩ := h.openers
  rw [hleaves.unmatched_eq]
  exact hleaves

theorem fresh (options : Options) (kind : TemplateKind) : Follows [] { options, kind } :=
  ⟨nested_nil, ⟨[], .balanced .nil, rfl, rfl⟩, rfl⟩

end Follows

/-- The ends of `ds`, which stands behind `before`, are each named after the opener they match. -/
def EndsNamed (before ds : List Directive) (outs : List Text) : Prop :=
  ∀ front back, ds = front ++ .endBlock :: back → ∃ opener kind,
    MatchedBy (before ++ front) opener ∧ opener.blockKind? = some kind ∧
      outs[front.length]? = some (Twig.Statement.close kind).text

/-- `Allowed` restricts ends and cases only. -/
theorem allowed_of_ne {d : Directive} (hend : d ≠ .endBlock) (hcase : d ≠ .nextCase)
    (ds : List Directive) : Allowed ds d := by
  cases d with
  | endBlock => exact absurd rfl hend
  | nextCase => exact absurd rfl hcase
  | _ => trivial

/-- `EndsNamed` looks at ends only. -/
theorem endsNamed_of_ne {d : Directive} (hend : d ≠ .endBlock) (before : List Directive)
    (out : Text) : EndsNamed before [d] [out] := by
  intro front back h
  have hmem : Directive.endBlock ∈ [d] := by rw [h]; simp
  exact absurd (List.mem_singleton.1 hmem).symm hend

/-- What is named directive by directive is named in the whole sequence. -/
theorem EndsNamed.cons {before ds : List Directive} {d : Directive} {out : Text}
    {outs : List Text} (hd : EndsNamed before [d] [out]) (hds : EndsNamed (before ++ [d]) ds outs) :
    EndsNamed before (d :: ds) (out :: outs) := by
  intro front back h
  cases front with
  | nil =>
    obtain ⟨rfl, -⟩ := List.cons.inj h
    exact hd [] [] rfl
  | cons c front =>
    obtain ⟨rfl, hrest⟩ := List.cons.inj h
    obtain ⟨opener, kind, hmatched, hkind, hout⟩ := hds front back hrest
    refine ⟨opener, kind, ?_, hkind, hout⟩
    rwa [List.append_assoc] at hmatched

namespace Follows

variable {ds : List Directive} {ctx ctx' : Context} {d : Directive}

/-- A directive other than an end keeps the count of the ends. -/
theorem concat_of_ne (h : Follows ds ctx) (hd : d ≠ .endBlock) (hallowed : Allowed ds d)
    {openers : List Directive} (hleaves : Leaves (ds ++ [d]) openers)
    (hopened : ctx'.OpenedBy openers.reverse)
    (hends : ctx'.blocks.endsSeen = ctx.blocks.endsSeen) : Follows (ds ++ [d]) ctx' := by
  refine ⟨h.nested.concat hallowed, ⟨openers, hleaves, hopened⟩, ?_⟩
  rw [hends, h.ends, List.count_append, List.count_singleton]
  simp [hd]

/-- `Follows` goes on at an opener. -/
theorem step_opener (h : Follows ds ctx) (hd : d.IsOpener) (span : Text) :
    ∃ out ctx', (renderClassified span d).run.run ctx = (.ok out, ctx') ∧
      Follows (ds ++ [d]) ctx' ∧ EndsNamed ds [d] [out] := by
  have hend : d ≠ .endBlock := by
    rintro rfl
    exact not_isOpener_endBlock hd
  have hcase : d ≠ .nextCase := by
    rintro rfl
    exact absurd hd (by decide)
  obtain ⟨out, ctx', hrun, hopened, hends⟩ := run_opener h.openedBy hd span
  refine ⟨out, ctx', hrun, ?_, endsNamed_of_ne hend ds out⟩
  refine h.concat_of_ne hend (allowed_of_ne hend hcase ds) (h.leaves.concat_opener hd) ?_ hends
  rwa [List.reverse_append]

/-- `Follows` goes on at an end with an opener, and the end is named by it. -/
theorem step_endBlock (h : Follows ds ctx) (hne : unmatched ds ≠ []) (span : Text) :
    ∃ out ctx', (renderClassified span .endBlock).run.run ctx = (.ok out, ctx') ∧
      Follows (ds ++ [.endBlock]) ctx' ∧ EndsNamed ds [.endBlock] [out] := by
  have hopened := h.openedBy
  -- The end closes the innermost block, that of the last unmatched opener.
  obtain ⟨init, opener, hsplit⟩ : ∃ init opener, unmatched ds = init ++ [opener] :=
    ⟨_, _, (List.dropLast_concat_getLast hne).symm⟩
  rw [hsplit, List.reverse_append] at hopened
  obtain ⟨kind, ctx', hkind, hrun, hopened', hends⟩ := run_endBlock_cons hopened span
  refine ⟨_, ctx', hrun, ⟨h.nested.concat hne, ⟨init, ?_, hopened'⟩, ?_⟩, ?_⟩
  · have hleaves := h.leaves.concat_endBlock hne
    rwa [hsplit, List.dropLast_concat] at hleaves
  · rw [hends, h.ends, List.count_append]
    rfl
  · intro front back hfront
    have hnil : front = [] := by
      cases front with
      | nil => rfl
      | cons c front => simp at hfront
    subst hnil
    refine ⟨opener, kind, ?_, hkind, rfl⟩
    rw [List.append_nil]
    exact h.leaves.matchedBy (by rw [hsplit]; simp)

/-- `Follows` goes on at a case inside a switch. -/
theorem step_nextCase (h : Follows ds ctx) {subject : Text}
    (hmem : .switch subject ∈ unmatched ds) (span : Text) :
    ∃ out ctx', (renderClassified span .nextCase).run.run ctx = (.ok out, ctx') ∧
      Follows (ds ++ [.nextCase]) ctx' ∧ EndsNamed ds [.nextCase] [out] := by
  rcases run_nextCase h.openedBy span with ⟨hnone, -⟩ | ⟨-, out, ctx', hrun, hopened, hends⟩
  · exact absurd (List.mem_reverse.2 hmem) (hnone subject)
  · refine ⟨out, ctx', hrun, ?_, endsNamed_of_ne (by simp) ds out⟩
    exact h.concat_of_ne (by simp) ⟨subject, hmem⟩
      (h.leaves.concat_other (by decide) (by simp)) hopened hends

/-- `Follows` goes on at a neutral directive. -/
theorem step_neutral (h : Follows ds ctx) (hd : d.IsNeutral) (span : Text) :
    ∃ out ctx', (renderClassified span d).run.run ctx = (.ok out, ctx') ∧
      Follows (ds ++ [d]) ctx' ∧ EndsNamed ds [d] [out] := by
  obtain ⟨hopen, hend, hcase⟩ := hd
  obtain ⟨out, ctx', hrun, hopened, hends⟩ := run_neutral h.openedBy ⟨hopen, hend, hcase⟩ span
  refine ⟨out, ctx', hrun, ?_, endsNamed_of_ne hend ds out⟩
  exact h.concat_of_ne hend (allowed_of_ne hend hcase ds) (h.leaves.concat_other hopen hend)
    hopened hends

/-- `Follows` goes on when the directive is allowed, and there is its error when it is not. -/
theorem step (h : Follows ds ctx) (span : Text) (d : Directive) :
    (∃ out ctx', (renderClassified span d).run.run ctx = (.ok out, ctx') ∧
        Follows (ds ++ [d]) ctx' ∧ EndsNamed ds [d] [out]) ∨
      ∃ e ctx', (renderClassified span d).run.run ctx = (.error (.malformedNesting e), ctx') ∧
        Refuses ds d e := by
  by_cases hopen : d.IsOpener
  · exact .inl (h.step_opener hopen span)
  by_cases hend : d = .endBlock
  · subst hend
    -- An end is refused when nothing is open.
    by_cases hne : unmatched ds = []
    · have hopened := h.openedBy
      rw [hne] at hopened
      obtain ⟨ctx', hrun, -⟩ := run_endBlock_nil hopened span
      rw [h.ends] at hrun
      exact .inr ⟨_, ctx', hrun, .endBlock hne⟩
    · exact .inl (h.step_endBlock hne span)
  by_cases hcase : d = .nextCase
  · subst hcase
    rcases run_nextCase h.openedBy span with ⟨hnone, hrun⟩ | ⟨⟨subject, hmem⟩, -⟩
    · exact .inr ⟨_, ctx, hrun, .nextCase fun s hmem => hnone s (List.mem_reverse.2 hmem)⟩
    · exact .inl (h.step_nextCase (List.mem_reverse.1 hmem) span)
  · exact .inl (h.step_neutral ⟨hopen, hend, hcase⟩ span)

/-- `Follows` goes on to the end of a nested sequence, and the first problem of another stops it. -/
theorem run (h : Follows ds ctx) (spans : List Text) :
    (∃ outs ctx', (spans.mapM renderDirective).run.run ctx = (.ok outs, ctx') ∧
        Follows (ds ++ spans.map Directive.classify) ctx' ∧
        EndsNamed ds (spans.map Directive.classify) outs) ∨
      ∃ e ctx' before d after,
        (spans.mapM renderDirective).run.run ctx = (.error (.malformedNesting e), ctx') ∧
        ds ++ spans.map Directive.classify = before ++ d :: after ∧ Nested before ∧
        Refuses before d e := by
  induction spans generalizing ds ctx with
  | nil =>
    refine .inl ⟨[], ctx, rfl, by simpa using h, ?_⟩
    intro front back hfront
    exact absurd hfront (by simp)
  | cons span spans ih =>
    rw [List.mapM_cons, List.map_cons]
    rcases h.step span (Directive.classify span) with
      ⟨out, ctx₁, hrun, hfollows, hnamed⟩ | ⟨e, ctx₁, hrun, hrefuses⟩
    · have hassoc : ds ++ Directive.classify span :: spans.map Directive.classify =
          ds ++ [Directive.classify span] ++ spans.map Directive.classify := by simp
      -- The first directive goes on, so the rest decides.
      rcases ih hfollows with ⟨outs, ctx₂, hruns, hfollows', hnamed'⟩ |
        ⟨e, ctx₂, before, d, after, hruns, hsplit, hbefore, hrefuses⟩
      · refine .inl ⟨out :: outs, ctx₂, ?_, by rw [hassoc]; exact hfollows', hnamed.cons hnamed'⟩
        rw [renderDirective, Convert.run_bind_ok hrun, Convert.run_bind_ok hruns]
        rfl
      · refine .inr ⟨e, ctx₂, before, d, after, ?_, by rw [hassoc]; exact hsplit, hbefore, hrefuses⟩
        rw [renderDirective, Convert.run_bind_ok hrun, Convert.run_bind_error hruns]
    · exact .inr ⟨e, ctx₁, ds, _, _, Convert.run_bind_error hrun _, rfl, h.nested, hrefuses⟩

end Follows

end TemploTwig
