import TemploTwig.Proofs.Markup.Placement
import TemploTwig.Proofs.Nesting.Emission
import TemploTwig.Proofs.Placeholders.Resolution

/-!
# Conditional elements and blocks

The tags around a conditional element are not on the block stack.  A document is accepted by its
directives alone, wherever its conditional elements begin and end, and its tags nest only if each
of these elements closes the blocks that it opens, and no others.
-/

namespace TemploTwig

variable {ds : List Directive} {ctx : Context}

open Emitted (sourceAll brackets)

/-! ## The marks of a tree -/

/-- `depthAfter?` goes on where the first directives end. -/
theorem depthAfter?_append_eq_bind (n : Nat) (ds es : List Directive) :
    depthAfter? n (ds ++ es) = (depthAfter? n ds).bind (depthAfter? · es) := by
  induction ds generalizing n with
  | nil => rfl
  | cons d ds ih =>
    rw [List.cons_append, depthAfter?, depthAfter?]
    split
    · exact ih (n + 1)
    · split
      · split
        · rfl
        · exact ih (n - 1)
      · exact ih n

namespace Node

mutual

/-- Every conditional element of the node closes the blocks that it opens, and no others. -/
def ClosesGuard : Node → Prop
  | .text _ => True
  | .raw _ => True
  | .element tag children =>
    (tag.isConditional = true → Balanced (directivesAll children)) ∧ ClosesGuards children

/-- Every conditional element of the nodes closes the blocks that it opens, and no others. -/
def ClosesGuards : List Node → Prop
  | [] => True
  | n :: ns => n.ClosesGuard ∧ ClosesGuards ns

end

end Node

theorem Balanced.depthAfter?_eq (h : Balanced ds) (n : Nat) :
    depthAfter? n ds = some n := (Leaves.balanced h).depthAfter?_eq n

namespace Mark

/-- An enclosure is left when no block is open inside it. -/
theorem run_leave_eq_some_iff {e : Enclosure} {k n : Nat} {outer : List (Enclosure × Nat)}
    {levels : Levels} :
    run (k, (e, n) :: outer) [.leave e] = some levels ↔ k = 0 ∧ (n, outer) = levels := by
  by_cases hk : k = 0 <;> simp [run, hk]

mutual

/-- `Levels.run` over the marks of a node needs its guards closed, and follows its directives. -/
theorem run_marks_eq_some_iff : (n : Node) → (depth : Nat) → (outer : List (Enclosure × Nat)) →
    (levels : Levels) →
    (run (depth, outer) n.marks = some levels ↔ n.ClosesGuard ∧
      (depthAfter? depth (n.spans.map Directive.classify)).map (·, outer) = some levels)
  | .text content, depth, outer, levels => by
    have hrun := run_map_directive depth outer
      ((Piece.tokens (conversionPieces content)).map Directive.classify)
    rw [List.map_map] at hrun
    rw [Node.marks, hrun, Node.ClosesGuard, true_and, Node.spans]
  | .raw source, depth, outer, levels => by
    rw [Node.marks, Node.ClosesGuard, true_and]
    rfl
  | .element tag children, depth, outer, levels => by
    have hchildren := run_marksAll_eq_some_iff children
    rw [Node.marks, Node.ClosesGuard, Node.spans, ← Node.directivesAll]
    cases htag : tag.isConditional with
    | false =>
      rw [if_neg (by simp), hchildren]
      simp
    | true =>
      -- The element is left with no block of its own open, that is, it is balanced.
      rw [if_pos rfl, List.cons_append, run, run_append, Option.bind_eq_some_iff]
      constructor
      · rintro ⟨middle, hmiddle, hleave⟩
        obtain ⟨hguards, hdepth⟩ := (hchildren 0 _ middle).1 hmiddle
        obtain ⟨k, hk, rfl⟩ := Option.map_eq_some_iff.1 hdepth
        obtain ⟨rfl, rfl⟩ := run_leave_eq_some_iff.1 hleave
        have hbalanced := balanced_iff_depthAfter?.2 hk
        exact ⟨⟨fun _ => hbalanced, hguards⟩, by rw [hbalanced.depthAfter?_eq]; rfl⟩
      · rintro ⟨⟨hbalanced, hguards⟩, hdepth⟩
        have hbalanced := hbalanced rfl
        rw [hbalanced.depthAfter?_eq] at hdepth
        refine ⟨(0, (.guard, depth) :: outer), (hchildren 0 _ _).2 ⟨hguards, ?_⟩,
          run_leave_eq_some_iff.2 ⟨rfl, Option.some.inj hdepth⟩⟩
        rw [hbalanced.depthAfter?_eq]
        rfl

/-- The marks of a tree come to levels when every conditional element closes the blocks that it
    opens, and no others.  Then only the directives count. -/
theorem run_marksAll_eq_some_iff : (ns : List Node) → (depth : Nat) →
    (outer : List (Enclosure × Nat)) → (levels : Levels) →
    (run (depth, outer) (Node.marksAll ns) = some levels ↔ Node.ClosesGuards ns ∧
      (depthAfter? depth (Node.directivesAll ns)).map (·, outer) = some levels)
  | [], depth, outer, levels => by
    rw [Node.marksAll, Node.ClosesGuards, true_and]
    rfl
  | n :: ns, depth, outer, levels => by
    have hn := run_marks_eq_some_iff n
    have hns := run_marksAll_eq_some_iff ns
    rw [Node.marksAll, Node.ClosesGuards, Node.directivesAll, Node.spansAll, List.map_append,
      depthAfter?_append_eq_bind, run_append, Option.bind_eq_some_iff, ← Node.directivesAll]
    constructor
    · -- Between the two parts only the depth may differ: no enclosure is open across them.
      rintro ⟨middle, hfront, hback⟩
      obtain ⟨hguard, hdepth⟩ := (hn depth outer middle).1 hfront
      obtain ⟨k, hk, rfl⟩ := Option.map_eq_some_iff.1 hdepth
      obtain ⟨hguards, hlevels⟩ := (hns k outer levels).1 hback
      exact ⟨⟨hguard, hguards⟩, by rw [hk]; exact hlevels⟩
    · rintro ⟨⟨hguard, hguards⟩, hdepth⟩
      cases hk : depthAfter? depth (n.spans.map Directive.classify) with
      | none => rw [hk] at hdepth; cases hdepth
      | some k =>
        rw [hk] at hdepth
        exact ⟨(k, outer), (hn depth outer _).2 ⟨hguard, by rw [hk]; rfl⟩,
          (hns k outer levels).2 ⟨hguards, hdepth⟩⟩

end

end Mark

/-! ## Which trees are accepted -/

/-- The sequence has a directive that is not allowed, and this is the error of the first one. -/
def Refused (ds : List Directive) (e : NestingError) : Prop :=
  ∃ before d after, ds = before ++ d :: after ∧ Nested before ∧ Refuses before d e

theorem Refused.append {e : NestingError} (h : Refused ds e) (es : List Directive) :
    Refused (ds ++ es) e := by
  obtain ⟨before, d, after, rfl, hbefore, hrefuses⟩ := h
  exact ⟨before, d, after ++ es, by simp, hbefore, hrefuses⟩

theorem Refused.firstProblem {e : NestingError} (h : Refused ds e) : FirstProblem ds e := by
  obtain ⟨before, d, after, hds, hbefore, hrefuses⟩ := h
  exact .refused hds hbefore hrefuses

/-- Directives are accepted as long as each is allowed where it stands.  The tables do not
    change. -/
def Tables.nesting (tables : Tables) : Criterion Directive where
  Accepts ds ctx := Follows ds ctx ∧ ctx.tables = tables
  Refuses ds e := ∃ problem, e = .malformedNesting problem ∧ Refused ds problem
  refuses_append es := fun ⟨problem, he, hrefused⟩ => ⟨problem, he, hrefused.append es⟩

namespace Convert

variable {tables : Tables}

theorem judges_markCall : tables.nesting.Judges [] (modify (·.markCall) : Convert Unit) :=
  Criterion.judges_nil_of_run fun _ ctx hctx =>
    ⟨(), ctx.markCall, rfl, hctx.1.congr rfl rfl, hctx.2⟩

/-- `resolve` passes when the index is inside the table. -/
theorem judges_resolve {family : Family} {index : Nat}
    (h : index < (tables.entries family).length) :
    tables.nesting.Judges [] (resolve family index) := by
  refine Criterion.judges_nil_of_run fun _ ctx hctx => ?_
  obtain ⟨hfollows, rfl⟩ := hctx
  exact ⟨_, ctx, run_resolve (List.getElem?_eq_getElem h), hfollows, rfl⟩

/-- `renderDirective` goes on or fails as its directive does. -/
theorem judges_renderDirective (span : Text) :
    tables.nesting.Judges [Directive.classify span] (renderDirective span) := by
  rintro before ctx ⟨hctx, htables⟩
  have hkept := tables_renderDirective span ctx
  rw [renderDirective] at hkept ⊢
  rcases hctx.step span (Directive.classify span) with
    ⟨out, ctx', hrun, hfollows, -⟩ | ⟨e, ctx', hrun, hrefuses⟩
  · rw [hrun] at hkept
    exact .inl ⟨out, ctx', hrun, hfollows, hkept.trans htables⟩
  · exact .inr ⟨_, ctx', hrun, e, rfl, before, _, [], rfl, hctx.nested, hrefuses⟩

end Convert

/-! ## Placeholders with entries -/

/-- The inline tokens in a plain run have entries. -/
def Tables.ResolvesRun (tables : Tables) (run : Text) : Prop :=
  ∀ p ∈ MacroToken.scan run,
    p.Satisfies (fun digits => ∃ i < tables.macroCalls.length, parseIndex? digits = some i)
      fun _ => True

/-- The placeholders in nodes have entries: the inline tokens of their texts, and the tokens in
    their attributes. -/
def Tables.Resolves (tables : Tables) (ns : List Node) : Prop :=
  Node.EveryIn
    (fun content => ∀ p ∈ conversionPieces content, p.Satisfies (fun _ => True) tables.ResolvesRun)
    (fun _ => True)
    (fun tag => ∀ a ∈ tag.attributes, ∀ p ∈ a.placeholder?, p.2 < (tables.entries p.1).length) ns

instance (tables : Tables) : DecidablePred tables.ResolvesRun := fun run =>
  inferInstanceAs (Decidable (∀ p ∈ MacroToken.scan run, p.Satisfies _ _))

instance (tables : Tables) : DecidablePred tables.Resolves := fun ns =>
  inferInstanceAs (Decidable (Node.EveryIn _ _ _ ns))

namespace Convert

variable {tables : Tables}

/-- `fillMacroTokens` passes when each token has an entry. -/
theorem judges_fillMacroTokens {run : Text} (h : tables.ResolvesRun run) :
    tables.nesting.Judges [] (fillMacroTokens run) := by
  have hparts : tables.nesting.Judges [] ((MacroToken.scan run).mapM fillPiece) := by
    refine Criterion.judges_mapM_nil fun p hp => ?_
    cases p with
    | plain u => exact Criterion.judges_pure u
    | token digits =>
      obtain ⟨i, hi, hdigits⟩ := h _ hp
      simp only [fillPiece, resolveMacroToken, hdigits]
      exact judges_resolve hi
  cases hopens : run.contains MacroToken.opening with
  | true =>
    rw [fillMacroTokens_of_opening hopens]
    exact hparts.bind_nil fun _ => judges_markCall.bind_nil fun _ => Criterion.judges_pure _
  | false =>
    rw [fillMacroTokens_of_no_opening hopens]
    exact Criterion.judges_pure run

/-- `convertText` goes on or fails as its directives do. -/
theorem judges_convertText {content : Text}
    (h : ∀ p ∈ conversionPieces content, p.Satisfies (fun _ => True) tables.ResolvesRun) :
    tables.nesting.Judges ((Node.text content).spans.map Directive.classify)
      (convertText content) := by
  rw [convertText_eq_mapM, Node.spans, Piece.map_tokens]
  refine (Criterion.judges_mapM fun p hp => ?_).map List.flatten
  cases p with
  | plain t => exact judges_fillMacroTokens (h _ hp)
  | token span => exact judges_renderDirective span

/-- `convertAttribute` passes when its placeholder has an entry. -/
theorem judges_convertAttribute {a : Attribute}
    (h : ∀ p ∈ a.placeholder?, p.2 < (tables.entries p.1).length) :
    tables.nesting.Judges [] (convertAttribute a) := by
  unfold convertAttribute
  split
  · next heq => exact (judges_resolve (h _ heq)).bind_nil fun _ => Criterion.judges_pure _
  · next heq =>
    exact (judges_resolve (h _ heq)).bind_nil fun _ => judges_markCall.bind_nil fun _ =>
      Criterion.judges_pure _
  · next heq => exact (judges_resolve (h _ heq)).bind_nil fun _ => Criterion.judges_pure _
  · exact Criterion.judges_pure _

mutual

/-- `convertNode` goes on or fails as its directives do. -/
theorem judges_convertNode : (n : Node) → tables.Resolves [n] →
    tables.nesting.Judges (n.spans.map Directive.classify) (convertNode n)
  | .text content, h => by
    rw [convertNode]
    rw [Tables.Resolves, Node.everyIn_singleton_iff, Node.every_text_iff] at h
    exact (judges_convertText h).map fun out => [Node.text out]
  | .raw source, _ => by
    rw [convertNode, Node.spans]
    exact Criterion.judges_pure _
  | .element tag children, h => by
    rw [convertNode, Node.spans]
    rw [Tables.Resolves, Node.everyIn_singleton_iff, Node.every_element_iff] at h
    refine (Criterion.judges_mapM_nil fun a ha => judges_convertAttribute (h.1 a ha)).bind_nil
      fun converted => ?_
    exact (judges_convertNodes children h.2).map fun ns => wrapConditions _ _

/-- `convertNodes` goes on or fails as its directives do, if its placeholders have entries. -/
theorem judges_convertNodes : (ns : List Node) → tables.Resolves ns →
    tables.nesting.Judges (Node.directivesAll ns) (convertNodes ns)
  | [], _ => by
    rw [convertNodes]
    exact Criterion.judges_pure _
  | n :: ns, h => by
    rw [Tables.Resolves, Node.everyIn_cons_iff] at h
    rw [convertNodes, Node.directivesAll, Node.spansAll, List.map_append]
    refine (judges_convertNode n (Node.everyIn_singleton_iff.2 h.1)).bind fun front => ?_
    exact (judges_convertNodes ns h.2).map (front ++ ·)

end

end Convert

/-! ## The verdict -/

/-- In a balanced sequence every end has an opener before it. -/
theorem Balanced.nested (h : Balanced ds) (hcase : .nextCase ∉ ds) : Nested ds := by
  rintro before d after rfl
  cases d with
  | endBlock =>
    intro hnil
    rw [balanced_iff_depthAfter?, depthAfter?_append_eq_bind, Option.bind_eq_some_iff] at h
    obtain ⟨k, hk, hrest⟩ := h
    obtain ⟨openers, hleaves⟩ := unclosed_iff_exists_leaves.1
      (unclosed_iff_depthAfter?.2 (by rw [hk]; rfl))
    -- Nothing would be open where the end stands.
    rw [← hleaves.unmatched_eq, hnil] at hleaves
    rw [hleaves.depthAfter?_eq, Option.some.injEq] at hk
    rw [← hk] at hrest
    cases (depthAfter?_zero_endBlock after).symm.trans hrest
  | nextCase => exact absurd (by simp) hcase
  | _ => trivial

theorem Balanced.unmatched_eq_nil (h : Balanced ds) : unmatched ds = [] :=
  (Leaves.balanced h).unmatched_eq

theorem Follows.kinds_eq_nil (h : Follows [] ctx) : ctx.blocks.kinds = [] := by
  simpa [unmatched] using h.openedBy.kinds.symm

/-- Where nodes are converted, the output that tells its tags is there as well. -/
theorem exists_emitNodes_of_run {ns ns' : List Node} {ctx' : Context}
    (h : (convertNodes ns).run.run ctx = (.ok ns', ctx')) :
    ∃ es, (emitNodes ns).run.run ctx = (.ok es, ctx') ∧ sourceAll es = Node.sourceAll ns' := by
  have hmap : (Node.sourceAll <$> convertNodes ns).run.run ctx = (.ok (Node.sourceAll ns'), ctx') := by
    rw [Convert.run_map, h]
    rfl
  rw [sourceAll_convertNodes] at hmap
  exact Convert.exists_of_run_map hmap

/-- A tree whose placeholders have entries is converted, and its directives are balanced, or it
    fails with their first problem. -/
theorem run_convertClosedTree_of_resolves {root : Element} (hctx : Follows [] ctx)
    (hresolves : ctx.tables.Resolves root.children) :
    (∃ ns ctx', (convertNodes root.children).run.run ctx = (.ok ns, ctx') ∧
        (convertClosedTree root).run.run ctx = (.ok { root with children := ns }, ctx') ∧
        Balanced (Node.directivesAll root.children)) ∨
      ∃ e ctx', (convertClosedTree root).run.run ctx = (.error (.malformedNesting e), ctx') ∧
        FirstProblem (Node.directivesAll root.children) e := by
  rw [convertClosedTree]
  rcases Convert.judges_convertNodes root.children hresolves [] ctx ⟨hctx, rfl⟩ with
    ⟨ns, ctx', hrun, hfollows, -⟩ | ⟨_, ctx', hrun, e, rfl, hrefused⟩
  · have htree : (convertTree root).run.run ctx = (.ok { root with children := ns }, ctx') :=
      Convert.run_bind_ok hrun _
    rw [List.nil_append] at hfollows
    rw [Convert.run_bind_ok htree]
    -- All directives were rendered; what is left is whether a block is open.
    rcases hfollows.ensureClosed with ⟨hnil, hclosed⟩ | ⟨opener, kind, hlast, hkind, hopen⟩
    · have hleaves := hfollows.leaves
      rw [hnil] at hleaves
      exact .inl ⟨ns, ctx', hrun, Convert.run_bind_ok hclosed _, hleaves.balanced_of_nil⟩
    · exact .inr ⟨_, ctx', Convert.run_bind_error hopen _, .unclosed hfollows.nested hlast hkind⟩
  · have htree : (convertTree root).run.run ctx = (.error (.malformedNesting e), ctx') :=
      Convert.run_bind_error hrun _
    rw [List.nil_append] at hrefused
    exact .inr ⟨e, ctx', Convert.run_bind_error htree _, hrefused.firstProblem⟩

/-- A tree whose placeholders have entries is accepted exactly when the directives of its text are
    balanced, whatever its conditional elements are.  Then its tags are well nested, each closed by
    the tag that was printed for its scope, exactly when every conditional element closes the
    blocks that it opens, and no others. -/
theorem convertTree_guards_verdict {t : Text} {root : Element} (hroot : Document.parse? t = some root)
    (hswitching : ∀ d ∈ Node.directivesAll root.children, d.isSwitching = false) {ctx : Context}
    (hctx : Follows [] ctx) (hresolves : ctx.tables.Resolves root.children) :
    let ds := Node.directivesAll root.children
    let result := ((convertClosedTree root).run.run ctx).1
    (¬Balanced ds → ∃ e, result = .error (.malformedNesting e) ∧ FirstProblem ds e) ∧
    (Balanced ds → ∃ tree es, result = .ok tree ∧
      ((emitNodes root.children).run.run ctx).1 = .ok es ∧
      sourceAll es = Node.sourceAll tree.children ∧
      (WellNested (brackets es) ↔ Node.ClosesGuards root.children) ∧
      (Node.ClosesGuards root.children →
        WellNested ((brackets es).map (Bracket.map Scope.keyword)))) := by
  intro ds result
  rcases run_convertClosedTree_of_resolves hctx hresolves with
    ⟨ns, ctx', hnodes, hrun, hbalanced⟩ | ⟨e, ctx', hrun, hproblem⟩
  · refine ⟨fun hunbalanced => absurd hbalanced hunbalanced, fun _ => ?_⟩
    obtain ⟨es, hes, hsource⟩ := exists_emitNodes_of_run hnodes
    have htags := Convert.printsTags_emitNodes root.children (Document.shownIn_parse? hroot)
      hswitching ctx es ctx' hes
    rw [hctx.kinds_eq_nil] at htags
    have hiff : WellNested (brackets es) ↔ Node.ClosesGuards root.children := by
      rw [htags.wellNested_iff, Mark.run_marksAll_eq_some_iff, hbalanced.depthAfter?_eq]
      simp
    exact ⟨_, es, congrArg Prod.fst hrun, congrArg Prod.fst hes, hsource, hiff,
      fun hguards => (hiff.2 hguards).map Scope.keyword⟩
  · refine ⟨fun _ => ⟨e, congrArg Prod.fst hrun, hproblem⟩, fun hbalanced => ?_⟩
    -- Balanced directives without a case have no problem.
    have hcase : .nextCase ∉ ds := fun hmem => by
      cases hswitching _ hmem
    exact absurd ⟨hbalanced.nested hcase, hbalanced.unmatched_eq_nil⟩ hproblem.not_closed

/-- A conditional element with some text in it and some behind it. -/
def Document.guarding (content behind : Text) : List Node := [
  .element ⟨"p".toList, [Family.condition.holderAttribute 0], .normal⟩ [.text content],
  .text behind]

/-- One condition is recorded. -/
def Context.guarding : Context where
  options := {}
  kind := .document
  tables := { conditions := ["a".toList] }

/-- A loop inside the element. -/
theorem convertTree_guards_verdict_enclosed :
    let ns := Document.guarding "::foreach i c::x::end::".toList "y".toList
    (Follows [] .guarding ∧ Context.guarding.tables.Resolves ns ∧
      Balanced (Node.directivesAll ns) ∧ Node.ClosesGuards ns) ∧
    ∃ tree es, ((convertClosedTree (Document.root ns)).run.run .guarding).1 = .ok tree ∧
      sourceAll es = Node.sourceAll tree.children ∧
      WellNested ((brackets es).map (Bracket.map Scope.keyword)) := by
  intro ns
  have hcanonical : Document.IsCanonical ns := by decide +kernel
  have hswitching : ∀ d ∈ Node.directivesAll ns, d.isSwitching = false := by decide +kernel
  have hresolves : Context.guarding.tables.Resolves ns := by decide +kernel
  have hbalanced : Balanced (Node.directivesAll ns) := by decide +kernel
  have hguards : Node.ClosesGuards ns :=
    ⟨⟨fun _ => by decide +kernel, trivial, trivial⟩, trivial, trivial⟩
  have hctx : Follows [] .guarding := ⟨nested_nil, ⟨[], .balanced .nil, rfl, rfl⟩, rfl⟩
  obtain ⟨tree, es, hresult, -, hsource, -, hnested⟩ :=
    (convertTree_guards_verdict (Document.parse?_sourceAllBy hcanonical) hswitching hctx
      hresolves).2 hbalanced
  exact ⟨⟨hctx, hresolves, hbalanced, hguards⟩, tree, es, hresult, hsource, hnested hguards⟩

/-- A loop that reaches out of the element is accepted, and its tags cross those of the
    condition. -/
theorem convertTree_guards_crossed :
    let ns := Document.guarding "::foreach i c::".toList "::end::".toList
    let source := "<p ::cond a::>::foreach i c::</p>::end::"
    let crossed :=
      "\x7b% if a %\x7d\n<p>\x7b% for i in c %\x7d</p>\n\x7b% endif %\x7d\x7b% endfor %\x7d"
    (convertTemplate {} (some .document) source.toList).result.toOption = some crossed.toList ∧
    (((emitNodes ns).run.run .guarding).1.toOption.map sourceAll = some crossed.toList) ∧
    (((emitNodes ns).run.run .guarding).1.toOption.map fun es =>
      decide (WellNested ((brackets es).map (Bracket.map Scope.keyword)))) = some false := by
  decide +kernel

end TemploTwig
