import TemploTwig.Conversion.Tree
import TemploTwig.Proofs.Nesting.Verdict
import TemploTwig.Proofs.SpanBody

/-!
# The verdict on a tree

A tree is converted by rendering the directives of its text nodes in document order and putting
the results where the directives stood.  The tree is accepted exactly when this sequence of
directives is nested and leaves no block open, wherever in the tree its openers and ends stand.
-/

namespace TemploTwig

/-! ## The directives of a tree -/

namespace Piece

variable {α : Type}

/-- The tokens among pieces. -/
def tokens (ps : List (Piece α)) : List α :=
  ps.filterMap fun
    | .plain _ => none
    | .token a => some a

@[simp] theorem tokens_nil : tokens ([] : List (Piece α)) = [] := rfl

@[simp] theorem tokens_plain (t : Text) (ps : List (Piece α)) :
    tokens (.plain t :: ps) = tokens ps := rfl

@[simp] theorem tokens_token (a : α) (ps : List (Piece α)) :
    tokens (.token a :: ps) = a :: tokens ps := rfl

/-- The text of pieces with their tokens replaced, one after the other, by `outs`. -/
def refill : List (Piece α) → (outs : List Text) → Text
  | [], _ => []
  | .plain t :: ps, outs => t ++ refill ps outs
  | .token _ :: ps, outs => outs.headD [] ++ refill ps outs.tail

end Piece

namespace Node

mutual

/-- The directive spans in the text of a node, in document order. -/
def spans : Node → List Text
  | .text content => Piece.tokens (conversionPieces content)
  | .raw _ => []
  | .element _ children => spansAll children

/-- The directive spans in the text of nodes, in document order. -/
def spansAll : List Node → List Text
  | [] => []
  | n :: ns => n.spans ++ spansAll ns

end

/-- The directives in the text of nodes, in document order. -/
def directivesAll (ns : List Node) : List Directive := (spansAll ns).map Directive.classify

/-- An attribute with the directive spans of its value printed. -/
def printAttribute (a : Attribute) : Attribute := { a with value := a.value.printSpans }

mutual

/-- The node with the directives of its text replaced, in document order, by `outs`. -/
def refill : Node → (outs : List Text) → Node
  | .text content, outs => .text (Piece.refill (conversionPieces content) outs)
  | .raw source, _ => .raw source
  | .element tag children, outs =>
    .element { tag with attributes := tag.attributes.map printAttribute } (refillAll children outs)

/-- The nodes with the directives of their text replaced, in document order, by `outs`. -/
def refillAll : List Node → (outs : List Text) → List Node
  | [], _ => []
  | n :: ns, outs => n.refill outs :: refillAll ns (outs.drop n.spans.length)

end

mutual

/-- No attribute of the node holds a placeholder, and its text has no inline token. -/
def NoPlaceholder : Node → Prop
  | .text content => content.contains MacroToken.opening = false
  | .raw _ => True
  | .element tag children => (∀ a ∈ tag.attributes, a.placeholder? = none) ∧ NoPlaceholders children

/-- No attribute of the nodes holds a placeholder, and their text has no inline token. -/
def NoPlaceholders : List Node → Prop
  | [] => True
  | n :: ns => n.NoPlaceholder ∧ NoPlaceholders ns

end

end Node

/-! ## Converting a tree directive by directive -/

/-- `convertPiece` goes directive by directive over pieces without inline tokens. -/
theorem mapM_convertPiece_eq_map {ps : List (Piece Text)}
    (h : ∀ t, .plain t ∈ ps → t.contains MacroToken.opening = false) :
    (do return (← ps.mapM convertPiece).flatten : Convert Text) =
      Piece.refill ps <$> (Piece.tokens ps).mapM renderDirective := by
  induction ps with
  | nil => simp [Piece.refill]
  | cons p ps ih =>
    have hps := ih fun t hmem => h t (List.mem_cons_of_mem _ hmem)
    -- The induction hypothesis, with the text of the first piece put in front of both sides.
    have hput (front : Text) := congrArg (fun x : Convert Text => do return front ++ (← x)) hps
    rw [List.mapM_cons]
    cases p with
    | plain t =>
      have ht := hput t
      simp only [convertPiece, fillMacroTokens_of_no_opening (h t List.mem_cons_self), pure_bind,
        bind_assoc, List.flatten_cons, Piece.tokens_plain, map_eq_pure_bind, Piece.refill] at ht ⊢
      exact ht
    | token span =>
      simp only [Piece.tokens_token, List.mapM_cons, map_eq_pure_bind, bind_assoc, pure_bind,
        List.flatten_cons, convertPiece] at hput ⊢
      exact bind_congr fun out => hput out

/-- `convertText` goes directive by directive over a text without inline tokens. -/
theorem convertText_eq_map {t : Text} (h : t.contains MacroToken.opening = false) :
    convertText t = Piece.refill (conversionPieces t) <$>
      (Piece.tokens (conversionPieces t)).mapM renderDirective := by
  rw [convertText_eq_mapM]
  apply mapM_convertPiece_eq_map
  intro u hmem
  rw [Text.contains_eq_false_iff] at h ⊢
  have hinfix := Piece.render_infix_renderAll (f := id) hmem
  rw [renderAll_conversionPieces] at hinfix
  exact fun hu => h (hu.trans hinfix)

/-- `convertAttribute` prints attributes without placeholders. -/
theorem mapM_convertAttribute {attributes : List Attribute}
    (h : ∀ a ∈ attributes, a.placeholder? = none) :
    attributes.mapM convertAttribute =
      pure (attributes.map fun a => Converted.kept (Node.printAttribute a)) := by
  induction attributes with
  | nil => rfl
  | cons a attributes ih =>
    have ha : convertAttribute a = pure (.kept (Node.printAttribute a)) := by
      rw [convertAttribute, h a List.mem_cons_self]
      rfl
    rw [List.mapM_cons, ha, ih fun b hmem => h b (List.mem_cons_of_mem _ hmem)]
    rfl

/-- `Converted.attributes` keeps what is only printed. -/
theorem attributes_map_kept (attributes : List Attribute) :
    Converted.attributes (attributes.map fun a => .kept (Node.printAttribute a)) =
      attributes.map Node.printAttribute := by
  rw [Converted.attributes, List.filterMap_map]
  exact congrFun List.filterMap_eq_map attributes

/-- `Converted.conditions` of what is only printed are none. -/
theorem conditions_map_kept (attributes : List Attribute) :
    Converted.conditions (attributes.map fun a => .kept (Node.printAttribute a)) = [] := by
  rw [Converted.conditions, List.filterMap_map, List.filterMap_eq_nil_iff]
  intro a _
  rfl

/-- `Piece.refill` takes one result for each token, and no more. -/
theorem Piece.refill_append {ps : List (Piece Text)} {outs : List Text}
    (h : (Piece.tokens ps).length ≤ outs.length) (extra : List Text) :
    Piece.refill ps (outs ++ extra) = Piece.refill ps outs := by
  induction ps generalizing outs with
  | nil => rfl
  | cons p ps ih =>
    cases p with
    | plain t => rw [Piece.refill, Piece.refill, ih h]
    | token a =>
      cases outs with
      | nil => exact absurd h (by simp)
      | cons out outs =>
        rw [Piece.tokens_token, List.length_cons, List.length_cons, Nat.succ_le_succ_iff] at h
        exact congrArg (out ++ ·) (ih h)

mutual

/-- A node takes one result for each of its directives, and no more. -/
theorem Node.refill_append : (n : Node) → {outs : List Text} → n.spans.length ≤ outs.length →
    (extra : List Text) → n.refill (outs ++ extra) = n.refill outs
  | .text content, _, h, extra => by
    rw [Node.refill, Node.refill, Piece.refill_append h]
  | .raw _, _, _, _ => rfl
  | .element tag children, outs, h, extra => by
    rw [Node.refill, Node.refill, Node.refillAll_append children h]

/-- Nodes take one result for each of their directives, and no more. -/
theorem Node.refillAll_append : (ns : List Node) → {outs : List Text} →
    (Node.spansAll ns).length ≤ outs.length → (extra : List Text) →
    Node.refillAll ns (outs ++ extra) = Node.refillAll ns outs
  | [], _, _, _ => rfl
  | n :: ns, outs, h, extra => by
    rw [Node.spansAll, List.length_append] at h
    have hdrop : (Node.spansAll ns).length ≤ (outs.drop n.spans.length).length := by
      rw [List.length_drop]; omega
    rw [Node.refillAll, Node.refillAll, n.refill_append (by omega),
      List.drop_append_of_le_length (by omega), Node.refillAll_append ns hdrop]

end

mutual

/-- `convertNode` goes directive by directive. -/
theorem convertNode_eq_map : (n : Node) → n.NoPlaceholder →
    convertNode n = (fun outs => [n.refill outs]) <$> n.spans.mapM renderDirective
  | .text content, h => by
    rw [convertNode, convertText_eq_map h]
    simp only [map_eq_pure_bind, bind_assoc, pure_bind]
    rfl
  | .raw source, _ => rfl
  | .element tag children, h => by
    rw [convertNode, mapM_convertAttribute h.1, convertNodes_eq_map children h.2]
    simp only [pure_bind, map_eq_pure_bind, bind_assoc, attributes_map_kept, conditions_map_kept]
    rfl

/-- `convertNodes` goes directive by directive. -/
theorem convertNodes_eq_map : (ns : List Node) → Node.NoPlaceholders ns →
    convertNodes ns = Node.refillAll ns <$> (Node.spansAll ns).mapM renderDirective
  | [], _ => rfl
  | n :: ns, h => by
    rw [convertNodes, convertNode_eq_map n h.1, convertNodes_eq_map ns h.2, Node.spansAll,
      List.mapM_append]
    simp only [map_eq_pure_bind, bind_assoc, pure_bind]
    -- The node takes its own results, since there are as many of them as it has directives.
    refine Convert.bind_congr_of_run fun ctx outs ctx' hrun => ?_
    have hlength := Convert.length_of_run_mapM hrun
    refine bind_congr fun outs' => ?_
    rw [Node.refillAll, n.refill_append (Nat.le_of_eq hlength.symm), ← hlength, List.drop_left]
    rfl

end

/-- `convertTree` goes directive by directive. -/
theorem convertTree_eq_map {root : Element} (h : Node.NoPlaceholders root.children) :
    convertTree root = (fun outs => { root with children := Node.refillAll root.children outs }) <$>
      (Node.spansAll root.children).mapM renderDirective := by
  rw [convertTree, convertNodes_eq_map _ h]
  simp only [map_eq_pure_bind, bind_assoc, pure_bind]

/-! ## The verdict -/

/-- Convert a tree, and fail if a block is left open. -/
def convertClosedTree (root : Element) : Convert Element := do
  let converted ← convertTree root
  Convert.ensureClosed
  return converted

/-- `ensureClosed` names the openers that are left. -/
theorem Follows.ensureClosed {ds : List Directive} {ctx : Context} (h : Follows ds ctx) :
    (unmatched ds = [] ∧ Convert.ensureClosed.run.run ctx = (.ok (), ctx)) ∨
      ∃ opener kind, (unmatched ds).getLast? = some opener ∧ opener.blockKind? = some kind ∧
        Convert.ensureClosed.run.run ctx =
          (.error (.malformedNesting (.unclosed (unmatched ds).length kind)), ctx) := by
  have hopened := h.openedBy
  have hkinds := hopened.kinds
  have hdepth := hopened.depth_eq
  rw [List.length_reverse] at hdepth
  cases hstack : ctx.blocks.kinds with
  | nil =>
    rw [hstack] at hkinds
    have hnil : unmatched ds = [] := by simpa using hkinds
    refine .inl ⟨hnil, Convert.run_nesting_ok ?_⟩
    rw [BlockStack.ensureClosed, hstack]
  | cons kind kinds =>
    rw [hstack] at hkinds
    cases hrev : (unmatched ds).reverse with
    | nil => rw [hrev] at hkinds; cases hkinds
    | cons opener rest =>
      rw [hrev] at hkinds
      -- The top of the stack is the innermost opener.
      have hlast : (unmatched ds).getLast? = some opener := by
        rw [← List.head?_reverse, hrev]; rfl
      refine .inr ⟨opener, kind, hlast, (List.cons.inj hkinds).1, Convert.run_nesting_error ?_⟩
      rw [BlockStack.ensureClosed, hstack]
      simp only [hdepth]

/-- Every end of `ds` matches an opener, and its result is named after that opener. -/
def EndsNamedByMatch (ds : List Directive) (outs : List Text) : Prop :=
  ∀ front back, ds = front ++ .endBlock :: back →
    (∃ opener, MatchedBy front opener) ∧
      ∀ opener kind, MatchedBy front opener → opener.blockKind? = some kind →
        outs[front.length]? = some (Twig.Statement.close kind).text

/-- `EndsNamed` from the start is `EndsNamedByMatch`. -/
theorem EndsNamed.namedByMatch {ds : List Directive} {outs : List Text}
    (h : EndsNamed [] ds outs) : EndsNamedByMatch ds outs := by
  intro front back hds
  obtain ⟨opener, kind, hmatched, hkind, hout⟩ := h front back hds
  rw [List.nil_append] at hmatched
  refine ⟨⟨opener, hmatched⟩, ?_⟩
  intro opener' kind' hmatched' hkind'
  -- An end has one opener: the innermost that was unmatched.
  obtain rfl : opener = opener' :=
    Option.some.inj (hmatched.getLast?_unmatched.symm.trans hmatched'.getLast?_unmatched)
  obtain rfl : kind = kind' := Option.some.inj (hkind.symm.trans hkind')
  exact hout

/-- A tree from a fresh context: it is converted, or it has a first problem. -/
theorem run_convertClosedTree {root : Element} (h : Node.NoPlaceholders root.children)
    (options : Options) (kind : TemplateKind) :
    (∃ outs ctx', (convertClosedTree root).run.run { options, kind } =
        (.ok { root with children := Node.refillAll root.children outs }, ctx') ∧
        outs.length = (Node.directivesAll root.children).length ∧
        Nested (Node.directivesAll root.children) ∧
        unmatched (Node.directivesAll root.children) = [] ∧
        EndsNamedByMatch (Node.directivesAll root.children) outs) ∨
      ∃ e ctx', (convertClosedTree root).run.run { options, kind } =
        (.error (.malformedNesting e), ctx') ∧
        FirstProblem (Node.directivesAll root.children) e := by
  rw [convertClosedTree, convertTree_eq_map h]
  simp only [map_eq_pure_bind, bind_assoc, pure_bind]
  rcases (Follows.fresh options kind).run (Node.spansAll root.children) with
    ⟨outs, ctx', hrun, hfollows, hnamed⟩ | ⟨e, ctx', before, d, after, hrun, hsplit, hbefore, hd⟩
  · rw [List.nil_append] at hfollows
    -- All directives were rendered; what is left is whether a block is open.
    rcases hfollows.ensureClosed with ⟨hnil, hclosed⟩ | ⟨opener, kind, hlast, hkind, hopen⟩
    · refine .inl ⟨outs, ctx', ?_, ?_, hfollows.nested, hnil, hnamed.namedByMatch⟩
      · rw [Convert.run_bind_ok hrun, Convert.run_bind_ok hclosed]
        rfl
      · rw [Convert.length_of_run_mapM hrun, Node.directivesAll, List.length_map]
    · refine .inr ⟨_, ctx', ?_, .unclosed hfollows.nested hlast hkind⟩
      rw [Convert.run_bind_ok hrun, Convert.run_bind_error hopen]
      rfl
  · rw [List.nil_append] at hsplit
    exact .inr ⟨e, ctx', Convert.run_bind_error hrun _, .refused hsplit hbefore hd⟩

/-- A tree without placeholders is accepted exactly when the directives of its text are nested and
    leave no opener unmatched.  Then every end is named after the opener it matches, wherever in
    the tree the two stand; otherwise the error is that of the first problem in document order. -/
theorem convertTree_nesting_verdict (root : Element) (h : Node.NoPlaceholders root.children)
    (options : Options) (kind : TemplateKind) :
    let ds := Node.directivesAll root.children
    let result := ((convertClosedTree root).run.run { options, kind }).1
    ((∃ tree, result = .ok tree) ↔ Nested ds ∧ unmatched ds = []) ∧
    (∀ tree, result = .ok tree → ∃ outs, outs.length = ds.length ∧
      tree = { root with children := Node.refillAll root.children outs } ∧
      EndsNamedByMatch ds outs) ∧
    ∀ e, result = .error e ↔ ∃ n, e = .malformedNesting n ∧ FirstProblem ds n := by
  intro ds result
  rcases run_convertClosedTree h options kind with
    ⟨outs, ctx', hrun, hlength, hnested, hnil, hnamed⟩ | ⟨n, ctx', hrun, hproblem⟩
  · -- The tree is accepted.
    have hresult : result = .ok { root with children := Node.refillAll root.children outs } := by
      simp only [result, hrun]
    refine ⟨⟨fun _ => ⟨hnested, hnil⟩, fun _ => ⟨_, hresult⟩⟩, ?_, ?_⟩
    · intro tree htree
      obtain rfl := Except.ok.inj (hresult.symm.trans htree)
      exact ⟨outs, hlength, rfl, hnamed⟩
    · intro e
      constructor
      · intro he
        cases hresult.symm.trans he
      · rintro ⟨n, -, hproblem⟩
        exact absurd ⟨hnested, hnil⟩ hproblem.not_closed
  · -- The tree is rejected, and only one problem is the first.
    have hresult : result = .error (.malformedNesting n) := by simp only [result, hrun]
    refine ⟨⟨?_, fun hclosed => absurd hclosed hproblem.not_closed⟩, ?_, ?_⟩
    · rintro ⟨tree, htree⟩
      cases hresult.symm.trans htree
    · intro tree htree
      cases hresult.symm.trans htree
    · intro e
      constructor
      · intro he
        exact ⟨n, Except.error.inj (he.symm.trans hresult), hproblem⟩
      · rintro ⟨n', rfl, hproblem'⟩
        rw [hresult, hproblem.unique hproblem']

/-- A loop around two elements, with a conditional that opens in the one and closes in the
    other. -/
def Element.crossing : Element where
  tag := ⟨"div".toList, [], .normal⟩
  children := [
    .text "::foreach a b::".toList,
    .element ⟨"i".toList, [], .normal⟩ [.text "::if c::".toList],
    .element ⟨"p".toList, [], .normal⟩ [.text "::end::".toList],
    .text "::end::".toList]

/-- Blocks may cross elements as long as the directives are nested. -/
theorem convertTree_nesting_verdict_crossing :
    Node.NoPlaceholders Element.crossing.children ∧
      ∃ tree, ((convertClosedTree Element.crossing).run.run
        { options := {}, kind := .document }).1 = .ok tree := by
  have h : Node.NoPlaceholders Element.crossing.children := by
    simp only [Element.crossing, Node.NoPlaceholders, Node.NoPlaceholder]
    decide
  exact ⟨h, (convertTree_nesting_verdict Element.crossing h {} .document).1.2 (by decide +kernel)⟩

end TemploTwig
