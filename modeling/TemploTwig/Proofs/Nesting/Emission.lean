import TemploTwig.Proofs.Markup.Shown
import TemploTwig.Proofs.Placeholders.Readings
import TemploTwig.Proofs.Markup.Transcript
import TemploTwig.Proofs.Nesting.Document
import TemploTwig.Proofs.Nesting.Scopes

/-!
# The tags of a converted template

Converted text does not tell which of its tags stand for what.  The conversion is given here a
second time, with output that tells text from tags and names the scope of each tag.  Written down,
it is the output of the conversion, step by step and with the same errors.
-/

namespace TemploTwig

/-! ## Output that tells its tags -/

/-- A part of the output. -/
inductive Emitted where
  | text (content : Text)
  | opening (scope : Scope) (argument : Text)
  | closing (scope : Scope)
  deriving DecidableEq, Repr

namespace Emitted

/-- The part as it is written. -/
def source : Emitted → Text
  | text content => content
  | opening scope argument => Twig.tag (scope.keyword ++ ' ' :: argument)
  | closing scope => Twig.tag ("end".toList ++ scope.keyword)

/-- The output as it is written. -/
def sourceAll (es : List Emitted) : Text := es.flatMap source

/-- The bracket that a tag is. -/
def bracket? : Emitted → Option (Bracket Scope)
  | text _ => none
  | opening scope _ => some (.opening scope)
  | closing scope => some (.closing scope)

/-- The tags of the output, as brackets. -/
def brackets (es : List Emitted) : List (Bracket Scope) := es.filterMap bracket?

@[simp] theorem sourceAll_nil : sourceAll [] = [] := rfl

@[simp] theorem sourceAll_cons (e : Emitted) (es : List Emitted) :
    sourceAll (e :: es) = e.source ++ sourceAll es := rfl

theorem sourceAll_text (t : Text) : sourceAll [.text t] = t := List.append_nil t

@[simp] theorem sourceAll_append (es es' : List Emitted) :
    sourceAll (es ++ es') = sourceAll es ++ sourceAll es' := List.flatMap_append

@[simp] theorem brackets_nil : brackets [] = [] := rfl

@[simp] theorem brackets_text (t : Text) (es : List Emitted) :
    brackets (text t :: es) = brackets es := rfl

@[simp] theorem brackets_opening (scope : Scope) (argument : Text) (es : List Emitted) :
    brackets (opening scope argument :: es) = .opening scope :: brackets es := rfl

@[simp] theorem brackets_closing (scope : Scope) (es : List Emitted) :
    brackets (closing scope :: es) = .closing scope :: brackets es := rfl

@[simp] theorem brackets_append (es es' : List Emitted) :
    brackets (es ++ es') = brackets es ++ brackets es' := List.filterMap_append

end Emitted

open Emitted (sourceAll brackets)

/-- The statement for a case.  The first one of a switch opens a conditional. -/
def emitCase : Twig.Statement → Emitted
  | .ifThen condition => .opening (.block .conditional) condition
  | statement => .text statement.text

/-- Open a block and give the tag that opens it. -/
def emitOpening (kind : BlockKind) (argument : Text) : Convert (List Emitted) := do
  modify (·.openBlock kind)
  return [.opening (.block kind) argument]

/-- The output for a directive. -/
def emitClassified (span : Text) : Directive → Convert (List Emitted)
  | .switch subject => do
    modify (·.openSwitch subject)
    return []
  | .nextCase => return [emitCase (← Convert.nesting Context.nextCase)]
  | .ifThen condition => emitOpening .conditional (Condition.toTwig condition)
  | .foreach item collection => emitOpening .loop (item ++ (" in ".toList ++ collection))
  | .fill expression => emitOpening .assignment expression
  | .assign expression => emitOpening .assignment expression
  | .endBlock => return [.closing (.block (← Convert.nesting Context.closeBlock))]
  | d => return [.text (← renderClassified span d)]

/-- The output for a directive span. -/
def emitDirective (span : Text) : Convert (List Emitted) :=
  emitClassified span (Directive.classify span)

/-- The output for a piece of a text. -/
def emitPiece : Piece Text → Convert (List Emitted)
  | .token span => emitDirective span
  | .plain t => return [.text (← fillMacroTokens t)]

/-- The output for a text. -/
def emitText (t : Text) : Convert (List Emitted) := do
  return (← (conversionPieces t).mapM emitPiece).flatten

/-- An element around its content, and the tags for its conditions around both. -/
def emitElement (conditions : List Text) (tag : Tag) (inner : List Emitted) : List Emitted :=
  let element := .text tag.startText ::
    (if tag.showsChildren then inner else []) ++ [.text tag.endText]
  match conditions with
  | [] => element
  | _ =>
    .opening (.enclosure .guard) (conditions.intersperse " and ".toList).flatten ::
      .text ['\n'] :: element ++ [.text ['\n'], .closing (.enclosure .guard)]

mutual

/-- The output for a node. -/
def emitNode : Node → Convert (List Emitted)
  | .text content => emitText content
  | .raw source => return [.text source]
  | .element tag children => do
    let converted ← tag.attributes.mapM convertAttribute
    let inner ← emitNodes children
    return emitElement (Converted.conditions converted)
      { tag with attributes := Converted.attributes converted } inner

/-- The output for a list of nodes. -/
def emitNodes : List Node → Convert (List Emitted)
  | [] => return []
  | n :: ns => do
    let front ← emitNode n
    let back ← emitNodes ns
    return front ++ back

end

/-! ## The two conversions agree -/

theorem source_emitCase (statement : Twig.Statement) :
    (emitCase statement).source = statement.text := by
  cases statement <;> rfl

/-- `openWith` prints the opening tag of `emitOpening`. -/
theorem openWith_eq_emitOpening {kind : BlockKind} {statement : Twig.Statement} {argument : Text}
    (h : statement.content = kind.keyword ++ ' ' :: argument) :
    openWith kind statement = sourceAll <$> emitOpening kind argument := by
  rw [openWith, emitOpening, Twig.Statement.text, h, map_eq_pure_bind, bind_assoc]
  refine bind_congr fun _ => ?_
  simp [Emitted.source, Scope.keyword]

/-- `renderClassified` prints what `emitClassified` emits. -/
theorem renderClassified_eq_emitClassified (span : Text) (d : Directive) :
    renderClassified span d = sourceAll <$> emitClassified span d := by
  cases d with
  | switch subject => simp [renderClassified, emitClassified]
  | nextCase => simp [renderClassified, emitClassified, source_emitCase]
  | ifThen condition => exact openWith_eq_emitOpening rfl
  | foreach item collection =>
    refine openWith_eq_emitOpening ?_
    have hassoc : (Twig.Statement.forIn item collection).content =
        "for ".toList ++ item ++ " in ".toList ++ collection := rfl
    rw [hassoc, List.append_assoc, List.append_assoc]
    rfl
  | fill expression | assign expression => exact openWith_eq_emitOpening rfl
  | endBlock =>
    have hclosing (kind : BlockKind) :
        sourceAll [.closing (.block kind)] = (Twig.Statement.close kind).text := List.append_nil _
    simp only [renderClassified, emitClassified, map_eq_pure_bind, bind_assoc, pure_bind, hclosing]
  | elseIf _ | otherwise | contentBlock | raw _ | inherit _ | print _ =>
    simp [renderClassified, emitClassified, Emitted.source]

theorem renderDirective_eq_emitDirective (span : Text) :
    renderDirective span = sourceAll <$> emitDirective span :=
  renderClassified_eq_emitClassified span _

/-- Output that agrees part by part agrees as a whole. -/
theorem flatten_mapM_eq_sourceAll {α : Type} {f : α → Convert Text} {g : α → Convert (List Emitted)}
    (h : ∀ a, f a = sourceAll <$> g a) (as : List α) :
    (do return (← as.mapM f).flatten : Convert Text) =
      sourceAll <$> (do return (← as.mapM g).flatten : Convert (List Emitted)) := by
  induction as with
  | nil => rfl
  | cons a as ih =>
    rw [← map_eq_pure_bind, ← map_eq_pure_bind, Functor.map_map] at ih
    simp only [List.mapM_cons, h a, map_eq_pure_bind, bind_assoc, pure_bind, List.flatten_cons,
      Emitted.sourceAll_append]
    refine bind_congr fun es => Convert.bind_congr_of_map ih fun outs ess houts => ?_
    rw [houts]

/-- `convertPiece` prints what `emitPiece` emits. -/
theorem convertPiece_eq_emitPiece (p : Piece Text) :
    convertPiece p = sourceAll <$> emitPiece p := by
  cases p with
  | token span => exact renderDirective_eq_emitDirective span
  | plain t => simp [convertPiece, emitPiece, Emitted.source]

theorem convertText_eq_emitText (t : Text) : convertText t = sourceAll <$> emitText t := by
  rw [convertText_eq_mapM]
  exact flatten_mapM_eq_sourceAll convertPiece_eq_emitPiece _

/-- `emitElement` writes an element alike around content that is written alike. -/
theorem sourceAll_emitElement (conditions : List Text) (tag : Tag) {children : List Node}
    {inner : List Emitted} (h : Node.sourceAll children = sourceAll inner) :
    Node.sourceAll (wrapConditions conditions (.element tag children)) =
      sourceAll (emitElement conditions tag inner) := by
  have hinner : (if tag.showsChildren then Node.sourceAll children else []) =
      sourceAll (if tag.showsChildren then inner else []) := by
    split
    · exact h
    · rfl
  have htext (t : Text) : (Emitted.text t).source = t := rfl
  cases conditions with
  | nil => simp [wrapConditions, emitElement, Node.sourceAll, Node.source, hinner, htext]
  | cons condition conditions =>
    have hopening (c : Text) : (Twig.Statement.ifThen c).text =
        (Emitted.opening (.enclosure .guard) c).source := rfl
    have hclosing : (Twig.Statement.close .conditional).text =
        (Emitted.closing (.enclosure .guard)).source := rfl
    simp only [wrapConditions, emitElement, Node.sourceAll, hinner, Node.source, hopening,
      hclosing, List.cons_append, Emitted.sourceAll_cons, Emitted.sourceAll_append, htext,
      Emitted.sourceAll_nil, List.append_nil, List.append_assoc, List.nil_append]

mutual

/-- `convertNode` prints what `emitNode` emits. -/
theorem sourceAll_convertNode : (n : Node) →
    Node.sourceAll <$> convertNode n = sourceAll <$> emitNode n
  | .text content => by
    rw [convertNode, emitNode, convertText_eq_emitText]
    simp [Node.sourceAll, Node.source]
  | .raw source => by
    simp [convertNode, emitNode, Node.sourceAll, Node.source, Emitted.source]
  | .element tag children => by
    rw [convertNode, emitNode]
    simp only [map_eq_pure_bind, bind_assoc, pure_bind]
    refine bind_congr fun converted => ?_
    refine Convert.bind_congr_of_map (sourceAll_convertNodes children) fun ns es hns => ?_
    rw [sourceAll_emitElement _ _ hns]

/-- `convertNodes` prints what `emitNodes` emits. -/
theorem sourceAll_convertNodes : (ns : List Node) →
    Node.sourceAll <$> convertNodes ns = sourceAll <$> emitNodes ns
  | [] => rfl
  | n :: ns => by
    rw [convertNodes, emitNodes]
    simp only [map_eq_pure_bind, bind_assoc, pure_bind]
    refine Convert.bind_congr_of_map (sourceAll_convertNode n) fun front es hfront => ?_
    refine Convert.bind_congr_of_map (sourceAll_convertNodes ns) fun back es' hback => ?_
    rw [Node.sourceAll_append, hfront, hback, Emitted.sourceAll_append]

end

/-! ## The tags that are printed -/

/-- The directive belongs to a switch, whose first tag is printed by a case. -/
def Directive.isSwitching : Directive → Bool
  | switch _ | nextCase => true
  | _ => false

namespace Convert

variable {α β : Type}

/-- The step opens and closes no block. -/
def KeepsBlocks (x : Convert α) : Prop :=
  ∀ blocks, Ensures (fun ctx => ctx.blocks = blocks) (fun _ => True) (fun _ => True) x

theorem KeepsBlocks.blocks_eq {x : Convert α} (h : KeepsBlocks x) {ctx ctx' : Context} {a : α}
    (hrun : x.run.run ctx = (.ok a, ctx')) : ctx'.blocks = ctx.blocks := by
  have hkept := (h ctx.blocks ctx rfl).1
  rwa [hrun] at hkept

theorem keepsBlocks_pure (a : α) : KeepsBlocks (pure a : Convert α) :=
  fun _ => ensures_pure trivial

theorem keepsBlocks_throw (e : ConvertError) : KeepsBlocks (throw e : Convert α) :=
  fun _ => ensures_throw trivial

theorem keepsBlocks_modify {f : Context → Context} (h : ∀ ctx, (f ctx).blocks = ctx.blocks) :
    KeepsBlocks (modify f : Convert Unit) :=
  fun _ => ensures_modify fun ctx hctx => (h ctx).trans hctx

theorem keepsBlocks_resolve (family : Family) (index : Nat) : KeepsBlocks (resolve family index) :=
  fun _ => ensures_resolve (fun _ _ _ _ => trivial) fun _ _ _ => trivial

theorem KeepsBlocks.bind {x : Convert α} {f : α → Convert β} (hx : KeepsBlocks x)
    (hf : ∀ a, KeepsBlocks (f a)) : KeepsBlocks (x >>= f) :=
  fun blocks => ensures_bind (hx blocks) fun a _ => hf a blocks

theorem keepsBlocks_mapM {f : α → Convert β} (h : ∀ a, KeepsBlocks (f a)) (as : List α) :
    KeepsBlocks (as.mapM f) :=
  fun blocks => (ensures_mapM fun a _ => h a blocks).mono fun _ _ => trivial

/-- The tags that the step prints are those of the marks. -/
def PrintsTags (ms : List Mark) (x : Convert (List Emitted)) : Prop :=
  ∀ ctx es ctx', x.run.run ctx = (.ok es, ctx') →
    Tags ctx.blocks.kinds ms (brackets es) ctx'.blocks.kinds

variable {ms ms' : List Mark}

/-- `pure` prints no tag if its output has none. -/
theorem printsTags_pure {es : List Emitted} (h : brackets es = []) : PrintsTags [] (pure es) := by
  intro ctx es' ctx' hrun
  obtain ⟨hes, rfl⟩ := Prod.mk.inj hrun
  rw [← Except.ok.inj hes, h]
  exact .nil

/-- What keeps the blocks (`KeepsBlocks`) prints no tag. -/
theorem KeepsBlocks.printsTags_bind {x : Convert α} (hx : KeepsBlocks x)
    {f : α → Convert (List Emitted)} (hf : ∀ a, PrintsTags ms (f a)) : PrintsTags ms (x >>= f) := by
  intro ctx es ctx' hrun
  obtain ⟨a, ctx₁, hfirst, hrest⟩ := exists_of_run_bind hrun
  rw [← hx.blocks_eq hfirst]
  exact hf a ctx₁ es ctx' hrest

/-- Marks behind each other print their tags behind each other. -/
theorem PrintsTags.append {x y : Convert (List Emitted)} (hx : PrintsTags ms x)
    (hy : PrintsTags ms' y) : PrintsTags (ms ++ ms') (do return (← x) ++ (← y)) := by
  intro ctx es ctx' hrun
  obtain ⟨front, ctx₁, hfront, hrun⟩ := exists_of_run_bind hrun
  obtain ⟨back, ctx₂, hback, hrun⟩ := exists_of_run_bind hrun
  obtain ⟨hes, rfl⟩ := Prod.mk.inj hrun
  rw [← Except.ok.inj hes, Emitted.brackets_append]
  exact (hx ctx front ctx₁ hfront).append (hy ctx₁ back ctx₂ hback)

/-- `mapM` prints the tags of its members in order. -/
theorem printsTags_flatten_mapM {marks : α → List Mark} {f : α → Convert (List Emitted)}
    {as : List α} (h : ∀ a ∈ as, PrintsTags (marks a) (f a)) :
    PrintsTags (as.flatMap marks) (do return (← as.mapM f).flatten) := by
  induction as with
  | nil => exact printsTags_pure rfl
  | cons a as ih =>
    have hrest := ih fun b hb => h b (List.mem_cons_of_mem _ hb)
    have hcons := (h a List.mem_cons_self).append hrest
    simpa only [List.flatMap_cons, List.mapM_cons, bind_assoc, pure_bind, List.flatten_cons]
      using hcons

/-- A block is closed by the tag of its kind. -/
theorem kinds_of_run_closeBlock {ctx ctx' : Context} {kind : BlockKind}
    (h : (nesting Context.closeBlock).run.run ctx = (.ok kind, ctx')) :
    ctx.blocks.kinds = kind :: ctx'.blocks.kinds := by
  cases hkinds : ctx.blocks.kinds with
  | nil =>
    have hclose : ctx.closeBlock = (.error (.unexpectedEnd (ctx.blocks.endsSeen + 1)),
        { ctx with blocks := { ctx.blocks with endsSeen := ctx.blocks.endsSeen + 1 } }) := by
      simp only [Context.closeBlock, BlockStack.pop, hkinds]
    rw [run_nesting_error hclose] at h
    cases h
  | cons top kinds =>
    let blocks : BlockStack := ⟨kinds, ctx.blocks.endsSeen + 1⟩
    have hclose : ctx.closeBlock = (.ok top,
        { ctx with blocks, switches := ctx.switches.dropWhile (blocks.depth < ·.depth) }) := by
      simp only [Context.closeBlock, BlockStack.pop, hkinds, blocks]
    rw [run_nesting_ok hclose] at h
    obtain ⟨hkind, rfl⟩ := Prod.mk.inj h
    rw [← Except.ok.inj hkind]

/-- `emitDirective` prints the tag of the block that the directive opens or closes. -/
theorem printsTags_emitDirective {span : Text}
    (h : (Directive.classify span).isSwitching = false) :
    PrintsTags [.directive (Directive.classify span)] (emitDirective span) := by
  have hopening {d : Directive} {kind : BlockKind} (hkind : d.blockKind? = some kind)
      (argument : Text) : PrintsTags [.directive d] (emitOpening kind argument) := by
    intro ctx es ctx' hrun
    obtain ⟨hes, rfl⟩ := Prod.mk.inj hrun
    rw [← Except.ok.inj hes]
    exact .opener hkind .nil
  have hneutral {d : Directive} (hopen : ¬d.IsOpener) (hend : d ≠ .endBlock) {x : Convert Text}
      (hx : KeepsBlocks x) : PrintsTags [.directive d] (do return [.text (← x)]) := by
    refine hx.printsTags_bind fun out ctx es ctx' hrun => ?_
    obtain ⟨hes, rfl⟩ := Prod.mk.inj hrun
    rw [← Except.ok.inj hes]
    exact .other hopen hend .nil
  rw [emitDirective]
  cases hd : Directive.classify span with
  -- The tags of a switch depend on its cases.
  | switch _ | nextCase => rw [hd] at h; cases h
  | ifThen _ | foreach _ _ | fill _ | assign _ => exact hopening rfl _
  | endBlock =>
    intro ctx es ctx' hrun
    obtain ⟨kind, ctx₁, hclose, hrun⟩ := exists_of_run_bind hrun
    obtain ⟨hes, rfl⟩ := Prod.mk.inj hrun
    rw [← Except.ok.inj hes, kinds_of_run_closeBlock hclose]
    exact .endBlock .nil
  | elseIf _ | otherwise | contentBlock | raw _ | print _ =>
    exact hneutral (by simp [Directive.IsOpener, Directive.blockKind?]) (by simp) (keepsBlocks_pure _)
  | inherit _ =>
    refine hneutral (by simp [Directive.IsOpener, Directive.blockKind?]) (by simp) ?_
    exact (keepsBlocks_modify fun _ => rfl).bind fun _ => keepsBlocks_pure _

/-- `fillMacroTokens` keeps the blocks. -/
theorem keepsBlocks_fillMacroTokens (t : Text) : KeepsBlocks (fillMacroTokens t) := by
  have htoken (digits : Text) : KeepsBlocks (resolveMacroToken digits) := by
    unfold resolveMacroToken
    split
    · exact keepsBlocks_resolve _ _
    · exact keepsBlocks_throw _
  unfold fillMacroTokens
  split
  · refine (keepsBlocks_mapM ?_ _).bind fun outs =>
      (keepsBlocks_modify fun _ => rfl).bind fun _ => keepsBlocks_pure _
    rintro (u | digits)
    · exact keepsBlocks_pure u
    · exact htoken digits
  · exact keepsBlocks_pure t

/-- `convertAttribute` keeps the blocks. -/
theorem keepsBlocks_convertAttribute (a : Attribute) : KeepsBlocks (convertAttribute a) := by
  unfold convertAttribute
  split
  · exact (keepsBlocks_resolve _ _).bind fun _ => keepsBlocks_pure _
  · exact (keepsBlocks_resolve _ _).bind fun _ =>
      (keepsBlocks_modify fun _ => rfl).bind fun _ => keepsBlocks_pure _
  · exact (keepsBlocks_resolve _ _).bind fun _ => keepsBlocks_pure _
  · exact keepsBlocks_pure _

end Convert

/-! ## The tags of a tree -/

/-- The attribute holds a condition of its element. -/
def Attribute.isCondition (a : Attribute) : Bool :=
  match a.placeholder? with
  | some (.condition, _) => true
  | _ => false

/-- The element is shown under a condition. -/
def Tag.isConditional (tag : Tag) : Bool := tag.attributes.any Attribute.isCondition

namespace Node

mutual

/-- What decides about the tags of a node. -/
def marks : Node → List Mark
  | .text content => (Piece.tokens (conversionPieces content)).map (.directive ∘ Directive.classify)
  | .raw _ => []
  | .element tag children =>
    if tag.isConditional then .enter .guard :: marksAll children ++ [.leave .guard]
    else marksAll children

/-- What decides about the tags of a list of nodes. -/
def marksAll : List Node → List Mark
  | [] => []
  | n :: ns => n.marks ++ marksAll ns

end

end Node

/-- What a piece gives if it is a token. -/
def Piece.onToken {α β : Type} (f : α → β) : Piece α → List β
  | .plain _ => []
  | .token a => [f a]

/-- A map over `tokens` goes piece by piece. -/
theorem Piece.map_tokens {α β : Type} (f : α → β) (ps : List (Piece α)) :
    (tokens ps).map f = ps.flatMap (onToken f) := by
  induction ps with
  | nil => rfl
  | cons p ps ih => cases p <;> simp [ih, onToken]

namespace Convert

/-- `emitText` prints the tags of the marks of a text. -/
theorem printsTags_emitText {content : Text}
    (h : ∀ d ∈ (Node.text content).spans.map Directive.classify, d.isSwitching = false) :
    PrintsTags (Node.text content).marks (emitText content) := by
  rw [Node.marks, Piece.map_tokens]
  refine printsTags_flatten_mapM fun p hp => ?_
  cases p with
  | plain t => exact (keepsBlocks_fillMacroTokens t).printsTags_bind fun out => printsTags_pure rfl
  | token span =>
    refine printsTags_emitDirective (h _ (List.mem_map_of_mem ?_))
    exact List.mem_filterMap.2 ⟨_, hp, rfl⟩

/-- `convertAttribute` makes a condition of an attribute that holds one, and of no other. -/
theorem conditions_singleton_eq_nil_iff {a : Attribute} {c : Converted} {ctx ctx' : Context}
    (h : (convertAttribute a).run.run ctx = (.ok c, ctx')) :
    Converted.conditions [c] = [] ↔ a.isCondition = false := by
  unfold Attribute.isCondition
  rcases condition_or_kept_of_run h with ⟨index, entry, hfound, -, rfl⟩ | ⟨hother, kept, rfl⟩
  · rw [hfound]
    simp [Converted.conditions]
  · split
    · next index hfound => exact absurd hfound (hother index)
    · simp [Converted.conditions]

/-- Attributes come to no condition exactly if none holds one. -/
theorem conditions_eq_nil_iff {attributes : List Attribute} {converted : List Converted}
    {ctx ctx' : Context}
    (h : (attributes.mapM convertAttribute).run.run ctx = (.ok converted, ctx')) :
    Converted.conditions converted = [] ↔ attributes.any Attribute.isCondition = false := by
  induction attributes generalizing converted ctx ctx' with
  | nil =>
    rw [← Except.ok.inj (Prod.mk.inj h).1]
    simp [Converted.conditions]
  | cons a attributes ih =>
    rw [List.mapM_cons] at h
    obtain ⟨c, ctx₁, hc, h⟩ := exists_of_run_bind h
    obtain ⟨cs, ctx₂, hcs, h⟩ := exists_of_run_bind h
    have hsplit : Converted.conditions (c :: cs) =
        Converted.conditions [c] ++ Converted.conditions cs := by cases c <;> rfl
    rw [← Except.ok.inj (Prod.mk.inj h).1, hsplit, List.append_eq_nil_iff, ih hcs,
      conditions_singleton_eq_nil_iff hc, List.any_cons, Bool.or_eq_false_iff]

/-- An element with a condition prints a pair of tags around those of its content. -/
theorem brackets_emitElement (conditions : List Text) (tag : Tag) {inner : List Emitted}
    (h : tag.showsChildren = false → inner = []) :
    brackets (emitElement conditions tag inner) =
      if conditions = [] then brackets inner
      else .opening (.enclosure .guard) :: brackets inner ++ [.closing (.enclosure .guard)] := by
  have hshown : (if tag.showsChildren then inner else []) = inner := by
    cases hshows : tag.showsChildren with
    | true => rfl
    | false => rw [h hshows]; rfl
  cases conditions <;> simp [emitElement, hshown]

mutual

/-- `emitNode` prints the tags of the marks of a node. -/
theorem printsTags_emitNode : (n : Node) → n.Shown →
    (∀ d ∈ n.spans.map Directive.classify, d.isSwitching = false) →
    PrintsTags n.marks (emitNode n)
  | .text content, _, h => by
    rw [emitNode]
    exact printsTags_emitText h
  | .raw source, _, _ => by
    rw [emitNode, Node.marks]
    exact printsTags_pure rfl
  | .element tag children, hshown, h => by
    rw [emitNode]
    intro ctx es ctx' hrun
    obtain ⟨converted, ctx₁, hconverted, hrun⟩ := exists_of_run_bind hrun
    obtain ⟨inner, ctx₂, hinner, hrun⟩ := exists_of_run_bind hrun
    obtain ⟨hes, rfl⟩ := Prod.mk.inj hrun
    have htags := printsTags_emitNodes children hshown.2 h ctx₁ inner ctx₂ hinner
    rw [(keepsBlocks_mapM keepsBlocks_convertAttribute _).blocks_eq hconverted] at htags
    -- Children that are not written are not there either.
    have hhidden : tag.showsChildren = false → inner = [] := by
      intro hshows
      rw [hshown.1 hshows, emitNodes] at hinner
      exact (Except.ok.inj (Prod.mk.inj hinner).1).symm
    rw [← Except.ok.inj hes,
      brackets_emitElement _ { tag with attributes := Converted.attributes converted } hhidden,
      Node.marks, Tag.isConditional]
    cases hguard : tag.attributes.any Attribute.isCondition with
    | false =>
      rw [if_pos ((conditions_eq_nil_iff hconverted).2 hguard)]
      exact htags
    | true =>
      have hne : Converted.conditions converted ≠ [] := by
        rw [ne_eq, conditions_eq_nil_iff hconverted, hguard]
        simp
      rw [if_neg hne]
      exact (Tags.enter htags).append (.leave (by simp) .nil)

/-- `emitNodes` prints the tags of the marks of a tree. -/
theorem printsTags_emitNodes : (ns : List Node) → Node.ShownIn ns →
    (∀ d ∈ Node.directivesAll ns, d.isSwitching = false) →
    PrintsTags (Node.marksAll ns) (emitNodes ns)
  | [], _, _ => by
    rw [emitNodes, Node.marksAll]
    exact printsTags_pure rfl
  | n :: ns, hshown, h => by
    rw [emitNodes, Node.marksAll]
    rw [Node.directivesAll, Node.spansAll, List.map_append] at h
    exact (printsTags_emitNode n hshown.1 fun d hd => h d (List.mem_append_left _ hd)).append
      (printsTags_emitNodes ns hshown.2 fun d hd => h d (List.mem_append_right _ hd))

end

end Convert

end TemploTwig
