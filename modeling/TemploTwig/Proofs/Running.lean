import TemploTwig.Conversion.Text
import TemploTwig.Proofs.Scanning

/-!
# Running a conversion step by step

A step of a conversion gives a result or an error, and a new state in either case.  The lemmas
here open a step that is put together from others, so that later proofs follow the parts and
never unfold the monad.

Key results: `Convert.run_bind_ok`, `Convert.run_bind_error`, `Convert.run_nesting_ok`,
`Convert.run_nesting_error`, `convertText_eq_mapM`, `renderAll_conversionPieces`, `Convert.Ignores`,
`Criterion.Judges`.
-/

namespace TemploTwig

variable {ctx ctx' : Context} {family : Family} {index : Nat}

namespace Convert

variable {α β : Type} {x : Convert α} {f : α → Convert β}

@[simp] theorem run_pure (a : α) (ctx : Context) :
    (pure a : Convert α).run.run ctx = (.ok a, ctx) := rfl

@[simp] theorem run_modify (f : Context → Context) (ctx : Context) :
    (modify f : Convert Unit).run.run ctx = (.ok (), f ctx) := rfl

theorem run_get (ctx : Context) : (get : Convert Context).run.run ctx = (.ok ctx, ctx) := rfl

/-- `>>=` goes on with the result of a step that succeeds. -/
theorem run_bind_ok {a : α} (h : x.run.run ctx = (.ok a, ctx')) (f : α → Convert β)
    :
    (x >>= f).run.run ctx = (f a).run.run ctx' := by
  simp only [ExceptT.run_bind, StateT.run_bind, h]
  rfl

/-- `>>=` ends with a step that fails. -/
theorem run_bind_error {e : ConvertError} (h : x.run.run ctx = (.error e, ctx'))
    (f : α → Convert β) : (x >>= f).run.run ctx = (.error e, ctx') := by
  simp only [ExceptT.run_bind, StateT.run_bind, h]
  rfl

/-- `>>=` succeeds if both parts do. -/
theorem exists_of_run_bind {b : β} (h : (x >>= f).run.run ctx = (.ok b, ctx')) :
    ∃ a ctx₁, x.run.run ctx = (.ok a, ctx₁) ∧ (f a).run.run ctx₁ = (.ok b, ctx') := by
  rcases hrun : x.run.run ctx with ⟨result, ctx₁⟩
  cases result with
  | ok a => exact ⟨a, ctx₁, rfl, by rwa [run_bind_ok hrun] at h⟩
  | error e => rw [run_bind_error hrun] at h; cases h

/-- `<$>` changes the result only. -/
theorem run_map (f : α → β) (x : Convert α) (ctx : Context) :
    (f <$> x).run.run ctx = ((x.run.run ctx).1.map f, (x.run.run ctx).2) := by
  rcases hrun : x.run.run ctx with ⟨result, ctx'⟩
  rw [map_eq_pure_bind]
  cases result with
  | ok a => exact run_bind_ok hrun _
  | error e => exact run_bind_error hrun _

/-- `<$>` succeeds if the step does. -/
theorem exists_of_run_map {f : α → β} {b : β}
    (h : (f <$> x).run.run ctx = (.ok b, ctx')) : ∃ a, x.run.run ctx = (.ok a, ctx') ∧ f a = b := by
  rw [map_eq_pure_bind] at h
  obtain ⟨a, ctx₁, hx, hf⟩ := exists_of_run_bind h
  obtain ⟨hb, rfl⟩ := Prod.mk.inj hf
  exact ⟨a, hx, Except.ok.inj hb⟩

/-- What follows a step has to agree on the results of the step only. -/
theorem bind_congr_of_run {f g : α → Convert β}
    (h : ∀ ctx a ctx', x.run.run ctx = (.ok a, ctx') → f a = g a) : x >>= f = x >>= g := by
  funext ctx
  show (x >>= f).run.run ctx = (x >>= g).run.run ctx
  rcases hrun : x.run.run ctx with ⟨result, ctx'⟩
  cases result with
  | ok a => rw [run_bind_ok hrun, run_bind_ok hrun, h ctx a ctx' hrun]
  | error e => rw [run_bind_error hrun, run_bind_error hrun]

/-- Two steps whose results are read alike may be followed by steps that read them alike. -/
theorem bind_congr_of_map {γ δ : Type} {y : Convert β} {r : α → γ} {s : β → γ}
    (h : r <$> x = s <$> y) {f : α → Convert δ} {g : β → Convert δ}
    (hfg : ∀ a b, r a = s b → f a = g b) : x >>= f = y >>= g := by
  funext ctx
  have hrun := congrArg (fun z : Convert γ => z.run.run ctx) h
  simp only [run_map] at hrun
  show (x >>= f).run.run ctx = (y >>= g).run.run ctx
  rcases hx : x.run.run ctx with ⟨xresult, xctx⟩
  rcases hy : y.run.run ctx with ⟨yresult, yctx⟩
  rw [hx, hy, Prod.mk.injEq] at hrun
  obtain ⟨hresult, rfl⟩ := hrun
  cases xresult with
  | ok a =>
    cases yresult with
    | ok b => rw [run_bind_ok hx, run_bind_ok hy, hfg a b (Except.ok.inj hresult)]
    | error e => cases hresult
  | error e =>
    cases yresult with
    | ok b => cases hresult
    | error e' => rw [run_bind_error hx, run_bind_error hy, Except.error.inj hresult]

/-- `mapM` gives one result for each element. -/
theorem length_of_run_mapM {as : List α} {bs : List β}
    (h : (as.mapM f).run.run ctx = (.ok bs, ctx')) : bs.length = as.length := by
  induction as generalizing bs ctx ctx' with
  | nil =>
    rw [List.mapM_nil, run_pure, Prod.mk.injEq, Except.ok.injEq] at h
    rw [← h.1]
    rfl
  | cons a as ih =>
    rw [List.mapM_cons] at h
    rcases hrun : (f a).run.run ctx with ⟨result, ctx₁⟩
    cases result with
    | error e => rw [run_bind_error hrun] at h; cases h
    | ok b =>
      rw [run_bind_ok hrun] at h
      rcases hrest : (as.mapM f).run.run ctx₁ with ⟨result, ctx₂⟩
      cases result with
      | error e => rw [run_bind_error hrest] at h; cases h
      | ok bs' =>
        rw [run_bind_ok hrest, run_pure, Prod.mk.injEq, Except.ok.injEq] at h
        rw [← h.1, List.length_cons, List.length_cons, ih hrest]

/-- `resolve` gives the entry. -/
theorem run_resolve {entry : Text} (h : (ctx.tables.entries family)[index]? = some entry) :
    (resolve family index).run.run ctx = (.ok entry, ctx) := by
  rw [resolve, run_bind_ok (run_get ctx), Context.resolve, h]
  rfl

/-- `resolve` fails where there is no entry. -/
theorem run_resolve_of_none (h : (ctx.tables.entries family)[index]? = none) :
    (resolve family index).run.run ctx = (.error (.unresolvedPlaceholder family index), ctx) := by
  rw [resolve, run_bind_ok (run_get ctx), Context.resolve, h]
  rfl

/-- `resolve` gives an entry and changes nothing. -/
theorem getElem?_of_run_resolve {entry : Text}
    (h : (resolve family index).run.run ctx = (.ok entry, ctx')) :
    (ctx.tables.entries family)[index]? = some entry ∧ ctx' = ctx := by
  cases hentry : (ctx.tables.entries family)[index]? with
  | none => rw [run_resolve_of_none hentry] at h; cases h
  | some found =>
    rw [run_resolve hentry, Prod.mk.injEq, Except.ok.injEq] at h
    exact ⟨congrArg some h.1, h.2.symm⟩

/-- `nesting` keeps what a change that succeeds did to the state. -/
theorem run_nesting_ok {f : Context → Except NestingError α × Context} {a : α}
    (h : f ctx = (.ok a, ctx')) : (nesting f).run.run ctx = (.ok a, ctx') := by
  simp only [nesting]
  rw [run_bind_ok (run_get ctx), h]
  rfl

/-- `nesting` keeps what a change that fails did to the state. -/
theorem run_nesting_error {f : Context → Except NestingError α × Context} {e : NestingError}
    (h : f ctx = (.error e, ctx')) :
    (nesting f).run.run ctx = (.error (.malformedNesting e), ctx') := by
  simp only [nesting]
  rw [run_bind_ok (run_get ctx), h]
  rfl

end Convert

/-- Converting lists one after the other and joining all results is converting the whole. -/
private theorem mapM_flatMap_flatten {γ : Type} (scan : γ → List (Piece Text)) (parts : List γ) :
    (do return (← parts.mapM fun part => do
        return (← (scan part).mapM convertPiece).flatten).flatten : Convert Text) =
      do return (← (parts.flatMap scan).mapM convertPiece).flatten := by
  induction parts with
  | nil => rfl
  | cons part parts ih =>
    simp only [List.mapM_cons, List.flatMap_cons, List.mapM_append, bind_assoc, pure_bind,
      List.flatten_cons, List.flatten_append]
    refine bind_congr fun front => ?_
    have hmap := congrArg (fun x : Convert Text => do return front.flatten ++ (← x)) ih
    simpa only [bind_assoc, pure_bind] using hmap

/-- The pieces of a text, in the order in which they are converted. -/
def conversionPieces (t : Text) : List (Piece Text) := (Partition.split t).flatMap Span.scan

/-- `convertText` goes through the `conversionPieces`. -/
theorem convertText_eq_mapM (t : Text) :
    convertText t = do return (← (conversionPieces t).mapM convertPiece).flatten :=
  mapM_flatMap_flatten Span.scan (Partition.split t)

/-- `gather` loses no text. -/
theorem Partition.flatten_gather (current : Text) (ps : List (Piece Text)) :
    (Partition.gather current ps).flatten = current ++ Piece.renderAll id ps := by
  induction ps generalizing current with
  | nil => simp [Partition.gather]
  | cons p ps ih =>
    cases p with
    | plain t => rw [Partition.gather, ih, Piece.renderAll_cons, List.append_assoc]; rfl
    | token t =>
      rw [Partition.gather]
      split
      · next h => rw [ih, h]; rfl
      · rw [List.flatten_cons, ih]; rfl

/-- `Span.scan` loses no text, part by part. -/
theorem renderAll_flatMap_scan (parts : List Text) :
    Piece.renderAll id (parts.flatMap Span.scan) = parts.flatten := by
  induction parts with
  | nil => rfl
  | cons part parts ih =>
    rw [List.flatMap_cons, Piece.renderAll_append, ih, List.flatten_cons]
    congr 1
    exact Recogniser.renderAll_scan _ _ (fun h => Span.take?_eq_append h) part

/-- `conversionPieces` make up the text. -/
theorem renderAll_conversionPieces (t : Text) : Piece.renderAll id (conversionPieces t) = t := by
  rw [conversionPieces, renderAll_flatMap_scan, Partition.split, Partition.flatten_gather,
    List.nil_append]
  apply Recogniser.renderAll_scan
  intro t a rest h
  exact (Partition.takeStarter?_eq_append h).2

/-- A piece of a plain run, with the inline token that it may be filled in. -/
def fillPiece : Piece Text → Convert Text
  | .plain u => pure u
  | .token digits => resolveMacroToken digits

/-- `fillMacroTokens` fills in a run that opens an inline token, piece by piece. -/
theorem fillMacroTokens_of_opening {t : Text} (h : t.contains MacroToken.opening = true) :
    fillMacroTokens t = (do
      let parts ← (MacroToken.scan t).mapM fillPiece
      modify (·.markCall)
      return parts.flatten) := by
  unfold fillMacroTokens
  exact if_pos h

/-- `fillMacroTokens` keeps a run that opens no inline token. -/
theorem fillMacroTokens_of_no_opening {t : Text} (h : t.contains MacroToken.opening = false) :
    fillMacroTokens t = pure t := by
  rw [fillMacroTokens, h]
  rfl

/-! ## What a step does not read -/

/-- A step that neither reads what a change of the context changes nor undoes the change. -/
def Convert.Ignores {α : Type} (change : Context → Context) (x : Convert α) : Prop :=
  ∀ ctx, x.run.run (change ctx) = ((x.run.run ctx).1, change (x.run.run ctx).2)

/-- The context with another kind of template, another parent and other tables. -/
def Context.relabel (kind : TemplateKind → TemplateKind) (parent : Option Text → Option Text)
    (tables : Tables → Tables) (ctx : Context) : Context :=
  { ctx with kind := kind ctx.kind, parent := parent ctx.parent, tables := tables ctx.tables }

namespace Convert

section Ignores

variable {α β : Type} {change : Context → Context}

theorem ignores_pure (a : α) : Ignores change (pure a : Convert α) := fun _ => rfl

theorem ignores_throw (e : ConvertError) : Ignores change (throw e : Convert α) := fun _ => rfl

/-- `modify` with what commutes with the change. -/
theorem ignores_modify {f : Context → Context} (h : ∀ ctx, f (change ctx) = change (f ctx)) :
    Ignores change (modify f : Convert Unit) := by
  intro ctx
  rw [run_modify, run_modify, h]

/-- `Ignores` holds of two steps in a row. -/
theorem ignores_bind {x : Convert α} {f : α → Convert β} (hx : Ignores change x)
    (hf : ∀ a, Ignores change (f a)) : Ignores change (x >>= f) := by
  intro ctx
  have hrun := hx ctx
  rcases hplain : x.run.run ctx with ⟨result, ctx'⟩
  rw [hplain] at hrun
  cases result with
  | ok a => rw [run_bind_ok hrun, run_bind_ok hplain, hf a]
  | error e => rw [run_bind_error hrun, run_bind_error hplain]

/-- `Ignores` holds of a list of steps. -/
theorem ignores_mapM {f : α → Convert β} {as : List α} (hf : ∀ a ∈ as, Ignores change (f a)) :
    Ignores change (as.mapM f) := by
  induction as with
  | nil => exact ignores_pure []
  | cons a as ih =>
    rw [List.mapM_cons]
    refine ignores_bind (hf a List.mem_cons_self) fun b => ?_
    exact ignores_bind (ih fun c hc => hf c (List.mem_cons_of_mem a hc)) fun bs => ignores_pure _

/-- `nesting` of what commutes with the change. -/
theorem ignores_nesting {f : Context → Except NestingError α × Context}
    (h : ∀ ctx, f (change ctx) = ((f ctx).1, change (f ctx).2)) : Ignores change (nesting f) := by
  intro ctx
  have hchange := h ctx
  rcases hplain : f ctx with ⟨result, ctx'⟩
  rw [hplain] at hchange
  cases result with
  | ok a => rw [run_nesting_ok hchange, run_nesting_ok hplain]
  | error e => rw [run_nesting_error hchange, run_nesting_error hplain]

end Ignores

section Relabel

variable {kind : TemplateKind → TemplateKind} {parent : Option Text → Option Text}
  {tables : Tables → Tables}

theorem ignores_ensureClosed : Ignores (Context.relabel kind parent tables) ensureClosed :=
  ignores_nesting fun _ => rfl

theorem ignores_nextCase :
    Ignores (Context.relabel kind parent tables) (nesting Context.nextCase) := by
  refine ignores_nesting fun ctx => ?_
  obtain ⟨options, _, blocks, switches⟩ := ctx
  cases switches <;> rfl

theorem ignores_closeBlock :
    Ignores (Context.relabel kind parent tables) (nesting Context.closeBlock) := by
  refine ignores_nesting fun ctx => ?_
  rcases hpop : ctx.blocks.pop with ⟨result, blocks⟩
  simp only [Context.closeBlock, Context.relabel, hpop]
  cases result <;> rfl

/-- `renderDirective` asks neither for the kind of the template nor for its parent or the tables. -/
theorem ignores_renderDirective (span : Text) :
    Ignores (Context.relabel kind parent tables) (renderDirective span) := by
  rw [renderDirective]
  cases Directive.classify span with
  | switch subject =>
    exact ignores_bind (ignores_modify fun _ => rfl) fun _ => ignores_pure _
  | nextCase => exact ignores_bind ignores_nextCase fun _ => ignores_pure _
  | endBlock => exact ignores_bind ignores_closeBlock fun _ => ignores_pure _
  | ifThen _ | foreach _ _ | fill _ | assign _ | inherit _ =>
    exact ignores_bind (ignores_modify fun _ => rfl) fun _ => ignores_pure _
  | elseIf _ | otherwise | contentBlock | raw _ | print _ => exact ignores_pure _

/-- `renderDirective` leaves the tables as they are. -/
theorem tables_renderDirective (span : Text) (ctx : Context) :
    ((renderDirective span).run.run ctx).2.tables = ctx.tables := by
  -- To give the context the tables that it has changes nothing, before or after.
  have hignores : Ignores (Context.relabel id id fun _ => ctx.tables) (renderDirective span) :=
    ignores_renderDirective span
  exact congrArg (fun r => r.2.tables) (hignores ctx)

end Relabel

end Convert

/-! ## Steps that are judged by what they meet -/

/-- A way to judge what a conversion meets, one after the other: that nothing is wrong with it in
    the state that it has led to, or which error it comes to.  Once something is wrong, what comes
    after it does not count. -/
structure Criterion (γ : Type) where
  Accepts : List γ → Context → Prop
  Refuses : List γ → ConvertError → Prop
  refuses_append : ∀ {cs : List γ} {e : ConvertError} (ds : List γ), Refuses cs e →
    Refuses (cs ++ ds) e

namespace Criterion

variable {γ α β : Type} {k : Criterion γ} {cs ds : List γ} {x : Convert α} {f : α → Convert β}

/-- Behind things that are accepted, the step meets `cs`: it goes on if they are accepted as well,
    and it fails with the error that they come to. -/
def Judges (k : Criterion γ) (cs : List γ) (x : Convert α) : Prop :=
  ∀ before ctx, k.Accepts before ctx →
    (∃ a ctx', x.run.run ctx = (.ok a, ctx') ∧ k.Accepts (before ++ cs) ctx') ∨
    ∃ e ctx', x.run.run ctx = (.error e, ctx') ∧ k.Refuses (before ++ cs) e

/-- `Judges` a step that meets nothing and always goes on. -/
theorem judges_nil_of_run (h : ∀ before ctx, k.Accepts before ctx →
      ∃ a ctx', x.run.run ctx = (.ok a, ctx') ∧ k.Accepts before ctx') : k.Judges [] x := by
  intro before ctx hctx
  rw [List.append_nil]
  exact .inl (h before ctx hctx)

theorem judges_pure (a : α) : k.Judges [] (pure a : Convert α) :=
  judges_nil_of_run fun _ ctx hctx => ⟨a, ctx, rfl, hctx⟩

/-- `Judges` two steps in a row. -/
theorem Judges.bind (hx : k.Judges cs x)
    (hf : ∀ a, k.Judges ds (f a)) : k.Judges (cs ++ ds) (x >>= f) := by
  intro before ctx hctx
  rw [← List.append_assoc]
  rcases hx before ctx hctx with ⟨a, ctx₁, hrun, haccepts⟩ | ⟨e, ctx₁, hrun, hrefuses⟩
  · rw [Convert.run_bind_ok hrun]
    exact hf a (before ++ cs) ctx₁ haccepts
  · exact .inr ⟨e, ctx₁, Convert.run_bind_error hrun f, k.refuses_append ds hrefuses⟩

/-- `Judges` a step behind one that meets nothing. -/
theorem Judges.bind_nil (hx : k.Judges [] x)
    (hf : ∀ a, k.Judges cs (f a)) : k.Judges cs (x >>= f) := hx.bind hf

/-- `Judges` does not depend on what is made of the result. -/
theorem Judges.map (hx : k.Judges cs x) (g : α → β) :
    k.Judges cs (do return g (← x)) := by
  have hbind := hx.bind fun a => judges_pure (g a)
  rwa [List.append_nil] at hbind

/-- `Judges` a list of steps. -/
theorem judges_mapM {met : α → List γ} {as : List α}
    (h : ∀ a ∈ as, k.Judges (met a) (f a)) : k.Judges (as.flatMap met) (as.mapM f) := by
  induction as with
  | nil => exact judges_pure []
  | cons a as ih =>
    rw [List.mapM_cons, List.flatMap_cons]
    refine (h a List.mem_cons_self).bind fun b => ?_
    exact (ih fun b hb => h b (List.mem_cons_of_mem a hb)).map (b :: ·)

/-- `Judges` a list of steps that meet nothing. -/
theorem judges_mapM_nil {as : List α} (h : ∀ a ∈ as, k.Judges [] (f a)) :
    k.Judges [] (as.mapM f) := by
  have hall := judges_mapM h
  rwa [List.flatMap_eq_nil_iff.2 fun _ _ => rfl] at hall

end Criterion

end TemploTwig
