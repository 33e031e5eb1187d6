import TemploTwig.Proofs.Reachable
import TemploTwig.Proofs.Template.Syntax

/-!
# Structured templates are translated along their structure

Converting the source of a structured template gives its rendering, from every context that a
conversion can reach.  The text is first taken apart into the pieces that the template is made of;
then the blocks and switches that each construct opens are followed until its end closes them again.
-/

namespace TemploTwig

/-! ## From the text to its pieces -/

/-- Convert a piece whose plain runs stand for themselves. -/
def emit : Piece Directive → Convert Text
  | .plain t => pure t
  | .token d => renderClassified d.source d

/-- Convert pieces one after the other. -/
def emitAll (ps : List (Piece Directive)) : Convert Text := do
  return (← ps.mapM emit).flatten

theorem emitAll_cons (p : Piece Directive) (ps : List (Piece Directive)) :
    emitAll (p :: ps) = do
      let front ← emit p
      return front ++ (← emitAll ps) := by
  simp only [emitAll, List.mapM_cons, bind_assoc, pure_bind, List.flatten_cons]

theorem emitAll_prepend (t : Text) (ps : List (Piece Directive)) :
    emitAll (Piece.prepend t ps) = do return t ++ (← emitAll ps) := by
  match ps with
  | [] => rfl
  | .plain u :: ps =>
    simp only [Piece.prepend, emitAll_cons, emit, pure_bind, bind_assoc, List.append_assoc]
  | .token d :: ps => rw [Piece.prepend, emitAll_cons, emit, pure_bind]; simp

/-- Putting plain runs together does not change what the pieces give. -/
theorem emitAll_join (ps : List (Piece Directive)) : emitAll (Piece.join ps) = emitAll ps := by
  induction ps with
  | nil => rfl
  | cons p ps ih =>
    cases p with
    | plain t =>
      rw [Piece.join, emitAll_cons, emit, pure_bind]
      split
      · next ht => simp only [ih, ht, List.nil_append, bind_pure]
      · rw [emitAll_prepend, ih]
    | token d => rw [Piece.join, emitAll_cons, ih, ← emitAll_cons]

/-- A piece with its directive spelled out. -/
def Piece.spell : Piece Directive → Piece Text
  | .plain t => .plain t
  | .token d => .token d.source

theorem renderAll_spell (ps : List (Piece Directive)) :
    Piece.renderAll id (ps.map Piece.spell) = Piece.renderAll Directive.source ps := by
  induction ps with
  | nil => rfl
  | cons p ps ih =>
    rw [List.map_cons, Piece.renderAll_cons, Piece.renderAll_cons, ih]
    cases p <;> rfl

/-- Maximal plain runs that stand clear keep the pieces of a text apart. -/
theorem laid_spell {afterDirective : Bool} {ps : List (Piece Directive)} (hjoined : Piece.Joined ps)
    (hruns : PlainRuns afterDirective ps) (hback : ∀ d, .token d ∈ ps → d.ReadsBack) :
    Partition.Laid afterDirective (ps.map Piece.spell) := by
  induction ps generalizing afterDirective with
  | nil => trivial
  | cons p ps ih =>
    have hback' : ∀ d, .token d ∈ ps → d.ReadsBack := fun d h => hback d (List.mem_cons_of_mem _ h)
    cases p with
    | plain t =>
      obtain ⟨hne, hstarts, hjoined⟩ := hjoined
      obtain ⟨hcolon, -, hbegins, hruns⟩ := hruns
      refine ⟨hne, hcolon, hbegins, ?_, ih hjoined hruns hback'⟩
      -- Runs are maximal, so a directive follows or nothing.
      rintro ⟨u, qs, hqs⟩
      cases ps with
      | nil => cases hqs
      | cons q ps =>
        cases q with
        | plain v => exact hstarts ⟨v, ps, rfl⟩
        | token d => cases hqs
    | token d =>
      have hd := hback d List.mem_cons_self
      exact ⟨⟨d.canonicalBody, rfl, hd.body⟩, ih hjoined hruns hback'⟩

/-- `convertPiece` reads spelled directives back. -/
theorem mapM_convertPiece_spell {afterDirective : Bool} {ps : List (Piece Directive)}
    (hruns : PlainRuns afterDirective ps) (hback : ∀ d, .token d ∈ ps → d.ReadsBack) :
    (ps.map Piece.spell).mapM convertPiece = ps.mapM emit := by
  induction ps generalizing afterDirective with
  | nil => rfl
  | cons p ps ih =>
    have hback' : ∀ d, .token d ∈ ps → d.ReadsBack := fun d h => hback d (List.mem_cons_of_mem _ h)
    rw [List.map_cons, List.mapM_cons, List.mapM_cons]
    cases p with
    | plain t =>
      obtain ⟨-, hopening, -, hruns⟩ := hruns
      rw [ih hruns hback']
      show (fillMacroTokens t >>= _) = _
      rw [fillMacroTokens_of_no_opening hopening]
      rfl
    | token d =>
      rw [ih hruns hback']
      show (renderDirective d.source >>= _) = _
      rw [renderDirective, (hback d List.mem_cons_self).classify_source]
      rfl

/-- A text whose maximal plain runs stand clear is converted piece by piece. -/
theorem convertText_eq_emitAll {ps : List (Piece Directive)}
    (hruns : PlainRuns false (Piece.join ps)) (hback : ∀ d, .token d ∈ ps → d.ReadsBack) :
    convertText (Piece.renderAll Directive.source ps) = emitAll ps := by
  have hback' : ∀ d, .token d ∈ Piece.join ps → d.ReadsBack :=
    fun d h => hback d (Piece.token_mem_join.1 h)
  -- Joined runs are maximal, so the text is cut into the same pieces again.
  have hlaid := laid_spell (Piece.joined_join ps) hruns hback'
  rw [convertText_eq_mapM, ← Piece.renderAll_join, ← renderAll_spell,
    conversionPieces_renderAll hlaid, mapM_convertPiece_spell hruns hback', ← emitAll_join ps]
  rfl

/-! ## What the blocks of a template do to the context -/

namespace Context

/-- The context after further ends. -/
def countEnds (n : Nat) (ctx : Context) : Context :=
  { ctx with blocks := { ctx.blocks with endsSeen := ctx.blocks.endsSeen + n } }

/-- The context inside a switch of which some cases are done. -/
def inSwitch (subject : Text) (cases : Nat) (ctx : Context) : Context :=
  let ctx := ctx.openBlock .conditional
  { ctx with switches := ⟨subject, cases, ctx.blocks.depth⟩ :: ctx.switches }

/-- No switch lies deeper than the blocks that are open. -/
def Level (ctx : Context) : Prop := ∀ frame ∈ ctx.switches, frame.depth ≤ ctx.blocks.depth

variable {ctx : Context}

theorem countEnds_countEnds (m n : Nat) (ctx : Context) :
    (ctx.countEnds m).countEnds n = ctx.countEnds (m + n) := by
  simp only [countEnds, Nat.add_assoc]

theorem Level.countEnds (h : ctx.Level) (n : Nat) : (ctx.countEnds n).Level := h

theorem Level.openBlock (h : ctx.Level) (kind : BlockKind) : (ctx.openBlock kind).Level :=
  fun frame hmem => Nat.le_succ_of_le (h frame hmem)

theorem Level.inSwitch (h : ctx.Level) (subject : Text) (cases : Nat) :
    (ctx.inSwitch subject cases).Level := by
  intro frame hmem
  rcases List.mem_cons.1 hmem with rfl | hmem
  · exact Nat.le_refl _
  · exact Nat.le_succ_of_le (h frame hmem)

/-- No switch outside a block is closed with the block. -/
theorem Level.dropWhile_switches (h : ctx.Level) :
    ctx.switches.dropWhile (ctx.blocks.depth < ·.depth) = ctx.switches := by
  cases hswitches : ctx.switches with
  | nil => rfl
  | cons frame frames =>
    have hle := h frame (by rw [hswitches]; exact List.mem_cons_self)
    rw [List.dropWhile_cons_of_neg]
    simpa using hle

theorem closeBlock_openBlock (h : ctx.Level) (kind : BlockKind) (n : Nat) :
    ((ctx.openBlock kind).countEnds n).closeBlock = (.ok kind, ctx.countEnds (n + 1)) := by
  show (Except.ok kind, { ctx.countEnds (n + 1) with
    switches := ctx.switches.dropWhile (ctx.blocks.depth < ·.depth) }) = _
  rw [h.dropWhile_switches]
  rfl

/-- `closeBlock` ends a switch with its frame. -/
theorem closeBlock_inSwitch (h : ctx.Level) (subject : Text) (cases n : Nat) :
    ((ctx.inSwitch subject cases).countEnds n).closeBlock =
      (.ok .conditional, ctx.countEnds (n + 1)) := by
  let frame : SwitchFrame := ⟨subject, cases, ctx.blocks.depth + 1⟩
  show (Except.ok BlockKind.conditional, { ctx.countEnds (n + 1) with
    switches := (frame :: ctx.switches).dropWhile (ctx.blocks.depth < ·.depth) }) = _
  -- The frame of this switch goes with its block; those around it lie no deeper and stay.
  rw [List.dropWhile_cons_of_pos (by simp [frame]), h.dropWhile_switches]
  rfl

end Context

/-! ## What the constructs of a template give -/

/-- The pieces give the text `out` and take the context `ctx` to `ctx'`. -/
def Emits (ps : List (Piece Directive)) (ctx : Context) (out : Text) (ctx' : Context) : Prop :=
  (emitAll ps).run.run ctx = (.ok out, ctx')

namespace Emits

variable {ps qs : List (Piece Directive)} {ctx ctx₁ ctx₂ : Context} {s t : Text}

theorem nil (ctx : Context) : Emits [] ctx [] ctx := rfl

theorem cons {p : Piece Directive} (hp : (emit p).run.run ctx = (.ok s, ctx₁))
    (hps : Emits ps ctx₁ t ctx₂) : Emits (p :: ps) ctx (s ++ t) ctx₂ := by
  unfold Emits
  rw [emitAll_cons, Convert.run_bind_ok hp, Convert.run_bind_ok hps]
  rfl

/-- `Emits` goes on over two parts. -/
theorem append (hps : Emits ps ctx s ctx₁) (hqs : Emits qs ctx₁ t ctx₂) :
    Emits (ps ++ qs) ctx (s ++ t) ctx₂ := by
  have happend : emitAll (ps ++ qs) = do
      let front ← emitAll ps
      return front ++ (← emitAll qs) := by
    simp only [emitAll, List.mapM_append, bind_assoc, pure_bind, List.flatten_append]
  unfold Emits
  rw [happend, Convert.run_bind_ok hps, Convert.run_bind_ok hqs]
  rfl

theorem token {d : Directive} {out : Text}
    (h : (renderClassified d.source d).run.run ctx = (.ok out, ctx₁)) :
    Emits [.token d] ctx out ctx₁ := by
  have := cons (p := .token d) h (nil ctx₁)
  rwa [List.append_nil] at this

/-- A block that is opened, filled and closed again. -/
theorem block {opener : Directive} {inner : List (Piece Directive)} {kind : BlockKind}
    {opening : Text} {ctx₃ : Context}
    (hopener : (renderClassified opener.source opener).run.run ctx = (.ok opening, ctx₁))
    (hinner : Emits inner ctx₁ s ctx₂) (hclose : ctx₂.closeBlock = (.ok kind, ctx₃)) :
    Emits (block opener inner) ctx (opening ++ s ++ (Twig.Statement.close kind).text) ctx₃ := by
  have hend : (renderClassified Directive.endBlock.source .endBlock).run.run ctx₂ =
      (.ok (Twig.Statement.close kind).text, ctx₃) :=
    Convert.run_bind_ok (Convert.run_nesting_ok hclose) _
  rw [List.append_assoc]
  exact cons (p := .token opener) hopener (hinner.append (token hend))

end Emits

theorem endCount_append (ps qs : List (Piece Directive)) :
    endCount (ps ++ qs) = endCount ps + endCount qs := List.count_append

theorem endCount_cons_of_ne {d : Directive} (h : d ≠ .endBlock) (ps : List (Piece Directive)) :
    endCount (.token d :: ps) = endCount ps :=
  List.count_cons_of_ne (by simpa using h)

theorem endCount_block {opener : Directive} (h : opener ≠ .endBlock)
    (inner : List (Piece Directive)) : endCount (block opener inner) = endCount inner + 1 := by
  rw [block, List.cons_append, endCount_cons_of_ne h, endCount_append]
  rfl

/-- The pieces give the text `out` from every level context, and only count their ends in it. -/
def Renders (ps : List (Piece Directive)) (out : Text) : Prop :=
  ∀ ⦃ctx : Context⦄, ctx.Level → Emits ps ctx out (ctx.countEnds (endCount ps))

namespace Renders

variable {ps qs inner : List (Piece Directive)} {s t : Text}

theorem nil : Renders [] [] := fun ctx _ => Emits.nil ctx

theorem plain (text : Text) : Renders [.plain text] text := by
  intro ctx _
  have h : Emits [.plain text] ctx (text ++ []) ctx := .cons rfl (.nil ctx)
  rwa [List.append_nil] at h

theorem append (hps : Renders ps s) (hqs : Renders qs t) : Renders (ps ++ qs) (s ++ t) := by
  intro ctx h
  rw [endCount_append, ← Context.countEnds_countEnds]
  exact (hps h).append (hqs (h.countEnds _))

/-- A directive that leaves the context alone. -/
theorem token {d : Directive} {out : Text} (hne : d ≠ .endBlock)
    (h : ∀ ctx, (renderClassified d.source d).run.run ctx = (.ok out, ctx)) :
    Renders [.token d] out := by
  intro ctx _
  rw [endCount_cons_of_ne hne]
  exact Emits.token (h ctx)

/-- A block whose opener does nothing else than opening it. -/
theorem block {opener : Directive} {kind : BlockKind} {opening : Text} (hne : opener ≠ .endBlock)
    (hopener : ∀ ctx, (renderClassified opener.source opener).run.run ctx =
      (.ok opening, ctx.openBlock kind)) (hinner : Renders inner s) :
    Renders (block opener inner) (opening ++ s ++ (Twig.Statement.close kind).text) := by
  intro ctx h
  rw [endCount_block hne]
  exact Emits.block (hopener ctx) (hinner (h.openBlock kind))
    (Context.closeBlock_openBlock h kind _)

end Renders

mutual

/-- The pieces of a template give its rendering. -/
theorem Template.renders : (t : Template) → Renders t.pieces t.rendering
  | .literal text => .plain text
  | .print _ | .raw _ => .token (by simp) fun _ => rfl
  | .content => .token (by simp) fun _ => rfl
  | .conditional e body branches => by
    have hinner := body.renders.append branches.renders
    have hopener (ctx : Context) :
        (renderClassified (Directive.ifThen e.text).source (.ifThen e.text)).run.run ctx =
          (.ok (Twig.Statement.ifThen (Condition.toTwig e.text)).text,
            ctx.openBlock .conditional) := rfl
    have hblock := Renders.block (by simp) hopener hinner
    rwa [← List.append_assoc] at hblock
  | .loop _ _ body => .block (by simp) (fun _ => rfl) body.renders
  | .assign _ body | .fill _ body => .block (by simp) (fun _ => rfl) body.renders
  | .switch e lead cases => by
    intro ctx h
    -- What stands in front of the first case is rendered inside the switch, and the cases count
    -- from there on.
    have hlead := lead.renders (h.inSwitch e.text 0)
    have hcases := cases.emits e.text 0 (h.countEnds (endCount lead.pieces))
    have hopener :
        (renderClassified (Directive.switch e.text).source (.switch e.text)).run.run ctx =
          (.ok [], ctx.inSwitch e.text 0) := rfl
    rw [Template.pieces, endCount_block (by simp), endCount_append, Nat.add_assoc,
      ← Context.countEnds_countEnds]
    have hblock := Emits.block hopener (hlead.append hcases)
      (Context.closeBlock_inSwitch (h.countEnds _) _ _ _)
    exact hblock
  | .append front back => front.renders.append back.renders

/-- The further branches of a conditional give their rendering. -/
theorem Branches.renders : (b : Branches) → Renders b.pieces b.rendering
  | .done => .nil
  | .otherwise body => Renders.append (.token (by simp) fun _ => rfl) body.renders
  | .elseIf e body rest =>
    Renders.append (Renders.append (.token (by simp) fun _ => rfl) body.renders) rest.renders

/-- The cases of a switch give their renderings, each with its own number. -/
theorem Cases.emits :
    (c : Cases) → (subject : Text) → (number : Nat) → ⦃ctx : Context⦄ → ctx.Level →
      Emits c.pieces (ctx.inSwitch subject number) (c.rendering subject number)
        ((ctx.inSwitch subject (number + c.count)).countEnds (endCount c.pieces))
  | .last body, subject, number, ctx, h => by
    rw [Cases.pieces, endCount_cons_of_ne (by simp)]
    exact Emits.cons (p := .token .nextCase) rfl (body.renders (h.inSwitch subject (number + 1)))
  | .more body rest, subject, number, ctx, h => by
    have hbody := body.renders (h.inSwitch subject (number + 1))
    have hrest := rest.emits subject (number + 1) (h.countEnds (endCount body.pieces))
    -- The switch around the body has counted this case and no other.
    have hcount : number + (Cases.more body rest).count = number + 1 + rest.count := by
      simp only [Cases.count]; omega
    rw [Cases.pieces, List.cons_append, endCount_cons_of_ne (by simp), endCount_append, hcount,
      ← Context.countEnds_countEnds, Cases.rendering, List.append_assoc]
    exact Emits.cons (p := .token .nextCase) rfl (hbody.append hrest)

end

/-- A structured template is translated along its structure, from every context that a conversion
    can reach.  The context afterwards has its ends counted and is otherwise the same. -/
theorem convertText_source {ctx : Context} (hctx : ctx.Reachable) (t : Template)
    (ht : t.LiteralsStandClear) :
    (convertText t.source).run.run ctx = (.ok t.rendering, ctx.countEnds t.ends) := by
  obtain ⟨openers, hopened⟩ := hctx.exists_openedBy
  rw [Template.source, convertText_eq_emitAll ht fun d => t.readsBack]
  exact t.renders hopened.depth_le

/-- A switch in the first case of another switch. -/
def Template.nestedSwitch : Template :=
  .switch (.ofText "a".toList (by decide)) (.literal ['\n']) (.more
    (.switch (.ofText "b.c".toList (by decide)) (.literal []) (.last (.literal "iff".toList)))
    (.last (.append (.literal ['x']) (.literal ['y']))))

/-- The inner switch counts its own cases, and the outer one goes on with its second. -/
theorem convertText_source_nestedSwitch :
    Template.nestedSwitch.source =
        "::switch a::\n::case::::switch b.c::::case::iff::end::::case::xy::end::".toList ∧
      Template.nestedSwitch.rendering =
        ("\n\x7b% if a.index == 0 %\x7d\x7b% if b.c.index == 0 %\x7diff\x7b% endif %\x7d" ++
          "\x7b% elseif a.index == 1 %\x7dxy\x7b% endif %\x7d").toList ∧
      (convertText Template.nestedSwitch.source).run.run { options := {}, kind := .document } =
        (.ok Template.nestedSwitch.rendering,
          Context.countEnds 2 { options := {}, kind := .document }) :=
  ⟨by decide +kernel, by decide +kernel,
    convertText_source (.fresh {} .document) Template.nestedSwitch (by decide +kernel)⟩

end TemploTwig
