import TemploTwig.Proofs.Markup.Shown
import TemploTwig.Proofs.Placeholders.Outcomes

/-!
# Calls in a converted tree

The conversion of a tree notes whether it has put a macro call into the output: where an attribute
holds the placeholder of a call, and where a run of text opens an inline token.  What is noted can
be read off the tree beforehand, and if no token is opened in vain, a recorded call stands in the
converted tree.
-/

namespace TemploTwig

/-! ## What a tree says -/

namespace Node

mutual

/-- `t` occurs in an attribute or a text of the node that is printed. -/
def Mentions (t : Text) : Node → Prop
  | .element tag children =>
    (∃ a ∈ tag.attributes, t <:+: a.text) ∨ (tag.showsChildren = true ∧ MentionsIn t children)
  | .text content => t <:+: content
  | .raw _ => False

/-- `t` occurs in an attribute or a text of the nodes that is printed. -/
def MentionsIn (t : Text) : List Node → Prop
  | [] => False
  | n :: ns => Mentions t n ∨ MentionsIn t ns

end

variable {t : Text}

/-- `MentionsIn` of one list behind the other. -/
theorem mentionsIn_append_iff {ns ms : List Node} :
    MentionsIn t (ns ++ ms) ↔ MentionsIn t ns ∨ MentionsIn t ms := by
  induction ns with
  | nil => simp [MentionsIn]
  | cons n ns ih => rw [List.cons_append, MentionsIn, MentionsIn, ih, or_assoc]

theorem mentionsIn_singleton_iff {n : Node} : MentionsIn t [n] ↔ n.Mentions t := by
  simp [MentionsIn]

/-- What stands in an attribute stands in the `startText`. -/
theorem infix_startText {tag : Tag} {a : Attribute} (ha : a ∈ tag.attributes) (h : t <:+: a.text) :
    t <:+: tag.startText := by
  have hattributes : a.text <:+: Attribute.textAll tag.attributes := by
    obtain ⟨front, back, hsplit⟩ := List.append_of_mem ha
    rw [hsplit, Attribute.textAll, List.flatMap_append, List.flatMap_cons]
    exact ⟨_, _, List.append_assoc ..⟩
  have hstart : Attribute.textAll tag.attributes <:+: tag.startText :=
    ⟨'<' :: tag.name, _, by rw [Tag.startText]⟩
  exact h.trans (hattributes.trans hstart)

mutual

/-- What a node `Mentions` is in its `source`. -/
theorem infix_source_of_mentions : (n : Node) → n.Mentions t → t <:+: n.source
  | .element tag children, h => by
    rw [Mentions] at h
    rw [source]
    rcases h with ⟨a, ha, ht⟩ | ⟨hshows, hchildren⟩
    · refine (infix_startText ha ht).trans ?_
      rw [List.append_assoc]
      exact (List.prefix_append _ _).isInfix
    · rw [if_pos hshows]
      exact (infix_sourceAll_of_mentionsIn children hchildren).trans ⟨_, _, rfl⟩
  | .text content, h => h
  | .raw _, h => h.elim

/-- What nodes mention is in their `sourceAll`. -/
theorem infix_sourceAll_of_mentionsIn : (ns : List Node) → MentionsIn t ns → t <:+: sourceAll ns
  | [], h => h.elim
  | n :: ns, h => by
    rw [MentionsIn] at h
    rw [sourceAll]
    rcases h with h | h
    · exact (infix_source_of_mentions n h).trans (List.prefix_append _ _).isInfix
    · exact (infix_sourceAll_of_mentionsIn ns h).trans (List.suffix_append _ _).isInfix

end

end Node

/-! ## Where a tree holds a call -/

/-- Does the attribute hold the placeholder of a call? -/
def Attribute.isCall (a : Attribute) : Bool := a.placeholder?.any (·.1 = .macroCall)

/-- Does the piece of a text open an inline token? -/
def Piece.opensCall : Piece Text → Bool
  | .plain run => run.contains MacroToken.opening
  | .token _ => false

mutual

/-- Does the node hold a call, in an attribute or in its text? -/
def Node.calls : Node → Bool
  | .element tag children => tag.attributes.any Attribute.isCall || Node.callsAll children
  | .text content => (conversionPieces content).any Piece.opensCall
  | .raw _ => false

/-- Do the nodes hold a call? -/
def Node.callsAll : List Node → Bool
  | [] => false
  | n :: ns => Node.calls n || Node.callsAll ns

end

/-- Where a piece of the text opens an inline token, one stands in it. -/
def Text.OpensTokens (content : Text) : Prop :=
  ∀ run, .plain run ∈ conversionPieces content → run.contains MacroToken.opening = true →
    ∃ digits, .token digits ∈ MacroToken.scan run

/-! ## What a step notes -/

/-- The second context has the tables, the options and the parent of the first. -/
structure Context.Fixes (ctx ctx' : Context) : Prop where
  tables : ctx'.tables = ctx.tables
  options : ctx'.options = ctx.options
  parent : ctx'.parent = ctx.parent

namespace Context.Fixes

variable {ctx ctx₁ ctx₂ : Context}

theorem refl (ctx : Context) : Fixes ctx ctx := ⟨rfl, rfl, rfl⟩

theorem trans (h : Fixes ctx ctx₁) (h' : Fixes ctx₁ ctx₂) : Fixes ctx ctx₂ :=
  ⟨h'.tables.trans h.tables, h'.options.trans h.options, h'.parent.trans h.parent⟩

end Context.Fixes

namespace Convert

variable {α β γ : Type}

/-- The step notes a call exactly if `calls` says so.  If it does and `filled` holds, its result
    holds a recorded call. -/
def PutsCalls (filled : Prop) (calls : Bool) (holds : Text → α → Prop) (x : Convert α) : Prop :=
  ∀ ctx a ctx', x.run.run ctx = (.ok a, ctx') → ctx.Fixes ctx' ∧
    ctx'.callsMacros = (ctx.callsMacros || calls) ∧
    (filled → calls = true → ∃ call ∈ ctx.tables.macroCalls, holds call a)

/-- The step has nothing to do with calls. -/
abbrev PutsNone (x : Convert α) : Prop := PutsCalls True false (fun _ _ => False) x

variable {filled : Prop} {b c : Bool} {holds : Text → α → Prop} {holds' : Text → β → Prop}
  {holds'' : Text → γ → Prop}

theorem PutsNone.putsCalls {x : Convert α} (hx : PutsNone x) : PutsCalls filled false holds x := by
  intro ctx a ctx' h
  obtain ⟨hfixes, hflag, -⟩ := hx ctx a ctx' h
  exact ⟨hfixes, hflag, by simp⟩

theorem putsNone_pure (a : α) : PutsNone (pure a) := by
  intro ctx a' ctx' h
  obtain ⟨-, rfl⟩ := Prod.mk.inj h
  exact ⟨.refl ctx, by simp, by simp⟩

/-- `PutsNone` for a change that keeps the tables and the note. -/
theorem putsNone_modify {f : Context → Context} (hfixes : ∀ ctx : Context, ctx.Fixes (f ctx))
    (hcalls : ∀ ctx, (f ctx).callsMacros = ctx.callsMacros) :
    PutsNone (modify f : Convert Unit) := by
  intro ctx a ctx' h
  rw [run_modify] at h
  obtain ⟨-, rfl⟩ := Prod.mk.inj h
  exact ⟨hfixes ctx, by simp [hcalls], by simp⟩

/-- `PutsNone` for a step of nesting. -/
theorem putsNone_nesting {f : Context → Except NestingError α × Context}
    (hfixes : ∀ ctx : Context, ctx.Fixes (f ctx).2)
    (hcalls : ∀ ctx, (f ctx).2.callsMacros = ctx.callsMacros) : PutsNone (nesting f) := by
  intro ctx a ctx' h
  have hctx := hfixes ctx
  have hflag := hcalls ctx
  rcases hf : f ctx with ⟨result, ctx₁⟩
  rw [hf] at hctx hflag
  cases result with
  | ok a' =>
    rw [run_nesting_ok hf] at h
    obtain ⟨-, rfl⟩ := Prod.mk.inj h
    exact ⟨hctx, by rw [Bool.or_false]; exact hflag, by simp⟩
  | error e =>
    rw [run_nesting_error hf] at h
    cases h

/-- `PutsCalls` for one step after the other. -/
theorem PutsCalls.bind {x : Convert α} {f : α → Convert β} (hx : PutsCalls filled b holds x)
    (hf : ∀ a, PutsCalls filled c holds' (f a))
    (hfirst : ∀ ctx a ctx' r, (f a).run.run ctx = (.ok r, ctx') →
      ∀ call, holds call a → holds' call r) :
    PutsCalls filled (b || c) holds' (x >>= f) := by
  intro ctx r ctx' h
  obtain ⟨a, ctx₁, hrun, hrest⟩ := exists_of_run_bind h
  obtain ⟨hfixes, hflag, hcall⟩ := hx ctx a ctx₁ hrun
  obtain ⟨hfixes', hflag', hcall'⟩ := hf a ctx₁ r ctx' hrest
  refine ⟨hfixes.trans hfixes', by rw [hflag', hflag, Bool.or_assoc], ?_⟩
  intro hfilled hor
  rcases Bool.or_eq_true_iff.1 hor with hb | hc
  · obtain ⟨call, hmem, hholds⟩ := hcall hfilled hb
    exact ⟨call, hmem, hfirst ctx₁ a ctx' r hrest call hholds⟩
  · obtain ⟨call, hmem, hholds⟩ := hcall' hfilled hc
    exact ⟨call, by rwa [hfixes.tables] at hmem, hholds⟩

/-- `PutsCalls` behind a step with `PutsNone`. -/
theorem PutsNone.bind {x : Convert α} {f : α → Convert β} (hx : PutsNone x)
    (hf : ∀ a, PutsCalls filled c holds' (f a)) : PutsCalls filled c holds' (x >>= f) := by
  have hx' : PutsCalls filled false (fun _ _ => False) x := hx.putsCalls
  have hbind := hx'.bind hf fun _ _ _ _ _ _ h => h.elim
  rwa [Bool.false_or] at hbind

/-- `PutsCalls` with another result. -/
theorem PutsCalls.map {x : Convert α} (hx : PutsCalls filled b holds x) {g : α → β}
    (hg : ∀ call a, holds call a → holds' call (g a)) :
    PutsCalls filled b holds' (do return g (← x)) := by
  intro ctx r ctx' h
  obtain ⟨a, ctx₁, hrun, hrest⟩ := exists_of_run_bind h
  obtain ⟨hr, rfl⟩ := Prod.mk.inj hrest
  obtain rfl := Except.ok.inj hr
  obtain ⟨hfixes, hflag, hcall⟩ := hx ctx a ctx₁ hrun
  refine ⟨hfixes, hflag, fun hfilled hb => ?_⟩
  obtain ⟨call, hmem, hholds⟩ := hcall hfilled hb
  exact ⟨call, hmem, hg call a hholds⟩

/-- `PutsCalls` for two steps whose results are put together. -/
theorem PutsCalls.pair {x : Convert α} {y : Convert β} (hx : PutsCalls filled b holds x)
    (hy : PutsCalls filled c holds' y) {g : α → β → γ}
    (hfront : ∀ call a r, holds call a → holds'' call (g a r))
    (hback : ∀ call a r, holds' call r → holds'' call (g a r)) :
    PutsCalls filled (b || c) holds'' (do let a ← x; let r ← y; return g a r) := by
  refine hx.bind (fun a => hy.map (g := g a) fun call r => hback call a r) ?_
  intro ctx a ctx' r hrun call hholds
  obtain ⟨s, ctx₁, -, hrest⟩ := exists_of_run_bind hrun
  obtain ⟨hr, -⟩ := Prod.mk.inj hrest
  rw [← Except.ok.inj hr]
  exact hfront call a s hholds

/-- `PutsCalls` for a list of steps. -/
theorem putsCalls_mapM {f : γ → Convert α} {calls : γ → Bool} {cs : List γ}
    (hf : ∀ c ∈ cs, PutsCalls filled (calls c) holds (f c)) :
    PutsCalls filled (cs.any calls) (fun call as => ∃ a ∈ as, holds call a) (cs.mapM f) := by
  induction cs with
  | nil =>
    intro ctx as ctx' h
    obtain ⟨-, rfl⟩ := Prod.mk.inj h
    exact ⟨.refl ctx, by simp, by simp⟩
  | cons c cs ih =>
    rw [List.mapM_cons, List.any_cons]
    refine (hf c List.mem_cons_self).pair (ih fun d hd => hf d (List.mem_cons_of_mem c hd)) ?_ ?_
    · intro call a as h
      exact ⟨a, List.mem_cons_self, h⟩
    · rintro call a as ⟨d, hd, h⟩
      exact ⟨d, List.mem_cons_of_mem a hd, h⟩

/-! ## Texts and attributes -/

/-- `renderDirective` puts in no call. -/
theorem putsNone_renderDirective (span : Text) : PutsNone (renderDirective span) := by
  rw [renderDirective]
  cases Directive.classify span with
  | switch _ | ifThen _ | foreach _ _ | fill _ | assign _ | inherit _ =>
    refine PutsNone.bind (putsNone_modify ?_ ?_) fun _ => putsNone_pure _
    · exact fun _ => ⟨rfl, rfl, rfl⟩
    · exact fun _ => rfl
  | nextCase =>
    refine (putsNone_nesting (fun ctx => ?_) fun ctx => ?_).bind fun _ => putsNone_pure _
    · unfold Context.nextCase
      split <;> exact ⟨rfl, rfl, rfl⟩
    · unfold Context.nextCase
      split <;> rfl
  | endBlock =>
    refine (putsNone_nesting (fun ctx => ?_) fun ctx => ?_).bind fun _ => putsNone_pure _
    · unfold Context.closeBlock
      split <;> exact ⟨rfl, rfl, rfl⟩
    · unfold Context.closeBlock
      split <;> rfl
  | elseIf _ | otherwise | contentBlock | raw _ | print _ => exact putsNone_pure _

/-- `resolve` gives an entry of its family, and changes nothing. -/
theorem mem_entries_of_run_resolve {family : Family} {index : Nat} {ctx ctx' : Context}
    {entry : Text} (h : (resolve family index).run.run ctx = (.ok entry, ctx')) :
    entry ∈ ctx.tables.entries family ∧ ctx' = ctx := by
  obtain ⟨hentry, hctx⟩ := getElem?_of_run_resolve h
  exact ⟨List.mem_of_getElem? hentry, hctx⟩

theorem putsNone_resolve (family : Family) (index : Nat) : PutsNone (resolve family index) := by
  intro ctx entry ctx' h
  obtain ⟨-, rfl⟩ := mem_entries_of_run_resolve h
  exact ⟨.refl ctx', by simp, by simp⟩

/-- `resolveMacroToken` gives a recorded call. -/
theorem mem_macroCalls_of_run_resolveMacroToken {digits entry : Text} {ctx ctx' : Context}
    (h : (resolveMacroToken digits).run.run ctx = (.ok entry, ctx')) :
    entry ∈ ctx.tables.macroCalls ∧ ctx' = ctx := by
  rw [resolveMacroToken] at h
  cases hindex : parseIndex? digits with
  | none => rw [hindex] at h; cases h
  | some index => rw [hindex] at h; exact mem_entries_of_run_resolve h

/-- `fillPiece` changes nothing, and leaves the call behind each inline token. -/
theorem exists_mem_of_run_fill {ps : List (Piece Text)} {parts : List Text} {ctx ctx' : Context}
    (h : (ps.mapM fillPiece).run.run ctx = (.ok parts, ctx')) :
    ctx' = ctx ∧ ∀ digits, .token digits ∈ ps → ∃ call ∈ ctx.tables.macroCalls, call ∈ parts := by
  induction ps generalizing parts with
  | nil =>
    obtain ⟨-, rfl⟩ := Prod.mk.inj h
    exact ⟨rfl, fun _ hmem => (by cases hmem)⟩
  | cons p ps ih =>
    rw [List.mapM_cons] at h
    obtain ⟨part, ctx₁, hpart, hrest⟩ := exists_of_run_bind h
    obtain ⟨parts', ctx₂, hparts, hlast⟩ := exists_of_run_bind hrest
    obtain ⟨hout, rfl⟩ := Prod.mk.inj hlast
    obtain rfl := Except.ok.inj hout
    -- A token is replaced by the call behind it, and a plain run by itself.
    have hfirst : ctx₁ = ctx ∧ ∀ digits, p = .token digits → part ∈ ctx.tables.macroCalls := by
      cases p with
      | plain u =>
        obtain ⟨-, rfl⟩ := Prod.mk.inj hpart
        exact ⟨rfl, fun _ heq => (by cases heq)⟩
      | token digits =>
        obtain ⟨hmem, rfl⟩ := mem_macroCalls_of_run_resolveMacroToken hpart
        exact ⟨rfl, fun _ _ => hmem⟩
    obtain ⟨rfl, hfirst⟩ := hfirst
    obtain ⟨rfl, hparts⟩ := ih hparts
    refine ⟨rfl, fun digits hmem => ?_⟩
    rcases List.mem_cons.1 hmem with heq | hmem
    · exact ⟨part, hfirst digits heq.symm, List.mem_cons_self⟩
    · obtain ⟨call, hcall, hin⟩ := hparts digits hmem
      exact ⟨call, hcall, List.mem_cons_of_mem _ hin⟩

/-- `fillMacroTokens` notes a call if the run opens an inline token. -/
theorem putsCalls_fillMacroTokens {run : Text}
    (hrun : filled → run.contains MacroToken.opening = true →
      ∃ digits, .token digits ∈ MacroToken.scan run) :
    PutsCalls filled (run.contains MacroToken.opening) (· <:+: ·) (fillMacroTokens run) := by
  cases hopens : run.contains MacroToken.opening with
  | true =>
    rw [fillMacroTokens_of_opening hopens]
    intro ctx out ctx' h
    obtain ⟨parts, ctx₁, hparts, hrest⟩ := exists_of_run_bind h
    obtain ⟨rfl, hentries⟩ := exists_mem_of_run_fill hparts
    obtain ⟨hout, rfl⟩ := Prod.mk.inj hrest
    obtain rfl := Except.ok.inj hout
    refine ⟨⟨rfl, rfl, rfl⟩, by simp [Context.markCall], fun hfilled _ => ?_⟩
    obtain ⟨digits, hdigits⟩ := hrun hfilled hopens
    obtain ⟨call, hcall, hin⟩ := hentries digits hdigits
    exact ⟨call, hcall, List.infix_of_mem_flatten hin⟩
  | false =>
    rw [fillMacroTokens_of_no_opening hopens]
    exact (putsNone_pure run).putsCalls

/-- `convertText` notes a call if one of its runs opens an inline token. -/
theorem putsCalls_convertText {content : Text} (h : filled → content.OpensTokens) :
    PutsCalls filled ((conversionPieces content).any Piece.opensCall) (· <:+: ·)
      (convertText content) := by
  rw [convertText_eq_mapM]
  have hpieces : ∀ p ∈ conversionPieces content,
      PutsCalls filled p.opensCall (· <:+: ·) (convertPiece p) := by
    intro p hp
    cases p with
    | plain run => exact putsCalls_fillMacroTokens fun hfilled => h hfilled run hp
    | token span => exact (putsNone_renderDirective span).putsCalls
  refine (putsCalls_mapM hpieces).map ?_
  rintro call outs ⟨out, hmem, hcall⟩
  exact hcall.trans (List.infix_of_mem_flatten hmem)

/-- `convertAttribute` notes a call if it holds the placeholder of one. -/
theorem putsCalls_convertAttribute (a : Attribute) :
    PutsCalls filled a.isCall (fun call c => ∃ kept, c = .kept kept ∧ call <:+: kept.text)
      (convertAttribute a) := by
  unfold convertAttribute
  split
  · next index hfound =>
    have hcall : a.isCall = false := by simp [Attribute.isCall, hfound]
    rw [hcall]
    exact (putsNone_resolve _ _).bind fun _ => (putsNone_pure _).putsCalls
  · next index hfound =>
    have hcall : a.isCall = true := by simp [Attribute.isCall, hfound]
    -- Only here a call is noted, and it is the name of the attribute that is kept.
    intro ctx c ctx' h
    obtain ⟨call, ctx₁, hresolve, hrest⟩ := exists_of_run_bind h
    obtain ⟨hmem, rfl⟩ := mem_entries_of_run_resolve hresolve
    obtain ⟨hc, rfl⟩ := Prod.mk.inj hrest
    rw [hcall]
    refine ⟨⟨rfl, rfl, rfl⟩, by simp [Context.markCall], fun _ _ => ⟨call, hmem, ⟨call, .bare⟩, ?_⟩⟩
    exact ⟨(Except.ok.inj hc).symm, [' '], [], by simp [Attribute.text]⟩
  · next family index hnot hcall hfound =>
    have hother : a.isCall = false := by
      simp only [Attribute.isCall, hfound, Option.any_some, decide_eq_false_iff_not]
      rintro rfl
      exact hcall rfl
    rw [hother]
    exact (putsNone_resolve _ _).bind fun _ => (putsNone_pure _).putsCalls
  · next hnone =>
    have hcall : a.isCall = false := by simp [Attribute.isCall, hnone]
    rw [hcall]
    exact (putsNone_pure _).putsCalls

/-! ## Nodes -/

/-- `wrapConditions` keeps what the node `Mentions`. -/
theorem mentionsIn_wrapConditions {t : Text} {n : Node} (h : n.Mentions t)
    (conditions : List Text) : Node.MentionsIn t (wrapConditions conditions n) := by
  unfold wrapConditions
  split
  · exact Node.mentionsIn_singleton_iff.2 h
  · exact .inr (.inl h)

theorem mem_attributes_of_kept_mem {cs : List Converted} {a : Attribute}
    (h : Converted.kept a ∈ cs) : a ∈ Converted.attributes cs :=
  List.mem_filterMap.2 ⟨_, h, rfl⟩

mutual

/-- `convertNode` notes a call exactly if the node holds one. -/
theorem putsCalls_convertNode : (n : Node) → n.Shown →
    (filled → Node.Every Text.OpensTokens (fun _ => True) (fun _ => True) n) →
    PutsCalls filled n.calls Node.MentionsIn (convertNode n)
  | .text content, _, h => by
    rw [convertNode, Node.calls]
    refine (putsCalls_convertText fun hfilled => Node.every_text_iff.1 (h hfilled)).map ?_
    intro call out hcall
    exact Node.mentionsIn_singleton_iff.2 hcall
  | .raw source, _, _ => by
    rw [convertNode, Node.calls]
    exact (putsNone_pure _).putsCalls
  | .element tag children, hshown, h => by
    have htexts (hfilled : filled) := (Node.every_element_iff.1 (h hfilled)).2
    rw [Node.Shown] at hshown
    rw [convertNode, Node.calls]
    have hattributes : PutsCalls filled (tag.attributes.any Attribute.isCall) _
        (tag.attributes.mapM convertAttribute) :=
      putsCalls_mapM fun a _ => putsCalls_convertAttribute a
    have hchildren : PutsCalls filled (Node.callsAll children)
        (fun call ns => tag.showsChildren = true ∧ Node.MentionsIn call ns)
        (convertNodes children) := by
      intro ctx ns ctx' hrun
      obtain ⟨hfixes, hflag, hcall⟩ :=
        putsCalls_convertNodes children hshown.2 htexts ctx ns ctx' hrun
      refine ⟨hfixes, hflag, fun hfilled hcalls => ?_⟩
      obtain ⟨call, hmem, hmentions⟩ := hcall hfilled hcalls
      refine ⟨call, hmem, ?_, hmentions⟩
      -- An element whose children are not printed has none, and so it holds no call.
      cases hshows : tag.showsChildren with
      | true => rfl
      | false => rw [hshown.1 hshows] at hcalls; cases hcalls
    refine hattributes.pair hchildren ?_ ?_
    · rintro call converted ns ⟨_, hmem, kept, rfl, hcall⟩
      refine mentionsIn_wrapConditions ?_ _
      rw [Node.Mentions]
      exact .inl ⟨kept, mem_attributes_of_kept_mem hmem, hcall⟩
    · intro call converted ns hcall
      refine mentionsIn_wrapConditions ?_ _
      rw [Node.Mentions]
      exact .inr hcall

/-- `convertNodes` notes a call exactly if the nodes hold one.  If they open no token in vain, the
    result mentions a recorded call. -/
theorem putsCalls_convertNodes : (ns : List Node) → Node.ShownIn ns →
    (filled → Node.EveryIn Text.OpensTokens (fun _ => True) (fun _ => True) ns) →
    PutsCalls filled (Node.callsAll ns) Node.MentionsIn (convertNodes ns)
  | [], _, _ => by
    rw [convertNodes, Node.callsAll]
    exact (putsNone_pure _).putsCalls
  | n :: ns, hshown, h => by
    have hboth (hfilled : filled) := Node.everyIn_cons_iff.1 (h hfilled)
    rw [Node.ShownIn] at hshown
    rw [convertNodes, Node.callsAll]
    refine (putsCalls_convertNode n hshown.1 fun hfilled => (hboth hfilled).1).pair
      (putsCalls_convertNodes ns hshown.2 fun hfilled => (hboth hfilled).2) ?_ ?_
    · intro call front back hcall
      exact Node.mentionsIn_append_iff.2 (.inl hcall)
    · intro call front back hcall
      exact Node.mentionsIn_append_iff.2 (.inr hcall)

end

/-! ## What the conversion looks up -/

section Ignores

variable {kind : TemplateKind → TemplateKind} {parent : Option Text → Option Text}
  {tables : Tables → Tables}

/-- `resolve` ignores a change that keeps the entries of its family. -/
theorem ignores_resolve {family : Family} (h : ∀ t, (tables t).entries family = t.entries family)
    (index : Nat) : Ignores (Context.relabel kind parent tables) (resolve family index) := by
  intro ctx
  rw [resolve, run_bind_ok (run_get ctx), run_bind_ok (run_get _)]
  have hsame : (ctx.relabel kind parent tables).resolve family index = ctx.resolve family index := by
    simp only [Context.resolve, Context.relabel, h]
  rw [hsame]
  cases ctx.resolve family index <;> rfl

theorem ignores_markCall : Ignores (Context.relabel kind parent tables) (modify (·.markCall)) :=
  ignores_modify fun _ => rfl

/-- `fillMacroTokens` ignores the calls where no token is opened. -/
theorem ignores_fillMacroTokens {run : Text}
    (hcalls : run.contains MacroToken.opening = true →
      ∀ t, (tables t).entries .macroCall = t.entries .macroCall) :
    Ignores (Context.relabel kind parent tables) (fillMacroTokens run) := by
  cases hopens : run.contains MacroToken.opening with
  | true =>
    rw [fillMacroTokens_of_opening hopens]
    refine ignores_bind (ignores_mapM fun p _ => ?_) fun _ =>
      ignores_bind ignores_markCall fun _ => ignores_pure _
    cases p with
    | plain u => exact ignores_pure u
    | token digits =>
      show Ignores _ (resolveMacroToken digits)
      rw [resolveMacroToken]
      split
      · exact ignores_resolve (hcalls hopens) _
      · exact ignores_throw _
  | false =>
    rw [fillMacroTokens_of_no_opening hopens]
    exact ignores_pure run

/-- `convertText` ignores the calls where no token is opened. -/
theorem ignores_convertText {content : Text}
    (hcalls : (conversionPieces content).any Piece.opensCall = true →
      ∀ t, (tables t).entries .macroCall = t.entries .macroCall) :
    Ignores (Context.relabel kind parent tables) (convertText content) := by
  rw [convertText_eq_mapM]
  refine ignores_bind (ignores_mapM fun p hp => ?_) fun _ => ignores_pure _
  cases p with
  | plain run =>
    exact ignores_fillMacroTokens fun hopens => hcalls (List.any_eq_true.2 ⟨_, hp, hopens⟩)
  | token span => exact ignores_renderDirective span

/-- `convertAttribute` ignores the calls where it holds none. -/
theorem ignores_convertAttribute {a : Attribute}
    (hothers : ∀ family, family ≠ .macroCall → ∀ t, (tables t).entries family = t.entries family)
    (hcalls : a.isCall = true → ∀ t, (tables t).entries .macroCall = t.entries .macroCall) :
    Ignores (Context.relabel kind parent tables) (convertAttribute a) := by
  unfold convertAttribute
  split
  · exact ignores_bind (ignores_resolve (hothers .condition (by simp)) _) fun _ => ignores_pure _
  · next index hfound =>
    have hcall : a.isCall = true := by simp [Attribute.isCall, hfound]
    exact ignores_bind (ignores_resolve (hcalls hcall) _) fun _ =>
      ignores_bind ignores_markCall fun _ => ignores_pure _
  · next family index hnot hcall hfound =>
    refine ignores_bind (ignores_resolve (hothers family ?_) _) fun _ => ignores_pure _
    rintro rfl
    exact hcall rfl
  · exact ignores_pure _

mutual

/-- `convertNode` ignores the parent, and the calls if it holds none. -/
theorem ignores_convertNode
    (hothers : ∀ family, family ≠ .macroCall → ∀ t, (tables t).entries family = t.entries family) :
    (n : Node) →
    (n.calls = true → ∀ t, (tables t).entries .macroCall = t.entries .macroCall) →
    Ignores (Context.relabel kind parent tables) (convertNode n)
  | .text content, hcalls => by
    rw [Node.calls] at hcalls
    rw [convertNode]
    exact ignores_bind (ignores_convertText hcalls) fun _ => ignores_pure _
  | .raw source, _ => by
    rw [convertNode]
    exact ignores_pure _
  | .element tag children, hcalls => by
    rw [Node.calls] at hcalls
    rw [convertNode]
    refine ignores_bind (ignores_mapM fun a ha => ?_) fun _ => ignores_bind ?_ fun _ => ignores_pure _
    · exact ignores_convertAttribute hothers fun hcall =>
        hcalls (Bool.or_eq_true_iff.2 (.inl (List.any_eq_true.2 ⟨a, ha, hcall⟩)))
    · exact ignores_convertNodes hothers children fun hcall =>
        hcalls (Bool.or_eq_true_iff.2 (.inr hcall))

/-- `convertNodes` ignores the parent, and the calls if they hold none. -/
theorem ignores_convertNodes
    (hothers : ∀ family, family ≠ .macroCall → ∀ t, (tables t).entries family = t.entries family) :
    (ns : List Node) →
    (Node.callsAll ns = true → ∀ t, (tables t).entries .macroCall = t.entries .macroCall) →
    Ignores (Context.relabel kind parent tables) (convertNodes ns)
  | [], _ => by
    rw [convertNodes]
    exact ignores_pure []
  | n :: ns, hcalls => by
    rw [Node.callsAll] at hcalls
    rw [convertNodes]
    refine ignores_bind ?_ fun _ => ignores_bind ?_ fun _ => ignores_pure _
    · exact ignores_convertNode hothers n fun hcall => hcalls (Bool.or_eq_true_iff.2 (.inl hcall))
    · exact ignores_convertNodes hothers ns fun hcall => hcalls (Bool.or_eq_true_iff.2 (.inr hcall))

end

end Ignores

end Convert

end TemploTwig
