import TemploTwig.Proofs.OpenBlocks
import TemploTwig.Proofs.Placeholders.Lookup

/-!
# The contexts that a conversion reaches

A conversion starts from a fresh context and changes it step by step.  In every context on the
way the open blocks and the open switches belong to one list of openers.
-/

namespace TemploTwig

namespace Context

/-- The contexts that a conversion can reach: a fresh one, and what a change makes of one that is
    reachable.  A directive changes the context whether it can be rendered or not. -/
inductive Reachable : Context → Prop
  | fresh (options : Options) (kind : TemplateKind) : Reachable { options, kind }
  | directive {ctx : Context} (h : Reachable ctx) (span : Text) :
    Reachable ((renderDirective span).run.run ctx).2
  | record {ctx : Context} (h : Reachable ctx) (family : Family) (entry : Text) :
    Reachable (ctx.record family entry).2
  | markCall {ctx : Context} (h : Reachable ctx) : Reachable ctx.markCall
  | setParent {ctx : Context} (h : Reachable ctx) (parent : Text) :
    Reachable { ctx with parent := some parent }
  | warn {ctx : Context} (h : Reachable ctx) (w : Warning) : Reachable (ctx.warn w)

/-- `Reachable` contexts are `OpenedBy` some directives. -/
theorem Reachable.exists_openedBy {ctx : Context} (h : ctx.Reachable) :
    ∃ openers, ctx.OpenedBy openers := by
  induction h with
  | fresh options kind => exact ⟨[], rfl, rfl⟩
  | directive _ span ih =>
    obtain ⟨openers, h⟩ := ih
    exact exists_openedBy_renderClassified h span _
  | record _ family entry ih | markCall _ ih | setParent _ parent ih | warn _ w ih =>
    obtain ⟨openers, h⟩ := ih
    exact ⟨openers, h.congr rfl rfl⟩

end Context

namespace Convert

/-- `convertTree` stays in the `Context.Reachable` contexts, whether it succeeds or fails. -/
theorem ensures_convertTree_reachable (root : Element) :
    Ensures Context.Reachable (fun _ => True) (fun _ => True) (convertTree root) := by
  have htag (t : Tag) (_ : True) : EnsuresTag [] Context.Reachable (fun _ => True)
      (fun t => ∀ a ∈ t.attributes, True) t := by
    refine ensuresTag_of_attributes fun a _ => ensures_convertAttribute (fun _ h => h.markCall)
      (fun _ _ _ _ _ => .inr trivial) (fun f i _ ctx _ entry _ => ?_) fun _ => trivial
    cases f with
    | condition => exact fun m hm => by cases hm
    | macroCall | className | checked | selected => exact trivial
  refine (ensures_convertTree (Text.apart_of_all rfl) (fun content _ => ?_) htag
    (Node.everyIn_of_forall (fun _ => trivial) (fun _ => trivial) (fun _ => trivial) _)).mono
      fun _ _ => trivial
  exact ensures_convertText_any (fun _ h => h.markCall) (fun span _ h => h.directive span) content

end Convert

/-- `prepare` ends in a `Context.Reachable` context. -/
theorem Prepare.reachable_prepare (options : Options) (kind : TemplateKind) (source : Text) :
    ((prepare source).run { options, kind }).2.Reachable :=
  (carries_prepare (fun _ _ _ h => h.record _ _) (fun _ _ h => h.record _ _)
    (fun _ _ _ _ _ h => h.record _ _) (fun _ _ h => h.setParent _) (fun _ _ h => h.warn _)
    (.fresh options kind) rfl).holds.1

end TemploTwig
