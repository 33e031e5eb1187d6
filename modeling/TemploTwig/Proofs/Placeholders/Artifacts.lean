import TemploTwig.Proofs.Placeholders.Unresolved

/-!
# Artifacts in the output

The passes put tokens, holders and stand-ins into a template.  The conversion takes them out again
where it looks for them: tokens in running text and in the attributes that hold one, stand-ins in
text and attributes.  From an orderly template the reader puts none of them anywhere else, and so
none reaches the output.
-/

namespace TemploTwig

namespace Document

/-- What the passes put into a template. -/
def artifacts : List Text :=
  [[Literal.ampersand], [Literal.lessThan], [Literal.greaterThan], MacroToken.opening,
    Family.macroCall.holder, Family.condition.holder, Attribute.tokenMark]

theorem free_artifacts {t : Text} (h : Text.Free strayMarks t) : Text.Free artifacts t := by
  have hall : artifacts.all (fun m => strayMarks.any fun s => decide (s <:+: m)) = true := by
    decide +kernel
  intro m hm hwithin
  obtain ⟨s, hs, hinfix⟩ := List.any_eq_true.1 (List.all_eq_true.1 hall m hm)
  exact h s hs ((of_decide_eq_true hinfix).trans hwithin)

/-- Marks stand only where the conversion looks for them: in inline tokens of running text and in
    attributes that hold a placeholder. -/
@[mk_iff]
structure Confines (marks : List Text) (ctx : Context) (root : Element) : Prop
    extends Exposes marks ctx root where
  values : ∀ f ∈ [Family.className, .checked, .selected], ∀ entry ∈ ctx.tables.entries f,
    Text.Free marks entry
  nodes : Node.EveryIn
    (fun content => ∀ p ∈ conversionPieces content, p.Satisfies (fun _ => True) fun t =>
      ∀ q ∈ MacroToken.scan t, q.Satisfies (fun _ => True) (Text.Free marks))
    (Text.Free marks)
    (fun tag => Text.Free marks tag.name ∧
      ∀ a ∈ tag.attributes, a.placeholder? = none → a.IsFree marks) root.children

instance (marks : List Text) (ctx : Context) (root : Element) :
    Decidable (Confines marks ctx root) := decidable_of_iff' _ (confines_iff marks ctx root)

/-- The tree of an orderly template confines marks. -/
theorem confines_of_isOrderly {options : Options} {source text : Text} {kind : TemplateKind}
    {ctx : Context} (horderly : isOrderly source = true)
    (hsource : Text.EverFree strayMarks openChars closeChars source)
    (hextension : Text.Free strayMarks options.targetExtension) (hlength : source.length ≤ indexBound)
    (hprepare : (prepare source).run { options, kind } = (text, ctx)) {root : Element}
    (hroot : parse? text = some root) : Confines strayMarks ctx root := by
  obtain ⟨hopen, htree⟩ := confined_of_isOrderly horderly hsource hextension hlength hprepare
  refine ⟨exposes_of_isOrderly horderly hsource hextension hlength hprepare hroot, ?_, ?_⟩
  · intro f hf
    refine hopen.entries f ?_
    rintro rfl
    revert hf
    decide
  · refine Node.EveryIn.map₂ (fun content hcontent _ p hp => ?_) (fun _ h _ => h) (fun _ h _ => h) _
      (htree root hroot) (htree root hroot)
    obtain ⟨qs, hqs, rfl⟩ := hcontent
    have hsatisfies := hqs.satisfies hp
    cases p with
    | plain t => exact hsatisfies
    | token span => trivial

/-- A call in the middle of an attribute's name is held in that name, where nothing looks for it.
    Such a template is not orderly. -/
example :
    let prepared := (prepare "<a x$$m()>".toList).run { options := {}, kind := .document }
    isOrderly "<a x$$m()>".toList = false ∧
      (parse? prepared.1).any (fun root => decide (¬Confines strayMarks prepared.2 root)) = true := by
  decide +kernel

section Conversion

variable {marks : List Text} {options : Options} {base : Context}

/-- The attributes of a tag are converted without a mark. -/
theorem ensuresTag_printed (hmarks : Text.Apart marks) (hrecorded : base.Recorded marks options)
    {root : Element} (hconfines : Confines marks base root) {t : Tag}
    (hcovers : base.tables.Covers t.attributes) (hname : Text.Free marks t.name)
    (hattributes : ∀ a ∈ t.attributes, a.placeholder? = none → a.IsFree marks) :
    Convert.EnsuresTag marks (Context.Keeps marks base) (fun _ => True) (Tag.IsFree marks) t := by
  have hkept : Convert.EnsuresTag marks (Context.Keeps marks base) (fun _ => True)
      (fun t => ∀ a ∈ t.attributes, a.IsFree marks) t := by
    refine Convert.ensuresTag_of_attributes fun a ha => ?_
    refine Convert.ensures_convertAttribute (fun _ h => h.markCall) ?_ ?_ ?_
    · intro f i h ctx hctx
      rw [hctx.tables]
      exact .inl (hcovers a ha f i (Attribute.index?_of_placeholder? h))
    · -- What takes the place of a placeholder was recorded, and holds no mark.
      intro f i h ctx hctx entry hentry
      rw [hctx.tables] at hentry
      have hholder : a.name = f.holder := Attribute.name_of_placeholder? h
      have hvalue := hconfines.values f
      cases f with
      | condition => exact Condition.free_toTwig hmarks (hconfines.conditions entry hentry)
      | macroCall => exact ⟨(hrecorded.calls entry hentry).free, fun v hv => (by cases hv)⟩
      | className | checked | selected =>
        refine ⟨?_, fun v hv => ?_⟩
        · show Text.Free marks a.name
          rw [hholder]
          exact hmarks.free_own rfl
        · rw [← Option.some.inj hv]
          exact hvalue (by simp) entry hentry
    · -- Any other attribute is printed with its directives.
      intro h
      obtain ⟨hfree, hvalue⟩ := hattributes a ha h
      refine ⟨hfree, fun v hv => ?_⟩
      rw [AttributeValue.text?_printSpans] at hv
      obtain ⟨u, hu, rfl⟩ := Option.map_eq_some_iff.1 hv
      exact free_printSpans hmarks (hvalue u hu)
  exact Convert.Ensures.mono hkept fun cs hcs => ⟨⟨hname, hcs.1⟩, hcs.2⟩

/-- A text is converted without a mark. -/
theorem ensures_convertText_printed (hmarks : Text.Apart marks)
    (hrecorded : base.Recorded marks options) {content : Text}
    (hseam : Text.Seamless marks [':'] [':'] content)
    (hspans : ∀ p ∈ conversionPieces content, p.Satisfies (Text.Free marks) fun _ => True)
    (hruns : ∀ p ∈ conversionPieces content, p.Satisfies (fun _ => True) fun t =>
      ∀ q ∈ MacroToken.scan t, q.Satisfies (fun _ => True) (Text.Free marks)) :
    Convert.Ensures (Context.Keeps marks base) (fun _ => True) (Text.Free marks)
      (convertText content) := by
  refine Convert.ensures_convertText_of_pieces hmarks (fun _ => trivial) hseam
    (fun span hspan => hspans (.token span) hspan) fun t ht p hp => ?_
  cases p with
  | plain u => exact hruns (.plain t) ht (.plain u) hp
  | token digits => exact Convert.ensures_resolveMacroToken hrecorded.calls (.inr fun _ => trivial)

/-- A tree that confines marks is printed without one. -/
theorem ensures_printed (hmarks : Text.Apart marks) (hrecorded : base.Recorded marks options)
    (hlibrary : Text.Free marks options.macroLibrary) {root : Element}
    (htree : Node.EveryIn (Text.Seamless marks [':'] [':']) (fun _ => True)
      (fun tag => base.tables.Covers tag.attributes) root.children)
    (hspaced : Node.SpacedIn (fun _ => False) (fun _ => False) root.children)
    (hconfines : Confines marks base root) :
    Convert.Ensures (Context.Keeps marks base) (fun _ => True) (Text.Free marks)
      (do assemble (← convertTree root)) := by
  have hparts := Node.EveryIn.map₂ (fun _ => And.intro) (fun _ _ h => h) (fun _ => And.intro) _
    (Node.EveryIn.map₂ (fun _ => And.intro) (fun _ _ _ => trivial) (fun _ h _ => h) _ htree
      hconfines.directives) hconfines.nodes
  -- The parts are free of marks, and what meets between them is barred: both are needed in print.
  have hconvert : Convert.Ensures (Context.Keeps marks base) (fun _ => True)
      (fun root' => (root'.tag = root.tag ∧
        Node.EveryIn (Text.Free marks) (Text.Free marks) (Tag.IsFree marks) root'.children) ∧
        Convert.SpacedTree marks root'.children) (convertTree root) := by
    refine Convert.Ensures.and (Convert.ensures_convertTree hmarks ?_ ?_ hparts)
      (Convert.ensures_convertTree_spaced hmarks hspaced)
    · intro content hcontent
      exact ensures_convertText_printed hmarks hrecorded hcontent.1.1 hcontent.1.2 hcontent.2
    · intro t ht
      exact ensuresTag_printed hmarks hrecorded hconfines ht.1 ht.2.1 ht.2.2
  refine Convert.ensures_bind hconvert fun root' hroot' => ?_
  refine Convert.ensures_assemble (fun _ w h => h.warn w) (Convert.Ensures.and
    (Convert.ensures_completeTree hmarks (hrecorded.options ▸ hlibrary)
      (fun parent hparent => hconfines.parent parent hparent) (fun _ => trivial) hroot'.1.2)
    (Convert.ensures_completeTree_spaced hmarks hroot'.2)) (fun _ _ _ _ => trivial) ?_
  intro r hr
  exact Node.free_sourceAll hmarks r.children hr.1.2 hr.2

end Conversion

/-- A document whose tree confines marks is converted without an artifact. -/
theorem free_artifacts_of_confines {options : Options} {source text out : Text} {ctx : Context}
    (hsource : Text.EverFree strayMarks openChars closeChars source)
    (hlibrary : Text.Free strayMarks options.macroLibrary)
    (hprepare : (prepare source).run { options, kind := .document } = (text, ctx))
    (hconfines : ∀ root, parse? text = some root → Confines strayMarks ctx root)
    (hout : (convertTemplate options (some .document) source).result = .ok out) :
    Text.Free artifacts out := by
  have hsubset : [Attribute.tokenMark, Family.holderMark] ⊆ Family.marks := by
    simp [Family.marks]
  -- A stand-in is one character, which no border can bring about.
  have hlonger : ∀ m ∈ strayMarks, m ∈ [Attribute.tokenMark, Family.holderMark] ∨ m.length ≤ 1 := by
    decide
  have hpassed := Prepare.recorded_prepare apart_strayMarks hsource options .document
  have htraces := hpassed.traces (.of_not_occurs (hsource.free _ (by simp [strayMarks])))
  have hseam := hpassed.seamless _ hsubset (hsource.seamless.of_length (by simp [strayMarks]))
  have hholds := hpassed.holds
  rw [hprepare] at htraces hseam hholds
  have htree (root : Element) (hroot : parse? text = some root) :
      Convert.Ensures (Context.Keeps strayMarks ctx) (fun _ => True) (Text.Free strayMarks)
        (do assemble (← convertTree root)) := by
    have hparts := everyIn_parse? hsubset htraces hseam hroot
    refine ensures_printed apart_strayMarks hholds.1 hlibrary ?_ (spacedIn_parse? hroot)
      (hconfines root hroot)
    exact Node.EveryIn.map₂ (fun _ h _ => h.seamless.of_length hlonger) (fun _ _ _ => trivial)
      (fun _ h _ => h) _ hparts hparts
  exact free_artifacts ((satisfies_result hprepare hholds.1.switches trivial htree).1 out hout)

/-- What an orderly document is converted to holds no artifact of the passes: neither a stand-in nor
    a token nor a holder.  Neither the template nor the settings may spell the mark of one, nor what
    is left of the template without some of its tags and directives.

    An index has 64 bits, and so there can be no more constructs than there are indices. -/
theorem leaves_no_artifact {options : Options} {source out : Text}
    (horderly : isOrderly source = true)
    (hsource : Text.EverFree strayMarks openChars closeChars source)
    (hlibrary : Text.Free strayMarks options.macroLibrary)
    (hextension : Text.Free strayMarks options.targetExtension)
    (hlength : source.length ≤ indexBound)
    (hout : (convertTemplate options (some .document) source).result = .ok out) :
    Text.Free artifacts out := by
  cases hprepare : (prepare source).run { options, kind := .document } with
  | mk text ctx =>
    refine free_artifacts_of_confines hsource hlibrary hprepare (fun root hroot => ?_) hout
    exact confines_of_isOrderly horderly hsource hextension hlength hprepare hroot

/-- A child template with markup of all kinds, calls and directives in tags and in running text, an
    end tag that closes nothing, and markup characters that are no markup. -/
def childPage : Text :=
  ("::use layout.mtt::<!DOCTYPE html><!-- a & b --><?xml version=\"1.0\"?>".toList ++
    "<ul class=\"a > b\" ::cond shown && items:: $$attrs(a)>::foreach x items::\n".toList ++
    "<li ::attr class if(x.on) active::>a & b &amp; 1 < 2 $$row(\n x, 1 < 2\n)".toList ++
    "<br/></li></td>::end::</ul><![CDATA[a < b]]>::end::".toList)

/-- Nothing of what the passes put into `childPage` is left. -/
theorem leaves_no_artifact_childPage :
    (isOrderly childPage = true ∧ Text.EverFree strayMarks openChars closeChars childPage ∧
      Text.Free strayMarks ({} : Options).macroLibrary ∧
      Text.Free strayMarks ({} : Options).targetExtension ∧ childPage.length ≤ indexBound) ∧
    ∃ out, (convertTemplate {} (some .document) childPage).result = .ok out ∧
      Text.Free artifacts out := by
  have horderly : isOrderly childPage = true := by decide +kernel
  have hfree : Text.EverFree strayMarks openChars closeChars childPage :=
    Text.everFree_of_missing (by decide +kernel)
  have hoptions : Text.Free strayMarks ({} : Options).macroLibrary ∧
      Text.Free strayMarks ({} : Options).targetExtension := by decide +kernel
  have hlength : childPage.length ≤ indexBound := by decide +kernel
  refine ⟨⟨horderly, hfree, hoptions.1, hoptions.2, hlength⟩, ?_⟩
  cases hout : (convertTemplate {} (some .document) childPage).result with
  | error e =>
    have hok : (convertTemplate {} (some .document) childPage).result.toOption.isSome = true := by
      decide +kernel
    rw [hout] at hok
    cases hok
  | ok out =>
    exact ⟨out, rfl, leaves_no_artifact horderly hfree hoptions.1 hoptions.2 hlength hout⟩

/-- The passes end an instruction at its first `>`, the reader does not.  What follows is hidden as
    text and kept as markup. -/
theorem leaves_artifact_in_instruction :
    Text.Free strayMarks "<?php a > b & c ?>".toList ∧
      (convertTemplate {} (some .document) "<?php a > b & c ?>".toList).result =
        .ok ("<?php a > b ".toList ++ Literal.ampersand :: " c ?>".toList) ∧
      ¬Text.Free artifacts ("<?php a > b ".toList ++ Literal.ampersand :: " c ?>".toList) := by
  decide +kernel

end Document

end TemploTwig
