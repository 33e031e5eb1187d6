import Mathlib.Tactic.MkIffOfInductiveProp
import TemploTwig.Proofs.Placeholders.Confined

/-!
# Unresolved placeholders

A template that does not spell the mark of a token itself has tokens only where the passes put
them, each with an entry.  Converting it can then fail on a token of one kind only, the inline
token of a call, and only where that token ended up inside a directive.  There the conversion does
not look for it.
-/

namespace TemploTwig

/-- A plain run of a text can be cut at inline tokens as the text can. -/
theorem Tables.Legible.of_mem_conversionPieces {tables : Tables} {marks : List Text}
    {opens closes : List Char} {content t : Text} (h : tables.Legible marks opens closes content)
    (ht : .plain t ∈ conversionPieces content) : tables.Legible marks opens closes t := by
  obtain ⟨front, back, rfl, hback⟩ := exists_colon_of_mem_conversionPieces ht
  have hsuffix : t ++ back <:+ front ++ t ++ back := ⟨front, by simp⟩
  have hrest : tables.Legible marks opens closes (t ++ back) :=
    ⟨h.seamless.of_within hsuffix.isInfix, fun hmem => (h.opening hmem).of_suffix hsuffix⟩
  rcases hback with rfl | ⟨cs, rfl⟩
  · simpa using hrest
  · exact hrest.of_append_cons rfl

namespace Document

theorem attributes_of_parse? {t : Text} {root : Element} (h : parse? t = some root) :
    root.tag.attributes = [] := by
  obtain ⟨ns, -, rfl⟩ := Option.map_eq_some_iff.1 h
  rfl

/-- No recorded condition, no parent and no directive in a text of the tree holds a mark. -/
@[mk_iff]
structure Exposes (marks : List Text) (ctx : Context) (root : Element) : Prop where
  conditions : ∀ entry ∈ ctx.tables.entries .condition, Text.Free marks entry
  parent : ∀ path ∈ ctx.parent, Text.Free marks path
  directives : Node.EveryIn
    (fun content => ∀ p ∈ conversionPieces content, p.Satisfies (Text.Free marks) fun _ => True)
    (fun _ => True) (fun _ => True) root.children

instance (marks : List Text) (ctx : Context) (root : Element) :
    Decidable (Exposes marks ctx root) := decidable_of_iff' _ (exposes_iff marks ctx root)

/-- `Exposes` holds of marks that are rarer. -/
theorem Exposes.mono {marks marks' : List Text} {ctx : Context} {root : Element}
    (h : Exposes marks ctx root) (hmarks : ∀ t, Text.Free marks t → Text.Free marks' t) :
    Exposes marks' ctx root where
  conditions entry hentry := hmarks entry (h.conditions entry hentry)
  parent path hpath := hmarks path (h.parent path hpath)
  directives := by
    refine Node.EveryIn.map₂ (fun content hcontent _ p hp => ?_) (fun _ _ _ => trivial)
      (fun _ _ _ => trivial) _ h.directives h.directives
    cases p with
    | plain t => trivial
    | token span => exact hmarks span (hcontent (.token span) hp)

/-- The tree of an orderly template exposes no mark. -/
theorem exposes_of_isOrderly {options : Options} {source text : Text} {kind : TemplateKind}
    {ctx : Context} (horderly : isOrderly source = true)
    (hsource : Text.EverFree strayMarks openChars closeChars source)
    (hextension : Text.Free strayMarks options.targetExtension) (hlength : source.length ≤ indexBound)
    (hprepare : (prepare source).run { options, kind } = (text, ctx)) {root : Element}
    (hroot : parse? text = some root) : Exposes strayMarks ctx root := by
  obtain ⟨hopen, htree⟩ := confined_of_isOrderly horderly hsource hextension hlength hprepare
  refine ⟨hopen.entries .condition (by decide), hopen.parent, ?_⟩
  refine Node.EveryIn.map₂ (fun content hcontent _ p hp => ?_) (fun _ _ _ => trivial)
    (fun _ _ _ => trivial) _ (htree root hroot) (htree root hroot)
  obtain ⟨qs, hqs, rfl⟩ := hcontent
  have hsatisfies := hqs.satisfies hp
  cases p with
  | plain t => trivial
  | token span => exact hsatisfies

/-- A text without the mark of tokens has no inline token in it. -/
theorem free_opening {t : Text} (h : Text.Free strayMarks t) :
    Text.Free [MacroToken.opening] t := by
  intro m hm hwithin
  rw [List.mem_singleton.1 hm] at hwithin
  have hmark : Attribute.tokenMark <:+: MacroToken.opening := ⟨"[[".toList, "MACRO_".toList, rfl⟩
  exact h Attribute.tokenMark (by simp [strayMarks]) (hmark.trans hwithin)

/-- The error is about an inline token of a call, and the marks do not rule that out. -/
def IsHiddenCall (marks : List Text) (e : ConvertError) : Prop :=
  ∀ f i, e = .unresolvedPlaceholder f i → f = .macroCall ∧ MacroToken.opening ∉ marks

section Conversion

variable {marks : List Text} {options : Options} {source : Text} {base : Context}

/-- Every attribute with a placeholder is filled, and none is left. -/
theorem ensuresTag_resolved (hrecorded : base.Recorded marks options)
    (hmarks : Text.Apart marks)
    (hconditions : ∀ entry ∈ base.tables.entries .condition, Text.Free marks entry) {t : Tag}
    (hcovers : base.tables.Covers t.attributes) :
    Convert.EnsuresTag marks (Context.Keeps marks base) (IsHiddenCall marks) Tag.Resolved t := by
  refine Convert.ensuresTag_of_attributes fun a ha => ?_
  refine Convert.ensures_convertAttribute (fun _ h => h.markCall) ?_ ?_
    Attribute.placeholder?_printSpans
  · intro f i h ctx hctx
    rw [hctx.tables]
    exact .inl (hcovers a ha f i (Attribute.index?_of_placeholder? h))
  · intro f i _ ctx hctx entry hentry
    rw [hctx.tables] at hentry
    have hvalue := hrecorded.values f
    cases f with
    | condition => exact Condition.free_toTwig hmarks (hconditions entry hentry)
    | macroCall => exact Attribute.placeholder?_bare entry
    | className | checked | selected =>
      exact Attribute.placeholder?_unquoted (hvalue (by simp) (by simp) entry hentry)

/-- Every inline token of a text is filled, and none is left. -/
theorem ensures_convertText_resolved (hsubset : marks ⊆ [MacroToken.opening])
    (hmarks : Text.Apart marks) (hrecorded : base.Recorded marks options)
    (hcount : MacroToken.opening ∈ marks → base.tables.macroCalls.length ≤ indexBound)
    {content : Text} (hlegible : base.tables.Legible marks [':'] [':'] content)
    (hspans : ∀ p ∈ conversionPieces content, p.Satisfies (Text.Free marks) fun _ => True) :
    Convert.Ensures (Context.Keeps marks base) (IsHiddenCall marks) (Text.Free marks)
      (convertText content) := by
  refine Convert.ensures_convertText_of_pieces hmarks (fun e f i h => (by cases h)) hlegible.seamless
    (fun span hspan => hspans (.token span) hspan) fun t ht p hp => ?_
  have hrun := hlegible.of_mem_conversionPieces ht
  cases p with
  | plain u =>
    intro m hm
    obtain rfl := List.mem_singleton.1 (hsubset hm)
    exact MacroToken.free_of_mem_scan (hrun.opening hm) hp
  | token digits =>
    refine Convert.ensures_resolveMacroToken hrecorded.calls ?_
    -- If the opening is a mark, every token has an entry; if not, a call may be missing.
    by_cases hmem : MacroToken.opening ∈ marks
    · obtain ⟨i, hi, hdigits⟩ := MacroToken.exists_index_of_mem_scan (hrun.opening hmem) hp
      exact .inl ⟨i, hi, Nat.lt_of_lt_of_le hi (hcount hmem), hdigits⟩
    · refine .inr fun i f j h => ?_
      obtain ⟨rfl, -⟩ := ConvertError.unresolvedPlaceholder.inj h
      exact ⟨rfl, hmem⟩

/-- The conversion of a tree fails on no placeholder but that of a hidden call. -/
theorem ensures_resolved (hsubset : marks ⊆ [MacroToken.opening]) (hmarks : Text.Apart marks)
    (hrecorded : base.Recorded marks options)
    (hcount : MacroToken.opening ∈ marks → base.tables.macroCalls.length ≤ indexBound)
    (hlibrary : Text.Free marks options.macroLibrary) {root : Element}
    (htree : Node.EveryIn (base.tables.Legible marks [':'] [':']) (fun _ => True)
      (fun tag => base.tables.Covers tag.attributes) root.children)
    (htag : root.tag.attributes = []) (hexposes : Exposes marks base root) :
    Convert.Ensures (Context.Keeps marks base) (IsHiddenCall marks) (fun _ => True)
      (do assemble (← convertTree root)) := by
  have hconvert : Convert.Ensures (Context.Keeps marks base) (IsHiddenCall marks)
      (fun root' => root'.tag = root.tag ∧
        Node.EveryIn (Text.Free marks) (fun _ => True) Tag.Resolved root'.children)
      (convertTree root) := by
    refine Convert.ensures_convertTree hmarks ?_ ?_ (Node.EveryIn.map₂ (fun _ => And.intro)
      (fun _ _ _ => trivial) (fun _ h _ => h) _ htree hexposes.directives)
    · intro content hcontent
      exact ensures_convertText_resolved hsubset hmarks hrecorded hcount hcontent.1 hcontent.2
    · intro t ht
      exact ensuresTag_resolved hrecorded hmarks hexposes.conditions ht
  refine Convert.ensures_bind hconvert fun root' hroot' => ?_
  refine Convert.ensures_assemble (fun _ w h => h.warn w) (Convert.ensures_completeTree hmarks
    (hrecorded.options ▸ hlibrary) (fun parent hparent => hexposes.parent parent hparent)
    (fun e f i h => (by cases h)) hroot'.2) ?_ fun _ _ => trivial
  -- The root has no attributes, so the check sees what the nodes below it hold.
  intro r hr e he f i heq
  have hresolved : r.tag.Resolved := by
    intro a ha
    rw [hr.1, hroot'.1, htag] at ha
    cases ha
  obtain ⟨hnot, j, rfl⟩ := checkPlaceholders_eq_error hresolved hr.2 he
  obtain ⟨rfl, -⟩ := ConvertError.unresolvedPlaceholder.inj heq
  exact ⟨rfl, hnot⟩

/-- What the conversion of a document fails on. -/
theorem isHiddenCall_of_result (hsubset : marks ⊆ [MacroToken.opening])
    (hsource : ¬Attribute.tokenMark <:+: source)
    (hfree : Text.EverFree marks openChars closeChars source)
    (hcount : MacroToken.opening ∈ marks → source.length ≤ indexBound)
    (hlibrary : Text.Free marks options.macroLibrary) {text : Text}
    (hprepare : (prepare source).run { options, kind := .document } = (text, base))
    (hexposes : ∀ root, parse? text = some root → Exposes marks base root) {e : ConvertError}
    (he : (convertTemplate options (some .document) source).result = .error e) :
    IsHiddenCall marks e := by
  have hopening : Text.Apart [MacroToken.opening] := Text.apart_of_all (by decide)
  -- The set is empty or holds the opening alone, which is apart from all that is written.
  have hmarks : Text.Apart marks :=
    ⟨fun c hc m hm => hopening.bars c hc m (hsubset hm),
      fun m hm => hopening.foreign m (hsubset hm)⟩
  have hfamily : marks ⊆ Family.marks := by
    intro m hm
    rw [List.mem_singleton.1 (hsubset hm), Family.marks]
    exact List.mem_cons_self
  have hpassed := Prepare.recorded_prepare hmarks hfree options .document
  have htraces := hpassed.traces (.of_not_occurs hsource)
  have hseam := hpassed.seamless marks hfamily hfree.seamless
  have hholds := hpassed.holds
  rw [hprepare] at htraces hseam hholds
  have htree (root : Element) (hroot : parse? text = some root) :=
    ensures_resolved hsubset hmarks hholds.1 (fun hmem => hholds.2.trans (hcount hmem)) hlibrary
      (everyIn_parse? hfamily htraces hseam hroot) (attributes_of_parse? hroot) (hexposes root hroot)
  exact (satisfies_result hprepare hholds.1.switches (fun f i h => (by cases h)) htree).2 e he

end Conversion

/-- Let a template not spell the mark of a token.  Behind the passes every token is one that was
    recorded.  The conversion never fails on a placeholder in a tag; and it fails on no placeholder
    at all if no directive, condition or parent has taken in the token of a call, and if neither the
    name of the library nor what is left of the template without some of its tags and directives
    spells the opening of such a token.  In particular it fails on none if the template is orderly
    and neither it nor the settings spell one of the `strayMarks`.

    An index has 64 bits, and so there can be no more calls than there are indices. -/
theorem resolves_placeholders {options : Options} {source text : Text} {ctx : Context}
    (hsource : ¬Attribute.tokenMark <:+: source)
    (hprepare : (prepare source).run { options, kind := .document } = (text, ctx)) :
    ctx.tables.Traces text ∧
      (∀ f i, (convertTemplate options (some .document) source).result =
        .error (.unresolvedPlaceholder f i) → f = .macroCall) ∧
      (source.length ≤ indexBound →
        Text.EverFree [MacroToken.opening] openChars closeChars source →
        Text.Free [MacroToken.opening] options.macroLibrary →
        (∀ root, parse? text = some root → Exposes [MacroToken.opening] ctx root) →
        ∀ f i, (convertTemplate options (some .document) source).result ≠
          .error (.unresolvedPlaceholder f i)) ∧
      (source.length ≤ indexBound → isOrderly source = true →
        Text.EverFree strayMarks openChars closeChars source →
        Text.Free strayMarks options.macroLibrary →
        Text.Free strayMarks options.targetExtension →
        ∀ f i, (convertTemplate options (some .document) source).result ≠
          .error (.unresolvedPlaceholder f i)) := by
  have hnone (t : Text) : Text.Free [] t := fun _ hm => by cases hm
  have hempty : Text.EverFree [] openChars closeChars source := fun u _ => hnone u
  refine ⟨?_, ?_, ?_, ?_⟩
  · have hpassed := Prepare.recorded_prepare (Text.apart_of_all rfl) hempty options .document
    have htraces := hpassed.traces (.of_not_occurs hsource)
    rwa [hprepare] at htraces
  · -- With no mark to keep out nothing has to be exposed, and only calls can be missing.
    intro f i he
    refine (isHiddenCall_of_result (List.nil_subset _) hsource hempty (fun h => (by cases h))
      (hnone _) hprepare ?_ he f i rfl).1
    intro root _
    refine ⟨fun entry _ => hnone entry, fun path _ => hnone path, ?_⟩
    refine Node.everyIn_of_forall (fun content p _ => ?_) (fun _ => trivial) (fun _ => trivial) _
    cases p with
    | plain t => trivial
    | token span => exact hnone span
  · intro hlength hfree hlibrary hexposes f i he
    exact (isHiddenCall_of_result (List.Subset.refl _) hsource hfree (fun _ => hlength) hlibrary
      hprepare hexposes he f i rfl).2 List.mem_cons_self
  · -- The tree of an orderly template exposes none of the marks, and the opening has one in it.
    intro hlength horderly hfree hlibrary hextension f i he
    refine (isHiddenCall_of_result (List.Subset.refl _) hsource
      (fun u hu => free_opening (hfree u hu)) (fun _ => hlength) (free_opening hlibrary) hprepare
      (fun root hroot => ?_) he f i rfl).2 List.mem_cons_self
    exact (exposes_of_isOrderly horderly hfree hextension hlength hprepare hroot).mono
      fun _ => free_opening

/-- Calls in a tag and in running text, one over several lines, next to directives in both places;
    one end tag closes nothing. -/
def listing : Text :=
  ("<ul ::cond shown && items:: $$attrs(a, \"::b::\")>::foreach x items::\n".toList ++
    "<li ::attr class if(x.on) active::>$$row(\n x, 1 < 2\n)</li></td>::end::</ul>".toList)

/-- All placeholders of `listing` are resolved. -/
theorem resolves_placeholders_listing :
    let prepared := (prepare listing).run { options := {}, kind := .document }
    (¬Attribute.tokenMark <:+: listing ∧ listing.length ≤ indexBound ∧
      Text.EverFree [MacroToken.opening] openChars closeChars listing ∧
      Text.Free [MacroToken.opening] ({} : Options).macroLibrary ∧
      ∀ root, parse? prepared.1 = some root → Exposes [MacroToken.opening] prepared.2 root) ∧
    (isOrderly listing = true ∧ Text.EverFree strayMarks openChars closeChars listing ∧
      Text.Free strayMarks ({} : Options).macroLibrary ∧
      Text.Free strayMarks ({} : Options).targetExtension) ∧
    prepared.2.tables.Traces prepared.1 ∧
      ∀ f i, (convertTemplate {} (some .document) listing).result ≠
        .error (.unresolvedPlaceholder f i) := by
  intro prepared
  have hsource : ¬Attribute.tokenMark <:+: listing := by decide +kernel
  have hlength : listing.length ≤ indexBound := by decide +kernel
  have horderly : isOrderly listing = true := by decide +kernel
  have hfree : Text.EverFree strayMarks openChars closeChars listing :=
    Text.everFree_of_missing (by decide +kernel)
  have hoptions : Text.Free strayMarks ({} : Options).macroLibrary ∧
      Text.Free strayMarks ({} : Options).targetExtension := by decide +kernel
  have hopening : Text.EverFree [MacroToken.opening] openChars closeChars listing :=
    fun u hu => free_opening (hfree u hu)
  have hexposes (root : Element) (hroot : parse? prepared.1 = some root) :
      Exposes [MacroToken.opening] prepared.2 root :=
    (exposes_of_isOrderly horderly hfree hoptions.2 hlength (rfl : _ = (prepared.1, prepared.2))
      hroot).mono fun _ => free_opening
  have hresolves := resolves_placeholders hsource (rfl : _ = (prepared.1, prepared.2))
  exact ⟨⟨hsource, hlength, hopening, free_opening hoptions.1, hexposes⟩,
    ⟨horderly, hfree, hoptions.1, hoptions.2⟩, hresolves.1,
    hresolves.2.2.2 hlength horderly hfree hoptions.1 hoptions.2⟩

/-- A call over two lines keeps a directive from ending.  Its token does not, and so it ends up in
    the directive. -/
theorem unresolvedPlaceholder_call_in_directive :
    ¬Attribute.tokenMark <:+: "::a $$m(\n)b::".toList ∧
      (convertTemplate {} (some .document) "::a $$m(\n)b::".toList).result =
        .error (.unresolvedPlaceholder .macroCall 0) := by
  decide +kernel

end Document

end TemploTwig
