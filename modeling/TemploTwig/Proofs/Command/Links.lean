import TemploTwig.Proofs.Command.Batch
import TemploTwig.Proofs.Template.Imports

/-!
# Links between the files of a run

A document names its parent by the file name of a template, bare or in quotes.  Its conversion names
the file that the run writes for that template, so the links between templates lead from result to
result.
-/

namespace TemploTwig

/-! ## Names in quotes -/

namespace Quote

variable {q q' : Quote} {t inner inner' : Text}

theorem stripBoth?_char_iff :
    Text.stripBoth? [q.char] t = some inner ↔ t = q.enclose inner := by
  simp [Text.stripBoth?, Option.bind_eq_some_iff, Text.stripStart?_eq_some_iff,
    Text.stripEnd?_eq_some_iff, enclose]

theorem enclose_inj (h : q.enclose inner = q'.enclose inner') : q = q' ∧ inner = inner' := by
  obtain ⟨hchar, htail⟩ := List.cons.inj h
  have hq : some q = some q' := by rw [← ofChar?_char q, ← ofChar?_char q', hchar]
  obtain rfl := Option.some.inj hq
  exact ⟨rfl, List.append_cancel_right htail⟩

/-- `enclosed?` undoes `enclose`. -/
theorem enclosed?_eq_some_iff : enclosed? t = some (q, inner) ↔ t = q.enclose inner := by
  rw [enclosed?]
  cases hdouble : Text.stripBoth? [double.char] t with
  | some found =>
    rw [stripBoth?_char_iff] at hdouble
    subst hdouble
    constructor
    · intro h
      cases h
      rfl
    · intro h
      obtain ⟨rfl, rfl⟩ := enclose_inj h
      rfl
  | none =>
    -- Double quotes are tried first, so here they are not around the text.
    cases q with
    | single => simp [stripBoth?_char_iff]
    | double =>
      constructor
      · intro h
        simp at h
      · intro h
        rw [stripBoth?_char_iff.2 h] at hdouble
        cases hdouble

theorem trim_enclose (q : Quote) (t : Text) : (q.enclose t).trim = q.enclose t := by
  have hblank : isBlank q.char = false := by cases q <;> rfl
  refine Text.trim_eq_self_iff.2 ⟨fun c hc => ?_, fun c hc => ?_⟩
  · rw [← Option.some.inj hc, hblank]
  · rw [enclose, List.getLast?_concat] at hc
    rw [← Option.some.inj hc, hblank]

end Quote

namespace TemplatePath

/-- The two ways to write a name where another template inherits from it, with the quotes that the
    output has around it. -/
inductive Spells (name : Text) : Text → Quote → Prop
  | bare : Spells name name .double
  | quoted (q : Quote) : Spells name (q.enclose name) q

/-- A file name that a run takes for a template, and that can be told from the blanks and the quotes
    around it. -/
structure IsLinkable (options : Options) (name : Text) : Prop where
  stem : (templateStem? options.sourceExtension name).isSome = true
  trimmed : name.trim = name
  unquoted : ∀ q inner, name ≠ Quote.enclose q inner

variable {options : Options} {name written : Text} {q : Quote}

/-- For a template, swapping the extension gives the name of the target. -/
theorem swapBare_eq_targetName (h : (templateStem? options.sourceExtension name).isSome = true) :
    swapBare options.sourceExtension options.targetExtension name = targetName options name := by
  obtain ⟨stem, hstem⟩ := Option.isSome_iff_exists.1 h
  rw [targetName_eq hstem, swapBare, (Option.filter_eq_some_iff.1 hstem).1]
  rfl

/-- `swapExtension` gives the target in quotes. -/
theorem Spells.swapExtension_eq (h : Spells name written q) (hname : IsLinkable options name) :
    swapExtension written options.sourceExtension options.targetExtension =
      q.enclose (targetName options name) := by
  rw [swapExtension]
  cases h with
  | bare =>
    have hnone : Quote.enclosed? name = none := by
      refine Option.eq_none_iff_forall_not_mem.2 fun found hfound => ?_
      exact hname.unquoted found.1 found.2 (Quote.enclosed?_eq_some_iff.1 hfound)
    rw [hname.trimmed, hnone]
    exact congrArg Quote.double.enclose (swapBare_eq_targetName hname.stem)
  | quoted =>
    rw [Quote.trim_enclose, Quote.enclosed?_eq_some_iff.2 rfl]
    exact congrArg q.enclose (swapBare_eq_targetName hname.stem)

end TemplatePath

/-! ## The parent of a document -/

/-- The parent that a document names, as it is written there. -/
def Inheritance.named? (options : Options) (source : Text) : Option Text :=
  let behind := (substituteCalls source >>= substituteConditions).run { options, kind := .document }
  (first? (segments behind.1)).map fun found => found.2.1

namespace Prepare

/-- `substituteInheritance` notes the first parent. -/
theorem parent_substituteInheritance {ctx : Context} (h : ctx.parent = none) (t : Text) :
    ((substituteInheritance t).run ctx).2.parent =
      (Inheritance.first? (segments t)).map fun found =>
        Inheritance.parentPath ctx.options found.2.1 := by
  rw [substituteInheritance]
  cases Inheritance.first? (segments t) with
  | none => exact h
  | some found =>
    obtain ⟨before, parent, after⟩ := found
    dsimp only
    cases Inheritance.lastEnd? after <;> rfl

/-- The passes record the parent that the document names, with its extension swapped. -/
theorem parent_prepare (options : Options) (source : Text) :
    ((prepare source).run { options, kind := .document }).2.parent =
      (Inheritance.named? options source).map (Inheritance.parentPath options) := by
  let start : Context := { options, kind := .document }
  let fresh (ctx : Context) : Prop := ctx.options = options ∧ ctx.parent = none
  let first := (substituteCalls source).run start
  let second := (substituteConditions first.1).run first.2
  let third := (substituteInheritance second.1).run second.2
  let fourth := (substituteAttributes third.1).run third.2
  have hfirst : fresh first.2 :=
    (writes_substituteCalls (fun _ _ _ h => h) start ⟨rfl, rfl⟩).holds
  have hsecond : fresh second.2 :=
    (writes_substituteConditions first.1 (fun _ _ h => h) first.2 hfirst).holds
  -- Only the pass in the middle sets the parent.
  let settled (ctx : Context) : Prop := ctx.parent = third.2.parent
  have hattributes : Writes settled third.1 (substituteAttributes third.1) :=
    writes_substituteAttributes third.1 fun _ _ _ _ _ h => h
  have hfourth : settled fourth.2 := (hattributes third.2 rfl).holds
  have hlast : settled ((protectLiterals fourth.1).run fourth.2).2 :=
    (writes_protectLiterals fourth.1 (fun _ _ h => h) fourth.2 hfourth).holds
  show ((protectLiterals fourth.1).run fourth.2).2.parent = _
  rw [hlast, parent_substituteInheritance hsecond.2, hsecond.1, Inheritance.named?, Option.map_map]
  rfl

end Prepare

namespace Document

/-- A finished tree shows the statement that names its parent. -/
theorem mentionsIn_inherit_complete {ctx : Context} {ns : List Node} {parent : Text}
    (hparent : ctx.parent = some parent) (hshown : Node.ShownIn ns) :
    Node.MentionsIn (Twig.Statement.inherit parent).text (ctx.complete (root ns)).children := by
  have hblock (cs : List Node) :
      Node.MentionsIn (Twig.Statement.inherit parent).text (inheritanceBlock parent cs) :=
    .inl (List.prefix_append _ _).isInfix
  refine mentionsIn_complete_of_no_import ?_
  unfold Context.complete
  dsimp only
  rw [hparent]
  show Node.MentionsIn _ ((Node.replaceFirstIn? Tag.isWrapper
    (fun wrapper => inheritanceBlock parent wrapper.children) ns).getD (inheritanceBlock parent ns))
  cases hwrapper : Node.replaceFirstIn? Tag.isWrapper
      (fun wrapper => inheritanceBlock parent wrapper.children) ns with
  | none => exact hblock ns
  | some ms =>
    exact Node.mentionsIn_of_replaced hshown (fun e => hblock e.children)
      (Node.replaced_of_eq _ hwrapper)

/-- The output of a document that names a parent holds the statement that names it. -/
theorem infix_inherit_of_result_ok {options : Options} {source out written : Text}
    (hnamed : Inheritance.named? options source = some written)
    (hresult : (convertTemplate options (some .document) source).result = .ok out) :
    (Twig.Statement.inherit (Inheritance.parentPath options written)).text <:+: out := by
  let prepared := (prepare source).run { options, kind := .document }
  have hprepare : (prepare source).run { options, kind := .document } =
      (prepared.1, prepared.2) := rfl
  obtain ⟨ns, nodes, ctx, hparse, hconvert, -, hprint⟩ := exists_of_result_ok hprepare hresult
  have hshown : Node.ShownIn ns := shownIn_parse? hparse
  have hshape : Node.SameShape ns nodes :=
    (Convert.ensures_sameShape_convertNodes ns prepared.2 trivial).2.1 nodes (by rw [hconvert])
  obtain ⟨hfixes, -, -⟩ :=
    Convert.putsCalls_convertNodes ns hshown False.elim prepared.2 nodes ctx hconvert
  have hparent : ctx.parent = some (Inheritance.parentPath options written) := by
    rw [hfixes.parent, Prepare.parent_prepare, hnamed]
    rfl
  rw [complete_eq_root, printTree_root_eq_ok_iff] at hprint
  rw [← hprint.2]
  exact Node.infix_sourceAll_of_mentionsIn _
    (mentionsIn_inherit_complete hparent (hshape.shown hshown))

end Document

/-! ## A whole run -/

open TemplatePath (Spells IsLinkable swapExtension)

/-- The parent that the content of a file names, if it is that of a document. -/
def parentOf? (options : Options) (bytes : ByteArray) : Option Text :=
  match Platform.decode bytes with
  | .ok content =>
    if TemplateKind.detect content = .document then Inheritance.named? options content else none
  | .error _ => none

/-- `convertBytes` names the parent's target. -/
theorem infix_inherit_of_convertBytes {options : Options} {bytes : ByteArray}
    {written output : Text} (hparent : parentOf? options bytes = some written)
    (houtput : convertBytes options bytes = .ok output) :
    (Twig.Statement.inherit (Inheritance.parentPath options written)).text <:+: output := by
  rw [parentOf?] at hparent
  rw [convertBytes] at houtput
  cases hdecode : Platform.decode bytes with
  | error e =>
    rw [hdecode] at hparent
    cases hparent
  | ok content =>
    simp only [hdecode] at hparent houtput
    split at hparent
    · next hdocument =>
      -- The kind that is detected is the one of a document.
      have hkind : convertTemplate options none content =
          convertTemplate options (some .document) content := by
        rw [convertTemplate, Option.getD_none, hdocument]
        rfl
      rw [hkind] at houtput
      cases hresult : (convertTemplate options (some .document) content).result with
      | error e =>
        rw [hresult] at houtput
        cases houtput
      | ok out =>
        rw [hresult] at houtput
        obtain rfl : out = output := Except.ok.inj houtput
        exact Document.infix_inherit_of_result_ok hparent hresult
    · cases hparent

/-- A template is named by what it is converted to.  Where its name is spelled, bare or in quotes,
    swapping the extension gives the name of its target in quotes, and no other template has that
    name.  After a run the result of every document that inherits from the template holds a
    statement with that name, and the file of that name holds the conversion of the template. -/
theorem links_lead_to_written_files {options : Options} {name : Text}
    (hname : IsLinkable options name) :
    swapExtension name options.sourceExtension options.targetExtension =
      Quote.double.enclose (targetName options name) ∧
    (∀ q : Quote, swapExtension (q.enclose name) options.sourceExtension options.targetExtension =
      q.enclose (targetName options name)) ∧
    (∀ name' written written' q q', IsLinkable options name' → name' ≠ name →
      Spells name written q → Spells name' written' q' →
      swapExtension written' options.sourceExtension options.targetExtension ≠
        swapExtension written options.sourceExtension options.targetExtension) ∧
    ∀ (a : Arguments) (settings : Settings) (s s' : Surroundings) (tally : Tally),
      a.check = false → s.files.WellFormed →
      (Settings.load (m := StateM Surroundings) a.configuration a.overrides).run.run s =
        (.ok settings, s) →
      settings.options = options →
      (execute (m := StateM Surroundings) a).run.run s = (.ok tally, s') →
      ∀ bytes output, IsTemplate settings s name bytes → convertBytes options bytes = .ok output →
        s'.files.read s'.working (Path.join settings.outputDirectory (targetName options name)) =
          .ok (Platform.encode output) ∧
        ∀ child bytes' written q output', IsTemplate settings s child bytes' →
          parentOf? options bytes' = some written → Spells name written q →
          convertBytes options bytes' = .ok output' →
          s'.files.read s'.working (Path.join settings.outputDirectory (targetName options child)) =
            .ok (Platform.encode output') ∧
          (Twig.Statement.inherit (q.enclose (targetName options name))).text <:+: output' := by
  refine ⟨Spells.bare.swapExtension_eq hname, fun q => (Spells.quoted q).swapExtension_eq hname,
    ?_, ?_⟩
  · intro name' written written' q q' hname' hne hspells hspells' heq
    rw [hspells.swapExtension_eq hname, hspells'.swapExtension_eq hname'] at heq
    exact hne (targetName_injOn hname'.stem hname.stem (Quote.enclose_inj heq).2)
  · rintro a settings s s' tally hcheck hfiles hload rfl hrun bytes output htemplate houtput
    rw [run_execute_of_load a hload, hcheck] at hrun
    have hkeeps := keepsDocuments_of_run_convertDirectory hfiles (Settings.validate_of_load hload)
      hrun
    refine ⟨hkeeps.written name bytes output htemplate houtput, ?_⟩
    intro child bytes' written q output' hchild hparent hspells houtput'
    refine ⟨hkeeps.written child bytes' output' hchild houtput', ?_⟩
    -- The statement of the child names the target however the parent was spelled.
    rw [← hspells.swapExtension_eq hname]
    exact infix_inherit_of_convertBytes hparent houtput'

/-- A page that names its parent in single quotes, and the parent beside it. -/
theorem links_lead_to_written_files_page :
    let base := Platform.encode "<p>::x::</p>".toList
    let page := Platform.encode "::use 'base.mtt'::<b>a</b>::end::".toList
    let s : Surroundings := {
      files := ⟨[(["w".toList], .directory), (["w".toList, "base.mtt".toList], .file base),
        (["w".toList, "page.mtt".toList], .file page)]⟩
      working := ["w".toList] }
    IsLinkable {} "base.mtt".toList ∧ s.files.WellFormed ∧
    ∃ settings s' output output',
      (Settings.load (m := StateM Surroundings) none {}).run.run s = (.ok settings, s) ∧
      (execute (m := StateM Surroundings) {}).run.run s = (.ok ⟨2, 0⟩, s') ∧
      s'.files.read s'.working (Path.join settings.outputDirectory "base.twig".toList) =
        .ok (Platform.encode output) ∧
      s'.files.read s'.working (Path.join settings.outputDirectory "page.twig".toList) =
        .ok (Platform.encode output') ∧
      (Twig.Statement.inherit "'base.twig'".toList).text <:+: output' := by
  intro base page s
  let settings : Settings := {
    inputDirectory := "/w".toList
    outputDirectory := "/w".toList
    options := {}
    file := none }
  have hload : (Settings.load (m := StateM Surroundings) none {}).run.run s =
      (.ok settings, s) := Settings.run_load_of_result (by decide +kernel)
  let members : List Member := [⟨"base.mtt".toList, true⟩, ⟨"page.mtt".toList, true⟩]
  have hlist : s.files.list s.working settings.inputDirectory = .ok members := by decide +kernel
  have hselected : selected settings.options members = ["base.mtt".toList, "page.mtt".toList] :=
    List.mergeSort_of_pairwise (l := ["base.mtt".toList, "page.mtt".toList]) (by decide +kernel)
  have hexecute := (run_execute_of_load {} hload).trans
    (run_convertDirectory_of_selected false hlist hselected)
  have htally : ((execute (m := StateM Surroundings) {}).run.run s).1 = .ok ⟨2, 0⟩ := by
    rw [hexecute]
    decide +kernel
  rcases hrun : (execute (m := StateM Surroundings) {}).run.run s with ⟨result, s'⟩
  rw [hrun] at htally
  obtain rfl : result = .ok ⟨2, 0⟩ := htally
  have hfiles : s.files.WellFormed := by decide +kernel
  have hbase : IsTemplate settings s "base.mtt".toList base :=
    ⟨⟨["w".toList], by decide +kernel, rfl, by decide +kernel⟩, "base".toList, by decide, by decide⟩
  have hpage : IsTemplate settings s "page.mtt".toList page :=
    ⟨⟨["w".toList], by decide +kernel, rfl, by decide +kernel⟩, "page".toList, by decide, by decide⟩
  have hname : IsLinkable {} "base.mtt".toList := by
    refine ⟨by decide, by decide, fun q inner h => ?_⟩
    have hmark : 'b' = q.char := (List.cons.inj h).1
    cases q <;> revert hmark <;> decide
  cases houtput : convertBytes {} base with
  | error e =>
    have hok : (convertBytes {} base).toOption.isSome = true := by decide +kernel
    rw [houtput] at hok
    cases hok
  | ok output =>
    cases houtput' : convertBytes {} page with
    | error e =>
      have hok : (convertBytes {} page).toOption.isSome = true := by decide +kernel
      rw [houtput'] at hok
      cases hok
    | ok output' =>
      have hparent : parentOf? {} page = some "'base.mtt'".toList := by decide +kernel
      obtain ⟨-, -, -, hlinks⟩ := links_lead_to_written_files hname
      obtain ⟨hwritten, hchildren⟩ :=
        hlinks {} settings s s' ⟨2, 0⟩ rfl hfiles hload rfl hrun base output hbase houtput
      obtain ⟨hwritten', hinherit⟩ :=
        hchildren "page.mtt".toList page _ _ output' hpage hparent (.quoted .single) houtput'
      exact ⟨hname, hfiles, settings, s', output, output', hload, rfl, hwritten, hwritten',
        hinherit⟩

end TemploTwig
