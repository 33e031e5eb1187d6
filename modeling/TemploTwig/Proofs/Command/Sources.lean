import TemploTwig.Proofs.Command.DryRun

/-!
# What a run does to its templates

A run writes to the targets of its templates and to nothing else, also if it does not come to its
end.  So a template can only change if it is a target itself: the results go to the directory of the
templates, and one of the extensions ends in the other.
-/

namespace TemploTwig

variable {settings : Settings} {s s' : Surroundings}

open TemploTwig.Path (IsName)

/-! ## What a run leaves as it is -/

/-- A run may add to the files.  It changes those only to which a template is converted. -/
structure Spares (settings : Settings) (s s' : Surroundings) : Prop where
  working : s'.working = s.working
  grows : s.files.Grows s'.files
  unchanged : ∀ l, (∀ name bytes output, IsTemplate settings s name bytes →
      convertBytes settings.options bytes = .ok output →
      s'.files.locate s'.working (Path.join settings.outputDirectory
        (targetName settings.options name)) ≠ .ok l) →
    s'.files.file? l = s.files.file? l

theorem Spares.of_files (hworking : s'.working = s.working)
    (hfiles : s'.files = s.files) : Spares settings s s' where
  working := hworking
  grows := hfiles ▸ .refl _
  unchanged _ _ := by rw [hfiles]

/-- Reports do not count. -/
theorem Spares.congr {s₁ : Surroundings} (h : Spares settings s s₁)
    (hworking : s'.working = s₁.working) (hfiles : s'.files = s₁.files) : Spares settings s s' := by
  refine ⟨hworking.trans h.working, hfiles ▸ h.grows, ?_⟩
  rw [hworking, hfiles]
  exact h.unchanged

/-- Settling what came of templates, and creating directories after that. -/
theorem Settled.spares {s₁ : Surroundings} {names : List Text} (hfiles : s.files.WellFormed)
    (hnames : ∀ name ∈ names, ∃ bytes, IsTemplate settings s name bytes)
    (h : Settled settings.outputDirectory
      (names.map (s.outcome settings.options settings.inputDirectory)) s s₁)
    (hworking : s'.working = s₁.working) (hadds : s₁.files.AddsDirectories s'.files) :
    Spares settings s s' := by
  refine ⟨hworking.trans h.working, h.grows.trans hadds.grows, fun l hl => ?_⟩
  rw [hadds.file?_eq]
  apply h.other l
  intro o ho output houtput hlocate
  obtain ⟨name, hname, rfl⟩ := List.mem_map.1 ho
  obtain ⟨bytes, htemplate⟩ := hnames name hname
  rw [htemplate.result_outcome hfiles] at houtput
  refine hl name bytes output htemplate houtput ?_
  rw [hworking, h.working]
  exact hadds.grows.locate hlocate

/-- `convertDirectory` spares what is no target. -/
theorem spares_convertDirectory {result : Except RunError Tally}
    (hfiles : s.files.WellFormed) (hvalid : settings.options.validate = .ok ())
    (h : (convertDirectory (m := StateM Surroundings) false settings).run.run s = (result, s')) :
    Spares settings s s' := by
  cases result with
  | ok tally =>
    obtain ⟨names, -, hnames, hsettled, -⟩ := exists_of_run_convertDirectory hfiles hvalid h
    exact hsettled.spares hfiles (fun name hname => (hnames name).1 hname) rfl (.refl _)
  | error e =>
    rcases run_convertDirectory_cases settings s with
      ⟨line, hline⟩ | ⟨members, name, names, hlist, hselected⟩
    · rw [hline] at h
      cases h
    · rw [run_convertDirectory_of_selected false hlist hselected] at h
      rcases Surroundings.cases_of_run_bind_error h with h | ⟨tally, s₁, -, h⟩
      · -- Some outcomes are settled, and for the next one there may be new directories.
        obtain ⟨front, o, back, tally, s₁, hsplit, hfront, ho⟩ := exists_of_run_foldlM_error h
        obtain ⟨settled, left, hnames, rfl, -⟩ := List.map_eq_append_iff.1 hsplit
        have htemplates : ∀ name ∈ settled, ∃ bytes, IsTemplate settings s name bytes := by
          intro name' hname'
          refine (mem_selected_iff_isTemplate hfiles hlist name').1 ?_
          rw [hselected, hnames]
          exact List.mem_append_left _ hname'
        have htargets : ∀ o ∈ settled.map (s.outcome settings.options settings.inputDirectory),
            IsName o.target := by
          intro o ho
          obtain ⟨name', hname', rfl⟩ := List.mem_map.1 ho
          obtain ⟨bytes, htemplate⟩ := htemplates name' hname'
          exact htemplate.isName_target hfiles hvalid
        obtain ⟨hsettled, -⟩ := settled_foldlM htargets hfront
        have hsettled : Settled settings.outputDirectory
            (settled.map (s.outcome settings.options settings.inputDirectory)) s s₁ :=
          ⟨hsettled.working, hsettled.grows, hsettled.other, hsettled.written⟩
        obtain ⟨-, files, hadds, rfl⟩ := exists_of_run_settle_error ho
        exact hsettled.spares hfiles htemplates rfl hadds
      · cases h

/-- A run changes no files but the targets of its templates. -/
theorem spares_run {arguments : List Text} {a : Arguments}
    {status : ExitStatus} (hfiles : s.files.WellFormed)
    (hparse : Command.parse? arguments = some (.convert a))
    (hload : (Settings.load (m := StateM Surroundings) a.configuration a.overrides).run.run s =
      (.ok settings, s)) (hrun : (run (m := StateM Surroundings) arguments).run s = (status, s')) :
    Spares settings s s' := by
  cases hcheck : a.check with
  -- A run that checks writes nothing at all.
  | true =>
    obtain ⟨status', lines, hrun'⟩ := exists_run_of_check hcheck hparse s
    obtain ⟨-, rfl⟩ := Prod.mk.inj (hrun'.symm.trans hrun)
    exact .of_files rfl rfl
  | false =>
    have hvalid := Settings.validate_of_load hload
    have hexecute := run_execute_of_load a hload
    rw [hcheck] at hexecute
    rcases hconvert : (convertDirectory (m := StateM Surroundings) false settings).run.run s
      with ⟨result, s₁⟩
    have hspares := spares_convertDirectory hfiles hvalid hconvert
    rw [hconvert] at hexecute
    cases result with
    | ok tally =>
      obtain ⟨-, rfl⟩ := Prod.mk.inj ((run_of_execute_ok hparse hexecute).symm.trans hrun)
      exact hspares
    | error e =>
      obtain ⟨-, rfl⟩ := Prod.mk.inj ((run_of_execute_error hparse hexecute).symm.trans hrun)
      exact hspares.congr rfl rfl

/-! ## Templates that are targets -/

/-- A template can only be the target of one if an extension, with its dot, ends in the other. -/
theorem suffix_of_targetName_eq {options : Options} {name name' : Text}
    (h : (templateStem? options.sourceExtension name).isSome)
    (h' : (templateStem? options.sourceExtension name').isSome)
    (htarget : targetName options name' = name) :
    '.' :: options.sourceExtension <:+ '.' :: options.targetExtension ∨
      '.' :: options.targetExtension <:+ '.' :: options.sourceExtension := by
  obtain ⟨stem, hstem⟩ := Option.isSome_iff_exists.1 h
  obtain ⟨stem', hstem'⟩ := Option.isSome_iff_exists.1 h'
  have hname := (templateStem?_eq_some_iff.1 hstem).1
  rw [targetName_eq hstem'] at htarget
  exact List.suffix_or_suffix_of_suffix ⟨stem, hname.symm⟩ ⟨stem', htarget⟩

/-- A template is written over: the results go to the directory of the templates, and the target of
    a template that is converted has this name. -/
structure WrittenOver (settings : Settings) (s s' : Surroundings) (name output : Text) : Prop where
  directory : ∃ d, s'.files.locate s'.working settings.inputDirectory = .ok d ∧
    s'.files.base s'.working settings.outputDirectory = .ok d
  template : ∃ name' bytes', IsTemplate settings s name' bytes' ∧
    targetName settings.options name' = name ∧
    convertBytes settings.options bytes' = .ok output

/-- A file whose path ends in the target of a template is in the output directory. -/
theorem IsTemplate.base_of_locate_target {name name' : Text}
    {bytes : ByteArray} {d : Location} (h : IsTemplate settings s name' bytes)
    (hfiles : s.files.WellFormed) (hvalid : settings.options.validate = .ok ())
    (htarget : s'.files.locate s'.working (Path.join settings.outputDirectory
      (targetName settings.options name')) = .ok (d ++ [name])) :
    s'.files.base s'.working settings.outputDirectory = .ok d ∧
      targetName settings.options name' = name := by
  obtain ⟨d', hbase, -, -, hl⟩ :=
    (FileSystem.locate_join_iff (h.isName_target hfiles hvalid)).1 htarget
  obtain ⟨rfl, hname⟩ := List.append_inj' hl rfl
  exact ⟨hbase, (List.singleton_inj.1 hname).symm⟩

/-- A run that can write its results writes all of them. -/
theorem keepsDocuments_of_canWrite {arguments : List Text} {a : Arguments}
    {status : ExitStatus} (hfiles : s.files.WellFormed)
    (hparse : Command.parse? arguments = some (.convert a)) (hcheck : a.check = false)
    (hload : (Settings.load (m := StateM Surroundings) a.configuration a.overrides).run.run s =
      (.ok settings, s)) (hrun : (run (m := StateM Surroundings) arguments).run s = (status, s'))
    (hwrite : CanWrite arguments s) : KeepsDocuments settings s s' := by
  have hvalid := Settings.validate_of_load hload
  have hexecute := run_execute_of_load a hload
  rw [hcheck] at hexecute
  rcases hconvert : (convertDirectory (m := StateM Surroundings) false settings).run.run s
    with ⟨result, s₁⟩
  rw [hconvert] at hexecute
  cases result with
  | ok tally =>
    obtain ⟨-, rfl⟩ := Prod.mk.inj ((run_of_execute_ok hparse hexecute).symm.trans hrun)
    exact keepsDocuments_of_run_convertDirectory hfiles hvalid hconvert
  | error e =>
    have hsettings : e.isWriting = false := hwrite a e hparse (by rw [hexecute])
    rw [isWriting_of_run_convertDirectory hconvert] at hsettings
    cases hsettings

/-- What becomes of a template.  Its content stays the same unless it is written over, and then, if
    the run can write its results, it holds the conversion of the template that has it as target. -/
theorem run_spares_templates {arguments : List Text} {a : Arguments} {settings : Settings}
    {s s' : Surroundings} {status : ExitStatus} {name : Text} {bytes : ByteArray}
    (hfiles : s.files.WellFormed) (hparse : Command.parse? arguments = some (.convert a))
    (hload : (Settings.load (m := StateM Surroundings) a.configuration a.overrides).run.run s =
      (.ok settings, s))
    (hrun : (run (m := StateM Surroundings) arguments).run s = (status, s'))
    (htemplate : IsTemplate settings s name bytes) :
    (a.check = true ∨ (∀ output, ¬WrittenOver settings s s' name output) →
      s'.files.read s'.working (Path.join settings.inputDirectory name) = .ok bytes) ∧
    ∀ output, WrittenOver settings s s' name output →
      ('.' :: settings.options.sourceExtension <:+ '.' :: settings.options.targetExtension ∨
        '.' :: settings.options.targetExtension <:+ '.' :: settings.options.sourceExtension) ∧
      (a.check = false → CanWrite arguments s →
        s'.files.read s'.working (Path.join settings.inputDirectory name) =
          .ok (Platform.encode output)) := by
  have hspares := spares_run hfiles hparse hload hrun
  have hvalid := Settings.validate_of_load hload
  obtain ⟨d, hlocate, hjoin, hfile⟩ := htemplate.exists_locate_join hfiles
  have hlocate := hspares.grows.locate hlocate
  have hjoin := hspares.grows.locate hjoin
  rw [← hspares.working] at hlocate hjoin
  constructor
  · intro hspared
    refine FileSystem.read_eq_ok_iff.2 ⟨d ++ [name], hjoin, ?_⟩
    rcases hspared with hcheck | hnot
    · obtain ⟨status', lines, hrun'⟩ := exists_run_of_check hcheck hparse s
      obtain ⟨-, rfl⟩ := Prod.mk.inj (hrun'.symm.trans hrun)
      exact hfile
    · rw [hspares.unchanged, hfile]
      intro name' bytes' output htemplate' houtput htarget
      obtain ⟨hbase, hname⟩ := htemplate'.base_of_locate_target hfiles hvalid htarget
      exact hnot output ⟨⟨d, hlocate, hbase⟩, name', bytes', htemplate', hname, houtput⟩
  · rintro output ⟨⟨d', hlocate', hbase⟩, name', bytes', htemplate', hname, houtput⟩
    refine ⟨suffix_of_targetName_eq htemplate.isSome_templateStem?
      htemplate'.isSome_templateStem? hname, fun hcheck hwrite => ?_⟩
    have hkeeps := keepsDocuments_of_canWrite hfiles hparse hcheck hload hrun hwrite
    obtain ⟨l, htarget, hwritten⟩ :=
      FileSystem.read_eq_ok_iff.1 (hkeeps.written name' bytes' output htemplate' houtput)
    -- The target is the template, since both have this name in the same directory.
    obtain ⟨d'', hbase', -, -, rfl⟩ :=
      (FileSystem.locate_join_iff (htemplate'.isName_target hfiles hvalid)).1 htarget
    obtain rfl : d'' = d' := Except.ok.inj (hbase'.symm.trans hbase)
    obtain rfl : d'' = d := Except.ok.inj (hlocate'.symm.trans hlocate)
    rw [hname] at hwritten
    exact FileSystem.read_eq_ok_iff.2 ⟨_, hjoin, hwritten⟩

/-- The target of one template is another one: the first stays, and the second is written over. -/
theorem run_spares_templates_overlapping :
    let s : Surroundings := {
      files := ⟨[(["w".toList], .directory),
        (["w".toList, "twigify.toml".toList],
          .file (Platform.encode "[convert]\ntarget_extension = \"b.mtt\"".toList)),
        (["w".toList, "a.b.mtt".toList], .file (Platform.encode "::end::".toList)),
        (["w".toList, "a.mtt".toList], .file (Platform.encode "::x::".toList))]⟩
      working := ["w".toList] }
    let settings : Settings := {
      inputDirectory := "/w".toList
      outputDirectory := "/w".toList
      options := { targetExtension := "b.mtt".toList }
      file := some "/w/twigify.toml".toList }
    (s.files.WellFormed ∧ Command.parse? [] = some (.convert {}) ∧
      (Settings.load (m := StateM Surroundings) none {}).run.run s = (.ok settings, s) ∧
      IsTemplate settings s "a.mtt".toList (Platform.encode "::x::".toList) ∧
      IsTemplate settings s "a.b.mtt".toList (Platform.encode "::end::".toList) ∧
      CanWrite [] s) ∧
    ∃ status s', (run (m := StateM Surroundings) []).run s = (status, s') ∧
      (∀ output, ¬WrittenOver settings s s' "a.mtt".toList output) ∧
      WrittenOver settings s s' "a.b.mtt".toList (Twig.print "x".toList) ∧
      s'.files.read s'.working "/w/a.mtt".toList = .ok (Platform.encode "::x::".toList) ∧
      s'.files.read s'.working "/w/a.b.mtt".toList = .ok (Platform.encode (Twig.print "x".toList)) := by
  intro s settings
  have hfiles : s.files.WellFormed := by decide +kernel
  have hparse : Command.parse? [] = some (.convert {}) := by decide +kernel
  have hload : (Settings.load (m := StateM Surroundings) none {}).run.run s =
      (.ok settings, s) := Settings.run_load_of_result (by decide +kernel)
  have htemplate : IsTemplate settings s "a.mtt".toList (Platform.encode "::x::".toList) :=
    ⟨⟨["w".toList], by decide +kernel, rfl, by decide +kernel⟩, "a".toList,
      by decide, by decide⟩
  have htemplate' : IsTemplate settings s "a.b.mtt".toList (Platform.encode "::end::".toList) :=
    ⟨⟨["w".toList], by decide +kernel, rfl, by decide +kernel⟩, "a.b".toList,
      by decide, by decide⟩
  let members : List Member :=
    [⟨"twigify.toml".toList, true⟩, ⟨"a.b.mtt".toList, true⟩, ⟨"a.mtt".toList, true⟩]
  have hlist : s.files.list s.working settings.inputDirectory = .ok members := by decide +kernel
  have hselected : selected settings.options members = ["a.b.mtt".toList, "a.mtt".toList] :=
    List.mergeSort_of_pairwise (l := ["a.b.mtt".toList, "a.mtt".toList]) (by decide +kernel)
  have hexecute := (run_execute_of_load {} hload).trans
    (run_convertDirectory_of_selected false hlist hselected)
  have htally : ((execute (m := StateM Surroundings) {}).run.run s).1 = .ok ⟨1, 1⟩ := by
    rw [hexecute]
    decide +kernel
  have hwrite : CanWrite [] s := by
    intro a e hparse' herror
    obtain rfl := Command.convert.inj (Option.some.inj (hparse.symm.trans hparse'))
    rw [htally] at herror
    cases herror
  refine ⟨⟨hfiles, hparse, hload, htemplate, htemplate', hwrite⟩, ?_⟩
  rcases hrun : (run (m := StateM Surroundings) []).run s with ⟨status, s'⟩
  have hspares := spares_run hfiles hparse hload hrun
  have hdirectory : s.files.locate s.working "/w".toList = .ok ["w".toList] := by decide +kernel
  have hdirectory' : s'.files.locate s'.working "/w".toList = .ok ["w".toList] := by
    rw [hspares.working]
    exact hspares.grows.locate hdirectory
  -- A target is at least as long as its extension, and this name is shorter.
  have hnot : ∀ output, ¬WrittenOver settings s s' "a.mtt".toList output := by
    rintro output ⟨-, name, bytes, h, hname, -⟩
    obtain ⟨stem, hstem⟩ := Option.isSome_iff_exists.1 h.isSome_templateStem?
    rw [targetName_eq hstem] at hname
    have hlength := congrArg List.length hname
    have htarget : ('.' :: settings.options.targetExtension).length = 6 := by decide
    have hsource : "a.mtt".toList.length = 5 := by decide
    rw [List.length_append, htarget, hsource] at hlength
    omega
  have hover : WrittenOver settings s s' "a.b.mtt".toList (Twig.print "x".toList) := by
    refine ⟨⟨["w".toList], hdirectory', hdirectory'⟩, "a.mtt".toList, _, htemplate, ?_, ?_⟩
    · decide
    · decide +kernel
  have hspared := run_spares_templates hfiles hparse hload hrun htemplate
  have hoverwritten := run_spares_templates hfiles hparse hload hrun htemplate'
  exact ⟨status, s', rfl, hnot, hover, hspared.1 (.inr hnot), (hoverwritten.2 _ hover).2 rfl hwrite⟩

/-- Where both extensions are the same, a template that is converted in place is lost. -/
theorem run_overwrites_template :
    let s : Surroundings := {
      files := ⟨[(["w".toList], .directory),
        (["w".toList, "twigify.toml".toList],
          .file (Platform.encode "[convert]\ntarget_extension = \"mtt\"".toList)),
        (["w".toList, "a.mtt".toList], .file (Platform.encode "::x::".toList))]⟩
      working := ["w".toList] }
    let settings : Settings := {
      inputDirectory := "/w".toList
      outputDirectory := "/w".toList
      options := { targetExtension := "mtt".toList }
      file := some "/w/twigify.toml".toList }
    s.files.WellFormed ∧
      (Settings.load (m := StateM Surroundings) none {}).run.run s = (.ok settings, s) ∧
      IsTemplate settings s "a.mtt".toList (Platform.encode "::x::".toList) ∧
      ∃ s', (run (m := StateM Surroundings) []).run s = (.success, s') ∧
        s'.files.read s'.working "/w/a.mtt".toList = .ok (Platform.encode (Twig.print "x".toList)) ∧
        Platform.encode (Twig.print "x".toList) ≠ Platform.encode "::x::".toList := by
  intro s settings
  have hparse : Command.parse? [] = some (.convert {}) := by decide +kernel
  have hload : (Settings.load (m := StateM Surroundings) none {}).run.run s =
      (.ok settings, s) := Settings.run_load_of_result (by decide +kernel)
  let members : List Member := [⟨"twigify.toml".toList, true⟩, ⟨"a.mtt".toList, true⟩]
  have hlist : s.files.list s.working settings.inputDirectory = .ok members := by decide +kernel
  have hselected : selected settings.options members = ["a.mtt".toList] :=
    List.mergeSort_of_pairwise (l := ["a.mtt".toList]) (by decide +kernel)
  have hexecute := (run_execute_of_load {} hload).trans
    (run_convertDirectory_of_selected false hlist hselected)
  have hread : ((execute (m := StateM Surroundings) {}).run.run s).2.files.read
      ((execute (m := StateM Surroundings) {}).run.run s).2.working "/w/a.mtt".toList =
        .ok (Platform.encode (Twig.print "x".toList)) := by
    rw [hexecute]
    decide +kernel
  have htally : ((execute (m := StateM Surroundings) {}).run.run s).1 = .ok ⟨1, 0⟩ := by
    rw [hexecute]
    decide +kernel
  rcases hrun : (execute (m := StateM Surroundings) {}).run.run s with ⟨result, s'⟩
  rw [hrun] at hread htally
  obtain rfl : result = .ok ⟨1, 0⟩ := htally
  refine ⟨by decide +kernel, hload, ⟨⟨["w".toList], by decide +kernel, rfl, by decide +kernel⟩,
    "a".toList, by decide, by decide⟩, s', run_of_execute_ok hparse hrun, hread, by decide +kernel⟩

end TemploTwig
