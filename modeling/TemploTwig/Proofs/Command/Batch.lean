import TemploTwig.Command.Run
import TemploTwig.Proofs.Files.Locations
import TemploTwig.Proofs.Settings.Loading

/-!
# A run loses no document

A run reads all templates of a directory before it writes the first result.  Different templates
have different targets, so no result is written over another one, also when the results go to the
directory of the templates and a result takes the place of a template.
-/

namespace TemploTwig

variable {name : Text} {options : Options} {settings : Settings} {α β : Type} {s s' : Surroundings}
  {o : Outcome}
  {tally : Tally} {members : List Member}

open TemploTwig.Path (IsName)

/-! ## Names of templates and of their targets -/

theorem templateStem?_eq_some_iff {extension stem : Text} :
    templateStem? extension name = some stem ↔ name = stem ++ '.' :: extension ∧ stem ≠ [] := by
  rw [templateStem?, Option.filter_eq_some_iff, TemplatePath.stem?, Option.bind_eq_some_iff]
  simp [Text.stripEnd?_eq_some_iff]

theorem targetName_eq {stem : Text} (h : templateStem? options.sourceExtension name = some stem) :
    targetName options name = stem ++ '.' :: options.targetExtension := by
  rw [targetName, h]
  rfl

/-- Different templates have different targets. -/
theorem targetName_injOn {name' : Text} (h : (templateStem? options.sourceExtension name).isSome)
    (h' : (templateStem? options.sourceExtension name').isSome)
    (heq : targetName options name = targetName options name') : name = name' := by
  obtain ⟨stem, hstem⟩ := Option.isSome_iff_exists.1 h
  obtain ⟨stem', hstem'⟩ := Option.isSome_iff_exists.1 h'
  rw [targetName_eq hstem, targetName_eq hstem'] at heq
  rw [(templateStem?_eq_some_iff.1 hstem).1, (templateStem?_eq_some_iff.1 hstem').1,
    List.append_cancel_right heq]

/-- `requireExtension` refuses empty and divided extensions. -/
theorem of_requireExtension {field value : Text} (h : requireExtension field value = .ok ()) :
    value ≠ [] ∧ '/' ∉ value := by
  rw [requireExtension, requireNonEmpty] at h
  by_cases hne : value = []
  · rw [if_pos hne] at h
    cases h
  · rw [if_neg hne] at h
    simp only [bind, Except.bind] at h
    split at h
    · cases h
    · next hseparator =>
      rw [not_or] at hseparator
      exact ⟨hne, hseparator.1⟩

theorem targetExtension_of_validate (h : options.validate = .ok ()) :
    options.targetExtension ≠ [] ∧ '/' ∉ options.targetExtension := by
  rw [Options.validate] at h
  cases hsource : requireExtension "convert.source_extension".toList options.sourceExtension with
  | error e => rw [hsource] at h; cases h
  | ok _ =>
    cases htarget : requireExtension "convert.target_extension".toList options.targetExtension with
    | error e => rw [hsource, htarget] at h; cases h
    | ok _ => exact of_requireExtension htarget

/-- The target of a template is the name of a file. -/
theorem isName_targetName (hvalid : options.validate = .ok ())
    (hstem : (templateStem? options.sourceExtension name).isSome) (hname : IsName name) :
    IsName (targetName options name) := by
  obtain ⟨hne, hslash⟩ := targetExtension_of_validate hvalid
  obtain ⟨stem, hstem⟩ := Option.isSome_iff_exists.1 hstem
  obtain ⟨rfl, hstem'⟩ := templateStem?_eq_some_iff.1 hstem
  rw [targetName_eq hstem]
  constructor
  · have hfront := hname.no_slash
    simp only [List.mem_append, List.mem_cons, not_or] at hfront ⊢
    exact ⟨hfront.1, by decide, hslash⟩
  · -- With a stem and an extension the name is longer than two dots.
    have hlength : 3 ≤ (stem ++ '.' :: options.targetExtension).length := by
      have hfront := List.length_pos_of_ne_nil hstem'
      have hback := List.length_pos_of_ne_nil hne
      simp only [List.length_append, List.length_cons]
      omega
    cases hdot : FileSystem.isDot (stem ++ '.' :: options.targetExtension) with
    | false => rfl
    | true =>
      simp only [FileSystem.isDot, Bool.or_eq_true, beq_iff_eq] at hdot
      rcases hdot with (hdot | hdot) | hdot <;> rw [hdot] at hlength <;> simp at hlength

/-! ## Reading and converting -/

/-- What the content of a template converts to. -/
def convertBytes (options : Options) (bytes : ByteArray) : Except TemplateFailure Text :=
  match Platform.decode bytes with
  | .error e => .error (.unreadable e)
  | .ok content => (convertTemplate options none content).result.mapError .unconvertible

namespace Surroundings

/-- What comes of a template of a directory. -/
def outcome (s : Surroundings) (options : Options) (directory name : Text) : Outcome where
  source := Path.join directory name
  target := targetName options name
  result := match s.files.read s.working (Path.join directory name) with
    | .error e => .error (.unreadable e)
    | .ok bytes => convertBytes options bytes

/-- A step and what follows it. -/
theorem run_bind (x : StateM Surroundings α) (f : α → StateM Surroundings β) (s : Surroundings) :
    (x >>= f).run s = (f (x.run s).1).run (x.run s).2 := rfl

/-- `convertFile` reads the template and changes nothing. -/
theorem run_convertFile (options : Options) (directory name : Text) (s : Surroundings) :
    (convertFile (m := StateM Surroundings) options directory name).run s =
      (s.outcome options directory name, s) := by
  rw [convertFile, run_bind, run_readText, outcome]
  cases s.files.read s.working (Path.join directory name) with
  | error e => rfl
  | ok bytes =>
    have hbind : (Except.ok bytes >>= Platform.decode) = Platform.decode bytes := rfl
    simp only [convertBytes, hbind]
    cases Platform.decode bytes with
    | error e => rfl
    | ok content =>
      dsimp only
      cases (convertTemplate options none content).result <;> rfl

/-- Templates are converted by reading alone, each by itself. -/
theorem run_convertAll (options : Options) (directory : Text) (names : List Text)
    (s : Surroundings) :
    (convertAll (m := StateM Surroundings) options directory names).run s =
      (names.map (s.outcome options directory), s) := by
  induction names with
  | nil => rfl
  | cons name names ih =>
    rw [convertAll] at ih ⊢
    rw [List.mapM_cons, run_bind, run_convertFile, run_bind, ih]
    rfl

end Surroundings

/-! ## Writing -/

/-- A step that succeeds as a whole succeeds in both of its parts. -/
theorem Surroundings.exists_of_run_bind {ε : Type} {x : ExceptT ε (StateM Surroundings) α}
    {f : α → ExceptT ε (StateM Surroundings) β} {b : β} (h : (x >>= f).run.run s = (.ok b, s')) :
    ∃ a s₁, x.run.run s = (.ok a, s₁) ∧ (f a).run.run s₁ = (.ok b, s') := by
  simp only [ExceptT.run_bind, StateT.run_bind] at h
  rcases hrun : x.run.run s with ⟨result, s₁⟩
  rw [hrun] at h
  cases result with
  | ok a => exact ⟨a, s₁, rfl, h⟩
  | error e => cases h

/-- A step that fails as a whole fails in one of its parts. -/
theorem Surroundings.cases_of_run_bind_error {ε : Type} {x : ExceptT ε (StateM Surroundings) α}
    {f : α → ExceptT ε (StateM Surroundings) β} {e : ε} (h : (x >>= f).run.run s = (.error e, s')) :
    x.run.run s = (.error e, s') ∨
      ∃ a s₁, x.run.run s = (.ok a, s₁) ∧ (f a).run.run s₁ = (.error e, s') := by
  simp only [ExceptT.run_bind, StateT.run_bind] at h
  rcases hrun : x.run.run s with ⟨result, s₁⟩
  rw [hrun] at h
  cases result with
  | ok a => exact .inr ⟨a, s₁, rfl, h⟩
  | error e' =>
    obtain ⟨he, rfl⟩ := Prod.mk.inj h
    exact .inl (by rw [Except.error.inj he])

theorem Surroundings.run_writeFile (path : Text) (content : ByteArray) (s : Surroundings) :
    (Platform.writeFile (m := StateM Surroundings) path content).run s =
      match s.files.write s.working path content with
      | .ok files => (.ok (), { s with files })
      | .error e => (.error e, s) := by
  change StateT.run (match s.files.write s.working path content with
    | .ok files => (_ : StateM Surroundings (Except FileError Unit))
    | .error e => _) s = _
  cases s.files.write s.working path content <;> rfl

/-- The error is met in writing a result. -/
def RunError.isWriting : RunError → Bool
  | .settings _ => false
  | .noDirectory _ => true
  | .unwritable _ _ => true

/-- Writing a converted template: directories are created first, and then it fails or it writes one
    file. -/
theorem run_writeOutput_cases (directory target output : Text) (s : Surroundings) :
    ∃ files, s.files.AddsDirectories files ∧
      ((∃ e, e.isWriting = true ∧
          (writeOutput (m := StateM Surroundings) directory target output).run.run s =
            (.error e, { s with files })) ∨
        ∃ files', files.write s.working (Path.join directory target) (Platform.encode output) =
            .ok files' ∧
          (writeOutput (m := StateM Surroundings) directory target output).run.run s =
            (.ok (Path.join directory target), { s with files := files' })) := by
  rcases hcreate : FileSystem.createAll s.working (Path.ancestors directory.length directory)
    s.files with ⟨created, files⟩
  have hadds := FileSystem.addsDirectories_createAll s.working
    (Path.ancestors directory.length directory) s.files
  have hrun : (Platform.createDirectories (m := StateM Surroundings) directory).run s =
      (created, { s with files }) := by
    show ((FileSystem.createAll s.working (Path.ancestors directory.length directory) s.files).1, _)
      = _
    rw [hcreate]
  rw [hcreate] at hadds
  -- Whether or not a directory is missing, those that could be created are there now.
  refine ⟨files, hadds, ?_⟩
  rw [writeOutput, Surroundings.run_lift_bind, hrun]
  cases created with
  | error e => exact .inl ⟨.noDirectory e, rfl, rfl⟩
  | ok _ =>
    dsimp only
    rw [Surroundings.run_lift_bind, Surroundings.run_writeFile]
    dsimp only
    cases hwrite : files.write s.working (Path.join directory target) (Platform.encode output) with
    | error e => exact .inl ⟨.unwritable (Path.join directory target) e, rfl, rfl⟩
    | ok files' => exact .inr ⟨files', rfl, rfl⟩

/-- One file is written, and nothing is taken away. -/
structure Writes (path : Text) (content : ByteArray) (s s' : Surroundings) : Prop where
  working : s'.working = s.working
  grows : s.files.Grows s'.files
  located : ∃ l, s'.files.locate s.working path = .ok l ∧
    ∀ l', s'.files.file? l' = if l' = l then some content else s.files.file? l'

/-- `writeOutput` writes one file. -/
theorem writes_writeOutput {directory target output path : Text} (hname : IsName target)
    (h : (writeOutput (m := StateM Surroundings) directory target
      output).run.run s = (.ok path, s')) :
    Writes (Path.join directory target) (Platform.encode output) s s' := by
  obtain ⟨files, hadds, ⟨e, -, hfailed⟩ | ⟨files', hwrite, hrun⟩⟩ :=
    run_writeOutput_cases directory target output s
  · rw [hfailed] at h
    cases h
  · rw [hrun] at h
    obtain rfl := (Prod.mk.inj h).2
    obtain ⟨hgrows, l, hlocate, hfile⟩ := FileSystem.exists_of_write_join hname hwrite
    refine ⟨rfl, hadds.grows.trans hgrows, l, hlocate, fun l' => ?_⟩
    rw [hfile, hadds.file?_eq]

/-! ## What a run leaves behind -/

/-- The state behind the outcomes of templates.  Files that no outcome was written to are as before,
    and if the targets differ, each of them holds what its template was converted to. -/
structure Settled (directory : Text) (outcomes : List Outcome) (s s' : Surroundings) : Prop where
  working : s'.working = s.working
  grows : s.files.Grows s'.files
  other : ∀ l, (∀ o ∈ outcomes, ∀ output, o.result = .ok output →
    s'.files.locate s.working (Path.join directory o.target) ≠ .ok l) →
    s'.files.file? l = s.files.file? l
  written : (outcomes.map Outcome.target).Nodup → ∀ o ∈ outcomes, ∀ output,
    o.result = .ok output → ∃ l, s'.files.locate s.working (Path.join directory o.target) = .ok l ∧
      s'.files.file? l = some (Platform.encode output)

namespace Settled

variable {directory : Text} {outcomes : List Outcome} {s s₁ s' : Surroundings}

theorem nil (hworking : s'.working = s.working) (hfiles : s'.files = s.files) :
    Settled directory [] s s' where
  working := hworking
  grows := hfiles ▸ .refl _
  other _ _ := by rw [hfiles]
  written _ _ ho := by cases ho

/-- A template that failed leaves nothing behind. -/
theorem failed {e : TemplateFailure} (ho : o.result = .error e) (hworking : s'.working = s.working)
    (hfiles : s'.files = s.files) : Settled directory [o] s s' where
  working := hworking
  grows := hfiles ▸ .refl _
  other _ _ := by rw [hfiles]
  written _ o' ho' output houtput := by
    rw [List.mem_singleton.1 ho', ho] at houtput
    cases houtput

/-- A template that was converted leaves its target behind. -/
theorem converted {output : Text} (ho : o.result = .ok output)
    (h : Writes (Path.join directory o.target) (Platform.encode output) s s') :
    Settled directory [o] s s' := by
  obtain ⟨l, hlocate, hfile⟩ := h.located
  refine ⟨h.working, h.grows, fun l' hl' => ?_, fun _ o' ho' output' houtput' => ?_⟩
  · rw [hfile, if_neg]
    rintro rfl
    exact hl' o List.mem_cons_self output ho hlocate
  · obtain rfl := List.mem_singleton.1 ho'
    rw [ho] at houtput'
    obtain rfl := Except.ok.inj houtput'
    exact ⟨l, hlocate, by rw [hfile, if_pos rfl]⟩

/-- Outcomes are settled one after the other.  What is written later is not written over what was
    written before, since the targets have other names. -/
theorem cons (hnames : ∀ o' ∈ o :: outcomes, IsName o'.target) (hfirst : Settled directory [o] s s₁)
    (hrest : Settled directory outcomes s₁ s') : Settled directory (o :: outcomes) s s' := by
  have hworking := hfirst.working
  refine ⟨hrest.working.trans hworking, hfirst.grows.trans hrest.grows, ?_, ?_⟩
  · intro l hl
    rw [hrest.other l, hfirst.other l]
    · intro o' ho' output houtput hlocate
      rw [List.mem_singleton.1 ho'] at houtput hlocate
      exact hl o List.mem_cons_self output houtput (hrest.grows.locate hlocate)
    · intro o' ho' output houtput
      rw [hworking]
      exact hl o' (List.mem_cons_of_mem _ ho') output houtput
  · intro hdistinct o' ho' output houtput
    rw [List.map_cons, List.nodup_cons] at hdistinct
    rcases List.mem_cons.1 ho' with rfl | ho'
    · obtain ⟨l, hlocate, hfile⟩ :=
        hfirst.written (List.nodup_singleton _) o' List.mem_cons_self output houtput
      have hlocate' := hrest.grows.locate hlocate
      refine ⟨l, hlocate', ?_⟩
      rw [hrest.other l, hfile]
      intro o₂ ho₂ _ _ hlocate₂
      rw [hworking] at hlocate₂
      -- Two targets at one location would have one name.
      have htarget : o'.target = o₂.target :=
        FileSystem.name_eq_of_locate_join (hnames o' List.mem_cons_self)
          (hnames o₂ (List.mem_cons_of_mem _ ho₂)) hlocate' hlocate₂
      exact hdistinct.1 (htarget ▸ List.mem_map_of_mem ho₂)
    · obtain ⟨l, hlocate, hfile⟩ := hrest.written hdistinct.2 o' ho' output houtput
      rw [hworking] at hlocate
      exact ⟨l, hlocate, hfile⟩

end Settled

/-- The outcome is a failure. -/
def Outcome.hasFailed (o : Outcome) : Bool :=
  match o.result with
  | .ok _ => false
  | .error _ => true

/-- One outcome. -/
theorem settled_settle {directory : Text} {tally' : Tally} (hname : IsName o.target)
    (h : (settle (m := StateM Surroundings) false directory tally o).run.run s =
      (.ok tally', s')) :
    Settled directory [o] s s' ∧ tally'.failed = tally.failed + o.hasFailed.toNat := by
  rw [settle] at h
  rw [Outcome.hasFailed]
  cases hresult : o.result with
  -- A template that failed is only reported.
  | error e =>
    rw [hresult] at h
    obtain ⟨htally, rfl⟩ := Prod.mk.inj h
    exact ⟨.failed hresult rfl rfl, by rw [← Except.ok.inj htally]; rfl⟩
  | ok output =>
    rw [hresult] at h
    dsimp only at h
    rw [if_neg Bool.false_ne_true] at h
    obtain ⟨path, s₁, hwrite, h⟩ := Surroundings.exists_of_run_bind h
    obtain ⟨htally, rfl⟩ := Prod.mk.inj h
    have hwrites := writes_writeOutput hname hwrite
    refine ⟨.converted hresult ⟨hwrites.working, hwrites.grows, hwrites.located⟩, ?_⟩
    rw [← Except.ok.inj htally]
    rfl

/-- All outcomes of a run. -/
theorem settled_foldlM {directory : Text} {outcomes : List Outcome} {tally' : Tally}
    (hnames : ∀ o ∈ outcomes, IsName o.target)
    (h : (outcomes.foldlM (settle (m := StateM Surroundings) false directory) tally).run.run s =
      (.ok tally', s')) :
    Settled directory outcomes s s' ∧
      tally'.failed = tally.failed + outcomes.countP Outcome.hasFailed := by
  induction outcomes generalizing s tally with
  | nil =>
    obtain ⟨htally, rfl⟩ := Prod.mk.inj h
    exact ⟨.nil rfl rfl, by rw [← Except.ok.inj htally]; rfl⟩
  | cons o outcomes ih =>
    rw [List.foldlM_cons] at h
    obtain ⟨tally₁, s₁, hfirst, hrest⟩ := Surroundings.exists_of_run_bind h
    obtain ⟨hsettled, htally⟩ := settled_settle (hnames o List.mem_cons_self) hfirst
    obtain ⟨hsettled', htally'⟩ := ih (fun o' ho' => hnames o' (List.mem_cons_of_mem _ ho')) hrest
    refine ⟨.cons hnames hsettled hsettled', ?_⟩
    rw [htally', htally, List.countP_cons]
    cases o.hasFailed <;> simp
    omega

/-- Settling an outcome fails if it cannot be written.  Directories may have been created by then. -/
theorem exists_of_run_settle_error {check : Bool} {directory : Text} {e : RunError}
    (h : (settle (m := StateM Surroundings) check directory tally o).run.run s = (.error e, s')) :
    e.isWriting = true ∧ ∃ files, s.files.AddsDirectories files ∧ s' = { s with files } := by
  rw [settle] at h
  cases hresult : o.result with
  | error _ => rw [hresult] at h; cases h
  | ok output =>
    rw [hresult] at h
    dsimp only at h
    cases check with
    | true => cases h
    | false =>
      rw [if_neg Bool.false_ne_true] at h
      -- Only writing can fail: the report behind it cannot.
      rcases Surroundings.cases_of_run_bind_error h with h | ⟨path, s₁, -, h⟩
      · obtain ⟨files, hadds, ⟨e', hwriting, hfailed⟩ | ⟨files', -, hrun⟩⟩ :=
          run_writeOutput_cases directory o.target output s
        · rw [hfailed] at h
          obtain ⟨he, rfl⟩ := Prod.mk.inj h
          exact ⟨Except.error.inj he ▸ hwriting, files, hadds, rfl⟩
        · rw [hrun] at h
          cases h
      · cases h

/-- A run that fails has settled some of its outcomes before. -/
theorem exists_of_run_foldlM_error {check : Bool} {directory : Text} {outcomes : List Outcome}
    {e : RunError}
    (h : (outcomes.foldlM (settle (m := StateM Surroundings) check directory) tally).run.run s =
      (.error e, s')) :
    ∃ front o back tally₁ s₁, outcomes = front ++ o :: back ∧
      (front.foldlM (settle (m := StateM Surroundings) check directory) tally).run.run s =
        (.ok tally₁, s₁) ∧
      (settle (m := StateM Surroundings) check directory tally₁ o).run.run s₁ = (.error e, s') := by
  induction outcomes generalizing tally s with
  | nil => cases h
  | cons o outcomes ih =>
    rw [List.foldlM_cons] at h
    rcases Surroundings.cases_of_run_bind_error h with h | ⟨tally₁, s₁, hfirst, h⟩
    · exact ⟨[], o, outcomes, tally, s, rfl, rfl, h⟩
    · obtain ⟨front, o', back, tally₂, s₂, rfl, hfront, ho'⟩ := ih h
      refine ⟨o :: front, o', back, tally₂, s₂, rfl, ?_, ho'⟩
      rw [List.foldlM_cons, ExceptT.run_bind, StateT.run_bind, hfirst]
      exact hfront

/-! ## The templates of a run -/

/-- A template of a run: a file of the input directory that has the source extension behind a
    name. -/
structure IsTemplate (settings : Settings) (s : Surroundings) (name : Text) (bytes : ByteArray) :
    Prop where
  found : ∃ d, s.files.locate s.working settings.inputDirectory = .ok d ∧
    s.files.get? d = some .directory ∧ s.files.file? (d ++ [name]) = some bytes
  stem : ∃ stem, stem ≠ [] ∧ name = stem ++ '.' :: settings.options.sourceExtension

theorem isSome_templateStem?_iff {extension name : Text} :
    (templateStem? extension name).isSome ↔ ∃ stem, stem ≠ [] ∧ name = stem ++ '.' :: extension := by
  rw [Option.isSome_iff_exists]
  simp only [templateStem?_eq_some_iff, and_comm]

namespace IsTemplate

variable {bytes : ByteArray}

theorem isSome_templateStem? (h : IsTemplate settings s name bytes) :
    (templateStem? settings.options.sourceExtension name).isSome :=
  isSome_templateStem?_iff.2 h.stem

theorem isName (h : IsTemplate settings s name bytes) (hfiles : s.files.WellFormed) :
    IsName name := by
  obtain ⟨d, -, -, hfile⟩ := h.found
  exact hfiles.isName_of_get? (FileSystem.file?_eq_some_iff.1 hfile)

theorem isName_target (h : IsTemplate settings s name bytes) (hfiles : s.files.WellFormed)
    (hvalid : settings.options.validate = .ok ()) : IsName (targetName settings.options name) :=
  isName_targetName hvalid h.isSome_templateStem? (h.isName hfiles)

/-- A template is found under its name in the input directory. -/
theorem exists_locate_join (h : IsTemplate settings s name bytes) (hfiles : s.files.WellFormed) :
    ∃ d, s.files.locate s.working settings.inputDirectory = .ok d ∧
      s.files.locate s.working (Path.join settings.inputDirectory name) = .ok (d ++ [name]) ∧
      s.files.file? (d ++ [name]) = some bytes := by
  obtain ⟨d, hlocate, hget, hfile⟩ := h.found
  have hdirectory : settings.inputDirectory ≠ [] := by
    intro hnil
    rw [hnil] at hlocate
    cases hlocate
  have hbase : s.files.base s.working settings.inputDirectory = .ok d := by
    rw [FileSystem.base, if_neg hdirectory, hlocate]
  have hsome : (s.files.get? (d ++ [name])).isSome := by
    rw [FileSystem.file?_eq_some_iff.1 hfile]
    rfl
  exact ⟨d, hlocate, (FileSystem.locate_join_iff (h.isName hfiles)).2 ⟨d, hbase, hget, hsome, rfl⟩,
    hfile⟩

/-- What comes of a template is what its content converts to. -/
theorem result_outcome (h : IsTemplate settings s name bytes) (hfiles : s.files.WellFormed) :
    (s.outcome settings.options settings.inputDirectory name).result =
      convertBytes settings.options bytes := by
  obtain ⟨d, -, hjoin, hfile⟩ := h.exists_locate_join hfiles
  have hread : s.files.read s.working (Path.join settings.inputDirectory name) = .ok bytes :=
    FileSystem.read_eq_ok_iff.2 ⟨_, hjoin, hfile⟩
  rw [Surroundings.outcome, hread]

theorem bytes_eq {bytes' : ByteArray} (h : IsTemplate settings s name bytes)
    (h' : IsTemplate settings s name bytes') : bytes = bytes' := by
  obtain ⟨d, hlocate, -, hfile⟩ := h.found
  obtain ⟨d', hlocate', -, hfile'⟩ := h'.found
  obtain rfl : d = d' := Except.ok.inj (hlocate.symm.trans hlocate')
  exact Option.some.inj (hfile.symm.trans hfile')

end IsTemplate

/-- `selected` are the files with the extension. -/
theorem mem_selected_iff :
    name ∈ selected options members ↔
      ⟨name, true⟩ ∈ members ∧ (templateStem? options.sourceExtension name).isSome := by
  rw [selected, List.mem_mergeSort, List.mem_filterMap]
  constructor
  · rintro ⟨⟨name', isFile⟩, hmem, hname⟩
    split at hname
    · next h =>
      obtain rfl := Option.some.inj hname
      obtain ⟨rfl, hstem⟩ := h
      exact ⟨hmem, hstem⟩
    · cases hname
  · rintro ⟨hmem, hstem⟩
    exact ⟨_, hmem, if_pos ⟨rfl, hstem⟩⟩

/-- The selected names are those of the templates. -/
theorem mem_selected_iff_isTemplate (hfiles : s.files.WellFormed)
    (hlist : s.files.list s.working settings.inputDirectory = .ok members) (name : Text) :
    name ∈ selected settings.options members ↔ ∃ bytes, IsTemplate settings s name bytes := by
  obtain ⟨d, hlocate, hget, hmembers⟩ := FileSystem.exists_of_list hlist
  rw [mem_selected_iff, hfiles.mem_list_iff hmembers, isSome_templateStem?_iff]
  constructor
  · rintro ⟨⟨e, hentry, hfile⟩, hstem⟩
    cases e with
    | directory => cases hfile
    | file bytes =>
      exact ⟨bytes, ⟨d, hlocate, hget, FileSystem.file?_eq_some_iff.2 hentry⟩, hstem⟩
  · rintro ⟨bytes, htemplate⟩
    obtain ⟨d', hlocate', -, hfile⟩ := htemplate.found
    obtain rfl : d' = d := Except.ok.inj (hlocate'.symm.trans hlocate)
    exact ⟨⟨_, FileSystem.file?_eq_some_iff.1 hfile, rfl⟩, htemplate.stem⟩

/-- `selected` repeats no name. -/
theorem nodup_selected (h : (members.map Member.name).Nodup) :
    (selected options members).Nodup := by
  rw [selected, (List.mergeSort_perm _ _).nodup_iff]
  refine h.sublist ?_
  induction members with
  | nil => exact .slnil
  | cons member members ih =>
    rw [List.map_cons, List.nodup_cons] at h
    rw [List.filterMap_cons, List.map_cons]
    split
    · exact (ih h.2).cons _
    · next name hname =>
      split at hname
      · rw [← Option.some.inj hname]
        exact (ih h.2).cons_cons _
      · cases hname

/-- The surroundings once a run has said what it is looking for. -/
def Surroundings.scanning (s : Surroundings) (settings : Settings) : Surroundings :=
  { s with reports := ("Scanning ".toList ++ settings.inputDirectory ++ " for .".toList ++
      settings.options.sourceExtension ++ " templates".toList) :: s.reports }

/-- A run looks for templates in the files as they are. -/
theorem Surroundings.run_listDirectory (s : Surroundings) (settings : Settings) :
    (Platform.listDirectory (m := StateM Surroundings) settings.inputDirectory).run
      (s.scanning settings) =
        (s.files.list s.working settings.inputDirectory, s.scanning settings) := rfl

/-- Without templates a run does nothing but report. -/
theorem run_convertDirectory_of_none
    (hnone : ∀ members, s.files.list s.working settings.inputDirectory = .ok members →
      selected settings.options members = []) :
    ∃ line, ∀ check, (convertDirectory (m := StateM Surroundings) check settings).run.run s =
      (.ok {}, { s with reports := line :: (s.scanning settings).reports }) := by
  cases hlist : s.files.list s.working settings.inputDirectory with
  | error e =>
    refine ⟨"Unable to scan directory: ".toList ++ e.message, fun check => ?_⟩
    rw [convertDirectory, Surroundings.run_lift_bind]
    show StateT.run (ExceptT.run _) (s.scanning settings) = _
    rw [Surroundings.run_lift_bind, Surroundings.run_listDirectory, hlist]
    rfl
  | ok members =>
    refine ⟨"No templates found".toList, fun check => ?_⟩
    rw [convertDirectory, Surroundings.run_lift_bind]
    show StateT.run (ExceptT.run _) (s.scanning settings) = _
    rw [Surroundings.run_lift_bind, Surroundings.run_listDirectory, hlist]
    dsimp only
    rw [hnone members hlist]
    rfl

/-- A directory with templates: they are converted as they were at the beginning, and then what came
    of them is settled. -/
theorem run_convertDirectory_of_selected (check : Bool) {names : List Text}
    (hlist : s.files.list s.working settings.inputDirectory = .ok members)
    (hselected : selected settings.options members = name :: names) :
    (convertDirectory (m := StateM Surroundings) check settings).run.run s =
      (((name :: names).map (s.outcome settings.options settings.inputDirectory)).foldlM
        (settle (m := StateM Surroundings) check settings.outputDirectory) {} >>= fun tally => do
          Platform.report (m := StateM Surroundings) (summary check tally)
          return tally).run.run (s.scanning settings) := by
  rw [convertDirectory, Surroundings.run_lift_bind]
  show StateT.run (ExceptT.run _) (s.scanning settings) = _
  rw [Surroundings.run_lift_bind, Surroundings.run_listDirectory, hlist]
  dsimp only
  rw [hselected]
  dsimp only
  rw [Surroundings.run_lift_bind, Surroundings.run_convertAll]
  rfl

/-- There are templates in the directory or not. -/
theorem run_convertDirectory_cases (settings : Settings) (s : Surroundings) :
    (∃ line, ∀ check, (convertDirectory (m := StateM Surroundings) check settings).run.run s =
      (.ok {}, { s with reports := line :: (s.scanning settings).reports })) ∨
    ∃ members name names, s.files.list s.working settings.inputDirectory = .ok members ∧
      selected settings.options members = name :: names := by
  by_cases hnone : ∀ members, s.files.list s.working settings.inputDirectory = .ok members →
      selected settings.options members = []
  · exact .inl (run_convertDirectory_of_none hnone)
  · simp only [not_forall] at hnone
    obtain ⟨members, hlist, hselected⟩ := hnone
    obtain ⟨name, names, hnames⟩ := List.exists_cons_of_ne_nil hselected
    exact .inr ⟨members, name, names, hlist, hnames⟩

/-- Converting the templates of a directory settles what comes of each of them. -/
theorem exists_of_run_convertDirectory (hfiles : s.files.WellFormed)
    (hvalid : settings.options.validate = .ok ())
    (hrun : (convertDirectory (m := StateM Surroundings) false settings).run.run s =
      (.ok tally, s')) :
    ∃ names : List Text, names.Nodup ∧
      (∀ name, name ∈ names ↔ ∃ bytes, IsTemplate settings s name bytes) ∧
      Settled settings.outputDirectory
        (names.map (s.outcome settings.options settings.inputDirectory)) s s' ∧
      tally.failed = (names.map (s.outcome settings.options settings.inputDirectory)).countP
        Outcome.hasFailed := by
  -- Without templates the files are as before.
  have hnothing (hnone : ∀ members, s.files.list s.working settings.inputDirectory = .ok members →
      selected settings.options members = []) :
      Settled settings.outputDirectory [] s s' ∧ tally.failed = 0 := by
    obtain ⟨line, hline⟩ := run_convertDirectory_of_none hnone
    rw [hline] at hrun
    obtain ⟨htally, rfl⟩ := Prod.mk.inj hrun
    exact ⟨.nil rfl rfl, by rw [← Except.ok.inj htally]⟩
  cases hlist : s.files.list s.working settings.inputDirectory with
  | error e =>
    obtain ⟨hsettled, hfailed⟩ := hnothing (by rw [hlist]; simp)
    refine ⟨[], .nil, fun name => ?_, hsettled, hfailed⟩
    constructor
    · intro hname
      cases hname
    · rintro ⟨bytes, htemplate⟩
      obtain ⟨d, hlocate, hget, -⟩ := htemplate.found
      rw [FileSystem.list, hlocate] at hlist
      simp only [bind, Except.bind, hget] at hlist
      cases hlist
  | ok members =>
    have hselected (name : Text) := mem_selected_iff_isTemplate hfiles hlist name
    obtain ⟨d, -, -, hmembers⟩ := FileSystem.exists_of_list hlist
    refine ⟨selected settings.options members, nodup_selected (hfiles.nodup_list hmembers),
      hselected, ?_⟩
    cases hnames : selected settings.options members with
    | nil =>
      refine hnothing fun members' hlist' => ?_
      rw [← Except.ok.inj (hlist.symm.trans hlist'), hnames]
    | cons name names =>
      have htargets : ∀ o ∈ (name :: names).map
          (s.outcome settings.options settings.inputDirectory), IsName o.target := by
        intro o ho
        obtain ⟨name', hname', rfl⟩ := List.mem_map.1 ho
        obtain ⟨bytes, htemplate⟩ := (hselected name').1 (hnames ▸ hname')
        exact htemplate.isName_target hfiles hvalid
      rw [run_convertDirectory_of_selected false hlist hnames] at hrun
      obtain ⟨tally', s₁, hfold, h⟩ := Surroundings.exists_of_run_bind hrun
      obtain ⟨htally, rfl⟩ := Prod.mk.inj h
      obtain ⟨hsettled, hcount⟩ := settled_foldlM htargets hfold
      -- What is reported before and behind does not count for the files.
      refine ⟨⟨hsettled.working, hsettled.grows, hsettled.other, hsettled.written⟩, ?_⟩
      rw [← Except.ok.inj htally, hcount]
      exact Nat.zero_add _

/-! ## A whole run -/

/-- What a run leaves behind.  Each template that can be converted has its target with that
    conversion, nothing is written for the others, no two templates have one target, and all other
    files are as before. -/
structure KeepsDocuments (settings : Settings) (s s' : Surroundings) : Prop where
  written : ∀ name bytes output, IsTemplate settings s name bytes →
    convertBytes settings.options bytes = .ok output →
    s'.files.read s'.working (Path.join settings.outputDirectory
      (targetName settings.options name)) = .ok (Platform.encode output)
  failed : ∀ name bytes e, IsTemplate settings s name bytes →
    convertBytes settings.options bytes = .error e →
    ∀ l, s'.files.locate s'.working (Path.join settings.outputDirectory
      (targetName settings.options name)) = .ok l → s'.files.file? l = s.files.file? l
  distinct : ∀ name name' bytes bytes', IsTemplate settings s name bytes →
    IsTemplate settings s name' bytes' → name ≠ name' →
    targetName settings.options name ≠ targetName settings.options name'
  unchanged : ∀ l, (∀ name bytes output, IsTemplate settings s name bytes →
      convertBytes settings.options bytes = .ok output →
      s'.files.locate s'.working (Path.join settings.outputDirectory
        (targetName settings.options name)) ≠ .ok l) →
    s'.files.file? l = s.files.file? l

/-- `Settled` outcomes keep every document. -/
theorem Settled.keepsDocuments {names : List Text}
    (hfiles : s.files.WellFormed) (hvalid : settings.options.validate = .ok ())
    (hdistinct : names.Nodup)
    (hnames : ∀ name, name ∈ names ↔ ∃ bytes, IsTemplate settings s name bytes)
    (h : Settled settings.outputDirectory
      (names.map (s.outcome settings.options settings.inputDirectory)) s s') :
    KeepsDocuments settings s s' := by
  have htargets : ((names.map (s.outcome settings.options settings.inputDirectory)).map
      Outcome.target).Nodup := by
    rw [List.map_map]
    refine hdistinct.map_on fun name hname name' hname' heq => ?_
    obtain ⟨bytes, htemplate⟩ := (hnames name).1 hname
    obtain ⟨bytes', htemplate'⟩ := (hnames name').1 hname'
    exact targetName_injOn htemplate.isSome_templateStem? htemplate'.isSome_templateStem? heq
  have hunchanged (l : Location) (hl : ∀ name bytes output, IsTemplate settings s name bytes →
      convertBytes settings.options bytes = .ok output →
      s'.files.locate s'.working (Path.join settings.outputDirectory
        (targetName settings.options name)) ≠ .ok l) : s'.files.file? l = s.files.file? l := by
    apply h.other l
    intro o ho output houtput
    obtain ⟨name, hname, rfl⟩ := List.mem_map.1 ho
    obtain ⟨bytes, htemplate⟩ := (hnames name).1 hname
    rw [htemplate.result_outcome hfiles] at houtput
    rw [← h.working]
    exact hl name bytes output htemplate houtput
  refine ⟨?_, ?_, ?_, hunchanged⟩
  · intro name bytes output htemplate houtput
    have hmem := List.mem_map_of_mem (f := s.outcome settings.options settings.inputDirectory)
      ((hnames name).2 ⟨bytes, htemplate⟩)
    rw [← htemplate.result_outcome hfiles] at houtput
    obtain ⟨l, hlocate, hfile⟩ := h.written htargets _ hmem output houtput
    rw [h.working]
    exact FileSystem.read_eq_ok_iff.2 ⟨l, hlocate, hfile⟩
  · intro name bytes e htemplate hfailed l hlocate
    apply hunchanged l
    intro name' bytes' output htemplate' houtput hlocate'
    -- Another template with this target would have the same name, and then the same content.
    have hname := htemplate.isName_target hfiles hvalid
    have hname' := htemplate'.isName_target hfiles hvalid
    obtain rfl := targetName_injOn htemplate.isSome_templateStem?
      htemplate'.isSome_templateStem?
      (FileSystem.name_eq_of_locate_join hname hname' hlocate hlocate')
    rw [htemplate.bytes_eq htemplate', houtput] at hfailed
    cases hfailed
  · intro name name' bytes bytes' htemplate htemplate' hne heq
    exact hne (targetName_injOn htemplate.isSome_templateStem?
      htemplate'.isSome_templateStem? heq)

theorem keepsDocuments_of_run_convertDirectory (hfiles : s.files.WellFormed)
    (hvalid : settings.options.validate = .ok ())
    (hrun : (convertDirectory (m := StateM Surroundings) false settings).run.run s =
      (.ok tally, s')) : KeepsDocuments settings s s' := by
  obtain ⟨names, hdistinct, hnames, hsettled, -⟩ :=
    exists_of_run_convertDirectory hfiles hvalid hrun
  exact hsettled.keepsDocuments hfiles hvalid hdistinct hnames

/-- Once the settings are loaded, a run converts the templates of their directory. -/
theorem run_execute_of_load (a : Arguments)
    (hload : (Settings.load (m := StateM Surroundings) a.configuration a.overrides).run.run s =
      (.ok settings, s)) :
    (execute (m := StateM Surroundings) a).run.run s =
      (convertDirectory (m := StateM Surroundings) a.check settings).run.run s := by
  rw [execute, Surroundings.run_lift_bind, hload]

/-- A run that is executed to its end has the status of its tally. -/
theorem run_of_execute_ok {arguments : List Text} {a : Arguments} {tally : Tally}
    (hparse : Command.parse? arguments = some (.convert a))
    (h : (execute (m := StateM Surroundings) a).run.run s = (.ok tally, s')) :
    (run (m := StateM Surroundings) arguments).run s =
      (if tally.failed = 0 then .success else .failure, s') := by
  rw [run, hparse]
  dsimp only
  rw [StateT.run_bind, h]
  rfl

/-- A run that converts and meets no other error loses no document, and it fails exactly when a
    template does. -/
theorem run_keeps_every_document {arguments : List Text} {a : Arguments} {s s' : Surroundings}
    {tally : Tally} (hparse : Command.parse? arguments = some (.convert a))
    (hcheck : a.check = false) (hfiles : s.files.WellFormed)
    (hrun : (execute (m := StateM Surroundings) a).run.run s = (.ok tally, s')) :
    ∃ settings status,
      (Settings.load (m := StateM Surroundings) a.configuration a.overrides).run.run s =
        (.ok settings, s) ∧
      (run (m := StateM Surroundings) arguments).run s = (status, s') ∧
      KeepsDocuments settings s s' ∧
      (status.code = 1 ↔ ∃ name bytes e, IsTemplate settings s name bytes ∧
        convertBytes settings.options bytes = .error e) := by
  have hstatus := run_of_execute_ok hparse hrun
  obtain ⟨result, hload, hresult⟩ := Settings.reads_load a.configuration a.overrides s
  cases result with
  | error e =>
    rw [execute, Surroundings.run_lift_bind, hload] at hrun
    cases hrun
  | ok settings =>
    rw [run_execute_of_load a hload, hcheck] at hrun
    have hvalid := hresult settings rfl
    obtain ⟨names, hdistinct, hnames, hsettled, hfailed⟩ :=
      exists_of_run_convertDirectory hfiles hvalid hrun
    refine ⟨settings, _, hload, hstatus, hsettled.keepsDocuments hfiles hvalid hdistinct hnames, ?_⟩
    -- The run fails exactly if it has counted a failure.
    have hcode : (if tally.failed = 0 then ExitStatus.success else .failure).code = 1 ↔
        0 < tally.failed := by
      split <;> simp [ExitStatus.code] <;> omega
    rw [hcode, hfailed, List.countP_pos_iff]
    constructor
    · rintro ⟨o, ho, hfailed⟩
      obtain ⟨name, hname, rfl⟩ := List.mem_map.1 ho
      obtain ⟨bytes, htemplate⟩ := (hnames name).1 hname
      rw [Outcome.hasFailed, htemplate.result_outcome hfiles] at hfailed
      cases hresult : convertBytes settings.options bytes with
      | ok output => rw [hresult] at hfailed; cases hfailed
      | error e => exact ⟨name, bytes, e, htemplate, hresult⟩
    · rintro ⟨name, bytes, e, htemplate, herror⟩
      refine ⟨_, List.mem_map_of_mem ((hnames name).2 ⟨bytes, htemplate⟩), ?_⟩
      rw [Outcome.hasFailed, htemplate.result_outcome hfiles, herror]

/-- The target of one template is another template, and that one fails. -/
theorem run_keeps_every_document_overlapping :
    let s : Surroundings := {
      files := ⟨[(["w".toList], .directory),
        (["w".toList, "twigify.toml".toList],
          .file (Platform.encode "[convert]\ntarget_extension = \"b.mtt\"".toList)),
        (["w".toList, "a.b.mtt".toList], .file (Platform.encode "::end::".toList)),
        (["w".toList, "a.mtt".toList], .file (Platform.encode "::x::".toList))]⟩
      working := ["w".toList] }
    Command.parse? [] = some (.convert {}) ∧ s.files.WellFormed ∧
    ∃ s', (execute (m := StateM Surroundings) {}).run.run s = (.ok ⟨1, 1⟩, s') ∧
      ∃ settings status,
        (Settings.load (m := StateM Surroundings) none {}).run.run s = (.ok settings, s) ∧
        (run (m := StateM Surroundings) []).run s = (status, s') ∧ KeepsDocuments settings s s' ∧
        (status.code = 1 ↔ ∃ name bytes e, IsTemplate settings s name bytes ∧
          convertBytes settings.options bytes = .error e) := by
  intro s
  let settings : Settings := {
    inputDirectory := "/w".toList
    outputDirectory := "/w".toList
    options := { targetExtension := "b.mtt".toList }
    file := some "/w/twigify.toml".toList }
  have hload : (Settings.load (m := StateM Surroundings) none {}).run.run s =
      (.ok settings, s) := Settings.run_load_of_result (by decide +kernel)
  let members : List Member :=
    [⟨"twigify.toml".toList, true⟩, ⟨"a.b.mtt".toList, true⟩, ⟨"a.mtt".toList, true⟩]
  have hlist : s.files.list s.working settings.inputDirectory = .ok members := by decide +kernel
  -- The names are in order already; the kernel does not evaluate the sorting itself.
  have hselected : selected settings.options members = ["a.b.mtt".toList, "a.mtt".toList] :=
    List.mergeSort_of_pairwise (l := ["a.b.mtt".toList, "a.mtt".toList]) (by decide +kernel)
  have hexecute := (run_execute_of_load {} hload).trans
    (run_convertDirectory_of_selected false hlist hselected)
  have htally : ((execute (m := StateM Surroundings) {}).run.run s).1 = .ok ⟨1, 1⟩ := by
    rw [hexecute]
    decide +kernel
  rcases hrun : (execute (m := StateM Surroundings) {}).run.run s with ⟨result, s'⟩
  rw [hrun] at htally
  obtain rfl : result = .ok ⟨1, 1⟩ := htally
  have hparse : Command.parse? [] = some (.convert {}) := by decide +kernel
  have hfiles : s.files.WellFormed := by decide +kernel
  have hkeeps := run_keeps_every_document hparse rfl hfiles hrun
  exact ⟨hparse, hfiles, s', rfl, hkeeps⟩

end TemploTwig
