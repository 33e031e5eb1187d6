import TemploTwig.Proofs.Command.Batch

/-!
# A run that only checks

With the flag `--check` a run converts its templates and writes nothing.  All templates are read
before the first result is written, so what the run reports about them is what the same run
without the flag would report, as long as that one can write its results.
-/

namespace TemploTwig

variable {argument : Text} {rest before after arguments : List Text} {command : Command}
  {s s' : Surroundings} {tally : Tally}

/-! ## The flag -/

/-- The arguments, checking or not. -/
def Arguments.setCheck (check : Bool) (a : Arguments) : Arguments := { a with check }

theorem Arguments.setCheck_eq_self {a : Arguments} {check : Bool} (h : a.check = check) :
    a.setCheck check = a := by
  rw [← h]
  rfl

namespace Command

/-- The flag for a run that writes nothing. -/
def checkFlag : Text := "--check".toList

/-- The command, checking or not. -/
def setCheck (check : Bool) : Command → Command
  | .convert a => .convert (a.setCheck check)
  | .showHelp => .showHelp
  | .showVersion => .showVersion

/-- What a flag leads to, checking or not. -/
def Progress.setCheck (check : Bool) : Progress → Progress
  | .goOn a => .goOn (a.setCheck check)
  | .stop command => .stop (command.setCheck check)

/-- What a bundle leads to, checking or not. -/
def Bundle.setCheck (check : Bool) : Bundle → Bundle
  | .goOn a => .goOn (a.setCheck check)
  | .stop command => .stop (command.setCheck check)
  | .pending a option => .pending (a.setCheck check) option

variable (a : Arguments) (check : Bool)

theorem withValue?_setCheck (value : Text) (option : CommandOption) :
    withValue? (a.setCheck check) value option =
      (withValue? a value option).map (Arguments.setCheck check) := by
  cases option with
  | configuration | input | output =>
    simp only [withValue?, Option.map_map]
    rfl
  | check | verbose | help | version => rfl

theorem withFlag?_setCheck {option : CommandOption} (h : option ≠ .check) :
    withFlag? (a.setCheck check) option = (withFlag? a option).map (Progress.setCheck check) := by
  cases option with
  | check => exact absurd rfl h
  | verbose =>
    rw [withFlag?, withFlag?]
    show (if a.verbose then none else _) = _
    split <;> rfl
  | configuration | input | output | help | version => rfl

theorem ofShort?_ne_check (letter : Char) : CommandOption.ofShort? letter ≠ some .check := by
  intro h
  have hshort := List.find?_some h
  simp [CommandOption.short?] at hshort

/-- `readBundle?` does not look at the flag. -/
theorem readBundle?_setCheck (bundle : Text) :
    readBundle? (a.setCheck check) bundle = (readBundle? a bundle).map (Bundle.setCheck check) := by
  induction bundle generalizing a with
  | nil => rfl
  | cons letter rest ih =>
    rw [readBundle?, readBundle?]
    cases hoption : CommandOption.ofShort? letter with
    | none => rfl
    | some option =>
      -- The flag has no short name, so no letter of a bundle is it.
      have hne : option ≠ .check := fun h => ofShort?_ne_check letter (h ▸ hoption)
      simp only [Option.bind_some]
      split
      · split
        · rfl
        · rw [withValue?_setCheck, Option.map_map, Option.map_map]
          rfl
        · rw [withValue?_setCheck, Option.map_map, Option.map_map]
          rfl
      · rw [withFlag?_setCheck a check hne]
        cases withFlag? a option with
        | none => rfl
        | some progress =>
          cases progress with
          | goOn a' => exact ih a'
          | stop command => rfl

theorem eq_check_of_ofLong? {name : Text} (h : CommandOption.ofLong? name = some .check) :
    name = "check".toList := by
  have hlong := List.find?_some h
  exact (of_decide_eq_true hlong).symm

/-- `readLong?` sets the flag for `--check` only. -/
theorem readLong?_setCheck {body : Text} (h : body ≠ "check".toList) :
    readLong? (a.setCheck check) body = (readLong? a body).map (Bundle.setCheck check) := by
  rw [readLong?, readLong?]
  cases hcut : Text.cut? ['='] body with
  | none =>
    simp only
    cases hoption : CommandOption.ofLong? body with
    | none => rfl
    | some option =>
      have hne : option ≠ .check := fun heq => h (eq_check_of_ofLong? (heq ▸ hoption))
      simp only [Option.bind_some]
      cases option.takesValue with
      | true => rfl
      | false =>
        simp only [withFlag?_setCheck a check hne, Option.map_map]
        congr 1
        funext progress
        cases progress <;> rfl
  -- With a value behind it, no option is the flag: a flag takes none.
  | some parts =>
    obtain ⟨name, value⟩ := parts
    simp only
    cases CommandOption.ofLong? name with
    | none => rfl
    | some option =>
      simp only [Option.bind_some]
      cases option.takesValue with
      | true =>
        simp only [withValue?_setCheck, Option.map_map]
        rfl
      | false => rfl

theorem readArgument?_setCheck (h : argument ≠ checkFlag) :
    readArgument? (a.setCheck check) argument =
      (readArgument? a argument).map (Bundle.setCheck check) := by
  unfold readArgument?
  split
  · next body => exact readLong?_setCheck a check fun hbody => h (by rw [hbody]; rfl)
  · next c rest _ => exact readBundle?_setCheck a check (c :: rest)
  · rfl

/-- Where the flag is not given, reading does not depend on it. -/
theorem read?_setCheck {pending : Option CommandOption} (h : checkFlag ∉ rest) :
    read? (a.setCheck check) pending rest = (read? a pending rest).map (setCheck check) := by
  induction rest generalizing a pending with
  | nil => cases pending <;> rfl
  | cons argument rest ih =>
    rw [List.mem_cons, not_or] at h
    cases pending with
    -- The argument is the value of the option in front, even if it looks like a flag.
    | some option =>
      rw [read?, read?, withValue?_setCheck]
      split
      · cases withValue? a argument option with
        | none => rfl
        | some a' => exact ih a' h.2
      · rfl
    | none =>
      rw [read?, read?, readArgument?_setCheck a check (Ne.symm h.1)]
      split
      · split <;> rfl
      · cases readArgument? a argument with
        | none => rfl
        | some bundle =>
          cases bundle with
          | goOn a' | pending a' option => exact ih a' h.2
          | stop command => rfl

variable {a} {pending : Option CommandOption}

/-- Reading stops early for a question only. -/
theorem ne_convert_of_withFlag? {option : CommandOption}
    (h : withFlag? a option = some (.stop command)) (b : Arguments) : command ≠ .convert b := by
  cases option with
  | help | version =>
    obtain rfl := Progress.stop.inj (Option.some.inj h)
    nofun
  | check | verbose =>
    rw [withFlag?] at h
    split at h <;> cases h
  | configuration | input | output => cases h

/-- `readBundle?` stops with no conversion. -/
theorem ne_convert_of_readBundle? {bundle : Text}
    (h : readBundle? a bundle = some (.stop command)) (b : Arguments) : command ≠ .convert b := by
  induction bundle generalizing a with
  | nil => cases h
  | cons letter rest ih =>
    rw [readBundle?] at h
    obtain ⟨option, -, h⟩ := Option.bind_eq_some_iff.1 h
    split at h
    · split at h
      · cases h
      · obtain ⟨_, -, h⟩ := Option.map_eq_some_iff.1 h
        cases h
      · obtain ⟨_, -, h⟩ := Option.map_eq_some_iff.1 h
        cases h
    · split at h
      · exact ih h
      · next hflag =>
        obtain rfl := Bundle.stop.inj (Option.some.inj h)
        exact ne_convert_of_withFlag? hflag b
      · cases h

/-- `readArgument?` stops with no conversion. -/
theorem ne_convert_of_readArgument? (h : readArgument? a argument = some (.stop command))
    (b : Arguments) : command ≠ .convert b := by
  unfold readArgument? at h
  split at h
  · rw [readLong?] at h
    obtain ⟨option, -, h⟩ := Option.bind_eq_some_iff.1 h
    split at h
    · obtain ⟨_, -, h⟩ := Option.map_eq_some_iff.1 h
      cases h
    · cases h
    · cases h
    · obtain ⟨progress, hflag, h⟩ := Option.map_eq_some_iff.1 h
      cases progress with
      | goOn _ => cases h
      | stop _ =>
        obtain rfl := Bundle.stop.inj h
        exact ne_convert_of_withFlag? hflag b
  · exact ne_convert_of_readBundle? h b
  · cases h

/-- `read?` takes the flag once. -/
theorem read?_checkFlag (rest : List Text) :
    read? a none (checkFlag :: rest) =
      if a.check then none else read? (a.setCheck true) none rest := by
  have hflag : readArgument? a checkFlag =
      if a.check then none else some (.goOn (a.setCheck true)) := by
    show (withFlag? a .check).map _ = _
    rw [withFlag?]
    split <;> rfl
  have hne : checkFlag ≠ "--".toList := by decide
  rw [read?, if_neg hne, hflag]
  cases a.check <;> rfl

/-- What one argument does: reading goes on, it ends with a question, or it ends because no
    arguments follow the dashes.  In the first two cases it does so whatever follows. -/
theorem read?_cons_cases (h : read? a pending (argument :: rest) = some command) :
    (∃ a' pending', (a.check = true → a'.check = true) ∧
      ∀ rest', read? a pending (argument :: rest') = read? a' pending' rest') ∨
    ((∀ b, command ≠ .convert b) ∧
      ∀ rest', read? a pending (argument :: rest') = some command) ∨
    rest = [] ∧ command = .convert a := by
  cases pending with
  | some option =>
    -- A value changes nothing about the flag.
    have hvalue := withValue?_setCheck a a.check argument option
    rw [read?] at h
    split at h
    · next hisValue =>
      obtain ⟨a', ha', h⟩ := Option.bind_eq_some_iff.1 h
      rw [Arguments.setCheck_eq_self rfl, ha'] at hvalue
      have hkeeps := congrArg Arguments.check (Option.some.inj hvalue)
      refine .inl ⟨a', none, fun ha => hkeeps.trans ha, fun rest' => ?_⟩
      rw [read?, if_pos hisValue, ha']
      rfl
    · cases h
  | none =>
    -- The flag itself may not be given twice; every other argument leaves it as it is.
    by_cases hflag : argument = checkFlag
    · rw [hflag, read?_checkFlag] at h
      split at h
      · cases h
      · next hcheck =>
        refine .inl ⟨a.setCheck true, none, fun _ => rfl, fun rest' => ?_⟩
        rw [hflag, read?_checkFlag, if_neg hcheck]
    · have hargument := readArgument?_setCheck a a.check hflag
      rw [Arguments.setCheck_eq_self rfl] at hargument
      rw [read?] at h
      split at h
      · split at h
        · next hrest => exact .inr (.inr ⟨hrest, (Option.some.inj h).symm⟩)
        · cases h
      · next hdashes =>
        cases hread : readArgument? a argument with
        | none => rw [hread] at h; cases h
        | some bundle =>
          rw [hread] at h hargument
          cases bundle with
          | goOn a' =>
            have hkeeps := congrArg Arguments.check (Bundle.goOn.inj (Option.some.inj hargument))
            refine .inl ⟨a', none, fun ha => hkeeps.trans ha, fun rest' => ?_⟩
            rw [read?, if_neg hdashes, hread]
          | pending a' option =>
            have hkeeps :=
              congrArg Arguments.check (Bundle.pending.inj (Option.some.inj hargument)).1
            refine .inl ⟨a', some option, fun ha => hkeeps.trans ha, fun rest' => ?_⟩
            rw [read?, if_neg hdashes, hread]
          | stop question =>
            obtain rfl := Option.some.inj h
            refine .inr (.inl ⟨ne_convert_of_readArgument? hread, fun rest' => ?_⟩)
            rw [read?, if_neg hdashes, hread]

/-- A flag that has been given stays. -/
theorem check_of_read? {a b : Arguments} (ha : a.check = true)
    (h : read? a pending rest = some (.convert b)) : b.check = true := by
  induction rest generalizing a pending with
  | nil =>
    cases pending with
    | none => rwa [← Command.convert.inj (Option.some.inj h)]
    | some option => cases h
  | cons argument rest ih =>
    rcases read?_cons_cases h with ⟨a', pending', hkeeps, hgoes⟩ | ⟨hquestion, -⟩ | ⟨-, hb⟩
    · rw [hgoes] at h
      exact ih (hkeeps ha) h
    · exact absurd rfl (hquestion b)
    · rwa [Command.convert.inj hb]

/-- With the flag among the arguments, a run checks. -/
theorem check_of_read?_insert {a b : Arguments}
    (h : read? a pending (before ++ checkFlag :: after) = some (.convert b)) : b.check = true := by
  induction before generalizing a pending with
  | nil =>
    cases pending with
    | some option => cases h
    | none =>
      rw [List.nil_append, read?_checkFlag] at h
      split at h
      · cases h
      · exact check_of_read? rfl h
  | cons argument before ih =>
    rw [List.cons_append] at h
    rcases read?_cons_cases h with ⟨a', pending', -, hgoes⟩ | ⟨hquestion, -⟩ | ⟨hrest, -⟩
    · rw [hgoes] at h
      exact ih h
    · exact absurd rfl (hquestion b)
    · simp at hrest

/-- Without the flag the command is the same one, but it does not check. -/
theorem exists_of_read?_insert (hafter : checkFlag ∉ after)
    (h : read? a pending (before ++ checkFlag :: after) = some command) :
    ∃ plain, read? a pending (before ++ after) = some plain ∧ command = plain.setCheck true := by
  induction before generalizing a pending with
  | nil =>
    cases pending with
    -- The flag cannot be the value that the option waits for.
    | some option => cases h
    | none =>
      rw [List.nil_append, read?_checkFlag] at h
      split at h
      · cases h
      · rw [read?_setCheck a true hafter] at h
        obtain ⟨plain, hplain, hcommand⟩ := Option.map_eq_some_iff.1 h
        exact ⟨plain, hplain, hcommand.symm⟩
  | cons argument before ih =>
    rw [List.cons_append] at h ⊢
    rcases read?_cons_cases h with ⟨a', pending', -, hgoes⟩ | ⟨hquestion, hends⟩ | ⟨hrest, -⟩
    · rw [hgoes] at h ⊢
      exact ih h
    · -- A question in front of the flag ends the reading in both cases.
      refine ⟨command, hends _, ?_⟩
      cases command with
      | convert b => exact absurd rfl (hquestion b)
      | showHelp | showVersion => rfl
    · simp at hrest

/-- The flag stands in front of the other arguments, or where it does not spoil them: not in the
    place of a value, and not behind the dashes that end the options. -/
def FlagFits (before after : List Text) : Prop :=
  before = [] ∨
    ((parse? (before ++ after)).isSome → (parse? (before ++ checkFlag :: after)).isSome)

instance (before after : List Text) : Decidable (FlagFits before after) :=
  inferInstanceAs (Decidable (_ ∨ _))

/-- The flag changes nothing about the arguments but that the run checks. -/
theorem parse?_insert_check (hflag : checkFlag ∉ before ++ after) (hfits : FlagFits before after) :
    parse? (before ++ checkFlag :: after) = (parse? (before ++ after)).map (setCheck true) := by
  rw [List.mem_append, not_or] at hflag
  rcases hfits with rfl | hfits
  · exact (read?_checkFlag after).trans (read?_setCheck {} true hflag.2)
  · cases hchecking : parse? (before ++ checkFlag :: after) with
    | some command =>
      obtain ⟨plain, hplain, rfl⟩ := exists_of_read?_insert hflag.2 hchecking
      rw [parse?, hplain]
      rfl
    | none =>
      rw [hchecking] at hfits
      cases hplain : parse? (before ++ after) with
      | none => rfl
      | some plain =>
        rw [hplain] at hfits
        cases hfits rfl

/-- Without the flag a run does not check. -/
theorem check_of_not_mem (hflag : checkFlag ∉ arguments)
    (h : parse? arguments = some (.convert a)) : a.check = false := by
  have hread : parse? arguments = (parse? arguments).map (setCheck false) :=
    read?_setCheck {} false hflag
  rw [h] at hread
  have hself := Command.convert.inj (Option.some.inj hread)
  rw [hself]
  rfl

end Command

/-! ## What is reported about templates -/

/-- The line about what came of a template. -/
def Outcome.line (check : Bool) (directory : Text) (o : Outcome) : Text :=
  match o.result with
  | .ok _ =>
    if check then o.source ++ ": ok".toList
    else o.source ++ " -> ".toList ++ Path.join directory o.target
  | .error e => o.source ++ ": ".toList ++ e.message

/-- The counts with one more template. -/
def Tally.add (tally : Tally) (o : Outcome) : Tally :=
  match o.result with
  | .ok _ => { tally with converted := tally.converted + 1 }
  | .error _ => { tally with failed := tally.failed + 1 }

/-- How many of the templates were converted and how many failed. -/
def Tally.count (outcomes : List Outcome) : Tally :=
  ⟨outcomes.countP (!·.hasFailed), outcomes.countP Outcome.hasFailed⟩

theorem Tally.foldl_add (tally : Tally) (outcomes : List Outcome) :
    outcomes.foldl Tally.add tally = ⟨tally.converted + (Tally.count outcomes).converted,
      tally.failed + (Tally.count outcomes).failed⟩ := by
  induction outcomes generalizing tally with
  | nil => rfl
  | cons o outcomes ih =>
    rw [List.foldl_cons, ih, Tally.add]
    cases hresult : o.result with
    | ok _ | error _ =>
      simp only [count, List.countP_cons, Outcome.hasFailed, hresult]
      simp
      omega

theorem Tally.foldl_add_empty (outcomes : List Outcome) :
    outcomes.foldl Tally.add {} = .count outcomes := by
  rw [Tally.foldl_add]
  simp

/-- The lines are what has been reported in between. -/
def Told (lines : List Text) (s s' : Surroundings) : Prop :=
  s'.reports = lines.reverse ++ s.reports

theorem Told.trans {lines lines' : List Text} {s₁ : Surroundings} (h : Told lines s s₁)
    (h' : Told lines' s₁ s') : Told (lines ++ lines') s s' := by
  rw [Told] at h h' ⊢
  rw [h', h, List.reverse_append, List.append_assoc]

/-- A run that only checks reports what came of each template, and does nothing else. -/
theorem run_foldlM_check (directory : Text) (outcomes : List Outcome) (tally : Tally)
    (s : Surroundings) :
    (outcomes.foldlM (settle (m := StateM Surroundings) true directory) tally).run.run s =
      (.ok (outcomes.foldl Tally.add tally),
        { s with reports := (outcomes.map (Outcome.line true directory)).reverse ++ s.reports }) := by
  induction outcomes generalizing tally s with
  | nil => rfl
  | cons o outcomes ih =>
    have hsettle : (settle (m := StateM Surroundings) true directory tally o).run.run s =
        (.ok (tally.add o), { s with reports := o.line true directory :: s.reports }) := by
      rw [settle, Tally.add, Outcome.line]
      cases o.result <;> rfl
    rw [List.foldlM_cons, ExceptT.run_bind, StateT.run_bind, hsettle]
    show StateT.run (ExceptT.run (outcomes.foldlM _ (tally.add o))) _ = _
    rw [ih, List.foldl_cons, List.map_cons, List.reverse_cons, List.append_assoc]
    rfl

/-- A run that writes reports each template once it is written. -/
theorem told_of_run_settle {directory : Text} {o : Outcome} {tally' : Tally}
    (h : (settle (m := StateM Surroundings) false directory tally o).run.run s = (.ok tally', s')) :
    tally' = tally.add o ∧ Told [o.line false directory] s s' := by
  rw [settle] at h
  rw [Tally.add, Outcome.line]
  cases hresult : o.result with
  | error e =>
    rw [hresult] at h
    obtain ⟨htally, rfl⟩ := Prod.mk.inj h
    exact ⟨(Except.ok.inj htally).symm, rfl⟩
  | ok output =>
    rw [hresult] at h
    dsimp only at h
    rw [if_neg Bool.false_ne_true] at h
    obtain ⟨path, s₁, hwrite, h⟩ := Surroundings.exists_of_run_bind h
    obtain ⟨htally, rfl⟩ := Prod.mk.inj h
    -- What was written has a path, and the report names it.
    obtain ⟨files, -, ⟨e, -, hfailed⟩ | ⟨files', -, hrun⟩⟩ :=
      run_writeOutput_cases directory o.target output s
    · rw [hfailed] at hwrite
      cases hwrite
    · rw [hrun] at hwrite
      obtain ⟨hpath, rfl⟩ := Prod.mk.inj hwrite
      obtain rfl := Except.ok.inj hpath
      exact ⟨(Except.ok.inj htally).symm, rfl⟩

/-- `settle` tells each outcome and counts it. -/
theorem told_of_run_foldlM {directory : Text} {outcomes : List Outcome} {tally' : Tally}
    (h : (outcomes.foldlM (settle (m := StateM Surroundings) false directory) tally).run.run s =
      (.ok tally', s')) :
    tally' = outcomes.foldl Tally.add tally ∧
      Told (outcomes.map (Outcome.line false directory)) s s' := by
  induction outcomes generalizing tally s with
  | nil =>
    obtain ⟨htally, rfl⟩ := Prod.mk.inj h
    exact ⟨(Except.ok.inj htally).symm, rfl⟩
  | cons o outcomes ih =>
    rw [List.foldlM_cons] at h
    obtain ⟨tally₁, s₁, hfirst, hrest⟩ := Surroundings.exists_of_run_bind h
    obtain ⟨rfl, htold⟩ := told_of_run_settle hfirst
    obtain ⟨htally, htold'⟩ := ih hrest
    exact ⟨htally, htold.trans htold'⟩

/-! ## What a run finds -/

/-- What a run finds: lines that it reports first, and what came of each template. -/
structure Findings where
  opening : List Text
  outcomes : List Outcome

/-- The lines that a run reports about its findings.  If there are templates, they are counted in
    the last line. -/
def Findings.lines (check : Bool) (directory : Text) (f : Findings) : List Text :=
  f.opening ++ if f.outcomes.isEmpty then []
    else f.outcomes.map (Outcome.line check directory) ++ [summary check (.count f.outcomes)]

/-- Both kinds of run find the same in a directory.  The one that checks comes to its end, and it
    does nothing but report. -/
theorem exists_findings (settings : Settings) (s : Surroundings) :
    ∃ (f : Findings) (tally : Tally),
      (convertDirectory (m := StateM Surroundings) true settings).run.run s = (.ok tally,
        { s with reports := (f.lines true settings.outputDirectory).reverse ++ s.reports }) ∧
      ∀ tally' s', (convertDirectory (m := StateM Surroundings) false settings).run.run s =
        (.ok tally', s') → tally' = tally ∧ Told (f.lines false settings.outputDirectory) s s' := by
  obtain ⟨first, hscan⟩ : ∃ first, s.scanning settings = { s with reports := first :: s.reports } :=
    ⟨_, rfl⟩
  rcases run_convertDirectory_cases settings s with
    ⟨line, hline⟩ | ⟨members, name, names, hlist, hnames⟩
  · -- There is nothing to convert.
    rw [hscan] at hline
    refine ⟨⟨[first, line], []⟩, {}, hline true, fun tally' s' h => ?_⟩
    rw [hline] at h
    obtain ⟨htally, rfl⟩ := Prod.mk.inj h
    exact ⟨(Except.ok.inj htally).symm, rfl⟩
  · have hrun (check : Bool) := run_convertDirectory_of_selected check hlist hnames
    have hsome : ((name :: names).map
        (s.outcome settings.options settings.inputDirectory)).isEmpty = false := rfl
    -- The outcomes are computed before the two kinds of run part.
    generalize (name :: names).map (s.outcome settings.options settings.inputDirectory) = outcomes
      at hrun hsome
    have hlines (check : Bool) : Findings.lines check settings.outputDirectory ⟨[first], outcomes⟩ =
        [first] ++ (outcomes.map (Outcome.line check settings.outputDirectory) ++
          [summary check (.count outcomes)]) := by
      rw [Findings.lines, hsome, if_neg Bool.false_ne_true]
    refine ⟨⟨[first], outcomes⟩, .count outcomes, ?_, fun tally' s' h => ?_⟩
    · rw [hrun, ExceptT.run_bind, StateT.run_bind, run_foldlM_check, Tally.foldl_add_empty, hscan,
        hlines]
      simp only [List.reverse_append, List.append_assoc]
      rfl
    · rw [hrun, hscan] at h
      obtain ⟨tally₁, s₁, hfold, h⟩ := Surroundings.exists_of_run_bind h
      obtain ⟨htally, rfl⟩ := Prod.mk.inj h
      obtain ⟨rfl, htold⟩ := told_of_run_foldlM hfold
      have hfirst : Told [first] s { s with reports := first :: s.reports } := rfl
      rw [Tally.foldl_add_empty] at htally ⊢
      rw [hlines]
      exact ⟨(Except.ok.inj htally).symm, hfirst.trans (htold.trans rfl)⟩

/-! ## Two runs -/

/-- A run with these arguments can write all its results. -/
def CanWrite (arguments : List Text) (s : Surroundings) : Prop :=
  ∀ a e, Command.parse? arguments = some (.convert a) →
    ((execute (m := StateM Surroundings) a).run.run s).1 = .error e → e.isWriting = false

/-- A run that checks and a run that writes end alike, and they report the same findings. -/
structure Predicts (s : Surroundings) (checked written : ExitStatus × Surroundings) : Prop where
  status : checked.1 = written.1
  found : ∃ (f : Findings) (directory : Text),
    Told (f.lines true directory) s checked.2 ∧ Told (f.lines false directory) s written.2

/-- Runs that do the same predict each other. -/
theorem Predicts.same (lines : List Text) {ended : ExitStatus × Surroundings}
    (h : Told lines s ended.2) : Predicts s ended ended := by
  have htold (check : Bool) : Told (Findings.lines check [] ⟨lines, []⟩) s ended.2 := by
    rw [Findings.lines, List.isEmpty_nil, if_pos rfl, List.append_nil]
    exact h
  exact ⟨rfl, _, _, htold true, htold false⟩

theorem run_of_execute_error {a : Arguments} {e : RunError}
    (hparse : Command.parse? arguments = some (.convert a))
    (h : (execute (m := StateM Surroundings) a).run.run s = (.error e, s')) :
    (run (m := StateM Surroundings) arguments).run s =
      (.failure, { s' with reports := ("Error: ".toList ++ e.message) :: s'.reports }) := by
  rw [run, hparse]
  dsimp only
  rw [StateT.run_bind, h]
  rfl

theorem run_execute_of_load_error (a : Arguments) {e : SettingsError}
    (hload : (Settings.load (m := StateM Surroundings) a.configuration a.overrides).run.run s =
      (.error e, s)) :
    (execute (m := StateM Surroundings) a).run.run s = (.error (.settings e), s) := by
  rw [execute, Surroundings.run_lift_bind, hload]
  rfl

/-- Once the settings are loaded, nothing but writing can fail. -/
theorem isWriting_of_run_convertDirectory {check : Bool} {settings : Settings} {e : RunError}
    (h : (convertDirectory (m := StateM Surroundings) check settings).run.run s = (.error e, s')) :
    e.isWriting = true := by
  rcases run_convertDirectory_cases settings s with
    ⟨line, hline⟩ | ⟨members, name, names, hlist, hnames⟩
  · rw [hline] at h
    cases h
  · rw [run_convertDirectory_of_selected check hlist hnames] at h
    rcases Surroundings.cases_of_run_bind_error h with h | ⟨tally, s₁, -, h⟩
    · obtain ⟨front, o, back, tally₁, s₁, -, -, hsettle⟩ := exists_of_run_foldlM_error h
      exact (exists_of_run_settle_error hsettle).1
    · cases h

/-- A run that checks does nothing but report. -/
theorem exists_run_of_check {a : Arguments} (hcheck : a.check = true)
    (hparse : Command.parse? arguments = some (.convert a)) (s : Surroundings) :
    ∃ status lines, (run (m := StateM Surroundings) arguments).run s =
      (status, { s with reports := lines ++ s.reports }) := by
  obtain ⟨result, hload, -⟩ := Settings.reads_load a.configuration a.overrides s
  cases result with
  | error e =>
    exact ⟨_, [_], run_of_execute_error hparse (run_execute_of_load_error a hload)⟩
  | ok settings =>
    have hexecute := run_execute_of_load a hload
    obtain ⟨f, tally, hrun, -⟩ := exists_findings settings s
    rw [hcheck, hrun] at hexecute
    exact ⟨_, _, run_of_execute_ok hparse hexecute⟩

/-- A run that checks predicts the run that writes. -/
theorem predicts_of_parse? {checking writing : List Text} {a : Arguments}
    (hchecking : Command.parse? checking = some (.convert (a.setCheck true)))
    (hwriting : Command.parse? writing = some (.convert a)) (hcheck : a.check = false)
    (hwrite : CanWrite writing s) :
    Predicts s ((run (m := StateM Surroundings) checking).run s)
      ((run (m := StateM Surroundings) writing).run s) := by
  obtain ⟨result, hload, -⟩ := Settings.reads_load a.configuration a.overrides s
  cases result with
  | error e =>
    rw [run_of_execute_error hchecking (run_execute_of_load_error (a.setCheck true) hload),
      run_of_execute_error hwriting (run_execute_of_load_error a hload)]
    exact .same [_] rfl
  | ok settings =>
    have hexecute := run_execute_of_load a hload
    have hexecute' := run_execute_of_load (a.setCheck true) hload
    obtain ⟨f, tally, hrun, hfound⟩ := exists_findings settings s
    rw [show (a.setCheck true).check = true from rfl, hrun] at hexecute'
    rw [hcheck] at hexecute
    rcases hrun' : (convertDirectory (m := StateM Surroundings) false settings).run.run s
      with ⟨result, s'⟩
    rw [hrun'] at hexecute
    cases result with
    | ok tally' =>
      obtain ⟨rfl, htold'⟩ := hfound tally' s' hrun'
      rw [run_of_execute_ok hchecking hexecute', run_of_execute_ok hwriting hexecute]
      exact ⟨rfl, f, settings.outputDirectory, rfl, htold'⟩
    | error e =>
      -- The only errors of this run are those of writing, and there are none.
      have hsettings : e.isWriting = false := hwrite a e hwriting (by rw [hexecute])
      rw [isWriting_of_run_convertDirectory hrun'] at hsettings
      cases hsettings

/-- A run with the flag changes no file and creates no directory.  It ends as the run without the
    flag does and finds the same, if that one can write its results. -/
theorem run_check_predicts (before after : List Text) (s : Surroundings) :
    ((run (m := StateM Surroundings) (before ++ Command.checkFlag :: after)).run s).2.files =
      s.files ∧
    (Command.checkFlag ∉ before ++ after → Command.FlagFits before after →
      CanWrite (before ++ after) s →
      Predicts s ((run (m := StateM Surroundings) (before ++ Command.checkFlag :: after)).run s)
        ((run (m := StateM Surroundings) (before ++ after)).run s)) := by
  constructor
  · cases hparse : Command.parse? (before ++ Command.checkFlag :: after) with
    | none => rw [run, hparse]; rfl
    | some command =>
      cases command with
      | convert a =>
        obtain ⟨status, lines, hrun⟩ :=
          exists_run_of_check (Command.check_of_read?_insert hparse) hparse s
        rw [hrun]
      | showHelp | showVersion => rw [run, hparse]; rfl
  · intro hflag hfits hwrite
    have hinsert := Command.parse?_insert_check hflag hfits
    cases hparse : Command.parse? (before ++ after) with
    | none =>
      rw [hparse] at hinsert
      rw [run, run, hinsert, hparse]
      exact .same [] rfl
    | some command =>
      rw [hparse] at hinsert
      cases command with
      | convert a =>
        exact predicts_of_parse? hinsert hparse (Command.check_of_not_mem hflag hparse) hwrite
      | showHelp | showVersion =>
        rw [run, run, hinsert, hparse]
        exact .same [] rfl

/-- One template fails, and the results go to a directory that is not there yet. -/
theorem run_check_predicts_new_directory :
    let before := ["-o".toList, "out".toList]
    let after := ["-v".toList]
    let s : Surroundings := {
      files := ⟨[(["w".toList], .directory),
        (["w".toList, "a.mtt".toList], .file (Platform.encode "::x::".toList)),
        (["w".toList, "b.mtt".toList], .file (Platform.encode "::end::".toList))]⟩
      working := ["w".toList] }
    (Command.checkFlag ∉ before ++ after ∧ Command.FlagFits before after ∧
      CanWrite (before ++ after) s) ∧
    ((run (m := StateM Surroundings) (before ++ Command.checkFlag :: after)).run s).2.files =
      s.files ∧
    Predicts s ((run (m := StateM Surroundings) (before ++ Command.checkFlag :: after)).run s)
      ((run (m := StateM Surroundings) (before ++ after)).run s) := by
  intro before after s
  let a : Arguments := { outputDirectory := some "out".toList, verbose := true }
  let settings : Settings := { inputDirectory := "/w".toList, outputDirectory := "out".toList }
  have hparse : Command.parse? (before ++ after) = some (.convert a) := by decide +kernel
  have hload : (Settings.load (m := StateM Surroundings) a.configuration a.overrides).run.run s =
      (.ok settings, s) := Settings.run_load_of_result (by decide +kernel)
  let members : List Member := [⟨"a.mtt".toList, true⟩, ⟨"b.mtt".toList, true⟩]
  have hlist : s.files.list s.working settings.inputDirectory = .ok members := by decide +kernel
  have hselected : selected settings.options members = ["a.mtt".toList, "b.mtt".toList] :=
    List.mergeSort_of_pairwise (l := ["a.mtt".toList, "b.mtt".toList]) (by decide +kernel)
  have hexecute := (run_execute_of_load a hload).trans
    (run_convertDirectory_of_selected false hlist hselected)
  have htally : ((execute (m := StateM Surroundings) a).run.run s).1 = .ok ⟨1, 1⟩ := by
    rw [hexecute]
    decide +kernel
  have hwrite : CanWrite (before ++ after) s := by
    intro a' e hparse' herror
    obtain rfl := Command.convert.inj (Option.some.inj (hparse.symm.trans hparse'))
    rw [htally] at herror
    cases herror
  have hflag : Command.checkFlag ∉ before ++ after := by decide +kernel
  have hfits : Command.FlagFits before after := by decide +kernel
  have hpredicts := run_check_predicts before after s
  exact ⟨⟨hflag, hfits, hwrite⟩, hpredicts.1, hpredicts.2 hflag hfits hwrite⟩

end TemploTwig
