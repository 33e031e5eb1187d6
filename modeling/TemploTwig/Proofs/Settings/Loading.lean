import TemploTwig.Files.FileSystem
import TemploTwig.Settings.Load

/-!
# Loading settings changes nothing

Settings are loaded by reading alone, and what is loaded has passed the check of its options.
-/

namespace TemploTwig

namespace Surroundings

variable {ε α β : Type} {x : ExceptT ε (StateM Surroundings) α} {s s' : Surroundings}

/-- A step that cannot fail, and what follows it. -/
theorem run_lift_bind (x : StateM Surroundings α) (f : α → ExceptT ε (StateM Surroundings) β)
    (s : Surroundings) :
    (liftM x >>= f : ExceptT ε (StateM Surroundings) β).run.run s =
      (f (x.run s).1).run.run (x.run s).2 := rfl

/-- A step that succeeds, and what follows it. -/
theorem run_bind_ok {a : α} (h : x.run.run s = (.ok a, s'))
    (f : α → ExceptT ε (StateM Surroundings) β) :
    (x >>= f).run.run s = (f a).run.run s' := by
  simp only [ExceptT.run_bind, StateT.run_bind, h]
  rfl

/-- What follows a step that fails is not run. -/
theorem run_bind_error {e : ε} (h : x.run.run s = (.error e, s'))
    (f : α → ExceptT ε (StateM Surroundings) β) :
    (x >>= f).run.run s = (.error e, s') := by
  simp only [ExceptT.run_bind, StateT.run_bind, h]
  rfl

end Surroundings

/-- The step leaves its surroundings as they are, and its results have a property. -/
def Reads {ε α : Type} (P : α → Prop) (x : ExceptT ε (StateM Surroundings) α) : Prop :=
  ∀ s, ∃ result, x.run.run s = (result, s) ∧ ∀ a, result = .ok a → P a

namespace Reads

variable {ε α β : Type} {P : α → Prop} {Q : β → Prop}

theorem pure {a : α} (h : P a) : Reads P (Pure.pure a : ExceptT ε (StateM Surroundings) α) :=
  fun _ => ⟨.ok a, rfl, fun _ heq => Except.ok.inj heq ▸ h⟩

theorem throw (e : ε) : Reads P (throw e : ExceptT ε (StateM Surroundings) α) :=
  fun _ => ⟨.error e, rfl, fun _ heq => nomatch heq⟩

theorem bind {x : ExceptT ε (StateM Surroundings) α} {f : α → ExceptT ε (StateM Surroundings) β}
    (hx : Reads P x) (hf : ∀ a, P a → Reads Q (f a)) : Reads Q (x >>= f) := by
  intro s
  obtain ⟨result, hrun, hresult⟩ := hx s
  cases result with
  | ok a =>
    obtain ⟨result', hrun', hresult'⟩ := hf a (hresult a rfl) s
    exact ⟨result', (Surroundings.run_bind_ok hrun f).trans hrun', hresult'⟩
  | error e => exact ⟨.error e, Surroundings.run_bind_error hrun f, fun _ heq => nomatch heq⟩

/-- A step that cannot fail and only reads. -/
theorem lift {x : StateM Surroundings α} (hx : ∀ s, (x.run s).2 = s) :
    Reads (fun _ => True) (liftM x : ExceptT ε (StateM Surroundings) α) := by
  intro s
  refine ⟨.ok (x.run s).1, ?_, fun _ _ => trivial⟩
  show (Except.ok (x.run s).1, (x.run s).2) = _
  rw [hx]

/-- A step that only reads, with its failures as results. -/
theorem lift_run {x : ExceptT ε (StateM Surroundings) α} (hx : Reads P x) {ε' : Type} :
    Reads (fun _ => True) (liftM x.run : ExceptT ε' (StateM Surroundings) (Except ε α)) := by
  apply lift
  intro s
  obtain ⟨result, hrun, -⟩ := hx s
  rw [hrun]

theorem mapM {f : α → ExceptT ε (StateM Surroundings) β} (hf : ∀ a, Reads Q (f a))
    (as : List α) : Reads (fun _ => True) (as.mapM f) := by
  induction as with
  | nil => exact .pure trivial
  | cons a as ih =>
    rw [List.mapM_cons]
    exact (hf a).bind fun b _ => ih.bind fun bs _ => .pure trivial

end Reads

/-- `expandPath` only reads. -/
theorem reads_expandPath (path : Text) :
    Reads (fun _ => True) (expandPath (m := StateM Surroundings) Platform.lookup? path) := by
  have hlookup (name : Text) : Reads (ε := UnsetVariable) (fun _ => True)
      (liftM (Platform.lookup? (m := StateM Surroundings) name)) := .lift fun _ => rfl
  -- The environment is read at each name and at the `~`, and never written.
  unfold expandPath
  split
  · refine (Reads.mapM (Q := fun _ => True) (fun piece => ?_) _).bind fun parts _ => ?_
    · cases piece with
      | plain t => exact .pure trivial
      | token r =>
        cases r with
        | literal t => exact .pure trivial
        | named name default? =>
          refine (hlookup name).bind fun value _ => ?_
          cases value with
          | some value => exact .pure trivial
          | none =>
            cases default? with
            | some value => exact .pure trivial
            | none => exact .throw _
    · dsimp only
      split
      · exact (hlookup _).bind fun home _ => .pure trivial
      · exact .pure trivial
  · exact .pure trivial

/-- The text in bytes. -/
def Platform.decode (bytes : ByteArray) : Except FileError Text :=
  match String.fromUTF8? bytes with
  | some s => .ok s.toList
  | none => .error .notText

theorem Surroundings.run_readText (path : Text) (s : Surroundings) :
    (Platform.readText (m := StateM Surroundings) path).run s =
      (s.files.read s.working path >>= Platform.decode, s) := by
  have hread : (Platform.readFile (m := StateM Surroundings) path).run s =
      pure (s.files.read s.working path, s) := rfl
  rw [Platform.readText, StateT.run_bind, hread, pure_bind]
  cases s.files.read s.working path with
  | error e => rfl
  | ok bytes =>
    dsimp only
    show _ = (Platform.decode bytes, s)
    rw [Platform.decode]
    cases String.fromUTF8? bytes <;> rfl

namespace Settings

theorem reads_expandField (field : Text) (path : Option Text) :
    Reads (fun _ => True) (expandField (m := StateM Surroundings) field path) := by
  cases path with
  | none => exact .pure trivial
  | some path =>
    refine (Reads.lift_run (reads_expandPath path)).bind fun result _ => ?_
    cases result with
    | ok expanded => exact .pure trivial
    | error missing => exact .throw _

/-- `ofFile` gives settings that are valid. -/
theorem reads_ofFile (path : Text) :
    Reads (fun settings => settings.options.validate = .ok ())
      (ofFile (m := StateM Surroundings) path) := by
  unfold ofFile
  refine (Reads.lift fun s => ?_).bind fun content _ => ?_
  · rw [Surroundings.run_readText]
  cases content with
  | error e => exact .throw _
  | ok content =>
    dsimp only
    split
    · exact .throw _
    · refine (reads_expandField _ _).bind fun input _ => ?_
      refine (reads_expandField _ _).bind fun output _ => ?_
      split
      · exact .throw _
      · next hvalid => exact .pure hvalid

theorem run_discoverIn (directories : List Text) (s : Surroundings) :
    ((discoverIn (m := StateM Surroundings) directories).run s).2 = s := by
  induction directories with
  | nil => rfl
  | cons directory directories ih =>
    have hexists (path : Text) : (Platform.pathExists (m := StateM Surroundings) path).run s =
        pure ((s.files.locate s.working path).toOption.isSome, s) := rfl
    rw [discoverIn, StateT.run_bind, hexists, pure_bind]
    dsimp only
    split
    · rfl
    · exact ih

theorem run_discover (s : Surroundings) :
    ((discover (m := StateM Surroundings)).run s).2 = s :=
  run_discoverIn (Path.ancestors _ (Surroundings.pathOf s.working)) s

/-- Settings are loaded by reading, and their options have been checked. -/
theorem reads_load (file : Option Text) (overrides : Overrides) :
    Reads (fun settings => settings.options.validate = .ok ())
      (load (m := StateM Surroundings) file overrides) := by
  unfold load
  cases file with
  | some path =>
    refine (Reads.lift fun _ => rfl).bind fun found _ => ?_
    split
    · exact (reads_ofFile path).bind fun settings hsettings => .pure hsettings
    · exact .throw _
  | none =>
    refine (Reads.lift run_discover).bind fun found _ => ?_
    cases found with
    | some path => exact (reads_ofFile path).bind fun settings hsettings => .pure hsettings
    | none => exact (Reads.lift fun _ => rfl).bind fun working _ => .pure rfl

/-- What loading gives decides all of it. -/
theorem run_load_of_result {file : Option Text} {overrides : Overrides}
    {result : Except SettingsError Settings} {s : Surroundings}
    (h : ((load (m := StateM Surroundings) file overrides).run.run s).1 = result) :
    (load (m := StateM Surroundings) file overrides).run.run s = (result, s) := by
  obtain ⟨result', hrun, -⟩ := reads_load file overrides s
  rw [hrun] at h ⊢
  rw [← h]

theorem validate_of_load {file : Option Text} {overrides : Overrides} {settings : Settings}
    {s s' : Surroundings}
    (h : (load (m := StateM Surroundings) file overrides).run.run s = (.ok settings, s')) :
    settings.options.validate = .ok () := by
  obtain ⟨result, hrun, hresult⟩ := reads_load file overrides s
  exact hresult settings (Prod.mk.inj (hrun.symm.trans h)).1

end Settings

end TemploTwig
