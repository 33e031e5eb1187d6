import Mathlib.Data.List.Nodup
import TemploTwig.Files.FileSystem

/-!
# Paths into a file system

A name behind the path of a directory leads to that name in the directory, however the path is
written.  Creating directories and writing files takes nothing away: what a path led to it still
leads to.

Key results: `FileSystem.locate_join_iff`, `FileSystem.Grows`,
`FileSystem.addsDirectories_createAll`, `FileSystem.exists_of_write_join`,
`FileSystem.WellFormed.mem_list_iff`.
-/

namespace TemploTwig

/-! ## Components of paths -/

namespace Path

/-- A path has `components`. -/
theorem components_ne_nil (path : Text) : components path ≠ [] := by
  cases path with
  | nil => simp [components]
  | cons c cs =>
    rw [components]
    split
    · simp
    · split <;> simp

/-- `components` at a slash. -/
theorem components_append_slash (front back : Text) :
    components (front ++ '/' :: back) = components front ++ components back := by
  induction front with
  | nil => rfl
  | cons c front ih =>
    rw [List.cons_append, components, components, ih]
    split
    · rfl
    · cases hfront : components front with
      | nil => exact absurd hfront (components_ne_nil front)
      | cons part parts => rfl

/-- A name is its own component. -/
theorem components_of_not_mem {name : Text} (h : '/' ∉ name) : components name = [name] := by
  induction name with
  | nil => rfl
  | cons c name ih =>
    have hc : c ≠ '/' := fun heq => h (heq ▸ List.mem_cons_self)
    rw [components, if_neg hc, ih fun hmem => h (List.mem_cons_of_mem _ hmem)]

/-- The part of a path can be the name of a file. -/
structure IsName (name : Text) : Prop where
  no_slash : '/' ∉ name
  not_dot : FileSystem.isDot name = false

instance : DecidablePred IsName := fun name =>
  decidable_of_iff ('/' ∉ name ∧ FileSystem.isDot name = false) ⟨fun h => ⟨h.1, h.2⟩,
    fun h => ⟨h.no_slash, h.not_dot⟩⟩

namespace IsName

variable {name : Text}

theorem ne_nil (h : IsName name) : name ≠ [] := by
  rintro rfl
  cases h.not_dot

theorem ne_dot (h : IsName name) : name ≠ ['.'] := by
  rintro rfl
  cases h.not_dot

theorem ne_dots (h : IsName name) : name ≠ ['.', '.'] := by
  rintro rfl
  cases h.not_dot

/-- An `IsName` is no absolute path. -/
theorem not_isAbsolute (h : IsName name) : isAbsolute name = false := by
  cases name with
  | nil => rfl
  | cons c name =>
    have hc : '/' ≠ c := fun heq => h.no_slash (heq ▸ List.mem_cons_self)
    simp [isAbsolute, Text.startsWith, Text.stripStart?, hc]

end IsName

theorem isAbsolute_append {front : Text} (h : front ≠ []) (back : Text) :
    isAbsolute (front ++ back) = isAbsolute front := by
  cases front with
  | nil => exact absurd rfl h
  | cons c front =>
    simp only [isAbsolute, Text.startsWith, List.cons_append, Text.stripStart?]
    split <;> rfl

end Path

open TemploTwig.Path (IsName)

/-! ## Entries -/

namespace FileSystem

variable {fs fs' fs'' : FileSystem} {w l : Location} {dir name path : Text}

theorem get?_nil (fs : FileSystem) : fs.get? [] = some .directory := rfl

/-- `get?` behind `put`. -/
theorem get?_put (hl : l ≠ []) (e : Entry) (fs : FileSystem) (l' : Location) :
    (fs.put l e).get? l' = if l' = l then some e else fs.get? l' := by
  by_cases hl' : l' = []
  · rw [hl', get?_nil, get?_nil, if_neg hl.symm]
  · rw [get?, get?, if_neg hl', if_neg hl', put, List.find?_cons]
    by_cases heq : l' = l
    · simp [heq]
    · have hkeep : (fun a : Location × Entry => decide (a.1 ≠ l) && decide (a.1 = l')) =
          fun a => decide (a.1 = l') := by
        funext a
        by_cases ha : a.1 = l' <;> simp [ha, heq]
      simp only [if_neg heq, decide_eq_false (Ne.symm heq), List.find?_filter,
        Bool.decide_and, Bool.decide_eq_true, hkeep]

/-- The content of the file at a location. -/
def file? (fs : FileSystem) (l : Location) : Option ByteArray :=
  match fs.get? l with
  | some (.file content) => some content
  | _ => none

/-- `file?` finds files alone. -/
theorem file?_eq_some_iff {content : ByteArray} :
    fs.file? l = some content ↔ fs.get? l = some (.file content) := by
  rw [file?]
  split
  · next c h => simp [h]
  · next h =>
    constructor
    · intro hnone
      cases hnone
    · intro hget
      exact absurd hget (h content)

/-- `read` gives the `file?` at the location. -/
theorem read_eq_ok_iff {content : ByteArray} :
    fs.read w path = .ok content ↔ ∃ l, fs.locate w path = .ok l ∧ fs.file? l = some content := by
  rw [read]
  cases hlocate : fs.locate w path with
  | error e => simp [bind, Except.bind]
  | ok l =>
    simp only [bind, Except.bind, Except.ok.injEq, exists_eq_left', file?_eq_some_iff]
    split
    · next c hget => simp [hget, pure, Except.pure]
    · next hget => simp [hget]
    · next hget => simp [hget]

/-! ## Walks -/

/-- `walk` goes the two parts one after the other. -/
theorem walk_append (fs : FileSystem) (l : Location) (front back : List Text) :
    fs.walk l (front ++ back) = fs.walk l front >>= fun l' => fs.walk l' back := by
  induction front generalizing l with
  | nil => rfl
  | cons part parts ih =>
    rw [List.cons_append, walk, walk]
    split
    · split
      · exact ih l
      · split
        · exact ih _
        · dsimp only
          split
          · exact ih _
          · rfl
    · rfl
    · rfl

/-- `walk_append` for a walk that succeeds. -/
theorem walk_append_eq_ok_iff {front back : List Text} {l l' : Location} :
    fs.walk l (front ++ back) = .ok l' ↔
      ∃ between, fs.walk l front = .ok between ∧ fs.walk between back = .ok l' := by
  rw [walk_append]
  cases fs.walk l front with
  | ok between | error e => simp [bind, Except.bind]

/-- `walk` of one name. -/
theorem walk_name_eq_ok_iff (hname : IsName name) {l' : Location} :
    fs.walk l [name] = .ok l' ↔ fs.get? l = some .directory ∧
      (fs.get? (l ++ [name])).isSome ∧ l' = l ++ [name] := by
  have hdot : ¬(name = [] ∨ name = ['.']) := by
    rintro (h | h)
    · exact hname.ne_nil h
    · exact hname.ne_dot h
  rw [walk]
  split
  · next hget =>
    rw [if_neg hdot, if_neg hname.ne_dots]
    dsimp only
    split
    · next hsome => simp [walk, hget, hsome, eq_comm]
    · next hsome => simp [hsome]
  · next hget => simp [hget]
  · next hget => simp [hget]

/-- `walk` of an empty component stays in the directory. -/
theorem walk_nil_eq_ok_iff {l' : Location} :
    fs.walk l [[]] = .ok l' ↔ fs.get? l = some .directory ∧ l' = l := by
  rw [walk]
  split
  · next hget => simp [walk, hget, eq_comm]
  · next hget => simp [hget]
  · next hget => simp [hget]

/-- The location of the directory `dir`; the empty path is the working directory. -/
def base (fs : FileSystem) (w : Location) (dir : Text) : Except FileError Location :=
  if dir = [] then .ok w else fs.locate w dir

theorem start_join (hname : IsName name) (hdir : dir ≠ []) :
    start w (Path.join dir name) = start w dir := by
  rw [Path.join, hname.not_isAbsolute, if_neg Bool.false_ne_true, start, start]
  split <;> rw [Path.isAbsolute_append hdir]

/-- The `components` of a `join`.  A slash at the end of the directory does not count. -/
theorem components_join (hname : IsName name) (hdir : dir ≠ []) :
    ∃ front, Path.components (Path.join dir name) = front ++ [name] ∧
      (Path.components dir = front ∨ Path.components dir = front ++ [[]]) := by
  have hlast := Path.components_of_not_mem hname.no_slash
  rw [Path.join, hname.not_isAbsolute, if_neg Bool.false_ne_true]
  split
  · next h =>
    obtain ⟨d, rfl⟩ := List.getLast?_eq_some_iff.1 (h.resolve_left hdir)
    refine ⟨Path.components d, ?_, .inr ?_⟩
    · rw [List.append_assoc, List.singleton_append, Path.components_append_slash, hlast]
    · rw [Path.components_append_slash]
      rfl
  · exact ⟨Path.components dir, by rw [Path.components_append_slash, hlast], .inl rfl⟩

theorem join_nil (hname : IsName name) : Path.join [] name = name := by
  rw [Path.join, hname.not_isAbsolute, if_neg Bool.false_ne_true, if_pos (.inl rfl)]
  rfl

theorem join_ne_nil (hname : IsName name) (dir : Text) : Path.join dir name ≠ [] := by
  rw [Path.join]
  split
  · exact hname.ne_nil
  · split <;> simp [hname.ne_nil]

/-- `base` is the walk without the name. -/
theorem base_eq_ok_iff (hdir : dir ≠ []) {front : List Text}
    (hfront : Path.components dir = front ∨ Path.components dir = front ++ [[]]) {l : Location}
    (hl : fs.get? l = some .directory) :
    fs.base w dir = .ok l ↔ fs.walk (start w dir) front = .ok l := by
  rw [base, if_neg hdir, locate, if_neg hdir]
  rcases hfront with h | h
  · rw [h]
  · rw [h, walk_append_eq_ok_iff]
    constructor
    · rintro ⟨between, hwalk, hstay⟩
      obtain ⟨-, rfl⟩ := walk_nil_eq_ok_iff.1 hstay
      exact hwalk
    · intro hwalk
      exact ⟨l, hwalk, walk_nil_eq_ok_iff.2 ⟨hl, rfl⟩⟩

/-- `locate` finds a name in the `base` of its directory. -/
theorem locate_join_iff (hname : IsName name) :
    fs.locate w (Path.join dir name) = .ok l ↔
      ∃ d, fs.base w dir = .ok d ∧ fs.get? d = some .directory ∧
        (fs.get? (d ++ [name])).isSome ∧ l = d ++ [name] := by
  rw [locate, if_neg (join_ne_nil hname dir)]
  by_cases hdir : dir = []
  · subst hdir
    rw [join_nil hname, start, hname.not_isAbsolute, if_neg Bool.false_ne_true,
      Path.components_of_not_mem hname.no_slash, walk_name_eq_ok_iff hname]
    simp [base]
  · obtain ⟨front, hjoin, hfront⟩ := components_join hname hdir
    rw [start_join hname hdir, hjoin, walk_append_eq_ok_iff]
    constructor
    · rintro ⟨d, hwalk, hstep⟩
      obtain ⟨hget, hsome, hl⟩ := (walk_name_eq_ok_iff hname).1 hstep
      exact ⟨d, (base_eq_ok_iff hdir hfront hget).2 hwalk, hget, hsome, hl⟩
    · rintro ⟨d, hbase, hget, hsome, hl⟩
      exact ⟨d, (base_eq_ok_iff hdir hfront hget).1 hbase,
        (walk_name_eq_ok_iff hname).2 ⟨hget, hsome, hl⟩⟩

/-- A `join` with different names leads to different locations. -/
theorem name_eq_of_locate_join {dir' name' : Text} (hname : IsName name) (hname' : IsName name')
    (h : fs.locate w (Path.join dir name) = .ok l)
    (h' : fs.locate w (Path.join dir' name') = .ok l) : name = name' := by
  obtain ⟨d, -, -, -, hl⟩ := (locate_join_iff hname).1 h
  obtain ⟨d', -, -, -, hl'⟩ := (locate_join_iff hname').1 h'
  have hlast : [name] = [name'] := List.append_inj_right' (hl.symm.trans hl') rfl
  exact List.singleton_inj.1 hlast

/-- `locateParent` walks the components in front of the name. -/
theorem walk_of_locateParent {front : List Text} {last : Text}
    (hparts : Path.components path = front ++ [name]) (hname : name ≠ [])
    (h : fs.locateParent w path = .ok (l, last)) :
    last = name ∧ fs.walk (start w path) front = .ok l ∧ fs.get? l = some .directory := by
  -- The last component is a name, so no slashes are left out behind it.
  have hkept : ((front ++ [name]).reverse.dropWhile (· = [])).reverse = front ++ [name] := by
    rw [List.reverse_append, List.reverse_singleton, List.singleton_append,
      List.dropWhile_cons_of_neg (by simpa using hname), List.reverse_cons, List.reverse_reverse]
  rw [locateParent, hparts] at h
  simp only [hkept, List.getLast?_concat, List.dropLast_concat] at h
  cases hwalk : fs.walk (start w path) front with
  | error e => rw [hwalk] at h; cases h
  | ok l' =>
    rw [hwalk] at h
    simp only [bind, Except.bind] at h
    split at h
    · next hget =>
      obtain ⟨rfl, rfl⟩ := Prod.mk.inj (Except.ok.inj h)
      exact ⟨rfl, rfl, hget⟩
    · cases h
    · cases h

/-- `locateParent` of a `join` is the `base` of the directory. -/
theorem base_of_locateParent_join (hname : IsName name) {last : Text}
    (h : fs.locateParent w (Path.join dir name) = .ok (l, last)) :
    last = name ∧ fs.base w dir = .ok l ∧ fs.get? l = some .directory := by
  by_cases hdir : dir = []
  · subst hdir
    rw [join_nil hname] at h
    have hone : Path.components name = [] ++ [name] :=
      Path.components_of_not_mem hname.no_slash
    obtain ⟨hlast, hwalk, hget⟩ := walk_of_locateParent hone hname.ne_nil h
    rw [start, hname.not_isAbsolute, if_neg Bool.false_ne_true] at hwalk
    exact ⟨hlast, hwalk, hget⟩
  · obtain ⟨front, hjoin, hfront⟩ := components_join hname hdir
    obtain ⟨hlast, hwalk, hget⟩ := walk_of_locateParent hjoin hname.ne_nil h
    rw [start_join hname hdir] at hwalk
    exact ⟨hlast, (base_eq_ok_iff hdir hfront hget).2 hwalk, hget⟩

/-! ## What operations leave in place -/

/-- Nothing is taken away, and directories stay directories. -/
structure Grows (fs fs' : FileSystem) : Prop where
  directory : ∀ l, fs.get? l = some .directory → fs'.get? l = some .directory
  isSome : ∀ l, (fs.get? l).isSome → (fs'.get? l).isSome

namespace Grows

theorem refl (fs : FileSystem) : Grows fs fs := ⟨fun _ h => h, fun _ h => h⟩

theorem trans (h : Grows fs fs') (h' : Grows fs' fs'') : Grows fs fs'' :=
  ⟨fun l hl => h'.directory l (h.directory l hl), fun l hl => h'.isSome l (h.isSome l hl)⟩

/-- A `walk` that goes through still goes through. -/
theorem walk (h : Grows fs fs') {parts : List Text} {l' : Location}
    (hwalk : fs.walk l parts = .ok l') : fs'.walk l parts = .ok l' := by
  induction parts generalizing l with
  | nil => exact hwalk
  | cons part parts ih =>
    rw [FileSystem.walk] at hwalk ⊢
    split at hwalk
    · next hget =>
      rw [h.directory l hget]
      dsimp only at hwalk ⊢
      by_cases hdot : part = [] ∨ part = ['.']
      · rw [if_pos hdot] at hwalk ⊢
        exact ih hwalk
      · rw [if_neg hdot] at hwalk ⊢
        by_cases hdots : part = ['.', '.']
        · rw [if_pos hdots] at hwalk ⊢
          exact ih hwalk
        · rw [if_neg hdots] at hwalk ⊢
          by_cases hsome : (fs.get? (l ++ [part])).isSome
          · rw [if_pos hsome] at hwalk
            -- What was there is still there, so the walk goes on.
            rw [if_pos (h.isSome _ hsome)]
            exact ih hwalk
          · rw [if_neg hsome] at hwalk
            cases hwalk
    · cases hwalk
    · cases hwalk

/-- `locate` finds what it found before. -/
theorem locate (h : Grows fs fs') (hlocate : fs.locate w path = .ok l) :
    fs'.locate w path = .ok l := by
  rw [FileSystem.locate] at hlocate ⊢
  split at hlocate
  · cases hlocate
  · next hpath =>
    rw [if_neg hpath]
    exact h.walk hlocate

/-- `base` finds what it found before. -/
theorem base (h : Grows fs fs') (hbase : fs.base w dir = .ok l) : fs'.base w dir = .ok l := by
  rw [FileSystem.base] at hbase ⊢
  split at hbase
  · next hdir => rwa [if_pos hdir]
  · next hdir =>
    rw [if_neg hdir]
    exact h.locate hbase

end Grows

/-- Directories are added where there was nothing, and that is all. -/
def AddsDirectories (fs fs' : FileSystem) : Prop :=
  ∀ l, fs'.get? l = fs.get? l ∨ (fs.get? l = none ∧ fs'.get? l = some .directory)

namespace AddsDirectories

theorem refl (fs : FileSystem) : AddsDirectories fs fs := fun _ => .inl rfl

/-- `AddsDirectories` one after the other. -/
theorem trans (h : AddsDirectories fs fs') (h' : AddsDirectories fs' fs'') :
    AddsDirectories fs fs'' := by
  intro l
  rcases h' l with hl' | ⟨hnone, hnew⟩
  · rw [hl']
    exact h l
  · rcases h l with hl | ⟨-, hl⟩
    · exact .inr ⟨hl ▸ hnone, hnew⟩
    · rw [hl] at hnone
      cases hnone

/-- Where directories are added, nothing is lost. -/
theorem grows (h : AddsDirectories fs fs') : Grows fs fs' := by
  constructor
  · intro l hl
    rcases h l with heq | ⟨-, hnew⟩
    · rw [heq, hl]
    · exact hnew
  · intro l hl
    rcases h l with heq | ⟨-, hnew⟩
    · rw [heq]
      exact hl
    · rw [hnew]
      rfl

theorem file?_eq (h : AddsDirectories fs fs') (l : Location) : fs'.file? l = fs.file? l := by
  rcases h l with heq | ⟨hnone, hnew⟩
  · rw [file?, file?, heq]
  · rw [file?, file?, hnone, hnew]

end AddsDirectories

/-- `createDirectory` adds directories. -/
theorem addsDirectories_createDirectory (h : fs.createDirectory w path = .ok fs') :
    AddsDirectories fs fs' := by
  rw [createDirectory] at h
  cases hparent : fs.locateParent w path with
  | error e => rw [hparent] at h; cases h
  | ok parent =>
    obtain ⟨l, name⟩ := parent
    rw [hparent] at h
    change (if isDot name = true ∨ (fs.get? (l ++ [name])).isSome = true then throw .alreadyExists
      else pure (fs.put (l ++ [name]) .directory) : Except FileError FileSystem) = .ok fs' at h
    split at h
    · cases h
    · next hnew =>
      rw [not_or] at hnew
      rw [← Except.ok.inj h]
      -- Only the new location changes, and nothing was there before.
      intro l'
      rw [get?_put (by simp)]
      split
      · next heq =>
        rw [heq]
        exact .inr ⟨by simpa using hnew.2, rfl⟩
      · exact .inl rfl

/-- `createAll` changes no file, whether or not it succeeds. -/
theorem addsDirectories_createAll (w : Location) (paths : List Text) (fs : FileSystem) :
    AddsDirectories fs (createAll w paths fs).2 := by
  fun_induction createAll w paths fs with
  | case1 fs => exact .refl fs
  | case2 fs paths => exact .refl _
  | case3 fs path around hne fs' hcreate => exact addsDirectories_createDirectory hcreate
  | case4 fs path around hne hcreate fs₁ haround fs₂ hagain ih =>
    rw [haround] at ih
    exact ih.trans (addsDirectories_createDirectory hagain)
  | case5 fs path around hne hcreate fs₁ haround e hagain ih =>
    rw [haround] at ih
    exact ih
  | case6 fs path around hne hcreate hfailed ih => exact ih
  | case7 => exact .refl _

/-- `write` to a `join` puts one file there. -/
theorem exists_of_write_join (hname : IsName name) {content : ByteArray}
    (h : fs.write w (Path.join dir name) content = .ok fs') :
    Grows fs fs' ∧ ∃ l, fs'.locate w (Path.join dir name) = .ok l ∧
      ∀ l', fs'.file? l' = if l' = l then some content else fs.file? l' := by
  rw [write] at h
  cases hparent : fs.locateParent w (Path.join dir name) with
  | error e => rw [hparent] at h; cases h
  | ok parent =>
    obtain ⟨d, last⟩ := parent
    obtain ⟨rfl, hbase, hget⟩ := base_of_locateParent_join hname hparent
    rw [hparent] at h
    change (if isDot last = true ∨ (fs.get? (d ++ [last])).any Entry.isDirectory = true
      then throw .isDirectory
      else if Text.startsWith (Path.join dir last).reverse ['/'] = true then throw .notDirectory
      else pure (fs.put (d ++ [last]) (.file content)) : Except FileError FileSystem) = .ok fs' at h
    split at h
    · cases h
    · next hnot =>
      rw [not_or] at hnot
      split at h
      · cases h
      · rw [← Except.ok.inj h]
        have hput (l' : Location) := get?_put (l := d ++ [last]) (by simp) (.file content) fs l'
        -- A file may be replaced, but no directory is: the target is none.
        have hgrows : Grows fs (fs.put (d ++ [last]) (.file content)) := by
          constructor
          · intro l' hl'
            rw [hput, if_neg]
            · exact hl'
            · rintro rfl
              rw [hl'] at hnot
              exact hnot.2 rfl
          · intro l' hl'
            rw [hput]
            split
            · rfl
            · exact hl'
        refine ⟨hgrows, d ++ [last], ?_, fun l' => ?_⟩
        · rw [locate_join_iff hname]
          refine ⟨d, hgrows.base hbase, hgrows.directory d hget, ?_, rfl⟩
          rw [hput, if_pos rfl]
          rfl
        · rw [file?, hput, file?]
          by_cases heq : l' = d ++ [last]
          · rw [if_pos heq, if_pos heq]
          · rw [if_neg heq, if_neg heq]

/-! ## Listings -/

/-- No location has two entries, and the parts of locations are names. -/
structure WellFormed (fs : FileSystem) : Prop where
  distinct : (fs.entries.map Prod.fst).Nodup
  named : ∀ e ∈ fs.entries, ∀ name ∈ e.1, IsName name

instance : DecidablePred WellFormed := fun fs =>
  decidable_of_iff ((fs.entries.map Prod.fst).Nodup ∧ ∀ e ∈ fs.entries, ∀ name ∈ e.1, IsName name)
    ⟨fun h => ⟨h.1, h.2⟩, fun h => ⟨h.distinct, h.named⟩⟩

/-- The name of a location that lies in a directory. -/
def nameIn? (d l : Location) : Option Text := if l.dropLast = d then l.getLast? else none

/-- `nameIn?` takes the last part off. -/
theorem nameIn?_eq_some_iff {d : Location} : nameIn? d l = some name ↔ l = d ++ [name] := by
  rw [nameIn?]
  constructor
  · intro h
    split at h
    · next hdrop =>
      obtain ⟨front, rfl⟩ := List.getLast?_eq_some_iff.1 h
      rw [List.dropLast_concat] at hdrop
      rw [hdrop]
    · cases h
  · rintro rfl
    rw [List.dropLast_concat, if_pos rfl, List.getLast?_concat]

/-- `list` shows the entries with a name in the directory. -/
theorem exists_of_list {members : List Member} (h : fs.list w path = .ok members) :
    ∃ d, fs.locate w path = .ok d ∧ fs.get? d = some .directory ∧
      members = fs.entries.filterMap fun e => (nameIn? d e.1).map (⟨·, !e.2.isDirectory⟩) := by
  rw [list] at h
  cases hlocate : fs.locate w path with
  | error e => rw [hlocate] at h; cases h
  | ok d =>
    rw [hlocate] at h
    simp only [bind, Except.bind] at h
    split at h
    · next hget =>
      refine ⟨d, rfl, hget, (Except.ok.inj h).symm.trans ?_⟩
      refine List.filterMap_congr fun e _ => ?_
      rw [nameIn?]
      split <;> rfl
    · cases h
    · cases h

/-- `find?` finds an entry whose location is distinct. -/
theorem find?_eq_some_of_mem {entries : List (Location × Entry)} {e : Entry}
    (hdistinct : (entries.map Prod.fst).Nodup) (hmem : (l, e) ∈ entries) :
    entries.find? (·.1 = l) = some (l, e) := by
  induction entries with
  | nil => cases hmem
  | cons a entries ih =>
    rw [List.map_cons, List.nodup_cons] at hdistinct
    rcases List.mem_cons.1 hmem with rfl | hmem
    · simp
    · have hne : a.1 ≠ l := by
        rintro rfl
        exact hdistinct.1 (List.mem_map.2 ⟨_, hmem, rfl⟩)
      rw [List.find?_cons_of_neg (by simpa using hne)]
      exact ih hdistinct.2 hmem

namespace WellFormed

/-- Entries are what `get?` finds. -/
theorem mem_entries_iff (h : fs.WellFormed) (hl : l ≠ []) {e : Entry} :
    (l, e) ∈ fs.entries ↔ fs.get? l = some e := by
  rw [get?, if_neg hl, Option.map_eq_some_iff]
  constructor
  · intro hmem
    exact ⟨(l, e), find?_eq_some_of_mem h.distinct hmem, rfl⟩
  · rintro ⟨⟨l', e'⟩, hfind, rfl⟩
    have hl' : l' = l := by simpa using List.find?_some hfind
    rw [← hl']
    exact List.mem_of_find?_eq_some hfind

variable {members : List Member} {d : Location}

/-- `list` shows what is in the directory. -/
theorem mem_list_iff (h : fs.WellFormed)
    (hmembers : members = fs.entries.filterMap fun e =>
      (nameIn? d e.1).map (⟨·, !e.2.isDirectory⟩)) (member : Member) :
    member ∈ members ↔ ∃ e, fs.get? (d ++ [member.name]) = some e ∧
      member.isFile = !e.isDirectory := by
  rw [hmembers, List.mem_filterMap]
  constructor
  · rintro ⟨⟨l, e⟩, hmem, hmember⟩
    obtain ⟨name, hname, rfl⟩ := Option.map_eq_some_iff.1 hmember
    obtain rfl := nameIn?_eq_some_iff.1 hname
    exact ⟨e, (h.mem_entries_iff (by simp)).1 hmem, rfl⟩
  · rintro ⟨e, hget, hfile⟩
    refine ⟨(d ++ [member.name], e), (h.mem_entries_iff (by simp)).2 hget, ?_⟩
    rw [nameIn?_eq_some_iff.2 rfl, Option.map_some, ← hfile]

/-- `list` shows each name once. -/
theorem nodup_list (h : fs.WellFormed)
    (hmembers : members = fs.entries.filterMap fun e =>
      (nameIn? d e.1).map (⟨·, !e.2.isDirectory⟩)) : (members.map Member.name).Nodup := by
  have hnames : members.map Member.name = (fs.entries.map Prod.fst).filterMap (nameIn? d) := by
    rw [hmembers, List.map_filterMap, List.filterMap_map]
    refine List.filterMap_congr fun e _ => ?_
    rw [Option.map_map]
    exact Option.map_id'
  rw [hnames]
  refine h.distinct.filterMap fun l l' name hl hl' => ?_
  rw [nameIn?_eq_some_iff.1 hl, nameIn?_eq_some_iff.1 hl']

/-- The parts of a location are `IsName`. -/
theorem isName_of_get? (h : fs.WellFormed) {e : Entry} (hget : fs.get? (d ++ [name]) = some e) :
    IsName name :=
  h.named _ ((h.mem_entries_iff (by simp)).2 hget) name (by simp)

end WellFormed

end FileSystem

end TemploTwig
