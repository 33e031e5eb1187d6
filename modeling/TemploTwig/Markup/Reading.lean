import TemploTwig.Markup.Event

/-!
# Reading a whole text

Each event takes something off the text, so reading comes to an end: at the end of the text, or
at a construct that cannot be read.
-/

namespace TemploTwig

namespace Event

theorem closeSubset?_eq_append {t content rest : Text}
    (h : closeSubset? t = some (content, rest)) : t = content ++ '>' :: rest := by
  fun_induction closeSubset? t generalizing content rest with
  | case1 => simp at h
  | case2 cs =>
    simp only [Option.map_eq_some_iff, Prod.exists, Prod.mk.injEq] at h
    obtain ⟨b, r, hcut, rfl, rfl⟩ := h
    simpa using Text.cut?_eq_append hcut
  | case3 cs declaration r hdecl _ ih =>
    simp only [Option.map_eq_some_iff, Prod.exists, Prod.mk.injEq] at h
    obtain ⟨b, r', hclose, rfl, rfl⟩ := h
    rw [takeDeclaration?_eq_append hdecl, ih hclose]
    simp
  | case4 => simp at h
  | case5 c cs _ _ ih =>
    simp only [Option.map_eq_some_iff, Prod.exists, Prod.mk.injEq] at h
    obtain ⟨b, r, hclose, rfl, rfl⟩ := h
    simp [ih hclose]

theorem closeDoctype?_eq_append {quote : Option Char} {t content rest : Text}
    (h : closeDoctype? quote t = some (content, rest)) : t = content ++ '>' :: rest := by
  fun_induction closeDoctype? quote t generalizing content rest with
  | case1 => simp at h
  | case2 quote c cs hc =>
    simp only [Option.some.injEq, Prod.mk.injEq] at h
    obtain ⟨rfl, rfl⟩ := h
    simp [hc.2]
  | case3 quote c cs _ hc =>
    simp only [Option.map_eq_some_iff, Prod.exists, Prod.mk.injEq] at h
    obtain ⟨b, r, hclose, rfl, rfl⟩ := h
    simp [closeSubset?_eq_append hclose]
  | case4 quote c cs _ _ ih =>
    simp only [Option.map_eq_some_iff, Prod.exists, Prod.mk.injEq] at h
    obtain ⟨b, r, hclose, rfl, rfl⟩ := h
    simp [ih hclose]

private theorem length_lt_of_eq_append {t before rest : Text} (after : Text)
    (h : t = before ++ after ++ rest) (hpos : 0 < after.length) : rest.length < t.length := by
  rw [h]
  simp only [List.length_append]
  omega

private theorem length_lt_of_takeDoctype? {t rest : Text} {e : Event}
    (h : takeDoctype? t = some (e, rest)) : rest.length < t.length := by
  simp only [takeDoctype?, Option.bind_eq_some_iff, Prod.exists] at h
  obtain ⟨content, r, hclose, hif⟩ := h
  have heq := closeDoctype?_eq_append hclose
  have hrest : r = rest := by
    split at hif
    · split at hif
      · simp at hif
      · simp only [Option.some.injEq, Prod.mk.injEq] at hif
        exact hif.2
    · simp at hif
  subst hrest
  exact length_lt_of_eq_append ['>'] (by simpa using heq) (by simp)

private theorem length_lt_of_takeBang? {t rest : Text} {e : Event}
    (h : takeBang? t = some (e, rest)) : rest.length < t.length := by
  unfold takeBang? at h
  split at h
  · exact length_lt_of_takeDoctype? h
  · exact length_lt_of_takeDoctype? h
  · next body =>
    simp only [Option.map_eq_some_iff, Prod.exists, Prod.mk.injEq] at h
    obtain ⟨b, r, hcut, -, rfl⟩ := h
    have := length_lt_of_eq_append _ (Text.cut?_eq_append hcut) (by decide)
    simp only [List.length_cons]
    omega
  · simp only [Option.bind_eq_some_iff, Option.map_eq_some_iff, Prod.exists, Prod.mk.injEq] at h
    obtain ⟨body, hstrip, b, r, hcut, -, rfl⟩ := h
    have := length_lt_of_eq_append _ (Text.cut?_eq_append hcut) (by decide)
    rw [Text.stripStart?_eq_some_iff.1 hstrip, List.length_append]
    omega

private theorem length_lt_of_takeInstruction? {t rest : Text} {e : Event}
    (h : takeInstruction? t = some (e, rest)) : rest.length < t.length := by
  simp only [takeInstruction?, Option.bind_eq_some_iff, Prod.exists] at h
  obtain ⟨b, r, hcut, hmatch⟩ := h
  have hlen := length_lt_of_eq_append _ (Text.cut?_eq_append hcut) (by decide)
  split at hmatch
  · simp_all
  · simp at hmatch

private theorem length_lt_of_closeTag? {quote : Option Char} {t content rest : Text}
    (h : closeTag? quote t = some (content, rest)) : rest.length < t.length :=
  length_lt_of_eq_append ['>'] (by simpa using closeTag?_eq_append h) (by simp)

private theorem length_lt_of_takeMarkup? {t rest : Text} {e : Event}
    (h : takeMarkup? t = some (e, rest)) : rest.length < t.length := by
  cases t with
  | nil => simp [takeMarkup?] at h
  | cons c cs =>
    simp only [takeMarkup?] at h
    split at h
    · have := length_lt_of_takeBang? h
      simp only [List.length_cons]
      omega
    · split at h
      · exact length_lt_of_takeInstruction? h
      · split at h
        · simp only [Option.map_eq_some_iff, Prod.exists, Prod.mk.injEq] at h
          obtain ⟨b, r, hclose, -, rfl⟩ := h
          have := length_lt_of_closeTag? hclose
          simp only [List.length_cons]
          omega
        · simp only [Option.map_eq_some_iff, Prod.exists, Prod.mk.injEq] at h
          obtain ⟨b, r, hclose, -, rfl⟩ := h
          exact length_lt_of_closeTag? hclose

private theorem length_lt_of_takeReference? {t rest : Text} {e : Event}
    (h : takeReference? t = some (e, rest)) : rest.length < t.length := by
  simp only [takeReference?] at h
  split at h
  · next r heq =>
    simp only [Option.some.injEq, Prod.mk.injEq] at h
    obtain ⟨-, rfl⟩ := h
    have := (List.dropWhile_suffix (l := t) fun c => c != ';' && c != '<' && c != '&').length_le
    rw [heq, List.length_cons] at this
    omega
  · simp at h

/-- What is left behind an event is shorter than the text. -/
theorem length_lt_of_take? {t rest : Text} {e : Event} (h : take? t = some (e, rest)) :
    rest.length < t.length := by
  cases t with
  | nil => simp [take?] at h
  | cons c cs =>
    simp only [take?] at h
    split at h
    · have := length_lt_of_takeMarkup? h
      simp only [List.length_cons]
      omega
    · split at h
      · have := length_lt_of_takeReference? h
        simp only [List.length_cons]
        omega
      · simp only [Option.some.injEq, Prod.mk.injEq] at h
        obtain ⟨-, rfl⟩ := h
        have := (List.dropWhile_suffix (l := cs) isTextChar).length_le
        simp only [List.length_cons]
        omega

end Event

/-- The events of a text, up to its end or to a construct that cannot be read. -/
structure Reading where
  events : List Event
  /-- Did reading stop before the end of the text? -/
  broken : Bool
  deriving DecidableEq, Repr

namespace Reading

/-- Put an event in front. -/
def cons (e : Event) (r : Reading) : Reading := { r with events := e :: r.events }

/-- Read a text. -/
def ofText : Text → Reading
  | [] => ⟨[], false⟩
  | c :: cs =>
    match _h : Event.take? (c :: cs) with
    | some (e, rest) => cons e (ofText rest)
    -- What was read before the break is kept: the root may have been closed in it.
    | none => ⟨[], true⟩
termination_by t => t.length
decreasing_by exact Event.length_lt_of_take? _h

end Reading

end TemploTwig
