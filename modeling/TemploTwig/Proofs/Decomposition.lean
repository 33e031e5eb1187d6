import TemploTwig.Proofs.Lossless

/-!
# The spans of a text are determined

A scan takes the leftmost span, and of the spans that start there the shortest.  This leaves one
decomposition of a text: plain runs are neither empty nor adjacent, the other pieces are spans, and
no span of the text starts inside a plain run.
-/

namespace TemploTwig

/-! ## Settled pieces, one by one -/

namespace Recogniser

variable {α : Type} {R : Recogniser α} {f : α → Text}

/-- A scan that starts at the piece finds it, when the pieces `back` follow. -/
def Fits (R : Recogniser α) (f : α → Text) (p : Piece α) (back : List (Piece α)) : Prop :=
  match p with
  | .plain t => t ≠ [] ∧ R.Declines t (Piece.renderAll f back) ∧ ¬Piece.StartsPlain back
  | .token a => R.next? (f a ++ Piece.renderAll f back) = some (a, Piece.renderAll f back)

/-- `Settled` pieces are those that `Fits`, one by one. -/
theorem settled_cons_iff {p : Piece α} {ps : List (Piece α)} :
    R.Settled f (p :: ps) ↔ R.Fits f p ps ∧ R.Settled f ps := by
  cases p with
  | plain t => simp only [settled_plain_cons_iff, Fits, and_assoc]
  | token a => simp only [settled_token_cons_iff, Fits]

/-- `Settled` pieces each `Fits` in front of those behind it. -/
theorem settled_iff_forall_split {ps : List (Piece α)} :
    R.Settled f ps ↔ ∀ front p back, ps = front ++ p :: back → R.Fits f p back := by
  constructor
  · intro h front p back hps
    have hdrop := h.drop front.length
    rw [hps, List.drop_left] at hdrop
    exact (settled_cons_iff.1 hdrop).1
  · intro h
    induction ps with
    | nil => trivial
    | cons p ps ih =>
      refine settled_cons_iff.2 ⟨h [] p ps rfl, ih fun front q back hps => ?_⟩
      exact h (p :: front) q back (by rw [hps]; rfl)

end Recogniser

namespace Span

/-! ## Where a span starts -/

/-- A span: two delimiters around a body that is not blank and stays on one line.  The first
    delimiter behind the opening one is the one that closes it. -/
def IsSpan (s : Text) : Prop :=
  ∃ b : Text, s = ofBody b ∧ b.isBlankText = false ∧ '\n' ∉ b ∧
    Text.cut? delimiter (b ++ delimiter) = some (b, [])

/-- A `delimiter` in front of another one ends at its first colon at the latest. -/
theorem delimiter_prefix_append_iff {s : Text} (hne : s ≠ []) (rest : Text) :
    delimiter <+: s ++ delimiter ++ rest ↔ delimiter <+: s ++ [':'] := by
  cases s with
  | nil => exact absurd rfl hne
  | cons c s =>
    cases s with
    | nil | cons d s => simp [delimiter, List.cons_prefix_cons]

/-- `cut?` finds the last `delimiter` if none begins earlier. -/
theorem cut?_append_delimiter_iff {b : Text} :
    Text.cut? delimiter (b ++ delimiter) = some (b, []) ↔ ¬delimiter <:+: b ++ [':'] := by
  constructor
  · rintro h ⟨front, after, hsplit⟩
    -- The two colons begin inside the body, since only one more colon follows it.
    obtain ⟨back, rfl⟩ : front <+: b := by
      have hlength := congrArg List.length hsplit
      simp only [delimiter, List.length_append, List.length_cons, List.length_nil] at hlength
      have hfront : front <+: b ++ [':'] := by
        rw [← hsplit, List.append_assoc]
        exact List.prefix_append ..
      exact List.prefix_of_prefix_length_le hfront (List.prefix_append b [':']) (by omega)
    have hback : delimiter ++ after = back ++ [':'] := by
      rw [List.append_assoc, List.append_assoc] at hsplit
      exact List.append_cancel_left hsplit
    have hne : back ≠ [] := by
      rintro rfl
      exact absurd (congrArg List.length hback) (by simp [delimiter])
    exact Text.not_prefix_of_cut? h hne ((delimiter_prefix_append_iff hne []).2 ⟨after, hback⟩)
  · intro h
    have hcut : Text.cut? delimiter (b ++ delimiter ++ []) = some (b, []) := by
      apply Text.cut?_append
      intro front back hb hne hprefix
      obtain ⟨after, hafter⟩ := (delimiter_prefix_append_iff hne []).1 hprefix
      exact h ⟨front, after, by rw [hb, List.append_assoc, List.append_assoc, hafter]⟩
    rwa [List.append_nil] at hcut

/-- `IsSpan` in terms of `IsBody`. -/
theorem isSpan_iff {s : Text} : IsSpan s ↔ ∃ b, IsBody b ∧ s = ofBody b := by
  constructor
  · rintro ⟨b, hs, hblank, hline, hcut⟩
    exact ⟨b, ⟨hblank, hline, cut?_append_delimiter_iff.1 hcut⟩, hs⟩
  · rintro ⟨b, hb, hs⟩
    exact ⟨b, hs, hb.not_blank, hb.one_line, cut?_append_delimiter_iff.2 hb.closed_last⟩

/-- A span starts behind the first `n` characters of the text. -/
def StartsAt (t : Text) (n : Nat) : Prop := ∃ s, IsSpan s ∧ s <+: t.drop n

/-- `take?` finds no span where none `StartsAt`. -/
theorem take?_drop_eq_none_iff {t : Text} {n : Nat} :
    take? (t.drop n) = none ↔ ¬StartsAt t n := by
  constructor
  · rintro h ⟨s, hs, rest, hrest⟩
    obtain ⟨b, hb, rfl⟩ := isSpan_iff.1 hs
    rw [← hrest, take?_ofBody hb] at h
    cases h
  · intro h
    cases htake : take? (t.drop n) with
    | none => rfl
    | some found =>
      obtain ⟨s, rest⟩ := found
      have hspan : IsSpan s := isSpan_iff.2 (exists_isBody_of_take? htake)
      exact absurd ⟨s, hspan, rest, (take?_eq_append htake).symm⟩ h

/-! ## Decompositions -/

/-- The pieces are spans of the text and the plain runs between them, with every span at its
    place. -/
structure Decomposes (t : Text) (ps : List (Piece Text)) : Prop where
  renderAll_eq : Piece.renderAll id ps = t
  plain_ne_nil : ∀ u, .plain u ∈ ps → u ≠ []
  not_adjacent : ∀ front u v back, ps ≠ front ++ .plain u :: .plain v :: back
  isSpan : ∀ s, .token s ∈ ps → IsSpan s
  not_startsAt : ∀ front u back, ps = front ++ .plain u :: back → ∀ i < u.length,
    ¬StartsAt t ((Piece.renderAll id front).length + i)

/-- What follows a place inside a plain run. -/
theorem drop_renderAll_plain (front : List (Piece Text)) (u : Text) (back : List (Piece Text))
    {i : Nat} (hi : i ≤ u.length) :
    (Piece.renderAll id (front ++ .plain u :: back)).drop
      ((Piece.renderAll id front).length + i) = u.drop i ++ Piece.renderAll id back := by
  rw [Piece.renderAll_append, Piece.renderAll_cons, Piece.render, List.drop_length_add_append,
    List.drop_append_of_le_length hi]

/-- `Decomposes` holds of the pieces that are `Settled`. -/
theorem decomposes_iff_settled {t : Text} {ps : List (Piece Text)} :
    Decomposes t ps ↔ Piece.renderAll id ps = t ∧ recogniser.Settled id ps := by
  rw [Recogniser.settled_iff_forall_split]
  constructor
  · intro h
    refine ⟨h.renderAll_eq, fun front p back hps => ?_⟩
    have hmem : p ∈ ps := by rw [hps]; simp
    cases p with
    | token s =>
      obtain ⟨b, hb, rfl⟩ := isSpan_iff.1 (h.isSpan s hmem)
      exact take?_ofBody hb _
    | plain u =>
      refine ⟨h.plain_ne_nil u hmem, ?_, ?_⟩
      · rintro first rest rfl hne
        have hi : first.length < (first ++ rest).length := by
          have := List.length_pos_iff.2 hne
          rw [List.length_append]
          omega
        have hnone := take?_drop_eq_none_iff.2 (h.not_startsAt front _ back hps _ hi)
        rw [← h.renderAll_eq, hps, drop_renderAll_plain front _ back hi.le, List.drop_left] at hnone
        exact hnone
      · rintro ⟨v, qs, rfl⟩
        exact h.not_adjacent front u v qs hps
  · rintro ⟨hrender, hfits⟩
    constructor
    · exact hrender
    · intro u hu
      obtain ⟨front, back, hps⟩ := List.append_of_mem hu
      exact (hfits front _ back hps).1
    · intro front u v back hps
      exact (hfits front _ _ hps).2.2 ⟨v, back, rfl⟩
    · intro s hs
      obtain ⟨front, back, hps⟩ := List.append_of_mem hs
      have hnext : take? (s ++ Piece.renderAll id back) = _ := hfits front _ back hps
      exact isSpan_iff.2 (exists_isBody_of_take? hnext)
    · intro front u back hps i hi
      -- The rest of the run is declined, and it stands where the span would start.
      have hdeclines := (hfits front _ back hps).2.1 (u.take i) (u.drop i)
        (List.take_append_drop i u).symm (by simpa using hi)
      rw [← take?_drop_eq_none_iff, ← hrender, hps, drop_renderAll_plain front u back hi.le]
      exact hdeclines

/-- A run that `Declines` does so too when what follows it is cut off. -/
theorem declines_of_declines {u after : Text} (h : recogniser.Declines u after) :
    recogniser.Declines u [] := by
  rintro front back hu hne
  show take? (back ++ []) = none
  rw [List.append_nil]
  cases htake : take? back with
  | none => rfl
  | some found =>
    have hnone : take? (back ++ after) = none := h front back hu hne
    rw [take?_append_of_some htake] at hnone
    cases hnone

/-- Each piece of a `scan` is `Settled` by itself. -/
theorem settled_singleton_of_mem_scan {t : Text} {p : Piece Text} (h : p ∈ scan t) :
    recogniser.Settled id [p] := by
  have hsettled := recogniser.settled_scan id take?_eq_append t
  obtain ⟨front, back, hps⟩ := List.append_of_mem h
  have hfits := Recogniser.settled_iff_forall_split.1 hsettled front p back hps
  refine Recogniser.settled_cons_iff.2 ⟨?_, trivial⟩
  cases p with
  | plain u => exact ⟨hfits.1, declines_of_declines hfits.2.1, Piece.not_startsPlain_nil⟩
  | token s => exact take?_span_append hfits []

/-- The scan of a text is its one decomposition into spans and plain runs: a list of pieces makes
    up the text, with no plain run empty or beside another one, with spans for the other pieces and
    with no span of the text that starts inside a plain run, exactly if it is the scan.  Each piece
    is the scan of its own text. -/
theorem scan_determined (t : Text) :
    (∀ ps, Decomposes t ps ↔ ps = scan t) ∧ ∀ p ∈ scan t, scan (p.render id) = [p] := by
  constructor
  · intro ps
    rw [decomposes_iff_settled]
    constructor
    · rintro ⟨rfl, hsettled⟩
      exact (Recogniser.scan_renderAll hsettled).symm
    · rintro rfl
      exact ⟨recogniser.renderAll_scan id take?_eq_append t,
        recogniser.settled_scan id take?_eq_append t⟩
  · intro p hp
    have hscan := Recogniser.scan_renderAll (settled_singleton_of_mem_scan hp)
    rwa [Piece.renderAll_cons, Piece.renderAll_nil, List.append_nil] at hscan

/-- A blank body, three colons in a row behind a body, and two that nothing closes. -/
theorem scan_determined_colons :
    let t := ":: ::a:::b::".toList
    let ps := [.plain ":: ".toList, .token "::a::".toList, .plain ":b::".toList]
    Decomposes t ps ∧ .plain ":b::".toList ∈ scan t ∧
      scan ":b::".toList = [.plain ":b::".toList] := by
  intro t ps
  have hps : ps = scan t := by decide +kernel
  have hmem : .plain ":b::".toList ∈ scan t := by decide +kernel
  exact ⟨((scan_determined t).1 ps).2 hps, hmem, (scan_determined t).2 _ hmem⟩

end Span

end TemploTwig
