import TemploTwig.Proofs.Scanning

/-!
# Joining plain runs

Pieces may be written down with plain runs next to each other, or with empty ones.  `Piece.join`
makes the runs maximal, and the text stays the same.  A list of pieces is *loose* for a recogniser
when each token is recognised where it stands and nothing is recognised inside a plain run; the
scan of its text then finds the pieces, joined.

Key results: `Piece.join`, `Piece.exists_of_join_eq`, `Piece.exists_of_plain_mem_join`,
`Recogniser.scan_renderAll_of_loose`.
-/

namespace TemploTwig

namespace Piece

variable {α : Type}

/-- Put adjacent plain runs together and leave empty ones out: the plain runs are maximal. -/
def join : List (Piece α) → List (Piece α)
  | [] => []
  | .plain t :: ps => if t = [] then join ps else prepend t (join ps)
  | .token a :: ps => .token a :: join ps

/-- A plain run in front of joined pieces, unless it is empty. -/
def ahead (t : Text) (ps : List (Piece α)) : List (Piece α) := if t = [] then ps else prepend t ps

/-- `join` at a plain run. -/
theorem join_plain_cons (t : Text) (ps : List (Piece α)) :
    join (.plain t :: ps) = ahead t (join ps) := rfl

/-- `ahead` of no text. -/
@[simp] theorem ahead_nil (ps : List (Piece α)) : ahead [] ps = ps := if_pos rfl

/-- `prepend` and `ahead` put two runs together. -/
theorem prepend_ahead (s t : Text) (ps : List (Piece α)) (hs : s ≠ []) :
    prepend s (ahead t ps) = ahead (s ++ t) ps := by
  have hst : s ++ t ≠ [] := fun h => hs (List.append_eq_nil_iff.1 h).1
  by_cases ht : t = []
  · rw [ahead, if_pos ht, ahead, if_neg hst, ht, List.append_nil]
  · rw [ahead, if_neg ht, ahead, if_neg hst, prepend_prepend]

/-- `ahead` twice is `ahead` once. -/
theorem ahead_ahead (s t : Text) (ps : List (Piece α)) : ahead s (ahead t ps) = ahead (s ++ t) ps := by
  by_cases hs : s = []
  · rw [hs, ahead_nil, List.nil_append]
  · rw [ahead, if_neg hs, prepend_ahead s t ps hs]

/-- No plain run is empty, and no two are adjacent. -/
def Joined : List (Piece α) → Prop
  | [] => True
  | .plain t :: ps => t ≠ [] ∧ ¬StartsPlain ps ∧ Joined ps
  | .token _ :: ps => Joined ps

/-- `Joined` pieces have no empty run. -/
theorem Joined.ne_nil {ps : List (Piece α)} (h : Joined ps) {t : Text} (ht : .plain t ∈ ps) :
    t ≠ [] := by
  induction ps with
  | nil => cases ht
  | cons p ps ih =>
    rcases List.mem_cons.1 ht with rfl | hmem
    · exact h.1
    · cases p with
      | plain u => exact ih h.2.2 hmem
      | token a => exact ih h hmem

/-- `prepend` keeps pieces `Joined`. -/
theorem joined_prepend {t : Text} (ht : t ≠ []) {ps : List (Piece α)} (h : Joined ps) :
    Joined (prepend t ps) := by
  match ps, h with
  | [], _ => exact ⟨ht, not_startsPlain_nil, trivial⟩
  | .plain u :: ps, ⟨_, hstarts, hps⟩ => exact ⟨by simp [ht], hstarts, hps⟩
  | .token a :: ps, h => exact ⟨ht, not_startsPlain_token a ps, h⟩

/-- `join` makes pieces `Joined`. -/
theorem joined_join (ps : List (Piece α)) : Joined (join ps) := by
  induction ps with
  | nil => trivial
  | cons p ps ih =>
    cases p with
    | plain t =>
      rw [join]
      split
      · exact ih
      · next ht => exact joined_prepend ht ih
    | token a => exact ih

/-- `join` keeps the text of the pieces. -/
theorem renderAll_join (f : α → Text) (ps : List (Piece α)) :
    renderAll f (join ps) = renderAll f ps := by
  induction ps with
  | nil => rfl
  | cons p ps ih =>
    cases p with
    | plain t =>
      rw [join]
      split
      · next ht => rw [ih, renderAll_cons, render, ht, List.nil_append]
      · rw [renderAll_prepend, ih, renderAll_cons, render]
    | token a => rw [join, renderAll_cons, ih, renderAll_cons]

/-- `prepend` keeps the tokens. -/
theorem token_mem_prepend {t : Text} {a : α} {ps : List (Piece α)} :
    .token a ∈ prepend t ps ↔ .token a ∈ ps := by
  match ps with
  | [] => simp [prepend]
  | .plain u :: ps => simp [prepend]
  | .token b :: ps => simp [prepend]

/-- `join` keeps the tokens. -/
theorem token_mem_join {a : α} {ps : List (Piece α)} : .token a ∈ join ps ↔ .token a ∈ ps := by
  induction ps with
  | nil => rfl
  | cons p ps ih =>
    cases p with
    | plain t =>
      rw [join]
      split
      · simp [ih]
      · simp [token_mem_prepend, ih]
    | token b => simp [join, ih]

/-- `join` after `prepend`, with pieces behind. -/
theorem join_prepend_append {t : Text} (ht : t ≠ []) (ps qs : List (Piece α)) :
    join (prepend t ps ++ qs) = prepend t (join (ps ++ qs)) := by
  match ps with
  | [] => exact if_neg ht
  | .token a :: ps => exact if_neg ht
  | .plain u :: ps =>
    rw [prepend, List.cons_append, List.cons_append, join, if_neg (by simp [ht]), join]
    split
    · next hu => rw [hu, List.append_nil]
    · rw [prepend_prepend]

/-- `join` after `prepend`. -/
theorem join_prepend {t : Text} (ht : t ≠ []) (ps : List (Piece α)) :
    join (prepend t ps) = prepend t (join ps) := by
  have hjoin := join_prepend_append ht ps []
  rwa [List.append_nil, List.append_nil] at hjoin

/-- `prepend` reaches no further than the first token. -/
theorem prepend_append_token (t : Text) (ps : List (Piece α)) (a : α) (qs : List (Piece α)) :
    prepend t (ps ++ .token a :: qs) = prepend t ps ++ .token a :: qs := by
  match ps with
  | [] => rfl
  | .plain u :: ps => rfl
  | .token b :: ps => rfl

/-- `join` may be applied behind the first pieces before. -/
theorem join_append_join (ps qs : List (Piece α)) : join (ps ++ join qs) = join (ps ++ qs) := by
  induction ps with
  | nil =>
    induction qs with
    | nil => rfl
    | cons q qs ih =>
      rw [List.nil_append] at ih ⊢
      cases q with
      | plain t =>
        rw [List.nil_append, join]
        split
        · exact ih
        · next ht => rw [join_prepend ht]; exact congrArg (prepend t) ih
      | token a => exact congrArg (.token a :: ·) ih
  | cons p ps ih =>
    cases p with
    | plain t => rw [List.cons_append, List.cons_append, join, join, ih]
    | token a => exact congrArg (.token a :: ·) ih

/-- `join` works on both sides of a token by itself. -/
theorem join_append_token (ps : List (Piece α)) (a : α) (qs : List (Piece α)) :
    join (ps ++ .token a :: qs) = join ps ++ .token a :: join qs := by
  induction ps with
  | nil => rfl
  | cons p ps ih =>
    cases p with
    | plain t =>
      rw [List.cons_append, join, join, ih]
      split
      · rfl
      · exact prepend_append_token t (join ps) a (join qs)
    | token b => exact congrArg (.token b :: ·) ih

/-- A token behind a run that `prepend` puts in front was there before. -/
theorem exists_of_prepend_eq {t : Text} {rs ps : List (Piece α)} {a : α} {qs : List (Piece α)}
    (h : prepend t rs = ps ++ .token a :: qs) :
    ∃ ps', rs = ps' ++ .token a :: qs ∧ ps = prepend t ps' := by
  match rs, ps, h with
  | [], [], h => cases h
  | [], p :: ps, h =>
    exact absurd (List.cons.inj h).2.symm (by simp)
  | .plain u :: rs, [], h => cases h
  | .plain u :: rs, p :: ps, h =>
    obtain ⟨rfl, rfl⟩ := List.cons.inj h
    exact ⟨.plain u :: ps, rfl, rfl⟩
  | .token b :: rs, [], h => cases h
  | .token b :: rs, p :: ps, h =>
    obtain ⟨rfl, hrest⟩ := List.cons.inj h
    match ps, hrest with
    | [], hrest => exact ⟨[], hrest, rfl⟩
    | q :: ps, hrest =>
      obtain ⟨rfl, rfl⟩ := List.cons.inj hrest
      exact ⟨.token b :: ps, rfl, rfl⟩

/-- A token in a `join` is one of the pieces, and splits them where it stands. -/
theorem exists_of_join_eq {rs ps : List (Piece α)} {a : α} {qs : List (Piece α)}
    (h : join rs = ps ++ .token a :: qs) :
    ∃ front back, rs = front ++ .token a :: back ∧ join front = ps := by
  induction rs generalizing ps with
  | nil => exact absurd h.symm (by simp [join])
  | cons r rs ih =>
    cases r with
    -- A plain run may vanish or join the next one, but no token moves.
    | plain t =>
      rw [join] at h
      split at h
      · next ht =>
        obtain ⟨front, back, rfl, rfl⟩ := ih h
        exact ⟨.plain t :: front, back, rfl, if_pos ht⟩
      · next ht =>
        obtain ⟨ps', hrs, rfl⟩ := exists_of_prepend_eq h
        obtain ⟨front, back, rfl, rfl⟩ := ih hrs
        exact ⟨.plain t :: front, back, rfl, if_neg ht⟩
    | token b =>
      cases ps with
      | nil =>
        obtain ⟨hb, -⟩ := List.cons.inj h
        exact ⟨[], rs, congrArg (· :: rs) hb, rfl⟩
      | cons p ps =>
        obtain ⟨rfl, hrest⟩ := List.cons.inj h
        obtain ⟨front, back, rfl, rfl⟩ := ih hrest
        exact ⟨.token b :: front, back, rfl, rfl⟩

/-- `join` keeps what a `scan` finds. -/
theorem join_scan (R : Recogniser α) (t : Text) : join (R.scan t) = R.scan t := by
  fun_induction Recogniser.scan R t with
  | case1 => rfl
  | case2 c cs a rest h ih => rw [join, ih]
  | case3 c cs h ih => rw [join_prepend (by simp), ih]

/-- `renderAll` of runs only. -/
theorem renderAll_map_plain (f : α → Text) (ts : List Text) :
    renderAll f (ts.map .plain) = ts.flatten := by
  induction ts with
  | nil => rfl
  | cons t ts ih =>
    rw [List.map_cons, renderAll_cons, ih]
    rfl

/-- The first run of a `join` is made of the runs in front. -/
theorem exists_of_join_eq_plain {ps qs : List (Piece α)} {t : Text}
    (h : join ps = .plain t :: qs) :
    ∃ (ts : List Text) (back : List (Piece α)), ps = ts.map .plain ++ back ∧ ts.flatten = t := by
  induction ps generalizing t qs with
  | nil => cases h
  | cons p ps ih =>
    cases p with
    | token a => cases h
    | plain u =>
      rw [join] at h
      split at h
      · next hu =>
        obtain ⟨ts, back, rfl, rfl⟩ := ih h
        exact ⟨u :: ts, back, rfl, by rw [List.flatten_cons, hu, List.nil_append]⟩
      · cases hjoin : join ps with
        | nil =>
          rw [hjoin] at h
          obtain ⟨heq, -⟩ := List.cons.inj h
          exact ⟨[u], ps, rfl, by rw [← Piece.plain.inj heq]; simp⟩
        | cons q rest =>
          rw [hjoin] at h
          cases q with
          | token a =>
            obtain ⟨heq, -⟩ := List.cons.inj h
            exact ⟨[u], ps, rfl, by rw [← Piece.plain.inj heq]; simp⟩
          | plain v =>
            obtain ⟨ts, back, rfl, rfl⟩ := ih hjoin
            obtain ⟨heq, -⟩ := List.cons.inj h
            exact ⟨u :: ts, back, rfl, Piece.plain.inj heq⟩

/-- A run of a `join` is made of runs that stand next to each other. -/
theorem exists_of_plain_mem_join {ps : List (Piece α)} {t : Text} (h : .plain t ∈ join ps) :
    ∃ (front : List (Piece α)) (ts : List Text) (back : List (Piece α)),
      ps = front ++ ts.map .plain ++ back ∧ ts.flatten = t := by
  induction ps with
  | nil => cases h
  | cons p ps ih =>
    have hlater (hmem : .plain t ∈ join ps) :
        ∃ (front : List (Piece α)) (ts : List Text) (back : List (Piece α)),
          p :: ps = front ++ ts.map .plain ++ back ∧ ts.flatten = t := by
      obtain ⟨front, ts, back, hps, hts⟩ := ih hmem
      exact ⟨p :: front, ts, back, by rw [hps]; rfl, hts⟩
    cases p with
    | token a =>
      rcases List.mem_cons.1 h with heq | hmem
      · cases heq
      · exact hlater hmem
    | plain u =>
      cases hjoin : join (.plain u :: ps) with
      | nil => rw [hjoin] at h; cases h
      | cons q rest =>
        rw [hjoin] at h
        rcases List.mem_cons.1 h with rfl | hmem
        · obtain ⟨ts, back, hps, hts⟩ := exists_of_join_eq_plain hjoin
          exact ⟨[], ts, back, hps, hts⟩
        · -- All but the first joined piece come from what follows.
          apply hlater
          rw [join] at hjoin
          split at hjoin
          · rw [hjoin]; exact List.mem_cons_of_mem q hmem
          · match hps : join ps with
            | [] => rw [hps] at hjoin; rw [← (List.cons.inj hjoin).2] at hmem; cases hmem
            | .token a :: rs =>
              rw [hps] at hjoin
              rw [← (List.cons.inj hjoin).2] at hmem
              exact hmem
            | .plain v :: rs =>
              rw [hps] at hjoin
              rw [← (List.cons.inj hjoin).2] at hmem
              exact List.mem_cons_of_mem _ hmem

end Piece

namespace Recogniser

variable {α : Type} {R : Recogniser α} {f : α → Text} {ps : List (Piece α)}

/-- Each token is recognised where it stands, and nothing is recognised inside a plain run.  Plain
    runs may be empty, and they may stand next to each other. -/
def Loose (R : Recogniser α) (f : α → Text) : List (Piece α) → Prop
  | [] => True
  | .plain t :: ps => R.Declines t (Piece.renderAll f ps) ∧ R.Loose f ps
  | .token a :: ps =>
    R.next? (f a ++ Piece.renderAll f ps) = some (a, Piece.renderAll f ps) ∧ R.Loose f ps

/-- `Recogniser.scan` finds `Loose` pieces again, joined. -/
theorem scan_renderAll_of_loose (h : R.Loose f ps) :
    R.scan (Piece.renderAll f ps) = Piece.join ps := by
  induction ps with
  | nil => exact scan_nil R
  | cons p ps ih =>
    cases p with
    | plain t =>
      obtain ⟨hp, hps⟩ := h
      rw [Piece.renderAll_cons, Piece.render, Piece.join]
      split
      · next ht => rw [ht, List.nil_append, ih hps]
      · next ht => rw [scan_append_of_declines hp ht, ih hps]
    | token a =>
      obtain ⟨hp, hps⟩ := h
      rw [Piece.renderAll_cons, Piece.render, scan_of_next? hp, Piece.join, ih hps]

end Recogniser

end TemploTwig
