import TemploTwig.Text.Scan

/-!
# What a scan finds

A list of pieces is *settled* for a recogniser when scanning the text that it spells finds the
same pieces again: each token is recognised where it stands, nothing is recognised inside a plain
run, and plain runs are not empty and not adjacent.

Key results: `Recogniser.scan_renderAll`, `Recogniser.settled_scan`,
`Recogniser.scan_append_of_declines`, `Recogniser.scan_between`.
-/

namespace TemploTwig

namespace Piece

variable {α : Type}

/-- `prepend` twice is `prepend` once. -/
theorem prepend_prepend (s t : Text) (ps : List (Piece α)) :
    prepend s (prepend t ps) = prepend (s ++ t) ps := by
  cases ps with
  | nil => rfl
  | cons p ps =>
    cases p with
    | plain u => simp only [prepend, List.append_assoc]
    | token a => rfl

/-- The list starts with a plain run. -/
def StartsPlain (ps : List (Piece α)) : Prop := ∃ t qs, ps = .plain t :: qs

/-- `prepend` adds a run where none stands in front. -/
theorem prepend_of_not_startsPlain {ps : List (Piece α)} (h : ¬StartsPlain ps) (t : Text) :
    prepend t ps = .plain t :: ps := by
  cases ps with
  | nil => rfl
  | cons p ps =>
    cases p with
    | plain u => exact absurd ⟨u, ps, rfl⟩ h
    | token a => rfl

/-- No list `StartsPlain` that is empty. -/
@[simp] theorem not_startsPlain_nil : ¬StartsPlain ([] : List (Piece α)) := by
  rintro ⟨t, qs, h⟩
  cases h

/-- No list `StartsPlain` that begins with a token. -/
@[simp] theorem not_startsPlain_token (a : α) (ps : List (Piece α)) :
    ¬StartsPlain (.token a :: ps) := by
  rintro ⟨t, qs, h⟩
  cases h

/-- `renderAll` goes over appended lists. -/
theorem renderAll_append (f : α → Text) (ps qs : List (Piece α)) :
    renderAll f (ps ++ qs) = renderAll f ps ++ renderAll f qs := by
  simp only [renderAll, List.flatMap_append]

/-- The plain run that a text is, unless it is empty. -/
def ofText : Text → List (Piece α)
  | [] => []
  | c :: cs => [.plain (c :: cs)]

/-- `render` of a piece stands in `renderAll` of the list. -/
theorem render_infix_renderAll {f : α → Text} {p : Piece α} {ps : List (Piece α)} (h : p ∈ ps) :
    p.render f <:+: renderAll f ps := by
  obtain ⟨front, back, rfl⟩ := List.append_of_mem h
  rw [renderAll_append, renderAll_cons]
  exact ⟨renderAll f front, renderAll f back, List.append_assoc ..⟩

end Piece

namespace Recogniser

variable {α : Type} {R : Recogniser α} {f : α → Text} {ps : List (Piece α)}

/-- Nothing is recognised at any character of `t`, when `after` follows it. -/
def Declines (R : Recogniser α) (t after : Text) : Prop :=
  ∀ front back, t = front ++ back → back ≠ [] → R.next? (back ++ after) = none

/-- Nothing is recognised in no text. -/
theorem declines_nil (R : Recogniser α) (after : Text) : R.Declines [] after := by
  intro front back h hne
  exact absurd (List.append_eq_nil_iff.1 h.symm).2 hne

/-- `Declines` goes character by character. -/
theorem declines_cons_iff {c : Char} {cs after : Text} :
    R.Declines (c :: cs) after ↔ R.next? (c :: cs ++ after) = none ∧ R.Declines cs after := by
  constructor
  · intro h
    refine ⟨h [] (c :: cs) rfl (by simp), ?_⟩
    intro front back hcs hne
    exact h (c :: front) back (by rw [hcs]; rfl) hne
  · rintro ⟨hfirst, hrest⟩ front back h hne
    cases front with
    | nil =>
      obtain rfl : c :: cs = back := h
      exact hfirst
    | cons d front =>
      simp only [List.cons_append, List.cons.injEq] at h
      exact hrest front back h.2 hne

instance decidableDeclines (R : Recogniser α) : (t after : Text) → Decidable (R.Declines t after)
  | [], after => isTrue (declines_nil R after)
  | c :: cs, after =>
    have := decidableDeclines R cs after
    decidable_of_iff ((R.next? (c :: cs ++ after)).isNone = true ∧ R.Declines cs after) (by
      rw [declines_cons_iff, Option.isNone_iff_eq_none])

/-- `Declines` holds of the rest of a run. -/
theorem Declines.of_append_left {s t after : Text}
    (h : R.Declines (s ++ t) after) : R.Declines t after := by
  intro front back ht hne
  exact h (s ++ front) back (by rw [ht, List.append_assoc]) hne

/-- `scan` puts a run that `Declines` in front of what it finds behind it. -/
theorem scan_append_of_declines {t after : Text} (h : R.Declines t after)
    (hne : t ≠ []) : R.scan (t ++ after) = Piece.prepend t (R.scan after) := by
  induction t with
  | nil => exact absurd rfl hne
  | cons c cs ih =>
    obtain ⟨hfirst, hrest⟩ := declines_cons_iff.1 h
    rw [List.cons_append] at hfirst ⊢
    rw [scan_of_none hfirst]
    by_cases hcs : cs = []
    · subst hcs; rfl
    · rw [ih hrest hcs, Piece.prepend_prepend]; rfl

/-- `scan` begins with a token that `next?` finds in front. -/
theorem scan_of_next? {t rest : Text} {a : α} (h : R.next? t = some (a, rest)) :
    R.scan t = .token a :: R.scan rest := by
  -- A token takes something off the text, so the text is not empty.
  cases t with
  | nil => exact absurd (R.shrinks h) (Nat.not_lt_zero _)
  | cons c cs => exact scan_of_some h

/-- `scan` makes one plain run of a text that `Declines`. -/
theorem scan_of_declines {t : Text} (h : R.Declines t []) :
    R.scan t = Piece.ofText t := by
  cases t with
  | nil => exact R.scan_nil
  | cons c cs =>
    have hscan := scan_append_of_declines h (List.cons_ne_nil c cs)
    rw [List.append_nil, scan_nil] at hscan
    exact hscan

/-- `scan` finds only the token between two texts that `Declines`. -/
theorem scan_between {before text after : Text} {a : α}
    (hbefore : R.Declines before (text ++ after)) (hafter : R.Declines after [])
    (hnext : R.next? (text ++ after) = some (a, after)) :
    R.scan (before ++ text ++ after) = Piece.ofText before ++ .token a :: Piece.ofText after := by
  have htoken : R.scan (text ++ after) = .token a :: Piece.ofText after := by
    rw [scan_of_next? hnext, scan_of_declines hafter]
  rw [List.append_assoc]
  cases before with
  | nil => exact htoken
  | cons c cs =>
    rw [scan_append_of_declines hbefore (List.cons_ne_nil c cs), htoken]
    rfl

/-- The pieces that scanning their own text finds again, each token spelled by `f`. -/
def Settled (R : Recogniser α) (f : α → Text) : List (Piece α) → Prop
  | [] => True
  | .plain t :: ps =>
    t ≠ [] ∧ R.Declines t (Piece.renderAll f ps) ∧ ¬Piece.StartsPlain ps ∧ R.Settled f ps
  | .token a :: ps =>
    R.next? (f a ++ Piece.renderAll f ps) = some (a, Piece.renderAll f ps) ∧ R.Settled f ps

/-- `Settled` at a plain run. -/
theorem settled_plain_cons_iff {t : Text} :
    R.Settled f (.plain t :: ps) ↔ t ≠ [] ∧ R.Declines t (Piece.renderAll f ps) ∧
      ¬Piece.StartsPlain ps ∧ R.Settled f ps := Iff.rfl

/-- `Settled` at a token. -/
theorem settled_token_cons_iff {a : α} :
    R.Settled f (.token a :: ps) ↔
      R.next? (f a ++ Piece.renderAll f ps) = some (a, Piece.renderAll f ps) ∧ R.Settled f ps :=
  Iff.rfl

/-- `next?` finds each token of `Settled` pieces where it stands. -/
theorem Settled.exists_next?_of_mem (h : R.Settled f ps) {a : α} (ha : .token a ∈ ps) :
    ∃ rest, R.next? (f a ++ rest) = some (a, rest) := by
  induction ps with
  | nil => cases ha
  | cons p ps ih =>
    cases p with
    | plain t =>
      obtain ⟨-, -, -, hps⟩ := h
      exact ih hps (by simpa using ha)
    | token b =>
      obtain ⟨hb, hps⟩ := h
      rcases List.mem_cons.1 ha with heq | ha
      · obtain rfl := Piece.token.inj heq
        exact ⟨_, hb⟩
      · exact ih hps ha

/-- `scan` gives `Settled` pieces back. -/
theorem scan_renderAll (h : R.Settled f ps) : R.scan (Piece.renderAll f ps) = ps := by
  induction ps with
  | nil => exact R.scan_nil
  | cons p ps ih =>
    cases p with
    | plain t =>
      obtain ⟨hne, hdecl, hstart, hps⟩ := h
      rw [Piece.renderAll_cons, Piece.render, scan_append_of_declines hdecl hne, ih hps,
        Piece.prepend_of_not_startsPlain hstart]
    | token a =>
      obtain ⟨hnext, hps⟩ := h
      rw [Piece.renderAll_cons, Piece.render, scan_of_next? hnext, ih hps]

/-- `scan` gives `Settled` pieces, if `next?` takes off what `f` spells. -/
theorem settled_scan (R : Recogniser α) (f : α → Text)
    (spells : ∀ {t a rest}, R.next? t = some (a, rest) → t = f a ++ rest) (t : Text) :
    R.Settled f (R.scan t) := by
  fun_induction scan R t with
  | case1 => trivial
  | case2 c cs a rest h ih =>
    have hrest := renderAll_scan R f spells rest
    exact ⟨by rw [hrest, ← spells h]; exact h, ih⟩
  | case3 c cs h ih =>
    -- Nothing is recognised at `c`, so `c` goes in front of what is found behind it.
    have hcs := renderAll_scan R f spells cs
    cases hscan : R.scan cs with
    | nil =>
      obtain rfl : cs = [] := by rw [← hcs, hscan]; rfl
      exact ⟨by simp, declines_cons_iff.2 ⟨h, declines_nil R _⟩, by simp, trivial⟩
    | cons p ps =>
      rw [hscan] at ih hcs
      cases p with
      | token a =>
        refine ⟨by simp, declines_cons_iff.2 ⟨?_, declines_nil R _⟩, by simp, ih⟩
        rw [hcs]; exact h
      | plain u =>
        obtain ⟨hne, hdecl, hstart, hps⟩ := ih
        refine ⟨by simp, declines_cons_iff.2 ⟨?_, hdecl⟩, hstart, hps⟩
        rw [Piece.renderAll_cons, Piece.render] at hcs
        show R.next? (c :: (u ++ Piece.renderAll f ps)) = none
        rw [hcs]; exact h

end Recogniser

end TemploTwig
