import TemploTwig.Proofs.Running
import TemploTwig.Proofs.Joining
import TemploTwig.Proofs.Template.Expression

/-!
# Where a text is cut into parts

A text is cut in front of the words that start a new part, and each part is scanned for spans on
its own.  When no delimiter closes a span in front of such a word, the cuts fall between the
pieces of the text: the parts have the same pieces, in the same order, as the text itself.
-/

namespace TemploTwig

namespace Partition

/-- The words that start a new part behind two colons. -/
def words : List Text := ["foreach".toList, "if".toList, "set".toList]

/-- The text begins with one of the words that start a new part. -/
def BeginsPart (t : Text) : Prop :=
  ∃ word ∈ words, ∃ rest, t = word ++ rest ∧ atWordEnd rest = true

theorem starters_eq_map : starters = words.map (Span.delimiter ++ ·) := by decide

theorem colon_not_mem_of_mem_words {word : Text} (h : word ∈ words) : ':' ∉ word := by
  revert word
  decide

theorem ne_nil_of_mem_words {word : Text} (h : word ∈ words) : word ≠ [] := by
  revert word
  decide

/-- No part starts where the text does not begin with two colons and one of the words. -/
theorem takeStarter?_eq_none_iff {t : Text} :
    takeStarter? t = none ↔ ∀ r, t = Span.delimiter ++ r → ¬BeginsPart r := by
  rw [takeStarter?, starters_eq_map, List.findSome?_eq_none_iff]
  constructor
  · rintro h r rfl ⟨word, hword, rest, rfl, hend⟩
    have hnone := h (Span.delimiter ++ word) (List.mem_map_of_mem hword)
    rw [← List.append_assoc, Text.stripStart?_append, Option.bind_some, if_pos hend] at hnone
    cases hnone
  · intro h s hs
    obtain ⟨word, hword, rfl⟩ := List.mem_map.1 hs
    cases hstrip : Text.stripStart? (Span.delimiter ++ word) t with
    | none => rfl
    | some rest =>
      have ht := Text.stripStart?_eq_some_iff.1 hstrip
      rw [List.append_assoc] at ht
      rw [Option.bind_some, if_neg]
      exact fun hend => h _ ht ⟨word, hword, rest, rfl, hend⟩

instance : DecidablePred BeginsPart := fun t =>
  decidable_of_iff ((takeStarter? (Span.delimiter ++ t)).isSome = true) (by
    rw [← Option.ne_none_iff_isSome, ne_eq, takeStarter?_eq_none_iff]
    constructor
    · intro h
      apply Classical.byContradiction
      intro hbegins
      apply h
      intro r hr
      rwa [← List.append_cancel_left hr]
    · intro hbegins h
      exact h t rfl hbegins)

theorem not_beginsPart_nil : ¬BeginsPart [] := by
  rintro ⟨word, hword, rest, h, -⟩
  exact ne_nil_of_mem_words hword (List.append_eq_nil_iff.1 h.symm).1

theorem not_beginsPart_colon (t : Text) : ¬BeginsPart (':' :: t) := by
  rintro ⟨word, hword, rest, h, -⟩
  cases word with
  | nil => exact ne_nil_of_mem_words hword rfl
  | cons c word =>
    obtain ⟨rfl, -⟩ := List.cons.inj h
    exact colon_not_mem_of_mem_words hword List.mem_cons_self

/-- The text does not continue a delimiter: it begins no part, and a colon at its front is the
    first of a delimiter. -/
structure StandsOff (after : Text) : Prop where
  not_begins : ¬BeginsPart after
  colons : ∀ r, after = ':' :: r → ∃ r', r = ':' :: r'

/-- No part starts inside a span. -/
theorem declines_clearBody {b after : Text} (hb : Span.IsClearBody b) (h : StandsOff after) :
    starter.Declines (':' :: b ++ Span.delimiter) after := by
  intro front back hsplit hne
  show takeStarter? (back ++ after) = none
  rw [takeStarter?_eq_none_iff]
  intro r hr hbegins
  match back, hne with
  | [c], _ =>
    -- The last colon: what follows would have to begin with one colon and a word.
    obtain ⟨-, hafter⟩ := List.cons.inj hr
    obtain ⟨r', rfl⟩ := h.colons _ hafter
    exact not_beginsPart_colon r' hbegins
  | c :: d :: back, _ =>
    simp only [Span.delimiter, List.cons_append, List.nil_append, List.cons.injEq] at hr
    obtain ⟨rfl, rfl, htail⟩ := hr
    rcases List.eq_nil_or_concat back with rfl | ⟨init, last, rfl⟩
    · exact h.not_begins (by rw [List.nil_append] at htail; rwa [htail])
    · -- Two colons before the closing delimiter: the body is not clear.
      rw [List.concat_eq_append] at hsplit
      have hinit : ':' :: b ++ [':'] = front ++ ':' :: ':' :: init := by
        have hdrop := congrArg List.dropLast hsplit
        rw [show ':' :: b ++ Span.delimiter = (':' :: b ++ [':']) ++ [':'] by
            simp [Span.delimiter],
          show front ++ ':' :: ':' :: (init ++ [last]) = (front ++ ':' :: ':' :: init) ++ [last] by
            simp, List.dropLast_concat, List.dropLast_concat] at hdrop
        exact hdrop
      have hinfix : Span.delimiter <:+: ':' :: (b ++ [':']) :=
        ⟨front, init, by rw [← List.cons_append, hinit]; simp [Span.delimiter]⟩
      rcases List.infix_cons_iff.1 hinfix with ⟨s, hs⟩ | hb'
      · obtain ⟨-, hs⟩ := List.cons.inj hs
        cases b with
        | nil => cases hb.not_blank
        | cons e b =>
          obtain ⟨rfl, -⟩ := List.cons.inj hs
          exact hb.head_ne rfl
      · exact hb.closed_last hb'

/-- A part that starts in front of a span starts with it. -/
theorem takeStarter?_ofBody {b after s rest : Text}
    (h : takeStarter? (Span.ofBody b ++ after) = some (s, rest)) :
    ∃ front tail, s = Span.delimiter ++ front ∧ b = front ++ tail ∧
      rest = tail ++ Span.delimiter ++ after := by
  obtain ⟨hmem, htext⟩ := takeStarter?_eq_append h
  rw [starters_eq_map] at hmem
  obtain ⟨word, hword, rfl⟩ := List.mem_map.1 hmem
  rw [Span.ofBody, List.append_assoc, List.append_assoc, List.append_assoc,
    List.append_cancel_left_eq, List.append_eq_append_iff] at htext
  rcases htext with ⟨extra, rfl, htext⟩ | ⟨tail, rfl, rfl⟩
  · -- The word would reach into the closing delimiter, but it has no colon.
    cases extra with
    | nil => exact ⟨b, [], by simp, by simp, by simpa using htext.symm⟩
    | cons c extra =>
      obtain ⟨rfl, -⟩ := List.cons.inj htext
      exact absurd (List.mem_append_right b List.mem_cons_self) (colon_not_mem_of_mem_words hword)
  · exact ⟨word, tail, rfl, rfl, (List.append_assoc ..).symm⟩

/-- `gather` goes on with plain text. -/
theorem gather_prepend (current t : Text) (ps : List (Piece Text)) :
    gather current (Piece.prepend t ps) = gather (current ++ t) ps := by
  cases ps with
  | nil => rfl
  | cons p ps =>
    cases p with
    | plain u => simp only [Piece.prepend, gather, List.append_assoc]
    | token s => rfl

/-- No part starts in a run in which no delimiter begins. -/
theorem declines_of_noPair {run after : Text} (h : Text.NoPair ':' run after) :
    starter.Declines run after := by
  intro front back hrun hne
  show takeStarter? (back ++ after) = none
  rw [takeStarter?_eq_none_iff]
  intro r hr
  exact absurd ⟨r, hr.symm⟩ (h.not_prefix hrun hne)

/-! ## Pieces that no part cuts in two -/

/-- Nothing opens a span or starts a part inside a plain run, spans have clear bodies, and what
    follows a span keeps off its delimiter.  Plain runs may stand next to each other. -/
def Uncut : List (Piece Text) → Prop
  | [] => True
  | .plain t :: ps => Text.NoPair ':' t (Piece.renderAll id ps) ∧ Uncut ps
  | .token span :: ps =>
    (∃ b, span = Span.ofBody b ∧ Span.IsClearBody b) ∧ StandsOff (Piece.renderAll id ps) ∧ Uncut ps

namespace Uncut

variable {ps qs : List (Piece Text)}

theorem of_append_right (h : Uncut (ps ++ qs)) : Uncut qs := by
  induction ps with
  | nil => exact h
  | cons p ps ih =>
    cases p with
    | plain t => exact ih h.2
    | token span => exact ih h.2.2

/-- The first pieces are found when the text ends behind them. -/
theorem loose_left (h : Uncut (ps ++ qs)) : Span.recogniser.Loose id ps := by
  induction ps with
  | nil => trivial
  | cons p ps ih =>
    cases p with
    | plain t =>
      obtain ⟨hopens, hps⟩ := h
      refine ⟨Span.declines_of_noPair ⟨hopens.within, fun hlast hhead => ?_⟩, ih hps⟩
      -- What follows begins as it did in the longer text.
      apply hopens.border hlast
      show (Piece.renderAll id (ps ++ qs)).head? = some ':'
      rw [Piece.renderAll_append, List.head?_append, hhead]
      rfl
    | token span =>
      obtain ⟨⟨b, rfl, hb⟩, -, hps⟩ := h
      exact ⟨Span.take?_ofBody hb.toIsBody _, ih hps⟩

end Uncut

/-- The parts behind what the current part holds have the pieces that are still to come. -/
theorem flatMap_scan_gather {cs ps : List (Piece Text)} (h : Uncut (cs ++ ps)) :
    (gather (Piece.renderAll id cs) (starter.scan (Piece.renderAll id ps))).flatMap Span.scan =
      Piece.join (cs ++ ps) := by
  -- By induction on what is to come, for every content of the current part.
  induction ps generalizing cs with
  | nil =>
    rw [List.append_nil, Piece.renderAll_nil, Recogniser.scan_nil, gather, List.flatMap_singleton]
    exact Recogniser.scan_renderAll_of_loose h.loose_left
  | cons p ps ih =>
    -- The piece joins the current part, and the induction goes on with the longer part.
    have hnext : (gather (Piece.renderAll id cs ++ p.render id)
        (starter.scan (Piece.renderAll id ps))).flatMap Span.scan = Piece.join (cs ++ p :: ps) := by
      have huncut : Uncut ((cs ++ [p]) ++ ps) := by simpa using h
      have hgather := ih huncut
      rw [Piece.renderAll_append, Piece.renderAll_cons, Piece.renderAll_nil, List.append_nil,
        List.append_assoc] at hgather
      exact hgather
    have hp := h.of_append_right
    cases p with
    | plain t =>
      rw [Piece.renderAll_cons, Piece.render]
      by_cases hne : t = []
      · subst hne
        simpa [Piece.render] using hnext
      · rw [Recogniser.scan_append_of_declines (declines_of_noPair hp.1) hne, gather_prepend]
        exact hnext
    | token span =>
      obtain ⟨⟨b, rfl, hb⟩, hstands, -⟩ := hp
      have hdecl := declines_clearBody hb hstands
      rw [Piece.renderAll_cons]
      show (gather _ (starter.scan (Span.ofBody b ++ _))).flatMap _ = _
      cases hstart : takeStarter? (Span.ofBody b ++ Piece.renderAll id ps) with
      | none =>
        have hspan : starter.Declines (Span.ofBody b) (Piece.renderAll id ps) :=
          Recogniser.declines_cons_iff.2 ⟨hstart, hdecl⟩
        rw [Recogniser.scan_append_of_declines hspan (by simp [Span.ofBody, Span.delimiter]),
          gather_prepend]
        exact hnext
      | some found =>
        obtain ⟨s, rest⟩ := found
        obtain ⟨front, tail, rfl, rfl, rfl⟩ := takeStarter?_ofBody hstart
        -- A part starts with the span, and no other starts before the span ends.
        have hscan : starter.scan (Span.ofBody (front ++ tail) ++ Piece.renderAll id ps) = _ :=
          Recogniser.scan_of_some hstart
        have htail : starter.Declines (tail ++ Span.delimiter) (Piece.renderAll id ps) := by
          rw [← List.cons_append, List.append_assoc] at hdecl
          exact hdecl.of_append_left
        rw [Recogniser.scan_append_of_declines htail (by simp [Span.delimiter])] at hscan
        have hspan : Span.delimiter ++ front ++ (tail ++ Span.delimiter) =
            Span.ofBody (front ++ tail) := by simp [Span.ofBody]
        -- The span starts a part of its own, unless the current part is still empty.
        have hpart : (gather (Piece.renderAll id [.token (Span.ofBody (front ++ tail))])
            (starter.scan (Piece.renderAll id ps))).flatMap Span.scan =
            .token (Span.ofBody (front ++ tail)) :: Piece.join ps := ih h.of_append_right
        rw [Piece.renderAll_cons, Piece.renderAll_nil, List.append_nil] at hpart
        have hcurrent : Span.scan (Piece.renderAll id cs) = Piece.join cs :=
          Recogniser.scan_renderAll_of_loose h.loose_left
        rw [hscan, gather, gather_prepend, hspan, Piece.join_append_token]
        by_cases hnil : Piece.renderAll id cs = []
        · have hjoin : Piece.join cs = [] := by
            rw [← hcurrent, hnil]
            exact Recogniser.scan_nil _
          rw [if_pos hnil, hjoin]
          exact hpart
        · rw [if_neg hnil, List.flatMap_cons, hcurrent]
          exact congrArg (Piece.join cs ++ ·) hpart

/-- Pieces that a text with them keeps apart: plain runs are not empty, not adjacent and without
    colons, spans have clear bodies, and no plain run behind a span begins a part. -/
def Laid : (afterSpan : Bool) → List (Piece Text) → Prop
  | _, [] => True
  | afterSpan, .plain t :: ps =>
    t ≠ [] ∧ ':' ∉ t ∧ (afterSpan = true → ¬BeginsPart t) ∧ ¬Piece.StartsPlain ps ∧ Laid false ps
  | _, .token span :: ps => (∃ b, span = Span.ofBody b ∧ Span.IsClearBody b) ∧ Laid true ps

namespace Laid

variable {afterSpan : Bool} {ps : List (Piece Text)}

/-- `Laid` pieces stand off. -/
theorem standsOff (h : Laid true ps) : StandsOff (Piece.renderAll id ps) := by
  match ps, h with
  | [], _ => exact ⟨not_beginsPart_nil, fun r hr => (by cases hr)⟩
  | .token span :: ps, ⟨⟨b, hspan, _⟩, _⟩ =>
    rw [hspan]
    exact ⟨not_beginsPart_colon _, fun r hr => ⟨_, (List.cons.inj hr).2.symm⟩⟩
  | .plain t :: ps, ⟨hne, hcolon, hbegins, hstarts, hps⟩ =>
    rw [Piece.renderAll_cons, Piece.render]
    constructor
    · rintro ⟨word, hword, rest, htext, hend⟩
      apply hbegins rfl
      rcases List.append_eq_append_iff.1 htext with ⟨extra, rfl, hrest⟩ | ⟨tail, rfl, rfl⟩
      · -- The word would reach into the next piece, which is a span.
        cases extra with
        | nil => exact ⟨t, by simpa using hword, [], by simp, rfl⟩
        | cons c extra =>
          match ps, hps with
          | [], _ => cases hrest
          | .plain u :: ps, _ => exact absurd ⟨u, ps, rfl⟩ hstarts
          | .token span :: ps, ⟨⟨b, hspan, _⟩, _⟩ =>
            rw [hspan] at hrest
            obtain ⟨rfl, -⟩ := List.cons.inj hrest
            exact absurd (List.mem_append_right t List.mem_cons_self)
              (colon_not_mem_of_mem_words hword)
      · refine ⟨word, hword, tail, rfl, ?_⟩
        cases tail with
        | nil => rfl
        | cons c tail => exact hend
    · intro r hr
      cases t with
      | nil => exact absurd rfl hne
      | cons c t =>
        obtain ⟨rfl, -⟩ := List.cons.inj hr
        exact absurd List.mem_cons_self hcolon

/-- The runs of such pieces are maximal. -/
theorem join_eq (h : Laid afterSpan ps) : Piece.join ps = ps := by
  induction ps generalizing afterSpan with
  | nil => rfl
  | cons p ps ih =>
    cases p with
    | plain t =>
      obtain ⟨hne, -, -, hstarts, hps⟩ := h
      rw [Piece.join, if_neg hne, ih hps, Piece.prepend_of_not_startsPlain hstarts]
    | token span => rw [Piece.join, ih h.2]

theorem uncut (h : Laid afterSpan ps) : Uncut ps := by
  induction ps generalizing afterSpan with
  | nil => trivial
  | cons p ps ih =>
    cases p with
    | plain t =>
      obtain ⟨-, hcolon, -, -, hps⟩ := h
      exact ⟨Text.noPair_of_not_mem hcolon _, ih hps⟩
    | token span => exact ⟨h.1, h.2.standsOff, ih h.2⟩

end Laid

end Partition

/-- The pieces of a text are those of its parts, where no part cuts one in two. -/
theorem conversionPieces_of_uncut {ps : List (Piece Text)} (h : Partition.Uncut ps) :
    conversionPieces (Piece.renderAll id ps) = Piece.join ps := by
  rw [← List.nil_append ps] at h
  exact Partition.flatMap_scan_gather h

/-- The pieces of a text are those of its parts. -/
theorem conversionPieces_renderAll {ps : List (Piece Text)} (h : Partition.Laid false ps) :
    conversionPieces (Piece.renderAll id ps) = ps := by
  rw [conversionPieces_of_uncut h.uncut, h.join_eq]

end TemploTwig
