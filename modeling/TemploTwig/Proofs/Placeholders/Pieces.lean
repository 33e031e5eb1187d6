import Mathlib.Data.List.Chain
import Mathlib.Data.List.Forall2
import TemploTwig.Proofs.Placeholders.Seams
import TemploTwig.Proofs.Running
import TemploTwig.Proofs.SpanBody

/-!
# What the pieces of a text turn into

A text is converted piece by piece, and the outputs are put together.  A token may turn into
nothing, and then its neighbours meet.  In a seamless text no mark comes of this.
-/

namespace TemploTwig

open Text

namespace Piece

variable {α : Type} {f : α → Text} {marks : List Text} {opens closes : List Char}
  {ps : List (Piece α)} {outs : List Text}

/-- What a piece may turn into.  A plain run may have parts replaced and must be free of marks
    then; a token becomes text with harmless borders, or nothing if it is a bounded part. -/
def Turns (f : α → Text) (marks : List Text) (opens closes : List Char) : Piece α → Text → Prop
  | .plain t, out =>
    Free marks out ∧ Substitutes (fun _ new => Substitutes.IsBordered marks new) t out
  | .token a, out => Substitutes.IsBordered marks out ∨ out = [] ∧ Bounded opens closes (f a)

/-- Two pieces that may follow each other: a plain run behind a plain run begins with a colon. -/
def Parted : Piece α → Piece α → Prop
  | .plain _, .plain t => ∃ cs, t = ':' :: cs
  | _, _ => True

/-- The outputs are the text with some tokens left out and other parts replaced. -/
theorem exists_shortens_of_turns (h : List.Forall₂ (Turns f marks opens closes) ps outs) :
    ∃ v, Shortens opens closes (renderAll f ps) v ∧
      Substitutes (fun _ new => Substitutes.IsBordered marks new) v outs.flatten := by
  induction h with
  | nil => exact ⟨[], .refl, .nil⟩
  | @cons p out ps outs hp _ ih =>
    obtain ⟨v, hv, hsub⟩ := ih
    have hkeep : Shortens opens closes (renderAll f (p :: ps)) (p.render f ++ v) := by
      simpa using hv.between (p.render f) []
    rw [List.flatten_cons]
    cases p with
    | plain t => exact ⟨t ++ v, hkeep, hp.2.append hsub⟩
    | token a =>
      rcases hp with hout | ⟨rfl, hd⟩
      · exact ⟨f a ++ v, hkeep, (Substitutes.single hout).append hsub⟩
      · exact ⟨v, (Shortens.skip [] (renderAll f ps) hd).trans hv, hsub⟩

/-- Replacements between harmless borders leave a text firm that begins with a character of no
    mark. -/
theorem firm_of_substitutes {c : Char} {cs out : Text} (hc : Bars marks c)
    (h : Substitutes (fun _ new => Substitutes.IsBordered marks new) (c :: cs) out) (after : Text) :
    Firm marks (out ++ after) := by
  generalize ht : c :: cs = t at h
  cases h with
  | nil => cases ht
  | keep d _ =>
    obtain ⟨rfl, -⟩ := List.cons.inj ht
    exact firm_cons hc _
  | swap hnew _ =>
    obtain ⟨d, ds, rfl, hd⟩ := hnew.head
    exact firm_cons hd _

/-- No mark lies across the border behind a plain run. -/
theorem not_across_plain (hcolon : Bars marks ':') {t out : Text}
    (hout : Substitutes (fun _ new => Substitutes.IsBordered marks new) t out)
    (hseam : Seamless marks opens closes (t ++ renderAll f ps))
    (hchain : (.plain t :: ps).IsChain Parted)
    (h : List.Forall₂ (Turns f marks opens closes) ps outs) : ¬Across marks out outs.flatten := by
  cases h with
  | nil => exact firm_nil.not_across out
  | @cons q o ps outs hq hrest =>
    cases q with
    | plain u =>
      obtain ⟨cs, rfl⟩ := hchain.rel
      exact (firm_of_substitutes hcolon hq.2 _).not_across out
    | token a =>
      rcases hq with ho | ⟨rfl, hd⟩
      · obtain ⟨c, cs, rfl, hc⟩ := ho.head
        exact (firm_cons hc _).not_across out
      · -- The token is left out, so the run meets what is left of the text behind it.
        obtain ⟨v, hv, hsub⟩ := exists_shortens_of_turns hrest
        have hshort : Shortens opens closes (t ++ renderAll f (.token a :: ps)) (t ++ f a ++ v) := by
          simpa [render] using hv.between (t ++ f a) []
        rintro ⟨m, hm, front, back, heq, hfront, hback, hsuffix, hbegin⟩
        refine hseam t (f a) v hshort hd ⟨m, hm, front, back, heq, hfront, hback, ?_, ?_⟩
        · refine hout.suffix_of_last ?_ hsuffix
          intro old new hnew
          obtain ⟨cs, c, hlast, hc⟩ := hnew.last
          exact ⟨cs, c, hlast, fun hmem => hc m hm (heq ▸ List.mem_append_left back hmem)⟩
        · refine hsub.prefix_of_avoids (Substitutes.avoids_of_head ?_) hbegin
          intro old new hnew
          obtain ⟨c, cs, hhead, hc⟩ := hnew.head
          exact ⟨c, cs, hhead, fun hmem => hc m hm (heq ▸ List.mem_append_right front hmem)⟩

/-- The outputs of the pieces of a seamless text hold no mark. -/
theorem free_flatten (hnil : [] ∉ marks) (hcolon : Bars marks ':')
    (hseam : Seamless marks opens closes (renderAll f ps)) (hchain : ps.IsChain Parted)
    (h : List.Forall₂ (Turns f marks opens closes) ps outs) : Free marks outs.flatten := by
  induction h with
  | nil => exact free_nil hnil
  | @cons p out ps outs hp hrest ih =>
    have hfree := ih (hseam.of_within (List.suffix_append _ _).isInfix) hchain.tail
    rw [List.flatten_cons]
    cases p with
    | plain t => exact free_append hp.1 hfree (not_across_plain hcolon hp.2 hseam hchain hrest)
    | token a =>
      rcases hp with hout | ⟨rfl, -⟩
      · obtain ⟨cs, c, rfl, hc⟩ := hout.last
        exact free_append hout.free hfree (not_across_of_last hc cs _)
      · exact hfree

end Piece

/-! ## Where plain runs meet -/

/-- In what a scan finds no two plain runs meet. -/
theorem Recogniser.Settled.isChain {α : Type} {R : Recogniser α} {f : α → Text}
    {ps : List (Piece α)} (h : R.Settled f ps) : ps.IsChain Piece.Parted := by
  induction ps with
  | nil => exact .nil
  | cons p ps ih =>
    cases p with
    | plain t =>
      obtain ⟨-, -, hstart, hps⟩ := h
      cases ps with
      | nil => exact .singleton _
      | cons q ps =>
        cases q with
        | plain u => exact absurd ⟨u, ps, rfl⟩ hstart
        | token a => exact .cons_cons trivial (ih hps)
    | token a =>
      obtain ⟨-, hps⟩ := h
      cases ps with
      | nil => exact .singleton _
      | cons q ps => exact .cons_cons trivial (ih hps)

/-- The first part begins with what the current part holds, every other part with a colon. -/
theorem Partition.exists_gather_eq_cons {ps : List (Piece Text)}
    (hps : ∀ s, .token s ∈ ps → ∃ cs, s = ':' :: cs) (current : Text) :
    ∃ more parts, gather current ps = (current ++ more) :: parts ∧
      ∀ part ∈ parts, ∃ cs, part = ':' :: cs := by
  induction ps generalizing current with
  | nil => exact ⟨[], [], by rw [gather, List.append_nil], by simp⟩
  | cons p ps ih =>
    have hrest (s : Text) (hs : .token s ∈ ps) := hps s (List.mem_cons_of_mem p hs)
    cases p with
    | plain t =>
      obtain ⟨more, parts, heq, hparts⟩ := ih hrest (current ++ t)
      exact ⟨t ++ more, parts, by rw [gather, heq, List.append_assoc], hparts⟩
    -- A start begins a new part, unless nothing stands in front of it.
    | token s =>
      obtain ⟨more, parts, heq, hparts⟩ := ih hrest s
      rw [gather]
      split
      · next hnil => exact ⟨s ++ more, parts, by rw [heq, hnil, List.nil_append], hparts⟩
      · refine ⟨[], gather s ps, by rw [List.append_nil], ?_⟩
        intro part hpart
        rw [heq] at hpart
        rcases List.mem_cons.1 hpart with rfl | hpart
        · obtain ⟨cs, rfl⟩ := hps s List.mem_cons_self
          exact ⟨cs ++ more, rfl⟩
        · exact hparts part hpart

theorem Span.settled_scan (t : Text) : recogniser.Settled id (scan t) :=
  Recogniser.settled_scan _ _ (fun h => take?_eq_append h) t

/-- Where the first piece of a text is a plain run, the run begins with what the text begins with. -/
theorem Span.exists_cons_of_scan_eq {c : Char} {t u : Text} {ps : List (Piece Text)}
    (h : scan (c :: t) = .plain u :: ps) : ∃ cs, u = c :: cs := by
  have hsettled := settled_scan (c :: t)
  have hrender := Recogniser.renderAll_scan recogniser id (fun h => take?_eq_append h) (c :: t)
  rw [scan] at h hsettled
  rw [h] at hsettled hrender
  obtain ⟨d, cs, rfl⟩ := List.exists_cons_of_ne_nil hsettled.1
  obtain ⟨rfl, -⟩ := List.cons.inj hrender
  exact ⟨cs, rfl⟩

/-- Where two plain runs of a text meet, the second one begins with a colon. -/
theorem isChain_conversionPieces (t : Text) : (conversionPieces t).IsChain Piece.Parted := by
  have hflat (parts : List Text) (hparts : ∀ part ∈ parts.tail, ∃ cs, part = ':' :: cs) :
      (parts.flatMap Span.scan).IsChain Piece.Parted := by
    induction parts with
    | nil => exact .nil
    | cons part parts ih =>
      rw [List.flatMap_cons, List.isChain_append]
      refine ⟨(Span.settled_scan part).isChain, ih ?_, ?_⟩
      · exact fun q hq => hparts q (List.mem_of_mem_tail hq)
      · intro p hp q hq
        cases parts with
        | nil => cases hq
        | cons next parts =>
          -- The next part begins with a colon, and so does its first piece.
          obtain ⟨cs, rfl⟩ := hparts next List.mem_cons_self
          rw [List.flatMap_cons] at hq
          cases hscan : Span.scan (':' :: cs) with
          | nil =>
            have hrender := Recogniser.renderAll_scan Span.recogniser id
              (fun h => Span.take?_eq_append h) (':' :: cs)
            rw [Span.scan] at hscan
            rw [hscan] at hrender
            cases hrender
          | cons r rs =>
            rw [hscan] at hq
            obtain rfl : r = q := Option.some.inj hq
            cases p with
            | token _ => exact trivial
            | plain _ =>
              cases r with
              | token _ => exact trivial
              | plain u => exact Span.exists_cons_of_scan_eq hscan
  have hstarts (s : Text) (hs : .token s ∈ Partition.starter.scan t) : ∃ cs, s = ':' :: cs := by
    obtain ⟨rest, hstart⟩ := (Recogniser.settled_scan Partition.starter id
      (fun h => (Partition.takeStarter?_eq_append h).2) t).exists_next?_of_mem hs
    have hmem := (Partition.takeStarter?_eq_append hstart).1
    simp only [Partition.starters, List.mem_cons, List.not_mem_nil, or_false] at hmem
    rcases hmem with rfl | rfl | rfl
    · exact ⟨_, rfl⟩
    · exact ⟨_, rfl⟩
    · exact ⟨_, rfl⟩
  obtain ⟨more, parts, heq, hparts⟩ := Partition.exists_gather_eq_cons hstarts []
  apply hflat
  rw [Partition.split, heq]
  exact hparts

/-- The directives of a text begin and end with a colon. -/
theorem bounded_of_mem_conversionPieces {t span : Text} (h : .token span ∈ conversionPieces t) :
    Bounded [':'] [':'] span := by
  obtain ⟨part, -, hspan⟩ := List.mem_flatMap.1 h
  obtain ⟨rest, htake⟩ := (Span.settled_scan part).exists_next?_of_mem hspan
  obtain ⟨body, hbody⟩ := Span.exists_ofBody_of_take? htake
  have hlast : span = (':' :: ':' :: body ++ [':']) ++ [':'] := by
    rw [hbody]
    simp [Span.ofBody, Span.delimiter]
  exact ⟨⟨':', _, hbody, List.mem_cons_self⟩, ⟨_, ':', hlast, List.mem_cons_self⟩⟩

/-- Behind a plain run of a text a colon follows, if anything does. -/
theorem exists_colon_of_mem_conversionPieces {t u : Text} (h : .plain u ∈ conversionPieces t) :
    ∃ front back, t = front ++ u ++ back ∧ (back = [] ∨ ∃ cs, back = ':' :: cs) := by
  obtain ⟨before, after, hsplit⟩ := List.append_of_mem h
  have hchain := isChain_conversionPieces t
  have hrender := renderAll_conversionPieces t
  rw [hsplit] at hchain
  rw [hsplit, Piece.renderAll_append, Piece.renderAll_cons, ← List.append_assoc] at hrender
  refine ⟨_, _, hrender.symm, ?_⟩
  cases after with
  | nil => exact .inl rfl
  | cons p after =>
    refine .inr ?_
    rw [Piece.renderAll_cons]
    -- Two plain runs meet only where a part starts, and a start begins with a colon.
    cases p with
    | plain v =>
      obtain ⟨cs, rfl⟩ := (List.isChain_append.1 hchain).2.1.rel
      exact ⟨_, rfl⟩
    | token span =>
      have hmem : .token span ∈ conversionPieces t := by simp [hsplit]
      obtain ⟨c, cs, rfl, hc⟩ := (bounded_of_mem_conversionPieces hmem).head
      obtain rfl := List.mem_singleton.1 hc
      exact ⟨_, rfl⟩

end TemploTwig
