import TemploTwig.Conversion.Template
import TemploTwig.Proofs.Markup.Passes
import TemploTwig.Proofs.Placeholders.Prepared

/-!
# Hiding characters and putting them back

The last pass over a template puts stand-ins in the place of characters that would be read as
markup.  Putting the characters back undoes this, whatever the pass has hidden and wherever.  But a
stand-in that is in the template already is taken for a hidden character as well: the template comes
back only if it holds none.
-/

namespace TemploTwig

namespace Literal

/-- `restoreChar` keeps all but the stand-ins. -/
theorem restoreChar_eq_self_iff {c : Char} : restoreChar c = c ↔ isStandIn c = false := by
  constructor
  · intro h
    rw [← Bool.not_eq_true]
    intro hstand
    simp only [isStandIn, Bool.or_eq_true, beq_iff_eq] at hstand
    rcases hstand with (rfl | rfl) | rfl <;> exact absurd h (by decide)
  · exact restoreChar_of_not_isStandIn

/-- Restoring leaves alone the texts without stand-ins. -/
theorem restore_eq_self_iff {t : Text} : restore t = t ↔ ∀ c ∈ t, isStandIn c = false := by
  calc
    restore t = t ↔ t.map restoreChar = t.map id := by rw [restore, List.map_id]
    _ ↔ ∀ c ∈ t, restoreChar c = id c := List.map_inj_left
    _ ↔ ∀ c ∈ t, isStandIn c = false := forall₂_congr fun _ _ => restoreChar_eq_self_iff

@[simp] theorem restore_append (s t : Text) : restore (s ++ t) = restore s ++ restore t :=
  List.map_append

theorem restore_protectSpan (span : Text) : restore (protectSpan span) = restore span := by
  rw [restore, protectSpan, List.map_map]
  exact List.map_congr_left fun c _ => restoreChar_protectChar c

/-- `protectText` changes nothing that `restore` sees. -/
theorem restore_protectText (t : Text) : restore (protectText t) = restore t := by
  induction t with
  | nil => rfl
  | cons c t ih =>
    -- Whether a `&` starts a reference makes no difference.
    have hc : restoreChar (if c = '&' then (if completesReference t then '&' else ampersand)
        else if c = '<' then lessThan else c) = restoreChar c := by
      split
      · next hc => rw [hc]; split <;> rfl
      · split
        · next hc => rw [hc]; rfl
        · rfl
    exact congrArg₂ List.cons hc ih

end Literal

open Literal

namespace Prepare

/-- A step that gives a text with some characters hidden, and does nothing else. -/
def Hides (old : Text) (step : Prepare Text) : Prop :=
  ∃ new, step = pure new ∧ restore new = restore old

theorem hides_pure (t : Text) : Hides t (pure t) := ⟨t, rfl, rfl⟩

/-- A list of pieces is treated like each piece of it. -/
theorem hides_render {α : Type} {plain : Text → Text} {token : α → Prepare Text}
    {source : α → Text} {ps : List (Piece α)} (hplain : ∀ t, restore (plain t) = restore t)
    (htoken : ∀ a, .token a ∈ ps → Hides (source a) (token a)) :
    Hides (Piece.renderAll source ps) (render plain token ps) := by
  induction ps with
  | nil => exact hides_pure []
  | cons p ps ih =>
    obtain ⟨back, hback, hrestore⟩ := ih fun a ha => htoken a (List.mem_cons_of_mem _ ha)
    rw [Piece.renderAll_cons]
    cases p with
    | plain t =>
      refine ⟨plain t ++ back, ?_, ?_⟩
      · rw [render_plain_cons, hback, map_pure]
      · rw [restore_append, restore_append, hplain, hrestore]
        rfl
    | token a =>
      obtain ⟨front, hfront, hfrontRestore⟩ := htoken a List.mem_cons_self
      refine ⟨front ++ back, ?_, ?_⟩
      · rw [render_token_cons, hfront, hback, pure_bind, pure_bind]
      · rw [restore_append, restore_append, hfrontRestore, hrestore]
        rfl

theorem hides_mapTag {inline : Inline → Prepare Text} {tag : StartTag}
    (h : ∀ i, .token i ∈ tag.pieces → Hides i.source (inline i)) :
    Hides tag.source (mapTag inline tag) :=
  hides_render (fun _ => rfl) h

/-- The last pass only hides characters, if no directive is left between attributes. -/
theorem hides_protectLiterals {source : Text}
    (h : ∀ tag, .token (.startTag tag) ∈ segments source →
      ∀ span, .token (.directive span) ∉ tag.pieces) :
    Hides source (protectLiterals source) := by
  have hhides : Hides (Piece.renderAll Token.source (segments source))
      (protectLiterals source) := by
    refine hides_render restore_protectText fun token htoken => ?_
    match token with
    | .inline (.call call) => exact hides_pure call.source
    | .markup m => exact hides_pure m
    | .inline (.directive span) => exact ⟨_, rfl, restore_protectSpan span⟩
    | .startTag tag =>
      refine hides_mapTag fun i hi => ?_
      match i with
      | .call call => exact hides_pure call.source
      | .directive span => exact absurd hi (h tag htoken span)
  rwa [renderAll_segments] at hhides

end Prepare

/-- Where no directive stands between attributes, the last pass hides characters and changes nothing
    else, and restoring puts them back.  It replaces each stand-in of the template as well, so the
    template itself comes back if it holds no stand-in, and only then. -/
theorem restore_protectLiterals {source : Text}
    (h : ∀ tag, .token (.startTag tag) ∈ segments source →
      ∀ span, .token (.directive span) ∉ tag.pieces) :
    ∃ hidden, protectLiterals source = pure hidden ∧ restore hidden = restore source ∧
      (restore hidden = source ↔ ∀ c ∈ source, isStandIn c = false) := by
  obtain ⟨hidden, hstep, hrestore⟩ := Prepare.hides_protectLiterals h
  refine ⟨hidden, hstep, hrestore, ?_⟩
  rw [hrestore]
  exact restore_eq_self_iff

/-- Characters are hidden in text and in a directive, and kept in tags, calls and comments. -/
theorem restore_protectLiterals_mixed :
    let source := "a < b && c &amp; ::if x < 1::<p $$m(a < b)>q</p><!-- & -->".toList
    (∀ tag, .token (.startTag tag) ∈ segments source →
      ∀ span, .token (.directive span) ∉ tag.pieces) ∧
    ∃ hidden, protectLiterals source = pure hidden ∧ restore hidden = source := by
  intro source
  have hsegments : segments source = [.plain "a < b && c &amp; ".toList,
      .token (.inline (.directive "::if x < 1::".toList)),
      .token (.startTag ⟨['p'], [.plain "<p ".toList, .token (.call ⟨['m'], "a < b".toList⟩),
        .plain ['>']]⟩),
      .plain ['q'], .token (.markup "</p>".toList), .token (.markup "<!-- & -->".toList)] := by
    decide +kernel
  have htags : ∀ tag, .token (.startTag tag) ∈ segments source →
      ∀ span, .token (.directive span) ∉ tag.pieces := by
    simp [hsegments]
  have hclear : source.all (fun c => !isStandIn c) = true := by decide +kernel
  obtain ⟨hidden, hstep, hrestore, hback⟩ := restore_protectLiterals htags
  exact ⟨htags, hidden, hstep, hback.2 (by simpa using hclear)⟩

/-- A stand-in in a template becomes the character that it stands for. -/
theorem restore_loses_stand_in :
    let source := [ampersand]
    segments source = [.plain source] ∧ protectLiterals source = pure source ∧
      restore source = ['&'] ∧
      (convertTemplate {} (some .document) source).result.toOption = some ['&'] := by
  intro source
  have hsegments : segments source = [.plain source] := by decide +kernel
  refine ⟨hsegments, ?_, by decide, by decide +kernel⟩
  rw [protectLiterals, hsegments]
  rfl

end TemploTwig
