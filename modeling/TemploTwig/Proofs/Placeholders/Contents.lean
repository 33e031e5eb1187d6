import TemploTwig.Proofs.Placeholders.Hidden
import TemploTwig.Proofs.Placeholders.Resolution

/-!
# Running text that has come together

Where an end tag closes nothing, the reader puts the texts around it together.  Such a content is a
list of runs, directives and tokens, and the conversion cuts it between them and nowhere else.  So a
piece that is converted as plain text holds tokens and, between them, text without marks.
-/

namespace TemploTwig

open Document (strayMarks)

/-- In a run without marks no token begins, not even with the help of a token behind it. -/
theorem MacroToken.declines_of_free {t runs rest : Text} (hfree : Text.Free strayMarks (t ++ runs))
    (hrest : rest = [] ∨ ∃ i after, rest = ofIndex i ++ after) :
    recogniser.Declines t (runs ++ rest) := by
  intro front back ht hne
  refine Option.eq_none_iff_forall_ne_some.2 fun found htake => ?_
  obtain ⟨digits, after⟩ := found
  have hmark : Attribute.tokenMark <:+: opening := ⟨"[[".toList, "MACRO_".toList, rfl⟩
  have hwithin : Text.Free strayMarks (back ++ runs) :=
    hfree.of_infix ⟨front, [], by rw [ht]; simp⟩
  have happend : opening ++ (digits ++ closing ++ after) = back ++ runs ++ rest := by
    have heq : back ++ (runs ++ rest) = _ := take?_eq_append htake
    simpa using heq.symm
  rcases List.append_eq_append_iff.1 happend with ⟨more, hmore, -⟩ | ⟨more, hmore, hmore'⟩
  · refine hwithin Attribute.tokenMark (by simp [strayMarks]) (hmark.trans ?_)
    rw [hmore]
    exact (List.prefix_append _ _).isInfix
  · -- The opening would have to go on with two brackets.
    have hsuffix : more ∈ opening.tail.tails := by
      cases hcons : back ++ runs with
      | nil => exact absurd (List.append_eq_nil_iff.1 hcons).1 hne
      | cons c cs =>
        rw [hcons] at hmore
        rw [List.mem_tails, hmore]
        exact List.suffix_append cs more
    have hbrackets : ∀ w ∈ opening.tail.tails, w ≠ [] → w ≠ ['['] ∧ ¬['[', '['] <+: w := by
      decide
    by_cases hnil : more = []
    · refine hwithin Attribute.tokenMark (by simp [strayMarks]) (hmark.trans ?_)
      rw [hmore, hnil, List.append_nil]
    · obtain ⟨hone, htwo⟩ := hbrackets more hsuffix hnil
      rcases hrest with rfl | ⟨i, later, rfl⟩
      · exact hnil (List.append_eq_nil_iff.1 hmore'.symm).1
      · cases more with
        | nil => exact hnil rfl
        | cons c more =>
          obtain ⟨rfl, htail⟩ := List.cons.inj hmore'
          cases more with
          | nil => exact hone rfl
          | cons d more =>
            obtain ⟨rfl, -⟩ := List.cons.inj htail
            exact htwo ⟨more, rfl⟩

namespace Stretch

/-- Is the stretch running text to the reader of markup? -/
def isText : Stretch → Bool
  | run _ | directive _ | token _ => true
  | _ => false

/-- The stretch as the conversion of running text sees it. -/
def textPiece : Stretch → Piece Text
  | directive span => .token span
  | x => .plain x.text

/-- The stretch as `MacroToken.scan` sees it. -/
def macroPiece : Stretch → Piece Text
  | token i => .token (decimal i)
  | x => .plain x.text

/-- Runs, directives and tokens that may stand in one text of the tree. -/
structure IsContent (bound : Nat) (qs : List Stretch) : Prop where
  fits : ∀ x ∈ qs, x.Fits bound
  texts : ∀ x ∈ qs, x.isText = true
  flowing : Flow.Flowing strayMarks (qs.map flow)

variable {bound : Nat} {x : Stretch} {ps qs rs : List Stretch}

theorem renderAll_textPiece (qs : List Stretch) :
    Piece.renderAll id (qs.map textPiece) = textAll qs := by
  induction qs with
  | nil => rfl
  | cons x qs ih =>
    have hx : x.textPiece.render id = x.text := by cases x <;> rfl
    rw [List.map_cons, Piece.renderAll_cons, hx, ih, textAll_cons]

/-- `macroPiece` loses nothing of the stretches. -/
theorem renderAll_macroPiece (qs : List Stretch) :
    Piece.renderAll MacroToken.spell (qs.map macroPiece) = textAll qs := by
  induction qs with
  | nil => rfl
  | cons x qs ih =>
    have hx : x.macroPiece.render MacroToken.spell = x.text := by
      cases x with
      | token i => exact (MacroToken.ofIndex_eq_spell i).symm
      | run | directive | call | tag | markup => rfl
    rw [List.map_cons, Piece.renderAll_cons, hx, ih, textAll_cons]

namespace IsContent

theorem tail (h : IsContent bound (x :: qs)) : IsContent bound qs where
  fits y hy := h.fits y (List.mem_cons_of_mem x hy)
  texts y hy := h.texts y (List.mem_cons_of_mem x hy)
  flowing := h.flowing.2.2

theorem of_append_left (h : IsContent bound (ps ++ qs)) : IsContent bound ps where
  fits y hy := h.fits y (List.mem_append_left qs hy)
  texts y hy := h.texts y (List.mem_append_left qs hy)
  flowing := Flow.Flowing.of_append_left (List.map_append ▸ h.flowing)

theorem of_append_right (h : IsContent bound (ps ++ qs)) : IsContent bound qs where
  fits y hy := h.fits y (List.mem_append_right ps hy)
  texts y hy := h.texts y (List.mem_append_right ps hy)
  flowing := Flow.Flowing.of_append_right (List.map_append ▸ h.flowing)

/-- A content begins with runs, and what follows them begins with a bracket or two colons. -/
theorem exists_runs (h : IsContent bound qs) :
    ∃ runs rest, textAll qs = runs ++ rest ∧ runs <+: Flow.runsIn (qs.map flow) ∧
      (rest = [] ∨ (∃ i after, rest = MacroToken.ofIndex i ++ after) ∨
        ∃ after, rest = ':' :: ':' :: after ∧ ∃ span, directive span ∈ qs) := by
  induction qs with
  | nil => exact ⟨[], [], rfl, List.nil_prefix, .inl rfl⟩
  | cons x qs ih =>
    have hfits := h.fits x List.mem_cons_self
    have htext := h.texts x List.mem_cons_self
    cases x with
    | run t =>
      obtain ⟨runs, rest, heq, hprefix, hrest⟩ := ih h.tail
      refine ⟨t ++ runs, rest, ?_, (List.prefix_append_right_inj t).2 hprefix, ?_⟩
      · rw [textAll_cons, heq, List.append_assoc]
        rfl
      · rcases hrest with hrest | hrest | ⟨after, hrest, span, hspan⟩
        · exact .inl hrest
        · exact .inr (.inl hrest)
        · exact .inr (.inr ⟨after, hrest, span, List.mem_cons_of_mem _ hspan⟩)
    | token i => exact ⟨[], _, rfl, List.nil_prefix, .inr (.inl ⟨i, textAll qs, rfl⟩)⟩
    | directive span =>
      obtain ⟨-, b, rfl, -⟩ := hfits
      exact ⟨[], _, rfl, List.nil_prefix, .inr (.inr ⟨_, rfl, _, List.mem_cons_self⟩)⟩
    | call c | tag name lead fields | markup m => cases htext

/-- A content behind a directive leaves the directive's delimiter as it is. -/
theorem standsOff (h : IsContent bound qs)
    (hkeeps : Flow.keepsOff (Flow.runsIn (qs.map flow)) = true) :
    Partition.StandsOff (textAll qs) := by
  obtain ⟨runs, rest, heq, hprefix, hrest⟩ := h.exists_runs
  obtain ⟨hcolon, hwords⟩ := Flow.keepsOff_iff.1 (Flow.keepsOff_of_prefix hkeeps hprefix)
  -- No word goes on with a bracket or a colon.
  have hhead (c : Char) (cs : Text) (hc : rest = c :: cs) : c = '[' ∨ c = ':' := by
    rcases hrest with rfl | ⟨i, after, rfl⟩ | ⟨after, rfl, -⟩
    · cases hc
    · exact .inl (List.cons.inj hc).1.symm
    · exact .inr (List.cons.inj hc).1.symm
  have hletters : ∀ word ∈ Partition.words, '[' ∉ word ∧ ':' ∉ word := by decide
  rw [heq]
  refine ⟨?_, fun r hr => ?_⟩
  · rintro ⟨word, hword, after, happend, -⟩
    rcases List.append_eq_append_iff.1 happend with ⟨more, hmore, hmore'⟩ | ⟨more, hmore, -⟩
    · cases more with
      | nil => exact hwords word hword (by rw [hmore, List.append_nil])
      | cons c more =>
        have hmem : c ∈ word := by simp [hmore]
        obtain ⟨hbracket, hcolons⟩ := hletters word hword
        rcases hhead c _ hmore' with rfl | rfl
        · exact hbracket hmem
        · exact hcolons hmem
    · exact hwords word hword ⟨more, hmore.symm⟩
  · cases runs with
    | cons c runs =>
      obtain ⟨rfl, -⟩ := List.cons.inj hr
      exact absurd rfl hcolon
    | nil =>
      rcases hrest with rfl | ⟨i, after, rfl⟩ | ⟨after, rfl, -⟩
      · cases hr
      · cases (List.cons.inj hr).1
      · exact ⟨after, (List.cons.inj hr).2.symm⟩

/-- `startsWithColon` is seen in the stretches. -/
theorem startsWithColon (h : IsContent bound qs) (hhead : (textAll qs).head? = some ':') :
    Flow.startsWithColon (qs.map flow) = true := by
  cases qs with
  | nil => cases hhead
  | cons x qs =>
    have hfits := h.fits x List.mem_cons_self
    have htext := h.texts x List.mem_cons_self
    cases x with
    | run t =>
      obtain ⟨⟨hne, -⟩, -⟩ := hfits
      cases t with
      | nil => exact absurd rfl hne
      | cons c t => exact beq_iff_eq.2 hhead
    | token i => cases hhead
    | directive span => rfl
    | call c | tag name lead fields | markup m => cases htext

/-- No part begins inside one of the stretches. -/
theorem uncut (h : IsContent bound qs) : Partition.Uncut (qs.map textPiece) := by
  induction qs with
  | nil => trivial
  | cons x qs ih =>
    have hqs := ih h.tail
    have hfits := h.fits x List.mem_cons_self
    have htext := h.texts x List.mem_cons_self
    cases x with
    | run t =>
      obtain ⟨-, ⟨hcolons, -⟩, -⟩ := hfits
      refine ⟨⟨hcolons, fun hlast hhead => ?_⟩, hqs⟩
      rw [renderAll_textPiece] at hhead
      have hmeets := h.flowing.1
      simp only [flow, Flow.meets, h.tail.startsWithColon hhead, Bool.not_true, Bool.or_false,
        bne_iff_ne] at hmeets
      exact hmeets hlast
    | token i =>
      refine ⟨Text.noPair_of_not_mem (fun hmem => ?_) _, hqs⟩
      cases Tables.isTokenChar_of_mem_ofIndex hmem
    | directive span =>
      refine ⟨hfits.2, ?_, hqs⟩
      rw [renderAll_textPiece]
      exact h.tail.standsOff h.flowing.1
    | call c | tag name lead fields | markup m => cases htext

/-- A content is cut between its stretches. -/
theorem conversionPieces_textAll (h : IsContent bound qs) :
    conversionPieces (textAll qs) = Piece.join (qs.map textPiece) := by
  rw [← renderAll_textPiece]
  exact conversionPieces_of_uncut h.uncut

/-- `MacroToken.scan` finds the tokens of a content without directives. -/
theorem loose_macroPiece (h : IsContent bound qs) (hspans : ∀ span, directive span ∉ qs) :
    MacroToken.recogniser.Loose MacroToken.spell (qs.map macroPiece) := by
  induction qs with
  | nil => trivial
  | cons x qs ih =>
    have hspans' (span : Text) (hspan : directive span ∈ qs) : False :=
      hspans span (List.mem_cons_of_mem x hspan)
    have hqs := ih h.tail hspans'
    have htext := h.texts x List.mem_cons_self
    cases x with
    | run t =>
      refine ⟨?_, hqs⟩
      obtain ⟨runs, rest, heq, hprefix, hrest⟩ := h.tail.exists_runs
      rw [renderAll_macroPiece, heq]
      refine MacroToken.declines_of_free ?_ ?_
      · exact Text.Free.of_infix h.flowing.2.1 ((List.prefix_append_right_inj t).2 hprefix).isInfix
      · rcases hrest with hrest | hrest | ⟨-, -, span, hspan⟩
        · exact .inl hrest
        · exact .inr hrest
        · exact absurd (hspans' span hspan) id
    | token i =>
      refine ⟨?_, hqs⟩
      rw [← MacroToken.ofIndex_eq_spell]
      exact MacroToken.take?_ofIndex_append i _
    | directive span => exact absurd List.mem_cons_self (hspans span)
    | call c | tag name lead fields | markup m => cases htext

/-- Runs at the front of a content may be put together. -/
theorem prefix_runsIn (h : IsContent bound qs) (hspans : ∀ span, directive span ∉ qs)
    {ts : List Text} {back : List (Piece Text)} (hmap : qs.map macroPiece = ts.map .plain ++ back) :
    ts.flatten <+: Flow.runsIn (qs.map flow) := by
  induction ts generalizing qs with
  | nil => exact List.nil_prefix
  | cons t ts ih =>
    obtain ⟨x, rest, rfl, hx, hrest⟩ := List.map_eq_cons_iff.1 hmap
    have hflat := ih h.tail (fun span hspan => hspans span (List.mem_cons_of_mem x hspan)) hrest
    have htext := h.texts x List.mem_cons_self
    cases x with
    | run u =>
      obtain rfl : u = t := Piece.plain.inj hx
      exact (List.prefix_append_right_inj u).2 hflat
    | token i => cases hx
    | directive span => exact absurd List.mem_cons_self (hspans span)
    | call c | tag name lead fields | markup m => cases htext

/-- Between the tokens of a content without directives there is no mark. -/
theorem free_of_mem_scan (h : IsContent bound qs) (hspans : ∀ span, directive span ∉ qs) {u : Text}
    (hu : .plain u ∈ MacroToken.scan (textAll qs)) : Text.Free strayMarks u := by
  have hscan : MacroToken.scan (textAll qs) = Piece.join (qs.map macroPiece) := by
    rw [← renderAll_macroPiece]
    exact Recogniser.scan_renderAll_of_loose (h.loose_macroPiece hspans)
  rw [hscan] at hu
  obtain ⟨front, ts, back, hmap, rfl⟩ := Piece.exists_of_plain_mem_join hu
  -- The runs that make up the plain text stand at the front of what is left of the content.
  rw [List.append_assoc] at hmap
  obtain ⟨before, more, rfl, -, hmore⟩ := List.map_eq_append_iff.1 hmap
  have hcontent := h.of_append_right
  have hruns := hcontent.flowing.free_runsIn Document.nil_not_mem_strayMarks
  exact hruns.of_infix (hcontent.prefix_runsIn (fun span hspan =>
    hspans span (List.mem_append_right before hspan)) hmore).isInfix

/-- A content holds no mark in its directives, and none between the tokens of its runs. -/
theorem satisfies (h : IsContent bound qs) {p : Piece Text}
    (hp : p ∈ conversionPieces (textAll qs)) :
    p.Satisfies (Text.Free strayMarks) fun t =>
      ∀ q ∈ MacroToken.scan t, q.Satisfies (fun _ => True) (Text.Free strayMarks) := by
  rw [h.conversionPieces_textAll] at hp
  cases p with
  | token span =>
    obtain ⟨x, hx, hpiece⟩ := List.mem_map.1 (Piece.token_mem_join.1 hp)
    cases x with
    | directive u =>
      obtain rfl : u = span := Piece.token.inj hpiece
      exact (h.fits _ hx).1
    | run | call | token | tag | markup => cases hpiece
  | plain t =>
    obtain ⟨front, ts, back, hmap, rfl⟩ := Piece.exists_of_plain_mem_join hp
    rw [List.append_assoc] at hmap
    obtain ⟨before, more, rfl, -, hmore⟩ := List.map_eq_append_iff.1 hmap
    obtain ⟨middle, after, rfl, hmiddle, -⟩ := List.map_eq_append_iff.1 hmore
    have htext : ts.flatten = textAll middle := by
      rw [← renderAll_textPiece, hmiddle, Piece.renderAll_map_plain]
    have hspans (span : Text) (hspan : directive span ∈ middle) : False := by
      have hmem : .token span ∈ middle.map textPiece := List.mem_map_of_mem (f := textPiece) hspan
      rw [hmiddle] at hmem
      obtain ⟨t, -, ht⟩ := List.mem_map.1 hmem
      cases ht
    intro q hq
    cases q with
    | token digits => trivial
    | plain u =>
      rw [htext] at hq
      exact h.of_append_right.of_append_left.free_of_mem_scan hspans hq

end IsContent

end Stretch

end TemploTwig
