import TemploTwig.Conversion.Library
import TemploTwig.Proofs.Markup.Segments
import TemploTwig.Proofs.Nesting.Document
import TemploTwig.Proofs.Template.Syntax

/-!
# Cuts that go through a directive

A text is cut into parts before it is scanned for spans, in front of two colons whether they open a
span or close one.  A library is scanned as a whole.  The two ways find the same spans exactly when
no part starts inside a span, and then a text is converted alike in documents and in libraries.
-/

namespace TemploTwig

variable {c : Char} {cs rest s t : Text}

/-! ## Joining plain runs -/

namespace Piece

variable {α : Type}

theorem tokens_prepend (t : Text) (ps : List (Piece α)) : tokens (prepend t ps) = tokens ps := by
  match ps with
  | [] => rfl
  | .plain u :: ps => rfl
  | .token a :: ps => rfl

theorem refill_prepend (t : Text) (ps : List (Piece α)) (outs : List Text) :
    refill (prepend t ps) outs = t ++ refill ps outs := by
  match ps with
  | [] => rfl
  | .plain u :: ps => exact List.append_assoc ..
  | .token a :: ps => rfl

/-- `join` keeps the tokens. -/
theorem tokens_join (ps : List (Piece α)) : tokens (join ps) = tokens ps := by
  induction ps with
  | nil => rfl
  | cons p ps ih =>
    cases p with
    | plain t =>
      rw [join, tokens_plain]
      split
      · exact ih
      · rw [tokens_prepend, ih]
    | token a => rw [join, tokens_token, tokens_token, ih]

/-- `refill` does not see `join`. -/
theorem refill_join (ps : List (Piece α)) (outs : List Text) :
    refill (join ps) outs = refill ps outs := by
  induction ps generalizing outs with
  | nil => rfl
  | cons p ps ih =>
    cases p with
    | plain t =>
      rw [join, refill]
      split
      · next ht => rw [ih, ht, List.nil_append]
      · rw [refill_prepend, ih]
    | token a => rw [join, refill, refill, ih]

end Piece

/-! ## A cut through a span -/

namespace Span

theorem renderAll_scan (t : Text) : Piece.renderAll id (scan t) = t :=
  recogniser.renderAll_scan id take?_eq_append t

theorem scan_of_take?_eq_none (h : take? (c :: cs) = none) :
    scan (c :: cs) = Piece.prepend [c] (scan cs) := Recogniser.scan_of_none h

theorem scan_append_of_take? {span : Text} (h : take? (c :: cs) = some (span, rest)) (t : Text) :
    scan (c :: cs ++ t) = .token span :: scan (rest ++ t) :=
  Recogniser.scan_of_some (take?_append_of_some h t)

/-- The cut between `s` and `t` goes through a span of the whole text. -/
def Crosses (s t : Text) : Prop :=
  ∃ ps u v qs, scan (s ++ t) = ps ++ .token (u ++ v) :: qs ∧ u ≠ [] ∧ v ≠ [] ∧
    s = Piece.renderAll id ps ++ u

theorem Crosses.of_take? {span : Text} (htake : take? (c :: cs) = some (span, s)) (h : Crosses s t)
    :
    Crosses (c :: cs) t := by
  obtain ⟨ps, u, v, qs, hscan, hu, hv, rfl⟩ := h
  refine ⟨.token span :: ps, u, v, qs, ?_, hu, hv, ?_⟩
  · rw [scan_append_of_take? htake, hscan, List.cons_append]
  · rw [take?_eq_append htake, Piece.renderAll_cons, List.append_assoc]
    rfl

theorem Crosses.of_take?_eq_none (htake : take? (c :: (s ++ t)) = none) (h : Crosses s t) :
    Crosses (c :: s) t := by
  obtain ⟨ps, u, v, qs, hscan, hu, hv, rfl⟩ := h
  refine ⟨Piece.prepend [c] ps, u, v, qs, ?_, hu, hv, ?_⟩
  · rw [List.cons_append, scan_of_take?_eq_none htake, hscan, Piece.prepend_append_token]
  · rw [Piece.renderAll_prepend]
    rfl

/-- A cut that goes through no span leaves the spans of the text as they are. -/
theorem join_scan_append (h : ¬Crosses s t) : Piece.join (scan s ++ scan t) = scan (s ++ t) := by
  -- By induction on what is scanned in front of the cut.
  rw [scan]
  fun_induction Recogniser.scan recogniser s with
  | case1 => exact Piece.join_scan _ t
  | case2 c cs span rest htake ih =>
    have hrest := ih fun hcross => h (hcross.of_take? htake)
    rw [scan_append_of_take? htake, List.cons_append, Piece.join, hrest]
  | case3 c cs htake ih =>
    rw [List.cons_append]
    cases hafter : take? (c :: (cs ++ t)) with
    | none =>
      have hrest := ih fun hcross => h (hcross.of_take?_eq_none hafter)
      rw [scan_of_take?_eq_none hafter, Piece.join_prepend_append (by simp), hrest]
    | some found =>
      -- A span opens here only with what comes behind the cut, so the cut goes through it.
      obtain ⟨span, rest⟩ := found
      have htext := take?_eq_append hafter
      rw [← List.cons_append, List.append_eq_append_iff] at htext
      -- If the span ended in front of the cut, it would be found there without the rest.
      have hwithin (tail : Text) : c :: cs ≠ span ++ tail := by
        intro hcs
        have htake' : take? (c :: cs) = some (span, tail) := by
          rw [hcs]
          exact take?_span_append hafter tail
        cases htake.symm.trans htake'
      rcases htext with ⟨v, rfl, rfl⟩ | ⟨tail, hcs, -⟩
      · have hv : v ≠ [] := fun hv => hwithin [] (by rw [hv, List.append_nil, List.append_nil])
        refine absurd ⟨[], c :: cs, v, scan rest, ?_, by simp, hv, rfl⟩ h
        exact Recogniser.scan_of_some hafter
      · exact absurd hcs (hwithin tail)

/-- A cut through a span behind another cut is one through a span of the whole text. -/
theorem Crosses.append {a b : Text} (hs : ¬Crosses s (a ++ b)) (h : Crosses a b) :
    Crosses (s ++ a) b := by
  obtain ⟨ps, u, v, qs, hscan, hu, hv, rfl⟩ := h
  have hjoin := join_scan_append hs
  rw [hscan, ← List.append_assoc, Piece.join_append_token] at hjoin
  refine ⟨_, u, v, _, by rw [List.append_assoc]; exact hjoin.symm, hu, hv, ?_⟩
  rw [Piece.renderAll_join, Piece.renderAll_append, renderAll_scan, List.append_assoc]

/-- A cut through a span loses the span: no pieces of the two sides are those of the text. -/
theorem Crosses.join_ne (h : Crosses s t) {front back : List (Piece Text)}
    (hfront : Piece.renderAll id front = s) : Piece.join (front ++ back) ≠ scan (s ++ t) := by
  obtain ⟨ps, u, v, qs, hscan, hu, hv, hsplit⟩ := h
  intro hjoin
  rw [hscan] at hjoin
  obtain ⟨front', back', hpieces, rfl⟩ := Piece.exists_of_join_eq hjoin
  rw [Piece.renderAll_join] at hsplit
  -- The pieces in front of the cut would end inside the span.
  rcases List.append_eq_append_iff.1 hpieces with ⟨more, rfl, -⟩ | ⟨more, rfl, hmore⟩
  · rw [Piece.renderAll_append, hfront] at hsplit
    have hlen := congrArg List.length hsplit
    have hu := List.length_pos_iff.2 hu
    simp only [List.length_append] at hlen
    omega
  · match more, hmore with
    | [], _ =>
      rw [List.append_nil] at hfront
      have hlen := congrArg List.length (hfront.trans hsplit)
      have hu := List.length_pos_iff.2 hu
      simp only [List.length_append] at hlen
      omega
    | p :: more, hmore =>
      obtain ⟨rfl, -⟩ := List.cons.inj hmore
      rw [Piece.renderAll_append, Piece.renderAll_cons, Piece.render] at hfront
      have hlen := congrArg List.length (hfront.trans hsplit)
      have hv := List.length_pos_iff.2 hv
      simp only [List.length_append, id] at hlen
      omega

end Span

/-! ## Where parts start -/

namespace Partition

/-- No part starts inside a span. -/
def KeepsSpans (t : Text) : Prop :=
  ∀ front back, t = front ++ back → takeStarter? back ≠ none → ¬Span.Crosses front back

theorem KeepsSpans.of_append (h : KeepsSpans (s ++ t)) (hs : ¬Span.Crosses s t) : KeepsSpans t := by
  rintro front back rfl hstart hcross
  exact h (s ++ front) back (List.append_assoc ..).symm hstart (hcross.append hs)

/-- The parts have the spans of the text, behind what the current part holds. -/
theorem join_flatMap_gather (current : Text) (h : KeepsSpans (current ++ t)) :
    Piece.join ((gather current (starter.scan t)).flatMap Span.scan) =
      Span.scan (current ++ t) := by
  fun_induction Recogniser.scan starter t generalizing current with
  | case1 =>
    rw [gather, List.flatMap_singleton, List.append_nil]
    exact Piece.join_scan _ current
  | case2 c cs s rest hstart ih =>
    have htext := (takeStarter?_eq_append hstart).2
    -- No span goes on over the start of a part.
    have hcross : ¬Span.Crosses current (c :: cs) := by
      refine h current (c :: cs) rfl ?_
      rw [show takeStarter? (c :: cs) = _ from hstart]
      rintro ⟨⟩
    rw [htext] at h hcross ⊢
    have hrest := ih s (h.of_append hcross)
    rw [gather]
    split
    · next hnil => rw [hnil, hrest, List.nil_append]
    · rw [List.flatMap_cons, ← Piece.join_append_join, hrest, Span.join_scan_append hcross]
  | case3 c cs hstart ih =>
    rw [gather_prepend, ih (current ++ [c]) (by rwa [List.append_assoc]), List.append_assoc]
    rfl

theorem exists_starter_of_takeStarter? (h : takeStarter? t = some (s, rest)) :
    ∃ word ∈ words, s = Span.delimiter ++ word ∧ t = Span.delimiter ++ word ++ rest := by
  obtain ⟨hmem, htext⟩ := takeStarter?_eq_append h
  rw [starters_eq_map] at hmem
  obtain ⟨word, hword, rfl⟩ := List.mem_map.1 hmem
  exact ⟨word, hword, rfl, htext⟩

/-- The start of a part does not reach over the start of another part. -/
theorem exists_append_of_takeStarter? (h : takeStarter? (c :: cs ++ t) = some (s, rest))
    (ht : takeStarter? t ≠ none) : ∃ tail, c :: cs = s ++ tail := by
  obtain ⟨word, hword, rfl, htext⟩ := exists_starter_of_takeStarter? h
  obtain ⟨⟨s', rest'⟩, hs'⟩ := Option.ne_none_iff_exists'.1 ht
  obtain ⟨word', -, -, rfl⟩ := exists_starter_of_takeStarter? hs'
  have hcolon := colon_not_mem_of_mem_words hword
  rcases List.append_eq_append_iff.1 htext with ⟨extra, hs, hextra⟩ | ⟨tail, htail, -⟩
  · -- A colon of the second start would stand in the word of the first.
    match extra, hextra with
    | [], _ => exact ⟨[], by rw [List.append_nil, hs, List.append_nil]⟩
    | e :: extra, hextra =>
      obtain ⟨rfl, hbehind⟩ := List.cons.inj hextra
      have hrest := (List.cons.inj hs).2
      match cs, hrest with
      | [], hrest =>
        obtain rfl : word = extra := (List.cons.inj hrest).2
        match word, hbehind with
        | [], _ => exact absurd rfl (ne_nil_of_mem_words hword)
        | w :: word, hbehind =>
          obtain ⟨rfl, -⟩ := List.cons.inj hbehind
          exact absurd List.mem_cons_self hcolon
      | d :: cs, hrest =>
        obtain rfl : word = cs ++ ':' :: extra := (List.cons.inj hrest).2
        exact absurd (List.mem_append_right cs List.mem_cons_self) hcolon
  · exact ⟨tail, htail⟩

/-- Every start of a part behind the front of the text is a cut. -/
theorem exists_gather_eq (current : Text) {x : Text} (hne : current ++ x ≠ [])
    (ht : takeStarter? t ≠ none) :
    ∃ front back, gather current (starter.scan (x ++ t)) = front ++ back ∧
      front.flatten = current ++ x ∧ back.flatten = t := by
  generalize hw : x ++ t = w
  fun_induction Recogniser.scan starter w generalizing current x with
  | case1 =>
    obtain ⟨-, rfl⟩ := List.append_eq_nil_iff.1 hw
    exact absurd rfl ht
  | case2 c cs s rest hstart ih =>
    have htext := (takeStarter?_eq_append hstart).2
    cases x with
    | nil =>
      rw [List.append_nil] at hne
      refine ⟨[current], gather s (starter.scan rest), ?_, by simp, ?_⟩
      · rw [gather, if_neg hne, List.singleton_append]
      · rw [flatten_gather, Recogniser.renderAll_scan _ _ fun h => (takeStarter?_eq_append h).2,
          ← htext, ← hw, List.nil_append]
    | cons d x =>
      rw [← hw] at hstart htext
      -- The start that is found lies in front of `t`, since two starts do not overlap.
      obtain ⟨tail, hx⟩ := exists_append_of_takeStarter? hstart ht
      rw [hx, List.append_assoc, List.append_cancel_left_eq] at htext
      have hs : s ++ tail ≠ [] := by rw [← hx]; simp
      obtain ⟨front, back, hgather, hfront, hback⟩ := ih s hs htext
      rw [gather, hgather, hx]
      split
      · next hnil => exact ⟨front, back, rfl, by rw [hfront, hnil, List.nil_append], hback⟩
      · exact ⟨current :: front, back, rfl, by rw [List.flatten_cons, hfront], hback⟩
  | case3 c cs hstart ih =>
    cases x with
    | nil =>
      obtain rfl : t = c :: cs := hw
      exact absurd hstart ht
    | cons d x =>
      obtain ⟨rfl, hcs⟩ := List.cons.inj hw
      obtain ⟨front, back, hgather, hfront, hback⟩ := ih (current ++ [d]) (by simp) hcs
      refine ⟨front, back, by rw [gather_prepend, hgather], ?_, hback⟩
      rw [hfront, List.append_assoc, List.singleton_append]

/-- Cutting a text leaves its spans as they are exactly when no part starts inside a span. -/
theorem join_conversionPieces_iff :
    Piece.join (conversionPieces t) = Span.scan t ↔ KeepsSpans t := by
  constructor
  · rintro h front back rfl hstart hcross
    have hne : front ≠ [] := by
      obtain ⟨ps, u, v, qs, -, hu, -, rfl⟩ := hcross
      simp [hu]
    obtain ⟨before, behind, hsplit, hbefore, -⟩ :=
      exists_gather_eq [] hne hstart
    rw [conversionPieces, split, hsplit, List.flatMap_append] at h
    exact hcross.join_ne (by rw [renderAll_flatMap_scan, hbefore, List.nil_append]) h
  · intro h
    exact join_flatMap_gather [] h

end Partition

/-! ## A library without markup -/

/-- A step that neither reads nor changes the kind of the template. -/
def Convert.IgnoresKind {α : Type} (x : Convert α) : Prop :=
  ∀ ctx kind, x.run.run { ctx with kind } =
    ((x.run.run ctx).1, { (x.run.run ctx).2 with kind })

theorem Convert.ignoresKind_of_ignores {α : Type} {x : Convert α}
    (h : ∀ kind, Ignores (Context.relabel (fun _ => kind) id id) x) : IgnoresKind x :=
  fun ctx kind => h kind ctx

/-- Text that has to close every block that it opens. -/
def convertClosedText (t : Text) : Convert Text := do
  let output ← convertText t
  Convert.ensureClosed
  return output

namespace Library

theorem map_toSegment_prepend (t : Text) (ps : List (Piece Text)) :
    (Piece.prepend t ps).map Piece.toSegment = Piece.prepend t (ps.map Piece.toSegment) := by
  match ps with
  | [] => rfl
  | .plain u :: ps => rfl
  | .token a :: ps => rfl

/-- Without markup and calls, the segments of a template are its spans and the runs between. -/
theorem segments_eq_map (hmarkup : '<' ∉ t) (hcall : '$' ∉ t) :
    segments t = (Span.scan t).map Piece.toSegment := by
  rw [segments, Span.scan]
  fun_induction Recogniser.scan Span.recogniser t with
  | case1 => exact Token.recogniser.scan_nil
  | case2 c cs span rest htake ih =>
    have htext := Span.take?_eq_append htake
    rw [htext, List.mem_append, not_or] at hmarkup hcall
    rw [Recogniser.scan_of_some (Token.take?_span htake), ih hmarkup.2 hcall.2]
    rfl
  | case3 c cs htake ih =>
    rw [List.mem_cons, not_or] at hmarkup hcall
    have hnone : Token.take? (c :: cs) = none := by
      have hplain : Token.takeMarkup? (c :: cs) = none := by
        refine Token.takeMarkup?_eq_none ?_
        intro d ds htext
        exact absurd (List.cons.inj htext).1.symm hmarkup.1
      rw [Token.take?, hplain, Inline.take?_eq_none htake (by simp [hcall.1])]
      rfl
    rw [Recogniser.scan_of_none hnone, ih hmarkup.2 hcall.2, map_toSegment_prepend]

/-- `convertSegments` renders the spans in order. -/
theorem convertSegments_map_toSegment (source : Text) (offset : Nat) (ps : List (Piece Text)) :
    convertSegments source offset (ps.map Piece.toSegment) =
      Piece.refill ps <$> (Piece.tokens ps).mapM renderDirective := by
  induction ps generalizing offset with
  | nil => simp [convertSegments, Piece.refill]
  | cons p ps ih =>
    rw [List.map_cons, convertSegments, ih]
    cases p with
    | plain t | token span => simp [Piece.toSegment, convertSegment, Piece.refill]

/-- A library without markup and calls is a text whose spans are found without cutting it. -/
theorem convert_eq (hmarkup : '<' ∉ t) (hcall : '$' ∉ t) :
    convert t = do
      let output ← Piece.refill (Span.scan t) <$> (Piece.tokens (Span.scan t)).mapM renderDirective
      Convert.ensureClosed
      return output := by
  rw [convert, segments_eq_map hmarkup hcall, convertSegments_map_toSegment]

theorem ignoresKind_convert (hmarkup : '<' ∉ t) (hcall : '$' ∉ t) :
    Convert.IgnoresKind (convert t) := by
  rw [convert_eq hmarkup hcall, map_eq_pure_bind]
  refine Convert.ignoresKind_of_ignores fun kind => Convert.ignores_bind ?_ fun output =>
    Convert.ignores_bind Convert.ignores_ensureClosed fun _ => Convert.ignores_pure _
  refine Convert.ignores_bind (Convert.ignores_mapM fun span _ => ?_) fun _ => Convert.ignores_pure _
  exact Convert.ignores_renderDirective span

/-- Cutting a text leaves its spans as they are exactly when no part starts inside a span, and then
    the text is converted alike, or fails alike, in a library and in a document. -/
theorem convert_agrees {t : Text} (hmarkup : '<' ∉ t) (hcall : '$' ∉ t)
    (htoken : t.contains MacroToken.opening = false) :
    (Piece.join (conversionPieces t) = Span.scan t ↔ Partition.KeepsSpans t) ∧
      (Partition.KeepsSpans t → ∀ options,
        ((convert t).run.run { options, kind := .library }).1 =
          ((convertClosedText t).run.run { options, kind := .document }).1) := by
  refine ⟨Partition.join_conversionPieces_iff, ?_⟩
  intro hkeeps options
  have hpieces := Partition.join_conversionPieces_iff.2 hkeeps
  have htokens : Piece.tokens (Span.scan t) = Piece.tokens (conversionPieces t) := by
    rw [← hpieces, Piece.tokens_join]
  have hrefill : Piece.refill (Span.scan t) = Piece.refill (conversionPieces t) := by
    funext outs
    rw [← hpieces, Piece.refill_join]
  have hsame : convert t = convertClosedText t := by
    rw [convert_eq hmarkup hcall, convertClosedText, convertText_eq_map htoken, htokens, hrefill]
  have hkind := ignoresKind_convert hmarkup hcall { options, kind := .document } .library
  rw [← hsame]
  exact (Prod.ext_iff.1 hkind).1

private def closedBlocks : Text := "::if a::b ::set c::d::end::::end::".toList

/-- Two blocks, one inside the other. -/
theorem convert_agrees_closedBlocks :
    (('<' ∉ closedBlocks ∧ '$' ∉ closedBlocks ∧ closedBlocks.contains MacroToken.opening = false) ∧
      Partition.KeepsSpans closedBlocks) ∧
    ((convert closedBlocks).run.run { options := {}, kind := .library }).1 =
      ((convertClosedText closedBlocks).run.run { options := {}, kind := .document }).1 := by
  have hmarkup : '<' ∉ closedBlocks := by decide +kernel
  have hcall : '$' ∉ closedBlocks := by decide +kernel
  have htoken : closedBlocks.contains MacroToken.opening = false := by decide +kernel
  have hkeeps : Partition.KeepsSpans closedBlocks :=
    Partition.join_conversionPieces_iff.1 (by decide +kernel)
  exact ⟨⟨⟨hmarkup, hcall, htoken⟩, hkeeps⟩,
    (convert_agrees hmarkup hcall htoken).2 hkeeps {}⟩

/-- A word that starts a part stands behind a span: a library prints the span, a document loses
    it. -/
theorem convert_disagrees :
    ¬Partition.KeepsSpans "::a::if b".toList ∧
      ((convert "::a::if b".toList).run.run { options := {}, kind := .library }).1.toOption =
        some "\x7b\x7ba\x7d\x7dif b".toList ∧
      ((convertClosedText "::a::if b".toList).run.run
        { options := {}, kind := .document }).1.toOption = some "::a::if b".toList := by
  rw [← Partition.join_conversionPieces_iff]
  decide +kernel

end Library

end TemploTwig
