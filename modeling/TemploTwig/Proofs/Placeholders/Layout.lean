import TemploTwig.Proofs.Markup.Closed
import TemploTwig.Proofs.Markup.Fields
import TemploTwig.Proofs.Placeholders.Flow

/-!
# The layout of a template

A template is a list of stretches: runs of plain text, directives, macro calls, tokens in place of
calls, start tags and other markup.  The passes replace a construct here and there and leave the
rest of the layout as it is.  In an orderly layout the scanner finds the same stretches again behind
every pass, since nothing of what the passes put in can be taken for anything else.

Key results: `Stretch.isOrderly`, `Stretch.Stage`, `Stretch.segments_textAll`,
`Stretch.stage_ofSource`.
-/

namespace TemploTwig

variable {t rest source : Text} {c : Char} {ps : List (Piece Inline)}

/-! ## The marks of what the passes put in -/

namespace Document

/-- The marks of the artifacts.  Each artifact has one of them in it. -/
def strayMarks : List Text :=
  [Attribute.tokenMark, Family.holderMark, [Literal.ampersand], [Literal.lessThan],
    [Literal.greaterThan]]

theorem apart_strayMarks : Text.Apart strayMarks := Text.apart_of_all (by decide)

theorem nil_not_mem_strayMarks : [] ∉ strayMarks := apart_strayMarks.nil_not_mem

/-- A text without the marks of artifacts holds no stand-in. -/
theorem isStandIn_eq_false (h : Text.Free strayMarks t) (hc : c ∈ t) :
    Literal.isStandIn c = false := by
  have hmark (d : Char) (hd : [d] ∈ strayMarks) : c ≠ d := by
    rintro rfl
    exact h [c] hd ((List.singleton_infix_iff c t).2 hc)
  have h₁ := hmark Literal.ampersand (by simp [strayMarks])
  have h₂ := hmark Literal.lessThan (by simp [strayMarks])
  have h₃ := hmark Literal.greaterThan (by simp [strayMarks])
  simp [Literal.isStandIn, h₁, h₂, h₃]

end Document

open Document (strayMarks)

/-! ## Start tags -/

namespace Field

theorem split_prepend (t : Text) (ps : List (Piece Inline)) :
    split (Piece.prepend t ps) = (t ++ (split ps).1, (split ps).2) := by
  cases ps with
  | nil => simp [Piece.prepend, split]
  | cons p ps =>
    cases p with
    | plain u | token i => simp [Piece.prepend, split]

/-- `Field.split` keeps the pieces, up to how the runs are joined. -/
theorem join_split (ps : List (Piece Inline)) :
    Piece.join (.plain (split ps).1 :: pieces (split ps).2) = Piece.join ps := by
  induction ps with
  | nil => rfl
  | cons p ps ih =>
    cases p with
    | plain t =>
      rw [Piece.join_plain_cons, Piece.join_plain_cons, ← ih, Piece.join_plain_cons,
        Piece.ahead_ahead]
      rfl
    | token i =>
      show Piece.join (.plain [] :: .token i :: .plain (split ps).1 :: pieces (split ps).2) = _
      rw [Piece.join_plain_cons, Piece.ahead_nil, Piece.join, ih, Piece.join]

/-- `pieces` of fields spell `textAll`. -/
theorem renderAll_pieces (fields : List (Field × Text)) :
    Piece.renderAll Inline.source (pieces fields) = textAll fields := by
  induction fields with
  | nil => rfl
  | cons x fields ih =>
    obtain ⟨f, t⟩ := x
    rw [pieces_cons, textAll_cons, Piece.renderAll_cons, Piece.renderAll_cons, ih]
    cases f with
    | inline i => rfl
    | holder f n => rfl

theorem renderAll_split (ps : List (Piece Inline)) :
    Piece.renderAll Inline.source ps = (split ps).1 ++ textAll (split ps).2 := by
  rw [← Piece.renderAll_join, ← join_split, Piece.renderAll_join, Piece.renderAll_cons,
    renderAll_pieces]
  rfl

theorem infix_textAll_of_mem {f : Field} {fields : List (Field × Text)} (h : (f, t) ∈ fields) :
    f.text ++ t <:+: textAll fields := by
  obtain ⟨front, back, rfl⟩ := List.append_of_mem h
  rw [textAll, List.flatMap_append, List.flatMap_cons]
  exact ⟨_, _, List.append_assoc ..⟩

/-- `split` gives the inlines among the pieces. -/
theorem exists_of_mem_split {x : Field × Text} (h : x ∈ (split ps).2) :
    ∃ i, x.1 = inline i ∧ .token i ∈ ps := by
  induction ps with
  | nil => cases h
  | cons p ps ih =>
    have hlater (h : x ∈ (split ps).2) : ∃ i, x.1 = inline i ∧ .token i ∈ p :: ps := by
      obtain ⟨i, hx, hi⟩ := ih h
      exact ⟨i, hx, List.mem_cons_of_mem p hi⟩
    cases p with
    | plain t => exact hlater h
    | token i =>
      rcases List.mem_cons.1 h with rfl | h
      · exact ⟨i, rfl, List.mem_cons_self⟩
      · exact hlater h

/-- A construct that stands in a tag: a holder has an index below `bound`. -/
def Fits (bound : Nat) : Field → Prop
  | inline (.directive span) =>
    Text.Free strayMarks span ∧ ∃ b, Span.IsBody b ∧ span = Span.ofBody b
  | inline (.call _) => True
  | holder _ n => n < bound

end Field

namespace StartTag

/-- The runs that `StartTag.close?` finds are joined already. -/
theorem join_of_close? (h : close? t = some (ps, rest)) : Piece.join ps = ps := by
  fun_induction close? t generalizing ps rest with
  | case1 => cases h
  | case2 cs =>
    obtain ⟨rfl, -⟩ := Prod.mk.inj (Option.some.inj h)
    rfl
  | case3 => cases h
  | case4 c cs _ _ _ value r hcut ih =>
    obtain ⟨⟨qs, after⟩, hclose, heq⟩ := Option.map_eq_some_iff.1 h
    obtain ⟨rfl, rfl⟩ := Prod.mk.inj heq
    rw [Piece.join_prepend (by simp), ih hclose]
  | case5 => cases h
  | case6 c cs _ _ _ inline r htake ih =>
    obtain ⟨⟨qs, after⟩, hclose, heq⟩ := Option.map_eq_some_iff.1 h
    obtain ⟨rfl, rfl⟩ := Prod.mk.inj heq
    rw [Piece.join, ih hclose]
  | case7 c cs _ _ _ _ ih =>
    obtain ⟨⟨qs, after⟩, hclose, heq⟩ := Option.map_eq_some_iff.1 h
    obtain ⟨rfl, rfl⟩ := Prod.mk.inj heq
    rw [Piece.join_prepend (by simp), ih hclose]

/-- The name of a tag, and what `StartTag.close?` finds behind it. -/
theorem exists_of_take? {tag : StartTag} (h : take? t = some (tag, rest)) :
    ∃ c cs u ps, tag.name = c :: cs ∧ c.isAlpha = true ∧ (∀ d ∈ tag.name, isNameChar d = true) ∧
      (∀ d, u.head? = some d → isNameChar d = false) ∧ close? u = some (ps, rest) ∧
      tag.pieces = Piece.prepend ('<' :: tag.name) ps := by
  unfold take? at h
  split at h
  · next c cs =>
    split at h
    · next hc =>
      obtain ⟨⟨ps, after⟩, hclose, heq⟩ := Option.map_eq_some_iff.1 h
      obtain ⟨rfl, rfl⟩ := Prod.mk.inj heq
      have hname : isNameChar c = true := by
        simp [isNameChar, Char.isAlphanum, hc]
      refine ⟨c, cs.takeWhile isNameChar, _, ps, List.takeWhile_cons_of_pos hname, hc,
        fun d hd => List.mem_takeWhile_imp hd, fun d hd => ?_, hclose, rfl⟩
      have hhead := List.head?_dropWhile_not isNameChar (c :: cs)
      rw [hd] at hhead
      simpa using hhead
    · cases h
  · cases h

/-- A tag is found again in front of any text if what is behind its name is. -/
theorem take?_of_close? {cs : Text} (hc : c.isAlpha = true)
    (hname : ∀ d ∈ c :: cs, isNameChar d = true)
    (hends : ∀ d, t.head? = some d → isNameChar d = false) (h : close? t = some (ps, rest)) :
    take? ('<' :: c :: cs ++ t) =
      some (⟨c :: cs, Piece.prepend ('<' :: c :: cs) ps⟩, rest) := by
  have htake : (c :: (cs ++ t)).takeWhile isNameChar = c :: cs := Text.takeWhile_append hname hends
  have hdrop : (c :: (cs ++ t)).dropWhile isNameChar = t := Text.dropWhile_append hname hends
  show take? ('<' :: c :: (cs ++ t)) = _
  rw [take?, if_pos hc, htake, hdrop, h]
  rfl

end StartTag

/-! ## Stretches -/

/-- A stretch of a template: what the scanner finds there, or what a pass has put in its place. -/
inductive Stretch where
  | run (t : Text)
  /-- A directive in running text. -/
  | directive (span : Text)
  /-- A macro call in running text. -/
  | call (call : MacroCall)
  /-- The token in place of a call. -/
  | token (index : Nat)
  /-- A start tag: its name, the run behind the name, and the fields with the runs behind them. -/
  | tag (name lead : Text) (fields : List (Field × Text))
  /-- Any other markup. -/
  | markup (source : Text)

namespace Stretch

/-- The stretch as it is written. -/
def text : Stretch → Text
  | run t => t
  | directive span => span
  | call c => c.source
  | token i => MacroToken.ofIndex i
  | tag name lead fields => '<' :: name ++ (lead ++ Field.textAll fields)
  | markup m => m

/-- A layout as it is written. -/
def textAll (xs : List Stretch) : Text := xs.flatMap text

/-- The stretch as the scanner sees it. -/
def segment : Stretch → Segment
  | run t => .plain t
  | directive span => .token (.inline (.directive span))
  | call c => .token (.inline (.call c))
  | token i => .plain (MacroToken.ofIndex i)
  | tag name lead fields =>
    .token (.startTag ⟨name, Piece.prepend ('<' :: name)
      (Piece.join (.plain lead :: Field.pieces fields))⟩)
  | markup m => .token (.markup m)

/-- The stretch that a segment is. -/
def ofSegment : Segment → Stretch
  | .plain t => run t
  | .token (.inline (.directive span)) => directive span
  | .token (.inline (.call c)) => call c
  | .token (.startTag ⟨name, pieces⟩) =>
    tag name ((Field.split pieces).1.drop (1 + name.length)) (Field.split pieces).2
  | .token (.markup m) => markup m

/-- The layout of a template. -/
def ofSource (source : Text) : List Stretch := (segments source).map ofSegment

/-- What the stretch is to the running text around it. -/
def flow : Stretch → Flow
  | run t => .run t
  | directive span => .directive (Directive.classify span == .endBlock)
  | markup m => if m.startsWith "</".toList then .gap else .stop
  | _ => .stop

/-- Is the stretch plain text? -/
def isRun : Stretch → Bool
  | run _ => true
  | _ => false

/-- Is the stretch orderly?  A run opens no markup and holds neither `::` nor `$$`.  The body of a
    directive does not begin with a colon.  In a start tag the runs are calm, and every construct is
    a call or an attribute directive that stands between complete attributes.  Other markup is
    complete. -/
def isOrderly : Stretch → Bool
  | run t => decide (OpensNoMarkup t) && !t.contains [':', ':'] && !t.contains ['$', '$']
  -- A third colon could be taken for the end of a delimiter.
  | directive span => (span.drop 2).head? != some ':'
  | tag _ lead fields => Field.areOrderly Field.mayFollow lead fields
  | markup m => Token.endsAlike m
  | call _ | token _ => true

/-! ## Stages -/

/-- A start tag whose runs are orderly and hold no mark. -/
structure IsTag (bound : Nat) (name lead : Text) (fields : List (Field × Text)) : Prop where
  named : ∃ c cs, name = c :: cs ∧ c.isAlpha = true ∧ ∀ d ∈ name, StartTag.isNameChar d = true
  ends : ∀ d, lead.head? = some d → StartTag.isNameChar d = false
  orderly : Field.areOrderly Field.mayFollow lead fields = true
  free : Text.Free strayMarks (name ++ lead)
  each : ∀ x ∈ fields, x.1.Fits bound ∧ Text.Free strayMarks x.2

/-- The stretch is orderly, and what it has of the source holds no mark. -/
def Fits (bound : Nat) : Stretch → Prop
  | run t => (t ≠ [] ∧ OpensNoMarkup t) ∧ (¬[':', ':'] <:+: t ∧ ¬['$', '$'] <:+: t) ∧
    Text.Free strayMarks t
  | directive span => Text.Free strayMarks span ∧ ∃ b, span = Span.ofBody b ∧ Span.IsClearBody b
  | tag name lead fields => IsTag bound name lead fields
  | markup m => Token.IsClosed m ∧ Token.endsAlike m = true ∧ Text.Free strayMarks m
  | call _ | token _ => True

/-- What every pass keeps: the stretches fit, texts that may be put together hold no mark, and no
    run follows another. -/
structure Stage (bound : Nat) (xs : List Stretch) : Prop where
  fits : ∀ x ∈ xs, x.Fits bound
  flowing : Flow.Flowing strayMarks (xs.map flow)
  apart : (xs.map isRun).IsChain fun a b => a = true → b = false

/-- All constructs that are left satisfy `q`. -/
def Leaves (q : Inline → Prop) : Stretch → Prop
  | call c => q (.call c)
  | tag _ _ fields => ∀ x ∈ fields, ∀ i, x.1 = .inline i → q i
  | _ => True

variable {bound : Nat} {x : Stretch} {xs : List Stretch}

@[simp] theorem textAll_nil : textAll [] = [] := rfl

@[simp] theorem textAll_cons (x : Stretch) (xs : List Stretch) :
    textAll (x :: xs) = x.text ++ textAll xs := rfl

@[simp] theorem textAll_append (xs ys : List Stretch) :
    textAll (xs ++ ys) = textAll xs ++ textAll ys := List.flatMap_append

theorem render_segment (x : Stretch) : x.segment.render Token.source = x.text := by
  cases x with
  | tag name lead fields =>
    show Piece.renderAll Inline.source (Piece.prepend _ _) = _
    rw [Piece.renderAll_prepend, Piece.renderAll_join, Piece.renderAll_cons, Field.renderAll_pieces]
    rfl
  | run t | directive span | call c | token i | markup m => rfl

theorem renderAll_segment (xs : List Stretch) :
    Piece.renderAll Token.source (xs.map segment) = textAll xs := by
  induction xs with
  | nil => rfl
  | cons x xs ih => rw [List.map_cons, Piece.renderAll_cons, render_segment, ih, textAll_cons]

theorem Stage.tail (h : Stage bound (x :: xs)) : Stage bound xs where
  fits y hy := h.fits y (List.mem_cons_of_mem x hy)
  flowing := h.flowing.2.2
  apart := h.apart.tail

/-! ## The scanner finds the stretches again -/

/-- A tag without calls is found again in front of any text. -/
theorem IsTag.take? {name lead : Text} {fields : List (Field × Text)}
    (h : IsTag bound name lead fields)
    (hcalls : ∀ x ∈ fields, ∀ i, x.1 = .inline i → ∃ span, i = .directive span) (rest : Text) :
    Token.take? ((tag name lead fields).text ++ rest) =
      some (.startTag ⟨name, Piece.prepend ('<' :: name)
        (Piece.join (.plain lead :: Field.pieces fields))⟩, rest) := by
  obtain ⟨c, cs, rfl, hc, hname⟩ := h.named
  have hfound (y : Field × Text) (hy : y ∈ fields) : y.1.IsFound := by
    obtain ⟨f, t⟩ := y
    have hfits := (h.each _ hy).1
    cases f with
    | holder f n => trivial
    | inline i =>
      obtain ⟨span, rfl⟩ := hcalls _ hy i rfl
      exact hfits.2
  have hclose := Field.close?_fields h.orderly hfound rest
  -- The run behind the name is not empty, since a tag ends and a field needs a blank.
  have hends (d : Char) (hd : (lead ++ (Field.textAll fields ++ rest)).head? = some d) :
      StartTag.isNameChar d = false := by
    cases lead with
    | cons e lead => exact h.ends d hd
    | nil =>
      cases fields with
      | nil | cons y fields => cases h.orderly
  have htake := StartTag.take?_of_close? hc hname hends hclose
  have htext : (tag (c :: cs) lead fields).text ++ rest =
      '<' :: c :: cs ++ (lead ++ (Field.textAll fields ++ rest)) := by
    simp [text]
  have hmarkup : Token.takeMarkup? ('<' :: c :: cs ++ (lead ++ (Field.textAll fields ++ rest))) =
      some (.startTag ⟨c :: cs, Piece.prepend ('<' :: c :: cs)
        (Piece.join (.plain lead :: Field.pieces fields))⟩, rest) := by
    show Token.takeMarkup? ('<' :: c :: (cs ++ _)) = _
    rw [Token.takeMarkup?_of_isAlpha hc]
    show (StartTag.take? ('<' :: c :: cs ++ _)).map _ = _
    rw [htake]
    rfl
  rw [htext, Token.take?, hmarkup]

theorem IsClosed.head? {m : Text} (h : Token.IsClosed m) : m.head? = some '<' := by
  cases h with
  | comment h => exact h.head?
  | other heq hgt hcomment hopens =>
    rcases hopens with ⟨c, cs, rfl, -⟩ | ⟨c, cs, rfl, -⟩
    · rw [heq]; rfl
    · rw [heq]; rfl

/-- What a layout without calls begins with, unless it begins with a run. -/
theorem Stage.head?_textAll (h : Stage bound xs)
    (hcalls : ∀ x ∈ xs, x.Leaves fun i => ∃ span, i = .directive span)
    (hrun : ∀ x ∈ xs.head?, x.isRun = false) (hc : (textAll xs).head? = some c) :
    c = '[' ∨ c = ':' ∧ Flow.startsWithColon (xs.map flow) = true ∨ c = '<' := by
  cases xs with
  | nil => cases hc
  | cons x xs =>
    have hfits := h.fits x List.mem_cons_self
    cases x with
    | run t => cases hrun _ rfl
    | directive span =>
      obtain ⟨-, b, rfl, -⟩ := hfits
      exact .inr (.inl ⟨(Option.some.inj hc).symm, rfl⟩)
    | call call =>
      obtain ⟨span, hspan⟩ := hcalls _ List.mem_cons_self
      cases hspan
    | token i => exact .inl (Option.some.inj hc).symm
    | tag name lead fields => exact .inr (.inr (Option.some.inj hc).symm)
    | markup m =>
      have hm := IsClosed.head? hfits.1
      rw [textAll_cons, List.head?_append, show (markup m).text.head? = some '<' from hm] at hc
      exact .inr (.inr (Option.some.inj hc).symm)

/-- What follows a run of a layout without calls. -/
theorem Stage.head?_of_run (h : Stage bound (run t :: xs))
    (hcalls : ∀ x ∈ xs, x.Leaves fun i => ∃ span, i = .directive span)
    (hc : (textAll xs).head? = some c) :
    c = '[' ∨ c = ':' ∧ Flow.startsWithColon (xs.map flow) = true ∨ c = '<' := by
  refine h.tail.head?_textAll hcalls (fun y hy => ?_) hc
  cases xs with
  | nil => cases hy
  | cons z xs =>
    obtain rfl : z = y := Option.some.inj hy
    exact (List.isChain_cons_cons.1 h.apart).1 rfl

/-- The scanner of templates sees the stretches of a layout without calls as they are. -/
theorem Stage.loose (h : Stage bound xs)
    (hcalls : ∀ x ∈ xs, x.Leaves fun i => ∃ span, i = .directive span) :
    Token.recogniser.Loose Token.source (xs.map segment) := by
  induction xs with
  | nil => trivial
  | cons x xs ih =>
    have hxs := ih h.tail fun y hy => hcalls y (List.mem_cons_of_mem x hy)
    have hfits := h.fits x List.mem_cons_self
    -- A run is declined, and anything else is taken where it stands.
    have htake {token : Token} (hsegment : x.segment = .token token)
        (hnext : Token.take? (x.text ++ textAll xs) = some (token, textAll xs)) :
        Token.recogniser.Loose Token.source ((x :: xs).map segment) := by
      have htext : token.source = x.text := by
        rw [← render_segment, hsegment]
        rfl
      rw [List.map_cons, hsegment]
      refine ⟨?_, hxs⟩
      rw [renderAll_segment, htext]
      exact hnext
    cases x with
    | run t =>
      refine ⟨?_, hxs⟩
      rw [renderAll_segment]
      obtain ⟨⟨hne, hmarkup⟩, ⟨hcolons, hdollars⟩, -⟩ := hfits
      have hnext (c : Char) (hc : (textAll xs).head? = some c) :=
        h.head?_of_run (fun y hy => hcalls y (List.mem_cons_of_mem _ hy)) hc
      refine Token.declines_run (Span.declines_of_noPair ⟨hcolons, fun hlast hhead => ?_⟩)
        ⟨hdollars, fun _ hhead => ?_⟩ hmarkup fun _ c hc => ?_
      · -- A colon at the end of the run is not followed by another one.
        rcases hnext ':' hhead with hc | ⟨-, hcolon⟩ | hc
        · cases hc
        · have hmeets := h.flowing.1
          simp [flow, Flow.meets, hlast, hcolon] at hmeets
        · cases hc
      · rcases hnext '$' hhead with hc | ⟨hc, -⟩ | hc <;> cases hc
      · rcases hnext c hc with rfl | ⟨rfl, -⟩ | rfl <;> rfl
    | token i =>
      refine ⟨?_, hxs⟩
      rw [renderAll_segment]
      -- None of the characters of a token opens a construct.
      have hmissing {c : Char} (hc : Tables.isTokenChar c = false) : c ∉ MacroToken.ofIndex i := by
        intro hmem
        rw [Tables.isTokenChar_of_mem_ofIndex hmem] at hc
        cases hc
      have hlt : '<' ∉ MacroToken.ofIndex i := hmissing rfl
      refine Token.declines_run (Span.declines_of_noPair (Text.noPair_of_not_mem (hmissing rfl) _))
        (Text.noPair_of_not_mem (hmissing rfl) _) ?_ fun hlast => ?_
      · intro front c back heq
        exact absurd (by rw [heq]; simp) hlt
      · exact absurd (List.mem_of_getLast? hlast) hlt
    | directive span =>
      obtain ⟨-, b, rfl, hb⟩ := hfits
      exact htake rfl (Token.take?_span (Span.take?_ofBody hb.toIsBody _))
    | call call =>
      obtain ⟨span, hspan⟩ := hcalls _ List.mem_cons_self
      cases hspan
    | tag name lead fields => exact htake rfl (hfits.take? (hcalls _ List.mem_cons_self) _)
    | markup m => exact htake rfl (Token.take?_of_isClosed hfits.1 _)

/-- The scanner finds the stretches of a layout without calls again. -/
theorem Stage.segments_textAll (h : Stage bound xs)
    (hcalls : ∀ x ∈ xs, x.Leaves fun i => ∃ span, i = .directive span) :
    segments (textAll xs) = Piece.join (xs.map segment) := by
  rw [segments, ← renderAll_segment]
  exact Recogniser.scan_renderAll_of_loose (h.loose hcalls)

/-! ## The layout of a template -/

/-- `ofSegment` loses nothing of a segment. -/
theorem segment_ofSegment {s : Segment} (h : s ∈ segments source) : (ofSegment s).segment = s := by
  cases s with
  | plain t => rfl
  | token token =>
    cases token with
    | inline i =>
      cases i with
      | directive span => rfl
      | call c => rfl
    | markup m => rfl
    | startTag tag =>
      obtain ⟨t, rest, htake⟩ := exists_take?_of_mem_segments h
      rcases Token.take?_cases htake with ⟨m, hm, -⟩ | ⟨tag', htag, htake'⟩ | ⟨i, hi, -⟩
      · cases hm
      · obtain rfl := Token.startTag.inj htag
        obtain ⟨c, cs, u, ps, -, -, -, -, hclose, hpieces⟩ := StartTag.exists_of_take? htake'
        obtain ⟨name, pieces⟩ := tag
        obtain rfl : pieces = Piece.prepend ('<' :: name) ps := hpieces
        -- The name is taken off the first run and put in front again.
        have hlead : (Field.split (Piece.prepend ('<' :: name) ps)).1.drop (1 + name.length) =
            (Field.split ps).1 := by
          rw [Field.split_prepend, Nat.add_comm]
          exact List.drop_left
        rw [ofSegment, segment, hlead, Field.split_prepend, Field.join_split,
          StartTag.join_of_close? hclose]
      · cases hi

theorem map_segment_ofSource (source : Text) : (ofSource source).map segment = segments source := by
  rw [ofSource, List.map_map]
  exact List.map_congr_left (fun s hs => segment_ofSegment hs) |>.trans (List.map_id _)

theorem textAll_ofSource (source : Text) : textAll (ofSource source) = source := by
  rw [← renderAll_segment, map_segment_ofSource, renderAll_segments]

theorem text_infix_of_mem (h : x ∈ xs) : x.text <:+: textAll xs := by
  obtain ⟨front, back, rfl⟩ := List.append_of_mem h
  rw [textAll_append, textAll_cons]
  exact ⟨textAll front, textAll back, List.append_assoc ..⟩

/-- A start tag of an orderly template. -/
theorem isTag_of_mem_segments {name : Text} {pieces : List (Piece Inline)}
    (h : .token (.startTag ⟨name, pieces⟩) ∈ segments source)
    (hfree : Text.Free strayMarks (ofSegment (.token (.startTag ⟨name, pieces⟩))).text)
    (horderly : isOrderly (ofSegment (.token (.startTag ⟨name, pieces⟩))) = true) :
    Fits bound (ofSegment (.token (.startTag ⟨name, pieces⟩))) := by
  obtain ⟨t, rest, htake⟩ := exists_take?_of_mem_segments h
  rcases Token.take?_cases htake with ⟨m, hm, -⟩ | ⟨tag', htag, htake'⟩ | ⟨i, hi, -⟩
  · cases hm
  · obtain rfl := Token.startTag.inj htag
    obtain ⟨c, cs, u, ps, hname, hc, hchars, hends, hclose, hpieces⟩ :=
      StartTag.exists_of_take? htake'
    obtain rfl : pieces = Piece.prepend ('<' :: name) ps := hpieces
    have hlead : (Field.split (Piece.prepend ('<' :: name) ps)).1.drop (1 + name.length) =
        (Field.split ps).1 := by
      rw [Field.split_prepend, Nat.add_comm]
      exact List.drop_left
    rw [ofSegment, hlead, Field.split_prepend] at hfree horderly ⊢
    dsimp only at hfree horderly ⊢
    have hu : u = (Field.split ps).1 ++ Field.textAll (Field.split ps).2 ++ rest := by
      rw [← Field.renderAll_split, ← StartTag.close?_eq_append hclose]
    refine ⟨⟨c, cs, hname, hc, hchars⟩, fun d hd => hends d ?_, horderly, hfree.of_infix ?_, ?_⟩
    · rw [hu, List.append_assoc, List.head?_append, hd]
      rfl
    · exact ⟨['<'], Field.textAll (Field.split ps).2, by simp [text]⟩
    · rintro ⟨f, v⟩ hx
      have hwithin := (Field.infix_textAll_of_mem hx).trans
        (List.suffix_append ('<' :: name ++ (Field.split ps).1) _).isInfix
      rw [List.append_assoc] at hwithin
      have hx' := hfree.of_infix hwithin
      refine ⟨?_, hx'.of_infix (List.suffix_append _ _).isInfix⟩
      obtain ⟨i, rfl, hi⟩ := Field.exists_of_mem_split hx
      cases i with
      | call c => trivial
      | directive span =>
        obtain ⟨w, after, hinline⟩ := StartTag.exists_take?_of_close? hclose hi
        exact ⟨hx'.of_infix (List.prefix_append _ _).isInfix, Inline.exists_isBody_of_take? hinline⟩
  · cases hi

/-- The stretches of an orderly template without marks fit. -/
theorem fits_ofSegment {s : Segment} (h : s ∈ segments source)
    (hfree : Text.Free strayMarks (ofSegment s).text) (horderly : (ofSegment s).isOrderly = true) :
    (ofSegment s).Fits bound := by
  cases s with
  | plain t =>
    have hjoined : Piece.Joined (segments source) := by
      rw [segments, ← Piece.join_scan]
      exact Piece.joined_join _
    simp only [ofSegment, isOrderly, Bool.and_eq_true, decide_eq_true_iff, Bool.not_eq_true',
      Text.contains_eq_false_iff] at horderly
    exact ⟨⟨hjoined.ne_nil h, horderly.1.1⟩, ⟨horderly.1.2, horderly.2⟩, hfree⟩
  | token token =>
    cases token with
    | startTag tag => exact isTag_of_mem_segments h hfree horderly
    | inline i =>
      cases i with
      | call c => trivial
      | directive span =>
        obtain ⟨t, rest, htake⟩ := exists_take?_of_mem_segments h
        rcases Token.take?_cases htake with ⟨m, hm, -⟩ | ⟨tag, htag, -⟩ | ⟨i, hi, hinline⟩
        · cases hm
        · cases htag
        · obtain rfl := Token.inline.inj hi
          obtain ⟨b, hb, rfl⟩ := Inline.exists_isBody_of_take? hinline
          refine ⟨hfree, b, rfl, hb, ?_⟩
          simp only [ofSegment, isOrderly, bne_iff_ne] at horderly
          cases b with
          | nil => simp
          | cons d b => exact horderly
    | markup m =>
      obtain ⟨t, rest, htake⟩ := exists_take?_of_mem_segments h
      rcases Token.take?_cases htake with ⟨m', hm, hmarkup⟩ | ⟨tag, htag, -⟩ | ⟨i, hi, -⟩
      · obtain rfl := Token.markup.inj hm
        exact ⟨Token.isClosed_of_takeMarkup? hmarkup horderly, horderly, hfree⟩
      · cases htag
      · cases hi

/-- Markup has brackets around it. -/
theorem bounded_of_isClosed {m : Text} (h : Token.IsClosed m) :
    Text.Bounded openChars closeChars m := by
  have hhead : ∃ c cs, m = c :: cs ∧ c ∈ openChars := by
    obtain ⟨cs, hcs⟩ := List.head?_eq_some_iff.1 (IsClosed.head? h)
    exact ⟨'<', cs, hcs, by decide⟩
  refine ⟨hhead, ?_⟩
  cases h with
  | comment h =>
    obtain ⟨content, rfl, -⟩ := h
    exact ⟨"<!--".toList ++ content ++ "--".toList, '>', by simp, by decide⟩
  | @other front heq hgt hcomment hopens => exact ⟨front, '>', heq, by decide⟩

/-- The plain text that may be put together from the front of a layout is what is left of the text
    without some of its tags and directives. -/
theorem exists_shortens_runsIn (hfits : ∀ x ∈ xs, x.Fits bound) :
    ∃ front back, textAll xs = front ++ back ∧
      Text.Shortens openChars closeChars front (Flow.runsIn (xs.map flow)) := by
  induction xs with
  | nil => exact ⟨[], [], rfl, .refl⟩
  | cons x xs ih =>
    obtain ⟨front, back, htext, hshortens⟩ := ih fun y hy => hfits y (List.mem_cons_of_mem x hy)
    have hstop (hruns : Flow.runsIn ((x :: xs).map flow) = []) :
        ∃ front back, textAll (x :: xs) = front ++ back ∧
          Text.Shortens openChars closeChars front (Flow.runsIn ((x :: xs).map flow)) :=
      ⟨[], textAll (x :: xs), rfl, by rw [hruns]; exact .refl⟩
    have hskip (hruns : Flow.runsIn ((x :: xs).map flow) = Flow.runsIn (xs.map flow))
        (hbounded : Text.Bounded openChars closeChars x.text) :
        ∃ front back, textAll (x :: xs) = front ++ back ∧
          Text.Shortens openChars closeChars front (Flow.runsIn ((x :: xs).map flow)) := by
      refine ⟨x.text ++ front, back, by rw [textAll_cons, htext, List.append_assoc], ?_⟩
      rw [hruns]
      exact (Text.Shortens.skip [] front hbounded).trans hshortens
    have hx := hfits x List.mem_cons_self
    cases x with
    | run t =>
      refine ⟨t ++ front, back, by rw [textAll_cons, htext, List.append_assoc]; rfl, ?_⟩
      have hbetween := hshortens.between t []
      rwa [List.append_nil, List.append_nil] at hbetween
    | directive span =>
      obtain ⟨-, b, rfl, -⟩ := hx
      cases hend : Directive.classify (Span.ofBody b) == .endBlock with
      | true =>
        refine hskip (by simp [flow, hend, Flow.runsIn]) ⟨⟨':', _, rfl, by decide⟩, ?_⟩
        exact ⟨':' :: ':' :: b ++ [':'], ':', by simp [text, Span.ofBody, Span.delimiter], by decide⟩
      | false => exact hstop (by simp [flow, hend, Flow.runsIn])
    | markup m =>
      cases hgap : m.startsWith "</".toList with
      | true =>
        exact hskip (by rw [List.map_cons, flow, if_pos hgap, Flow.runsIn]) (bounded_of_isClosed hx.1)
      | false =>
        exact hstop (by rw [List.map_cons, flow, if_neg (Bool.eq_false_iff.1 hgap)]; rfl)
    | call c | token i | tag name lead fields => exact hstop rfl

/-- `Flowing` holds of stretches whose text is free of stray marks. -/
theorem flowing_of_everFree (hfits : ∀ x ∈ xs, x.Fits bound) (hflows : Flow.flows (xs.map flow) = true)
    (hfree : Text.EverFree strayMarks openChars closeChars (textAll xs)) :
    Flow.Flowing strayMarks (xs.map flow) := by
  induction xs with
  | nil => trivial
  | cons x xs ih =>
    obtain ⟨hmeets, hflows'⟩ := Bool.and_eq_true_iff.1 hflows
    obtain ⟨front, back, htext, hshortens⟩ := exists_shortens_runsIn hfits
    have hfront := hfree.of_within (htext ▸ (List.prefix_append front back).isInfix)
    have hrest := hfree.of_within (List.suffix_append x.text (textAll xs)).isInfix
    exact ⟨hmeets, hfront _ hshortens,
      ih (fun y hy => hfits y (List.mem_cons_of_mem x hy)) hflows' hrest⟩

theorem isRun_ofSegment_token (a : Token) : (ofSegment (.token a)).isRun = false := by
  cases a with
  | inline i => cases i <;> rfl
  | startTag tag | markup m => rfl

/-- `ofSegment` makes no two runs in a row of joined segments. -/
theorem isChain_isRun {ps : List Segment} (h : Piece.Joined ps) :
    ((ps.map ofSegment).map isRun).IsChain fun a b => a = true → b = false := by
  induction ps with
  | nil => exact .nil
  | cons p ps ih =>
    cases p with
    | token a =>
      rw [List.map_cons, List.map_cons, isRun_ofSegment_token]
      exact List.isChain_cons.2 ⟨fun b _ hfalse => (by cases hfalse), ih h⟩
    | plain t =>
      obtain ⟨-, hstarts, hps⟩ := h
      refine List.isChain_cons.2 ⟨fun b hb _ => ?_, ih hps⟩
      -- No run follows a run.
      match ps, hstarts, hb with
      | .plain u :: ps, hstarts, _ => exact absurd ⟨u, ps, rfl⟩ hstarts
      | .token a :: ps, _, hb =>
        rw [← Option.some.inj hb]
        exact isRun_ofSegment_token a

end Stretch

namespace Document

/-- Is every stretch of the template orderly by itself (`Stretch.isOrderly`), and does no delimiter
    come about where two of them meet (`Flow.flows`)? -/
def isOrderly (source : Text) : Bool :=
  (Stretch.ofSource source).all Stretch.isOrderly &&
    Flow.flows ((Stretch.ofSource source).map Stretch.flow)

end Document

/-- The layout of an orderly template. -/
theorem Stretch.stage_ofSource {bound : Nat} (horderly : Document.isOrderly source = true)
    (hfree : Text.EverFree strayMarks openChars closeChars source) :
    Stage bound (ofSource source) := by
  obtain ⟨hall, hflows⟩ := Bool.and_eq_true_iff.1 horderly
  have hfits (x : Stretch) (hx : x ∈ ofSource source) : x.Fits bound := by
    have hwithin := text_infix_of_mem hx
    rw [textAll_ofSource] at hwithin
    have hx' := List.all_eq_true.1 hall x hx
    obtain ⟨s, hs, rfl⟩ := List.mem_map.1 hx
    exact fits_ofSegment hs (hfree.free.of_infix hwithin) hx'
  refine ⟨hfits, flowing_of_everFree hfits hflows ((textAll_ofSource source).symm ▸ hfree), ?_⟩
  refine isChain_isRun ?_
  rw [segments, ← Piece.join_scan]
  exact Piece.joined_join _

end TemploTwig
