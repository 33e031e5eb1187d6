import TemploTwig.Proofs.Markup.TagPieces

/-!
# The segments of canonical markup

The passes over a template do not know the tree that its markup spells; they see segments.  For a
canonical tree these are the segments that one would write down node by node: the spans of a text
and the runs between them, one segment for each comment and each tag.
-/

namespace TemploTwig

/-! ## Reading the segments off a tree -/

/-- The segment that a piece of text is. -/
def Piece.toSegment : Piece Text → Segment
  | .plain run => .plain run
  | .token span => .token (.inline (.directive span))

/-- `toSegment` keeps the text of the pieces. -/
theorem Piece.renderAll_map_toSegment (ps : List (Piece Text)) :
    renderAll Token.source (ps.map toSegment) = renderAll id ps := by
  induction ps with
  | nil => rfl
  | cons p ps ih =>
    rw [List.map_cons, renderAll_cons, renderAll_cons, ih]
    cases p <;> rfl

/-- The segments of an end tag. -/
def Tag.endSegments (tag : Tag) : List Segment :=
  if tag.form = .normal then [.token (.markup tag.endText)] else []

/-- The segments of an end tag spell it. -/
theorem Tag.renderAll_endSegments (tag : Tag) :
    Piece.renderAll Token.source tag.endSegments = tag.endText := by
  rw [endSegments]
  split
  · simp [Piece.render, Token.source]
  · next h => rw [endText, if_neg h]; rfl

namespace Node

mutual

/-- The segments of a node. -/
def segments : Node → List Segment
  | .text content => (Span.scan content).map Piece.toSegment
  | .raw source => [.token (.markup source)]
  | .element tag children =>
    .token (.startTag tag.start) ::
      ((if tag.showsChildren then segmentsAll children else []) ++ tag.endSegments)

/-- The segments of a list of nodes. -/
def segmentsAll : List Node → List Segment
  | [] => []
  | n :: ns => segments n ++ segmentsAll ns

end

mutual

/-- The `segments` of a node spell its `source`. -/
theorem renderAll_segments : (n : Node) → Piece.renderAll Token.source n.segments = n.source
  | .text content => by
    rw [segments, Piece.renderAll_map_toSegment, source]
    exact Span.recogniser.renderAll_scan id Span.take?_eq_append content
  | .raw source => by
    rw [segments, Node.source]
    simp [Piece.render, Token.source]
  | .element tag children => by
    have hchildren := renderAll_segmentsAll children
    rw [segments, source, Piece.renderAll_cons, Piece.renderAll_append, tag.renderAll_endSegments,
      Piece.render, Token.source, tag.source_start]
    split
    · rw [hchildren, List.append_assoc]
    · simp

/-- The `segmentsAll` of a tree spell its `sourceAll`. -/
theorem renderAll_segmentsAll :
    (ns : List Node) → Piece.renderAll Token.source (segmentsAll ns) = sourceAll ns
  | [] => rfl
  | n :: ns => by
    rw [segmentsAll, sourceAll, Piece.renderAll_append, renderAll_segments n,
      renderAll_segmentsAll ns]

end

end Node

/-! ## Where the markup starts -/

/-- Nothing follows, or a token that starts with `<`. -/
def BeginsMarkup (qs : List Segment) : Prop :=
  qs = [] ∨ ∃ token rest, qs = .token token :: rest ∧ token.source.head? = some '<'

namespace BeginsMarkup

variable {qs : List Segment}

/-- Where markup begins, no plain run does. -/
theorem not_startsPlain (h : BeginsMarkup qs) : ¬Piece.StartsPlain qs := by
  rcases h with rfl | ⟨token, rest, rfl, -⟩
  · exact Piece.not_startsPlain_nil
  · exact Piece.not_startsPlain_token token rest

/-- Where markup begins, the text begins with `<`. -/
theorem head?_renderAll (h : BeginsMarkup qs) {c : Char}
    (hc : (Piece.renderAll Token.source qs).head? = some c) : c = '<' := by
  rcases h with rfl | ⟨token, rest, rfl, hhead⟩
  · cases hc
  · rw [Piece.renderAll_cons, Piece.render, List.head?_append, hhead, Option.some_or,
      Option.some.injEq] at hc
    exact hc.symm

end BeginsMarkup

namespace Tag

theorem head?_startText (tag : Tag) : tag.startText.head? = some '<' := rfl

/-- An end tag, if there is one, begins with markup. -/
theorem beginsMarkup_endSegments (tag : Tag) {qs : List Segment}
    (h : tag.form ≠ .normal → BeginsMarkup qs) : BeginsMarkup (tag.endSegments ++ qs) := by
  rw [endSegments]
  split
  · next hform => exact .inr ⟨_, qs, rfl, by rw [Token.source, endText, if_pos hform]; rfl⟩
  · next hform => exact h hform

end Tag

/-- A comment begins with `<`. -/
theorem Node.IsComment.head? {source : Text} (h : Node.IsComment source) :
    source.head? = some '<' := by
  obtain ⟨content, rfl, -⟩ := h
  rfl

/-- Where nodes that do not start with text begin, markup begins. -/
theorem Node.beginsMarkup_segmentsAll {A : Attribute → Prop} {owner after : Text} {ns : List Node}
    (h : CanonicalAll A owner after ns) (htext : startsWithText ns = false) {qs : List Segment}
    (hqs : BeginsMarkup qs) : BeginsMarkup (segmentsAll ns ++ qs) := by
  cases ns with
  | nil => exact hqs
  | cons n ns =>
    obtain ⟨hn, -⟩ := h
    rw [segmentsAll, List.append_assoc]
    cases n with
    | text content => cases htext
    | raw source =>
      exact .inr ⟨.markup source, _, rfl, IsComment.head? hn⟩
    | element tag children =>
      refine .inr ⟨.startTag tag.start, _, by rw [segments]; rfl, ?_⟩
      rw [Token.source, tag.source_start]
      exact tag.head?_startText

/-! ## Each construct is found where it stands -/

namespace Token

/-- `takeMarkup?` declines a `<` that `opensMarkup` does not make one of. -/
theorem takeMarkup?_eq_none {t : Text} (h : ∀ c cs, t = '<' :: c :: cs → opensMarkup c = false) :
    takeMarkup? t = none := by
  -- Each kind of markup is told by the character behind the `<`.
  have hcomment : Text.stripStart? "<!--".toList t = none := by
    rw [Option.eq_none_iff_forall_ne_some]
    intro rest hrest
    cases h '!' _ (Text.stripStart?_eq_some_iff.1 hrest)
  have htag : StartTag.take? t = none := by
    rw [StartTag.take?.eq_def]
    split
    · next c cs =>
      have hc : c.isAlpha = false := by
        have := h c cs rfl
        simp only [opensMarkup, Bool.or_eq_false_iff] at this
        exact this.1.1.1
      rw [if_neg (by simp [hc])]
    · rfl
  rw [takeMarkup?.eq_def, hcomment]
  simp only
  split
  · next c cs => cases h '/' _ rfl
  · next cs => cases h '!' _ rfl
  · next cs => cases h '?' _ rfl
  · rw [htag]; rfl

/-- `takeMarkup?` at a letter is `StartTag.take?`. -/
theorem takeMarkup?_of_isAlpha {c : Char} (hc : c.isAlpha = true) (cs : Text) :
    takeMarkup? ('<' :: c :: cs) =
      (StartTag.take? ('<' :: c :: cs)).map fun (tag, rest) => (startTag tag, rest) := by
  have hcomment : Text.stripStart? "<!--".toList ('<' :: c :: cs) = none := by
    rw [Option.eq_none_iff_forall_ne_some]
    intro rest hrest
    obtain ⟨-, htail⟩ := List.cons.inj (Text.stripStart?_eq_some_iff.1 hrest)
    obtain ⟨rfl, -⟩ := List.cons.inj htail
    cases hc
  -- Each of the other constructs has a sign behind its `<` that is no letter.
  rw [takeMarkup?.eq_def, hcomment]
  simp only
  split
  · next heq =>
    obtain ⟨rfl, -⟩ := List.cons.inj (List.cons.inj heq).2
    cases hc
  · next heq =>
    obtain ⟨rfl, -⟩ := List.cons.inj (List.cons.inj heq).2
    cases hc
  · next heq =>
    obtain ⟨rfl, -⟩ := List.cons.inj (List.cons.inj heq).2
    cases hc
  · rfl

/-- `Token.take?` takes a start tag whole. -/
theorem take?_startText {tag : Tag} (hname : Tag.IsName tag.name)
    (hattributes : ∀ a ∈ tag.attributes, a.IsCanonical ∨ a.IsSlot) (rest : Text) :
    take? (tag.startText ++ rest) = some (.startTag tag.start, rest) := by
  have htake := StartTag.take?_startText hname hattributes rest
  obtain ⟨c, cs, heq, hc, -⟩ := hname
  rw [Tag.startText_append, heq, List.cons_append] at htake ⊢
  rw [take?, takeMarkup?_of_isAlpha hc, htake]
  rfl

/-- `Token.take?` takes an end tag whole. -/
theorem take?_endText {tag : Tag} (hname : Tag.IsName tag.name) (hform : tag.form = .normal)
    (rest : Text) : take? (tag.endText ++ rest) = some (.markup tag.endText, rest) := by
  have hgt : '>' ∉ "</".toList ++ tag.name := by
    intro h
    rcases List.mem_append.1 h with h | h
    · exact absurd h (by decide)
    · exact hname.ne_of_mem h (by decide) rfl
  -- There is no `>` in the name, so the end tag ends at its own.
  have hclose : takeToClose? (tag.endText ++ rest) = some (.markup tag.endText, rest) := by
    have hcut := Text.cut?_char rest hgt
    rw [Tag.endText, if_pos hform, List.append_assoc, List.singleton_append, takeToClose?, hcut]
    rfl
  have htext : tag.endText = '<' :: '/' :: (tag.name ++ ['>']) := by
    rw [Tag.endText, if_pos hform]
    rfl
  obtain ⟨c, cs, heq, hc, -⟩ := hname
  have hmarkup : takeMarkup? (tag.endText ++ rest) = takeToClose? (tag.endText ++ rest) := by
    rw [htext, heq]
    show takeMarkup? ('<' :: '/' :: c :: (cs ++ ['>'] ++ rest)) = _
    rw [takeMarkup?.eq_def]
    simp [Text.stripStart?, hc]
  rw [take?, hmarkup, hclose]

/-- `Token.take?` takes a comment whole. -/
theorem take?_comment {source : Text} (h : Node.IsComment source) (rest : Text) :
    take? (source ++ rest) = some (.markup source, rest) := by
  obtain ⟨content, rfl, hcut⟩ := h
  have hmore := Text.cut?_append_of_some hcut rest
  rw [List.nil_append] at hmore
  have htake : takeMarkup? ("<!--".toList ++ content ++ "-->".toList ++ rest) =
      some (.markup ("<!--".toList ++ content ++ "-->".toList), rest) := by
    rw [List.append_assoc, List.append_assoc, takeMarkup?.eq_def, Text.stripStart?_append]
    simp only
    rw [takeComment, ← List.append_assoc, hmore]
  rw [take?, htake]

/-- `Token.take?` takes a span where it stands. -/
theorem take?_span {span t rest : Text} (h : Span.take? t = some (span, rest)) :
    take? t = some (.inline (.directive span), rest) := by
  have hmarkup : takeMarkup? t = none := by
    refine takeMarkup?_eq_none ?_
    rintro c cs rfl
    cases h
  rw [take?, hmarkup]
  simp only [Inline.take?, h]
  rfl

end Token

/-- `Settled` segments stay so behind an end tag. -/
theorem Tag.settled_endSegments (tag : Tag) (hname : IsName tag.name) {qs : List Segment}
    (hqs : Token.recogniser.Settled Token.source qs) :
    Token.recogniser.Settled Token.source (tag.endSegments ++ qs) := by
  rw [endSegments]
  split
  · next hform => exact ⟨Token.take?_endText hname hform _, hqs⟩
  · exact hqs

/-! ## The whole markup -/

/-- `Span.take?` takes a span that starts with a colon. -/
theorem Span.head?_of_take? {t span rest : Text} (h : take? t = some (span, rest)) :
    span.head? = some ':' := by
  obtain ⟨b, rfl⟩ := exists_ofBody_of_take? h
  rfl

/-- `Token.take?` declines in a run whose `<` are no markup. -/
theorem Token.declines_run {run rest : Text} (hspan : Span.recogniser.Declines run rest)
    (hcalls : Text.NoPair '$' run rest) (hmarkup : OpensNoMarkup run)
    (hrest : run.getLast? = some '<' → ∀ c, rest.head? = some c → opensMarkup c = false) :
    Token.recogniser.Declines run rest := by
  intro front back hrun hne
  have hnone : Token.takeMarkup? (back ++ rest) = none := by
    refine takeMarkup?_eq_none ?_
    intro c cs htext
    -- The character behind the `<` is in the run, or it is the first one behind it.
    match back, hne, htext with
    | [d], _, htext =>
      obtain ⟨rfl, htail⟩ := List.cons.inj htext
      exact hrest (by rw [hrun, List.getLast?_concat]) c (by rw [show rest = c :: cs from htail]; rfl)
    | d :: e :: back, _, htext =>
      obtain ⟨rfl, htail⟩ := List.cons.inj htext
      obtain ⟨rfl, -⟩ := List.cons.inj htail
      exact hmarkup front e back hrun
  -- Nor does a directive or a macro call start here.
  have hinline : Inline.take? (back ++ rest) = none :=
    Inline.take?_eq_none (hspan front back hrun hne) (hcalls.not_prefix hrun hne)
  show Token.take? (back ++ rest) = none
  rw [Token.take?, hnone]
  simp only [hinline]
  rfl

/-- The pieces of a text are `Settled` in front of markup. -/
private theorem settled_map_toSegment {ps : List (Piece Text)} {qs : List Segment}
    (hps : Span.recogniser.Settled id ps)
    (hapart : Span.StayApart (Piece.renderAll Token.source qs) ps)
    (hdollar : '$' ∉ Piece.renderAll id ps) (hmarkup : ∀ run, .plain run ∈ ps → OpensNoMarkup run)
    (hqs : Token.recogniser.Settled Token.source qs) (hbegins : BeginsMarkup qs) :
    Token.recogniser.Settled Token.source (ps.map Piece.toSegment ++ qs) := by
  induction ps with
  | nil => exact hqs
  | cons p ps ih =>
    have hrender : Piece.renderAll Token.source (ps.map Piece.toSegment ++ qs) =
        Piece.renderAll id ps ++ Piece.renderAll Token.source qs := by
      rw [Piece.renderAll_append, Piece.renderAll_map_toSegment]
    rw [Piece.renderAll_cons, List.mem_append, not_or] at hdollar
    have hmarkup' : ∀ run, .plain run ∈ ps → OpensNoMarkup run :=
      fun run hrun => hmarkup run (List.mem_cons_of_mem _ hrun)
    cases p with
    | plain run =>
      obtain ⟨hne, -, hstart, hps⟩ := hps
      obtain ⟨hdecl, hapart⟩ := hapart
      -- Behind the run comes a span, or the markup.
      have hnext : ¬Piece.StartsPlain (ps.map Piece.toSegment ++ qs) ∧
          ∀ c, (Piece.renderAll id ps ++ Piece.renderAll Token.source qs).head? = some c →
            opensMarkup c = false := by
        match ps, hps, hstart with
        | [], _, _ =>
          refine ⟨hbegins.not_startsPlain, ?_⟩
          intro c hc
          rw [hbegins.head?_renderAll hc]
          rfl
        | .plain u :: ps, _, hstart => exact absurd ⟨u, ps, rfl⟩ hstart
        | .token span :: ps, hps, _ =>
          refine ⟨Piece.not_startsPlain_token _ _, ?_⟩
          intro c hc
          have hhead := Span.head?_of_take? hps.1
          simp only [Piece.renderAll_cons, Piece.render, id, List.head?_append, hhead,
            Option.some_or, Option.some.injEq] at hc
          rw [← hc]
          rfl
      rw [List.map_cons, Piece.toSegment, List.cons_append, Recogniser.settled_plain_cons_iff,
        hrender]
      refine ⟨hne, ?_, hnext.1, ih hps hapart hdollar.2 hmarkup'⟩
      exact Token.declines_run hdecl (Text.noPair_of_not_mem hdollar.1 _)
        (hmarkup run List.mem_cons_self) fun _ => hnext.2
    | token span =>
      obtain ⟨hspan, hps⟩ := hps
      rw [List.map_cons, Piece.toSegment, List.cons_append, Recogniser.settled_token_cons_iff,
        hrender]
      refine ⟨?_, ih hps hapart hdollar.2 hmarkup'⟩
      rw [← List.append_assoc]
      exact Token.take?_span (Span.take?_append_of_some hspan _)

namespace Node

variable {A : Attribute → Prop}

mutual

/-- The `segments` of a canonical node are `Settled` in front of settled ones. -/
theorem settled_segments (hA : ∀ a, A a → a.IsCanonical ∨ a.IsSlot) :
    (n : Node) → {owner : Text} → {qs : List Segment} →
      n.Canonical A owner (Piece.renderAll Token.source qs) →
      Token.recogniser.Settled Token.source qs →
      (n.isText = true ∨ n.isUnclosed = true → BeginsMarkup qs) →
      Token.recogniser.Settled Token.source (n.segments ++ qs)
  | .text content, _, qs, h, hqs, hbegins => by
    have hcontent : '$' ∉ Piece.renderAll id (Span.scan content) := by
      have hscan := Span.recogniser.renderAll_scan id Span.take?_eq_append content
      rw [Span.scan, hscan]
      exact h.no_dollar
    exact settled_map_toSegment
      (Span.recogniser.settled_scan id Span.take?_eq_append content) h.apart hcontent h.no_markup
      hqs (hbegins (.inl rfl))
  | .raw source, _, qs, h, hqs, _ => ⟨Token.take?_comment h _, hqs⟩
  | .element tag children, owner, qs, h, hqs, hbegins => by
    obtain ⟨htag, -, hchildren⟩ := h
    -- From the back to the front: the end tag, the children, the start tag.
    have hend : Token.recogniser.Settled Token.source (tag.endSegments ++ qs) :=
      tag.settled_endSegments htag.name hqs
    have hrest : Token.recogniser.Settled Token.source
        ((if tag.showsChildren then segmentsAll children else []) ++ (tag.endSegments ++ qs)) := by
      cases hshows : tag.showsChildren with
      | false => exact hend
      | true =>
        rw [← tag.renderAll_endSegments, ← Piece.renderAll_append] at hchildren
        refine settled_segmentsAll hA children hchildren hend ?_
        -- An end tag is markup, and behind a missing one comes what ends the parent.
        refine tag.beginsMarkup_endSegments ?_
        intro hform
        refine hbegins (.inr ?_)
        simpa [isUnclosed, Tag.showsChildren, hform] using hshows
    rw [segments, List.cons_append, List.append_assoc, Recogniser.settled_token_cons_iff,
      Token.source, tag.source_start]
    exact ⟨Token.take?_startText htag.name (fun a ha => hA a (htag.attributes a ha)) _, hrest⟩

/-- The `segmentsAll` of a canonical tree are `Settled` in front of settled ones. -/
theorem settled_segmentsAll (hA : ∀ a, A a → a.IsCanonical ∨ a.IsSlot) :
    (ns : List Node) → {owner : Text} → {qs : List Segment} →
      CanonicalAll A owner (Piece.renderAll Token.source qs) ns →
      Token.recogniser.Settled Token.source qs → BeginsMarkup qs →
      Token.recogniser.Settled Token.source (segmentsAll ns ++ qs)
  | [], _, _, _, hqs, _ => hqs
  | n :: ns, _, qs, h, hqs, hbegins => by
    obtain ⟨hn, htext, hunclosed, hns⟩ := h
    rw [← renderAll_segmentsAll, ← Piece.renderAll_append] at hn
    rw [segmentsAll, List.append_assoc]
    refine settled_segments hA n hn (settled_segmentsAll hA ns hns hqs hbegins) ?_
    rintro (h | h)
    · exact beginsMarkup_segmentsAll hns (htext h) hbegins
    · rw [hunclosed h]
      exact hbegins

end

/-- Cutting the markup of a canonical tree gives its `segmentsAll`. -/
theorem segments_sourceAll (hA : ∀ a, A a → a.IsCanonical ∨ a.IsSlot) {owner : Text}
    {ns : List Node} (h : CanonicalAll A owner [] ns) :
    TemploTwig.segments (sourceAll ns) = segmentsAll ns := by
  have hsettled : Token.recogniser.Settled Token.source (segmentsAll ns ++ []) :=
    settled_segmentsAll hA ns h trivial (.inl rfl)
  rw [List.append_nil] at hsettled
  have hscan := Recogniser.scan_renderAll hsettled
  rwa [renderAll_segmentsAll] at hscan

end Node

end TemploTwig
