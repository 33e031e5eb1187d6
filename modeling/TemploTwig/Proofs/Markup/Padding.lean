import TemploTwig.Proofs.Placeholders.Outcomes
import TemploTwig.Proofs.Template.Cuts

/-!
# Lines around a tree

A line break ends every span that is still open, so text that starts with one can be put behind a
canonical tree, and the tree stays canonical: the text joins the last text of the tree, which may
stand inside elements without an end tag.  A line break in front of the tree does no harm either.
-/

namespace TemploTwig

variable {t s after v : Text} {ps : List (Piece Text)} {α : Type}

/-! ## Line breaks and spans -/

namespace Span

/-- `close?` finds nothing behind a line break either. -/
theorem close?_append_break (h : close? t = none) (v : Text) : close? (t ++ '\n' :: v) = none := by
  fun_induction close? t with
  | case1 => rfl
  | case2 => rfl
  | case3 => cases h
  | case4 c cs hbreak hclose ih =>
    rw [Option.map_eq_none_iff] at h
    rw [List.cons_append, close?, ih h]
    · rfl
    · exact hbreak
    · -- The next colon would come from the text itself.
      rintro rest rfl htail
      cases cs with
      | nil => cases (List.cons.inj htail).1
      | cons d cs => exact hclose cs rfl (by rw [(List.cons.inj htail).1])

/-- No span opens because a line break follows. -/
theorem take?_append_break (h : take? t = none) (v : Text) : take? (t ++ '\n' :: v) = none := by
  match t with
  | [] => rfl
  | [c] =>
    refine take?_of_not_prefix ?_
    rintro ⟨rest, hrest⟩
    cases (List.cons.inj (List.cons.inj hrest).2).1
  | c :: d :: cs =>
    by_cases hopens : c = ':' ∧ d = ':'
    · obtain ⟨rfl, rfl⟩ := hopens
      rw [List.cons_append, List.cons_append, take?]
      rw [take?] at h
      cases hclose : close? cs with
      | none => rw [close?_append_break hclose v]; rfl
      | some found =>
        -- The span is closed, but its body is blank.
        obtain ⟨body, rest⟩ := found
        have hblank : body.isBlankText = true := by simpa [hclose] using h
        rw [close?_append_of_some hclose, Option.bind_some]
        exact if_pos hblank
    · refine take?_of_not_prefix ?_
      rintro ⟨rest, hrest⟩
      obtain ⟨hc, htail⟩ := List.cons.inj hrest
      exact hopens ⟨hc.symm, (List.cons.inj htail).1.symm⟩

theorem break_not_mem_of_token_mem_scan {span : Text} (h : .token span ∈ scan t) : '\n' ∉ span := by
  have hsettled := recogniser.settled_scan id take?_eq_append t
  obtain ⟨rest, hnext⟩ := hsettled.exists_next?_of_mem h
  obtain ⟨b, hb, rfl⟩ := exists_isBody_of_take? hnext
  simpa [ofBody, delimiter] using hb.one_line

/-- No span reaches over a line break. -/
theorem not_crosses_of_break (h : s.getLast? = some '\n' ∨ t.head? = some '\n') : ¬Crosses s t := by
  rintro ⟨ps, u, v, qs, hscan, hu, hv, rfl⟩
  have hbreak : '\n' ∉ u ++ v :=
    break_not_mem_of_token_mem_scan (by rw [hscan]; exact List.mem_append_right _ List.mem_cons_self)
  have htext := renderAll_scan (Piece.renderAll id ps ++ u ++ t)
  rw [hscan, Piece.renderAll_append, Piece.renderAll_cons, Piece.render, id, List.append_assoc,
    List.append_assoc, List.append_cancel_left_eq, List.append_cancel_left_eq] at htext
  rcases h with hlast | hhead
  · rw [List.getLast?_append_of_ne_nil _ hu] at hlast
    exact hbreak (List.mem_append_left _ (List.mem_of_getLast? hlast))
  · rw [← htext, List.head?_append_of_ne_nil _ hv] at hhead
    exact hbreak (List.mem_append_right _ (List.mem_of_head? hhead))

/-- A span behind a line break is found on its own. -/
theorem scan_append_span {span : Text} (hs : s.getLast? = some '\n')
    (hspan : take? span = some (span, [])) : scan (s ++ span) = scan s ++ [.token span] := by
  have hscan : scan span = [.token span] := by
    cases span with
    | nil => cases hspan
    | cons c cs =>
      rw [scan, Recogniser.scan_of_some (R := recogniser) hspan, Recogniser.scan_nil]
  rw [← join_scan_append (not_crosses_of_break (.inl hs)), hscan, Piece.join_append_token,
    scan, Piece.join_scan]
  rfl

/-- `StayApart` allows more behind a line break. -/
theorem StayApart.append_break (h : StayApart after ps) (v : Text) :
    StayApart (after ++ '\n' :: v) ps := by
  induction ps with
  | nil => trivial
  | cons p ps ih =>
    cases p with
    | plain run =>
      refine ⟨?_, ih h.2⟩
      intro front back hrun hne
      rw [← List.append_assoc, ← List.append_assoc]
      exact take?_append_break (by rw [List.append_assoc]; exact h.1 front back hrun hne) v
    | token span => exact ih h

end Span

/-! ## Canonical texts one after the other -/

/-- `Declines` goes on over two texts. -/
theorem Recogniser.Declines.append {R : Recogniser α} (hs : R.Declines s (t ++ after))
    (ht : R.Declines t after) : R.Declines (s ++ t) after := by
  intro front back h hne
  rcases List.append_eq_append_iff.1 h with ⟨more, -, hmore⟩ | ⟨more, rfl, rfl⟩
  · exact ht more back hmore hne
  · cases more with
    | nil => exact ht [] t rfl hne
    | cons c more =>
      rw [List.append_assoc]
      exact hs front (c :: more) rfl (by simp)

namespace Span

/-- `StayApart` allows a run in front that is declined. -/
theorem stayApart_prepend {run : Text}
    (hrun : recogniser.Declines run (Piece.renderAll id ps ++ after)) (h : StayApart after ps) :
    StayApart after (Piece.prepend run ps) := by
  match ps with
  | [] => exact ⟨hrun, trivial⟩
  | .token span :: ps => exact ⟨hrun, h⟩
  | .plain u :: ps =>
    rw [Piece.renderAll_cons, Piece.render, List.append_assoc] at hrun
    exact ⟨hrun.append h.1, h.2⟩

/-- `StayApart` goes on over joined pieces. -/
theorem StayApart.join_append {qs : List (Piece Text)}
    (hps : StayApart (Piece.renderAll id qs ++ after) ps) (hqs : StayApart after (Piece.join qs)) :
    StayApart after (Piece.join (ps ++ qs)) := by
  induction ps with
  | nil => exact hqs
  | cons p ps ih =>
    cases p with
    | plain run =>
      rw [List.cons_append, Piece.join]
      split
      · exact ih hps.2
      · refine stayApart_prepend ?_ (ih hps.2)
        rw [Piece.renderAll_join, Piece.renderAll_append, List.append_assoc]
        exact hps.1
    | token span => exact ih hps

end Span

/-- `OpensNoMarkup` goes on over a line break. -/
theorem opensNoMarkup_append_break {r : Text} (hr : OpensNoMarkup r)
    (hv : OpensNoMarkup ('\n' :: v)) : OpensNoMarkup (r ++ '\n' :: v) := by
  induction r with
  | nil => exact hv
  | cons c r ih =>
    rw [opensNoMarkup_cons_iff] at hr
    rw [List.cons_append, opensNoMarkup_cons_iff]
    refine ⟨?_, ih hr.2⟩
    rintro ⟨hc, hnext⟩
    cases r with
    | nil => cases hnext
    | cons d r => exact hr.1 ⟨hc, hnext⟩

theorem Piece.exists_cons_of_head?_prepend {c : Char} {w : Text} {ps : List (Piece α)}
    (h : (prepend [c] ps).head? = some (.plain w)) : ∃ t, w = c :: t := by
  match ps with
  | [] => exact ⟨[], (Piece.plain.inj (Option.some.inj h)).symm⟩
  | .token a :: ps => exact ⟨[], (Piece.plain.inj (Option.some.inj h)).symm⟩
  | .plain u :: ps => exact ⟨u, (Piece.plain.inj (Option.some.inj h)).symm⟩

/-- `prepend` makes one run at most. -/
theorem Piece.cases_of_plain_mem_prepend {r run : Text} {ps : List (Piece α)}
    (h : .plain run ∈ prepend r ps) :
    run = r ∨ (∃ w, ps.head? = some (.plain w) ∧ run = r ++ w) ∨ .plain run ∈ ps := by
  match ps with
  | [] => exact .inl (Piece.plain.inj (List.mem_singleton.1 h))
  | .token a :: ps =>
    rcases List.mem_cons.1 h with heq | h
    · exact .inl (Piece.plain.inj heq)
    · exact .inr (.inr h)
  | .plain w :: ps =>
    rcases List.mem_cons.1 h with heq | h
    · exact .inr (.inl ⟨w, rfl, Piece.plain.inj heq⟩)
    · exact .inr (.inr (List.mem_cons_of_mem _ h))

/-- A run that is joined from two has no markup when the two have none where they meet. -/
private theorem opensNoMarkup_of_mem_join {qs : List (Piece Text)}
    (hps : Span.recogniser.Settled id ps) (hjoined : Piece.join qs = qs)
    (hfront : ∀ run, .plain run ∈ ps → OpensNoMarkup run)
    (hback : ∀ run, .plain run ∈ qs → OpensNoMarkup run)
    (hmeet : ∀ r w, .plain r ∈ ps → qs.head? = some (.plain w) → OpensNoMarkup (r ++ w)) :
    ∀ run, .plain run ∈ Piece.join (ps ++ qs) → OpensNoMarkup run := by
  induction ps with
  | nil =>
    rw [List.nil_append, hjoined]
    exact hback
  | cons p ps ih =>
    have hrest : Span.recogniser.Settled id ps → ∀ run,
        .plain run ∈ Piece.join (ps ++ qs) → OpensNoMarkup run := fun h =>
      ih h (fun run hrun => hfront run (List.mem_cons_of_mem _ hrun))
        fun r w hr => hmeet r w (List.mem_cons_of_mem _ hr)
    intro run hrun
    cases p with
    | token span =>
      rw [List.cons_append, Piece.join] at hrun
      exact hrest hps.2 run (by simpa using hrun)
    | plain r =>
      obtain ⟨hne, -, hstart, hps⟩ := hps
      rw [List.cons_append, Piece.join, if_neg hne] at hrun
      rcases Piece.cases_of_plain_mem_prepend hrun with rfl | ⟨w, hhead, rfl⟩ | hrun
      · exact hfront run List.mem_cons_self
      · -- Runs are not adjacent, so the next one comes from behind.
        cases ps with
        | nil =>
          rw [List.nil_append, hjoined] at hhead
          exact hmeet r w List.mem_cons_self hhead
        | cons p ps =>
          cases p with
          | plain u => exact absurd ⟨u, ps, rfl⟩ hstart
          | token span => cases hhead
      · exact hrest hps run hrun

namespace IsCanonicalText

variable {u v after : Text}

/-- Two canonical texts are one, unless a span or markup lies across the place where they meet. -/
theorem append (hu : IsCanonicalText u (v ++ after)) (hv : IsCanonicalText v after)
    (hcross : ¬Span.Crosses u v)
    (hmeet : ∀ r w, .plain r ∈ Span.scan u → (Span.scan v).head? = some (.plain w) →
      OpensNoMarkup (r ++ w)) : IsCanonicalText (u ++ v) after := by
  -- No span lies across the border, so the pieces of the whole are those of both parts.
  have hscan := Span.join_scan_append hcross
  have hjoined : Piece.join (Span.scan v) = Span.scan v := Piece.join_scan _ v
  refine ⟨by simp [hu.ne_nil], ?_, ?_, ?_, ?_, ?_⟩
  · rw [List.mem_append, not_or]
    exact ⟨hu.no_dollar, hv.no_dollar⟩
  · rw [List.any_append, hu.no_stand_in, hv.no_stand_in]
    rfl
  · rw [← hscan]
    exact opensNoMarkup_of_mem_join (Span.recogniser.settled_scan id Span.take?_eq_append u) hjoined
      hu.no_markup hv.no_markup hmeet
  · intro span hspan
    rw [← hscan] at hspan
    obtain ⟨ps, qs, hsplit⟩ := List.append_of_mem hspan
    obtain ⟨front, back, hpieces, -⟩ := Piece.exists_of_join_eq hsplit
    have hmem : .token span ∈ Span.scan u ++ Span.scan v := by simp [hpieces]
    rcases List.mem_append.1 hmem with hmem | hmem
    · exact hu.no_inherit span hmem
    · exact hv.no_inherit span hmem
  · rw [← hscan]
    refine Span.StayApart.join_append ?_ (by rw [hjoined]; exact hv.apart)
    rw [Span.renderAll_scan]
    exact hu.apart

theorem append_break (h : IsCanonicalText u after) (v : Text) :
    IsCanonicalText u (after ++ '\n' :: v) :=
  ⟨h.ne_nil, h.no_dollar, h.no_stand_in, h.no_markup, h.no_inherit, h.apart.append_break v⟩

/-- A line that is put behind a canonical text makes one canonical text with it. -/
theorem append_line (hu : IsCanonicalText u []) (hv : IsCanonicalText ('\n' :: v) after) :
    IsCanonicalText (u ++ '\n' :: v) after := by
  have hline : IsCanonicalText u ('\n' :: v ++ after) := hu.append_break (v ++ after)
  refine hline.append hv (Span.not_crosses_of_break (.inr rfl)) ?_
  intro r w hr hw
  have hmem : .plain w ∈ Span.scan ('\n' :: v) := List.mem_of_head? hw
  rw [Span.scan_of_take?_eq_none rfl] at hw
  obtain ⟨w, rfl⟩ := Piece.exists_cons_of_head?_prepend hw
  exact opensNoMarkup_append_break (hu.no_markup r hr) (hv.no_markup _ hmem)

/-- A line break is canonical in front of anything. -/
theorem lineBreak (after : Text) : IsCanonicalText ['\n'] after := by
  have hscan : Span.scan ['\n'] = [.plain ['\n']] :=
    Span.scan_of_no_delimiter (by decide) (by decide)
  refine ⟨by decide, by decide, by decide, ?_, ?_, ?_⟩
  · rw [hscan]
    intro run hrun
    obtain rfl := Piece.plain.inj (List.mem_singleton.1 hrun)
    decide
  · rw [hscan]
    intro span hspan
    cases List.mem_singleton.1 hspan
  · rw [hscan]
    exact ⟨Recogniser.declines_cons_iff.2 ⟨rfl, Recogniser.declines_nil _ _⟩, trivial⟩

/-- A line break in front of a canonical text makes one canonical text with it. -/
theorem cons_break (h : IsCanonicalText u after) : IsCanonicalText ('\n' :: u) after := by
  refine (lineBreak (u ++ after)).append h (Span.not_crosses_of_break (.inl rfl)) ?_
  intro r w hr hw
  rw [Span.scan_of_no_delimiter (by decide) (by decide)] at hr
  obtain rfl := Piece.plain.inj (List.mem_singleton.1 hr)
  rw [List.singleton_append, opensNoMarkup_cons_iff]
  exact ⟨fun hmarkup => absurd hmarkup.1 (by decide), h.no_markup w (List.mem_of_head? hw)⟩

end IsCanonicalText

/-! ## Text behind a tree -/

namespace Node

variable {A : Attribute → Prop}

mutual

/-- `Canonical` allows more behind a line break. -/
theorem canonical_append_break (v : Text) : (n : Node) → {owner after : Text} →
    n.Canonical A owner after → n.Canonical A owner (after ++ '\n' :: v)
  | .text content, _, _, h => IsCanonicalText.append_break h v
  | .raw source, _, _, h => h
  | .element tag children, _, _, h => by
    refine ⟨h.1, h.2.1, ?_⟩
    rw [← List.append_assoc]
    exact canonicalAll_append_break v children h.2.2

/-- A line break may follow what follows a canonical tree. -/
theorem canonicalAll_append_break (v : Text) : (ns : List Node) → {owner after : Text} →
    CanonicalAll A owner after ns → CanonicalAll A owner (after ++ '\n' :: v) ns
  | [], _, _, _ => trivial
  | n :: ns, _, _, ⟨hn, htext, hunclosed, hns⟩ => by
    refine ⟨?_, htext, hunclosed, canonicalAll_append_break v ns hns⟩
    rw [← List.append_assoc]
    exact canonical_append_break v n hn

end

mutual

/-- The last node of a tree, with text put behind everything in it that has no end. -/
def padLast (pad : Text) : Node → List Node
  | .text content => [.text (content ++ pad)]
  | .raw source => [.raw source, .text pad]
  | .element tag children =>
    if tag.form = .unclosed then [.element tag (padEnd pad children)]
    else [.element tag children, .text pad]

/-- Put text behind a tree.  It joins the last text, which elements without an end tag may hold. -/
def padEnd (pad : Text) : List Node → List Node
  | [] => [.text pad]
  | n :: ns => if ns.isEmpty then padLast pad n else n :: padEnd pad ns

end

variable {pad : Text}

theorem padEnd_nil : padEnd pad [] = [.text pad] := by rw [padEnd]

theorem padEnd_singleton (n : Node) : padEnd pad [n] = padLast pad n := by
  rw [padEnd]
  rfl

theorem padEnd_cons_cons (n m : Node) (ns : List Node) :
    padEnd pad (n :: m :: ns) = n :: padEnd pad (m :: ns) := by
  rw [padEnd]
  rfl

mutual

/-- `padLast` adds the padding to the markup. -/
theorem sourceAll_padLast : (n : Node) → sourceAll (padLast pad n) = n.source ++ pad
  | .text content => by simp [padLast, sourceAll, source]
  | .raw source => by simp [padLast, sourceAll, Node.source]
  | .element tag children => by
    rw [padLast]
    split
    · next hform =>
      have hchildren := sourceAll_padEnd children
      simp [sourceAll, source, Tag.showsChildren, Tag.endText, hform, hchildren]
    · simp [sourceAll, source]

/-- The text comes behind the markup of the tree. -/
theorem sourceAll_padEnd : (ns : List Node) → sourceAll (padEnd pad ns) = sourceAll ns ++ pad
  | [] => by simp [padEnd, sourceAll, source]
  | [n] => by
    rw [padEnd_singleton, sourceAll_padLast n]
    simp [sourceAll]
  | n :: m :: ns => by
    rw [padEnd_cons_cons, sourceAll, sourceAll_padEnd (m :: ns), ← List.append_assoc, ← sourceAll]

end

/-- `padEnd` keeps a text or an element at the start. -/
theorem startsWithText_padEnd_cons (n : Node) (ns : List Node) :
    startsWithText (padEnd pad (n :: ns)) = n.isText := by
  cases ns with
  | cons m ns => rw [padEnd_cons_cons]; rfl
  | nil =>
    rw [padEnd_singleton]
    cases n with
    | text content | raw source => simp [padLast, startsWithText, isText]
    | element tag children =>
      rw [padLast]
      split <;> rfl

mutual

/-- `padLast` keeps a node canonical. -/
theorem canonicalAll_padLast (hpad : IsCanonicalText ('\n' :: v) after) :
    (n : Node) → {owner : Text} → n.Canonical A owner [] →
      CanonicalAll A owner after (padLast ('\n' :: v) n)
  | .text content, _, h => by
    rw [padLast]
    exact ⟨IsCanonicalText.append_line h hpad, fun _ => rfl, by simp, trivial⟩
  | .raw source, _, h => by
    rw [padLast]
    exact ⟨h, (by rintro ⟨⟩), (by rintro ⟨⟩), hpad, fun _ => rfl, by simp, trivial⟩
  | .element tag children, owner, h => by
    rw [padLast]
    split
    · next hform =>
      -- Without an end tag, what is put behind the element is read as part of it.
      obtain ⟨htag, hname, hchildren⟩ := h
      have hend : tag.endText = [] := by simp [Tag.endText, hform]
      rw [hend] at hchildren
      have htag' : tag.IsCanonical A (padEnd ('\n' :: v) children) :=
        ⟨htag.name, htag.attributes, htag.of_isVoid, htag.of_not_isVoid, by simp [hform]⟩
      refine ⟨⟨htag', hname, ?_⟩, (by rintro ⟨⟩), fun _ => rfl, trivial⟩
      rw [hend]
      exact canonicalAll_padEnd hpad children hchildren
    · next hform =>
      have helement : (element tag children).Canonical A owner ('\n' :: v ++ after) :=
        canonical_append_break (v ++ after) (.element tag children) h
      refine ⟨?_, (by rintro ⟨⟩), fun hunclosed => absurd ?_ hform, hpad, fun _ => rfl, by simp,
        trivial⟩
      · rw [sourceAll, source, sourceAll, List.append_nil]
        exact helement
      · simpa [isUnclosed] using hunclosed

/-- A canonical tree stays canonical when a line is put behind it. -/
theorem canonicalAll_padEnd (hpad : IsCanonicalText ('\n' :: v) after) :
    (ns : List Node) → {owner : Text} → CanonicalAll A owner [] ns →
      CanonicalAll A owner after (padEnd ('\n' :: v) ns)
  | [], _, _ => by
    rw [padEnd_nil]
    exact ⟨hpad, fun _ => rfl, by simp, trivial⟩
  | [n], _, h => by
    rw [padEnd_singleton]
    exact canonicalAll_padLast hpad n h.1
  | n :: m :: ns, _, ⟨hn, htext, hunclosed, hns⟩ => by
    rw [padEnd_cons_cons]
    refine ⟨?_, ?_, fun h => absurd (hunclosed h) (by simp), canonicalAll_padEnd hpad (m :: ns) hns⟩
    · rw [sourceAll_padEnd, List.append_assoc]
      have := canonical_append_break (v ++ after) n hn
      rwa [List.append_nil] at this
    · intro h
      rw [startsWithText_padEnd_cons]
      exact htext h

end

/-! ## A line break in front of a tree -/

/-- Put a line break in front of a tree. -/
def breakStart : List Node → List Node
  | .text content :: ns => .text ('\n' :: content) :: ns
  | ns => .text ['\n'] :: ns

theorem sourceAll_breakStart (ns : List Node) : sourceAll (breakStart ns) = '\n' :: sourceAll ns := by
  match ns with
  | [] => rfl
  | .text content :: ns => rfl
  | .raw source :: ns => rfl
  | .element tag children :: ns => rfl

/-- A canonical tree stays canonical when a line break is put in front of it. -/
theorem canonicalAll_breakStart {owner : Text} {ns : List Node} (h : CanonicalAll A owner after ns)
    :
    CanonicalAll A owner after (breakStart ns) := by
  have hbreak : IsCanonicalText ['\n'] (sourceAll ns ++ after) := .lineBreak _
  match ns, h, hbreak with
  | [], _, hbreak => exact ⟨hbreak, fun _ => rfl, by simp, trivial⟩
  | .text content :: ns, ⟨hn, htext, hunclosed, hns⟩, _ =>
    exact ⟨IsCanonicalText.cons_break hn, htext, hunclosed, hns⟩
  | .raw source :: ns, h, hbreak => exact ⟨hbreak, fun _ => rfl, (by rintro ⟨⟩), h⟩
  | .element tag children :: ns, h, hbreak => exact ⟨hbreak, fun _ => rfl, (by rintro ⟨⟩), h⟩

/-! ## Another element around a tree -/

mutual

/-- `Canonical` depends on the owner by its name only. -/
theorem canonical_owner {owner' : Text} : (n : Node) → {owner after : Text} →
    Every (fun _ => True) (fun _ => True)
      (fun tag => Text.sameIgnoringCase tag.name owner' = false) n →
    n.Canonical A owner after → n.Canonical A owner' after
  | .text content, _, _, _, h => h
  | .raw source, _, _, _, h => h
  | .element tag children, owner, _, hnames, ⟨htag, _, hchildren⟩ => by
    rw [every_element_iff] at hnames
    refine ⟨htag, fun _ => hnames.1, ?_⟩
    -- Only an element without an end tag leaves its children to the element around it.
    by_cases hform : tag.form = .unclosed
    · rw [Tag.owner, if_pos hform]
      exact canonicalAll_owner children hnames.2 hchildren
    · rwa [Tag.owner, if_neg hform] at hchildren ⊢

/-- A canonical tree may stand in another element, if that has a name of its own. -/
theorem canonicalAll_owner {owner' : Text} : (ns : List Node) → {owner after : Text} →
    EveryIn (fun _ => True) (fun _ => True)
      (fun tag => Text.sameIgnoringCase tag.name owner' = false) ns →
    CanonicalAll A owner after ns → CanonicalAll A owner' after ns
  | [], _, _, _, _ => trivial
  | n :: ns, _, _, hnames, ⟨hn, htext, hunclosed, hns⟩ => by
    rw [everyIn_cons_iff] at hnames
    exact ⟨canonical_owner n hnames.1 hn, htext, hunclosed, canonicalAll_owner ns hnames.2 hns⟩

end

/-! ## A span on the last line -/

section Span

variable {span : Text} (hpad : pad.getLast? = some '\n') (hspan : Span.take? span = some (span, []))

include hpad hspan

theorem segments_text_append_span (content : Text) :
    (text (content ++ (pad ++ span))).segments =
      (text (content ++ pad)).segments ++ [.token (.inline (.directive span))] := by
  have hlast : (content ++ pad).getLast? = some '\n' := by
    rw [List.getLast?_append, hpad, Option.some_or]
  rw [segments, segments, ← List.append_assoc, Span.scan_append_span hlast hspan, List.map_append]
  rfl

mutual

/-- `padLast` adds a span as a segment of its own. -/
theorem segmentsAll_padLast_span : (n : Node) →
    segmentsAll (padLast (pad ++ span) n) =
      segmentsAll (padLast pad n) ++ [.token (.inline (.directive span))]
  | .text content => by
    have hcontent := segments_text_append_span hpad hspan content
    simp only [padLast, segmentsAll, List.append_nil, hcontent]
  | .raw source => by
    have hcontent := segments_text_append_span hpad hspan []
    simp only [padLast, segmentsAll, List.append_nil, List.nil_append, List.append_assoc] at hcontent ⊢
    rw [hcontent]
  | .element tag children => by
    rw [padLast, padLast]
    split
    · next hform =>
      have hchildren := segmentsAll_padEnd_span children
      simp [segmentsAll, segments, Tag.showsChildren, Tag.endSegments, hform, hchildren]
    · have hcontent := segments_text_append_span hpad hspan []
      simp only [segmentsAll, List.append_nil, List.nil_append, List.append_assoc] at hcontent ⊢
      rw [hcontent]

/-- A span at the end of the last line is a segment of its own. -/
theorem segmentsAll_padEnd_span : (ns : List Node) →
    segmentsAll (padEnd (pad ++ span) ns) =
      segmentsAll (padEnd pad ns) ++ [.token (.inline (.directive span))]
  | [] => by
    have hcontent := segments_text_append_span hpad hspan []
    simp only [padEnd_nil, segmentsAll, List.append_nil, List.nil_append] at hcontent ⊢
    exact hcontent
  | [n] => by
    rw [padEnd_singleton, padEnd_singleton, segmentsAll_padLast_span n]
  | n :: m :: ns => by
    rw [padEnd_cons_cons, padEnd_cons_cons, segmentsAll, segmentsAll_padEnd_span (m :: ns),
      segmentsAll, List.append_assoc]

end

end Span

end Node

end TemploTwig
