import TemploTwig.Proofs.Placeholders.Stages

/-!
# The layout of a prepared template

The last pass hides the markup characters that are no markup, in the runs and directives of a
layout and nowhere else.  So what all passes leave of an orderly template is known stretch by
stretch.
-/

namespace TemploTwig

open Document (strayMarks)

/-! ## Hiding markup characters -/

namespace Literal

/-- May the character go on with a character reference? -/
def continuesReference (c : Char) : Bool := c.isAlphanum || c == '#' || c == ';'

/-- A text that cannot go on with a reference completes none. -/
theorem completesReference_append {t : Text}
    (h : ∀ c, t.head? = some c → continuesReference c = false) (s : Text) :
    completesReference (s ++ t) = completesReference s := by
  have hhead {c : Char} {cs : Text} (ht : t = c :: cs) :
      c.isAlphanum = false ∧ c ≠ '#' ∧ c ≠ ';' := by
    have hc := h c (by rw [ht]; rfl)
    simpa [continuesReference, and_assoc] using hc
  have hname : (Text.stripStart? ['#'] (s ++ t)).getD (s ++ t) =
      (Text.stripStart? ['#'] s).getD s ++ t := by
    cases s with
    | nil =>
      cases t with
      | nil => rfl
      | cons c cs => simp [Text.stripStart?, Ne.symm (hhead rfl).2.1]
    | cons d ds =>
      by_cases hd : '#' = d
      · subst hd
        simp [Text.stripStart?]
      · simp [Text.stripStart?, hd]
  simp only [completesReference, hname]
  generalize (Text.stripStart? ['#'] s).getD s = name
  by_cases hdrop : name.dropWhile Char.isAlphanum = []
  · -- The name goes on to the end, and nothing closes it.
    rw [List.dropWhile_append, hdrop, List.isEmpty_nil, if_pos rfl]
    cases t with
    | nil => rfl
    | cons c cs =>
      obtain ⟨hc, -, hsemicolon⟩ := hhead rfl
      rw [List.dropWhile_cons_of_neg (by simp [hc])]
      split
      · next heq => exact absurd (List.cons.inj heq).1 hsemicolon
      · rfl
  · obtain ⟨htake, hleft⟩ := Text.span_append_of_dropWhile_ne hdrop t
    rw [htake, hleft]
    cases hcons : name.dropWhile Char.isAlphanum with
    | nil => exact absurd hcons hdrop
    | cons d ds =>
      by_cases hd : d = ';'
      · rw [hd]
        rfl
      · simp [hd]

/-- `protectText` hides texts one by one if no reference goes from one into the other. -/
theorem protectText_append_of_head {t : Text}
    (h : ∀ c, t.head? = some c → continuesReference c = false) (s : Text) :
    protectText (s ++ t) = protectText s ++ protectText t := by
  induction s with
  | nil => rfl
  | cons c s ih =>
    rw [List.cons_append, protectText, protectText, completesReference_append h, ih,
      List.cons_append]

/-- `protectText` leaves a token as it is. -/
theorem protectText_ofIndex_append (i : Nat) (t : Text) :
    protectText (MacroToken.ofIndex i ++ t) = MacroToken.ofIndex i ++ protectText t := by
  refine protectText_append (fun c hc => ?_) t
  have htoken := Tables.isTokenChar_of_mem_ofIndex hc
  constructor
  · rintro rfl
    cases htoken
  · rintro rfl
    cases htoken

end Literal

namespace Prepare

/-- `render` protects what stands in front along with the first run. -/
theorem render_protectText_ahead {token : Token → Prepare Text} {s : Text} {ps : List Segment}
    (h : ∀ t qs, ps = .plain t :: qs →
      Literal.protectText (s ++ t) = Literal.protectText s ++ Literal.protectText t) :
    render Literal.protectText token (Piece.ahead s ps) =
      (Literal.protectText s ++ ·) <$> render Literal.protectText token ps := by
  by_cases hs : s = []
  · rw [hs, Piece.ahead_nil]
    exact (id_map _).symm
  · rw [Piece.ahead, if_neg hs]
    cases ps with
    | nil => exact render_plain_cons s []
    | cons p ps =>
      cases p with
      | plain t =>
        rw [Piece.prepend, render_plain_cons, render_plain_cons, h t ps rfl, Functor.map_map]
        congr 1
        funext u
        exact List.append_assoc ..
      | token a => exact render_plain_cons s _

/-- A tag without constructs of the source is copied. -/
theorem mapTag_of_allHeld {inline : Inline → Prepare Text} {fields : List (Field × Text)}
    (h : Field.AllHeld fields) (name lead : Text) :
    mapTag inline ⟨name, Piece.prepend ('<' :: name) (Piece.join (.plain lead :: Field.pieces fields))⟩ =
      pure (Stretch.tag name lead fields).text := by
  have hfields : render id inline (Field.pieces fields) = pure (Field.textAll fields) := by
    induction fields with
    | nil => rfl
    | cons x fields ih =>
      obtain ⟨f, t⟩ := x
      obtain ⟨⟨family, n, rfl⟩, hrest⟩ := List.forall_mem_cons.1 h
      rw [Field.pieces_cons, Field.textAll_cons, Field.piece, render_plain_cons, render_plain_cons,
        ih hrest, map_pure, map_pure]
      rfl
  rw [mapTag, render_prepend, render_join, render_plain_cons, hfields, map_pure, map_pure]
  rfl

end Prepare

namespace Stretch

variable {bound : Nat} {q p : Inline → Prop} {x : Stretch} {xs : List Stretch}

/-- The stretch as `protectLiterals` leaves it. -/
def hidden : Stretch → Text
  | run t => Literal.protectText t
  | directive span => Literal.protectSpan span
  | x => x.text

theorem Leaves.mono (h : x.Leaves q) (hmono : ∀ i, q i → p i) : x.Leaves p := by
  cases x with
  | call c => exact hmono _ h
  | tag name lead fields => exact fun y hy i hi => hmono i (h y hy i hi)
  | run | directive | token | markup => trivial

theorem allHeld_of_leaves {name lead : Text} {fields : List (Field × Text)}
    (h : (tag name lead fields).Leaves fun _ => False) : Field.AllHeld fields := by
  intro x hx
  obtain ⟨f, t⟩ := x
  cases f with
  | inline i => exact absurd (h _ hx i rfl) id
  | holder f n => exact ⟨f, n, rfl⟩

/-- `protectLiterals` hides the markup characters of a layout stretch by stretch. -/
theorem Stage.protectLiterals_textAll (h : Stage bound xs)
    (hbare : ∀ x ∈ xs, x.Leaves fun _ => False) :
    protectLiterals (textAll xs) = pure (xs.flatMap hidden) := by
  have hcalls (x : Stretch) (hx : x ∈ xs) : x.Leaves fun i => ∃ span, i = .directive span :=
    (hbare x hx).mono fun _ => False.elim
  rw [protectLiterals, h.segments_textAll hcalls]
  induction xs with
  | nil => rfl
  | cons x xs ih =>
    have hrest := ih h.tail (fun y hy => hbare y (List.mem_cons_of_mem x hy))
      fun y hy => hcalls y (List.mem_cons_of_mem x hy)
    cases x with
    | run t =>
      rw [List.map_cons, segment, Piece.join_plain_cons, Prepare.render_protectText_ahead, hrest,
        map_pure]
      · rfl
      · intro u qs hu
        refine Literal.protectText_append_of_head (fun c hc => ?_) t
        -- What follows the run begins as the rest of the layout does.
        have htext : (textAll xs).head? = some c := by
          rw [← renderAll_segment, ← Piece.renderAll_join, hu, Piece.renderAll_cons,
            List.head?_append, show (Piece.plain u).render Token.source = u from rfl, hc]
          rfl
        rcases h.head?_of_run (fun y hy => hcalls y (List.mem_cons_of_mem _ hy)) htext with
          rfl | ⟨rfl, -⟩ | rfl <;> rfl
    | token i =>
      have hhidden : Literal.protectText (MacroToken.ofIndex i) = MacroToken.ofIndex i := by
        simpa [Literal.protectText] using Literal.protectText_ofIndex_append i []
      rw [List.map_cons, segment, Piece.join_plain_cons, Prepare.render_protectText_ahead, hrest,
        map_pure, hhidden]
      · rfl
      · intro u qs _
        rw [Literal.protectText_ofIndex_append, hhidden]
    | directive span | markup m =>
      rw [List.map_cons, segment, Piece.join, Prepare.render_token_cons, hrest]
      rfl
    | tag name lead fields =>
      have hheld := allHeld_of_leaves (hbare _ List.mem_cons_self)
      show Prepare.render _ _ (.token _ :: Piece.join (xs.map segment)) = _
      rw [Prepare.render_token_cons, hrest]
      dsimp only
      rw [Prepare.mapTag_of_allHeld hheld]
      rfl
    | call c => exact absurd (hbare _ List.mem_cons_self) id

/-! ## All passes -/

/-- A construct that is left in no tag by any of the passes is left nowhere. -/
theorem leaves_nothing (hx : x.Fits bound) (hcalls : x.Leaves fun i => ∃ span, i = .directive span)
    (hconditions : x.Leaves (Prepare.Unpicked AttributeDirective.pickCondition))
    (hvalues : x.Leaves (Prepare.Unpicked AttributeDirective.pickValue)) :
    x.Leaves fun _ => False := by
  cases x with
  | call c =>
    obtain ⟨span, hspan⟩ := hcalls
    cases hspan
  | tag name lead fields =>
    intro y hy i hi
    obtain ⟨span, rfl⟩ := hcalls y hy i hi
    have hnone := AttributeDirective.classify?_eq_none_of_unpicked
      (hconditions y hy _ hi span rfl) (hvalues y hy _ hi span rfl)
    -- Every directive in an orderly tag is one that some pass picks.
    have hheld : y.1.isHeld = true := Field.isHeld_of_areOrderly hx.orderly hy
    rw [hi, Field.isHeld, hnone] at hheld
    cases hheld
  | run | directive | token | markup => trivial

/-- What `prepare` leaves of an orderly template is again a layout, with no construct of the source
    in its tags and no calls in its text. -/
theorem exists_stage_prepare {options : Options} {source : Text} (kind : TemplateKind)
    (horderly : Document.isOrderly source = true)
    (hfree : Text.EverFree strayMarks openChars closeChars source)
    (htarget : Text.Free strayMarks options.targetExtension) :
    ∃ xs ctx, Stage source.length xs ∧ (∀ x ∈ xs, x.Leaves fun _ => False) ∧
      (prepare source).run { options, kind } = (xs.flatMap hidden, ctx) ∧
      Context.Open options source.length 0 ctx := by
  have hstage : Stage source.length (ofSource source) := stage_ofSource horderly hfree
  have hopen : Context.Open options source.length (0 + Prepare.total weight (ofSource source))
      { options, kind } := by
    have htotal : Prepare.total weight (ofSource source) ≤ (textAll (ofSource source)).length :=
      Prepare.total_le_length fun x hx => weight_le (hstage.fits x hx)
    rw [textAll_ofSource] at htotal
    refine ⟨rfl, fun f => ?_, fun f _ entry hentry => ?_, fun path hpath => (by cases hpath)⟩
    · cases f <;> (simp [Tables.entries]; exact htotal)
    · cases f <;> cases hentry
  -- Each pass starts from what the one before has left.
  obtain ⟨xs₁, ctx₁, hxs₁, hrun₁, hopen₁⟩ :=
    Prepare.swaps_substituteCalls options hstage.fits 0 _ hopen
  have hstage₁ := hstage.of_becomes hxs₁
  have hcalls₁ (x : Stretch) (hx : x ∈ xs₁) : x.Leaves fun i => ∃ span, i = .directive span := by
    obtain ⟨y, -, hy⟩ := Prepare.exists_of_forall₂ hxs₁ hx
    exact hy.leaves
  obtain ⟨xs₂, ctx₂, hxs₂, hrun₂, hopen₂⟩ := Prepare.swaps_mapTags options hstage₁ hcalls₁
    (fun _ _ _ => AttributeDirective.free_of_pickCondition) 0 ctx₁ hopen₁
  have hstage₂ := hstage₁.of_becomes hxs₂
  have hleft₂ (x : Stretch) (hx : x ∈ xs₂) : (x.Leaves fun i => ∃ span, i = .directive span) ∧
      x.Leaves (Prepare.Unpicked AttributeDirective.pickCondition) := by
    obtain ⟨y, hy, hbecomes⟩ := Prepare.exists_of_forall₂ hxs₂ hx
    exact ⟨hbecomes.leaves_of_leaves (hcalls₁ y hy), hbecomes.leaves⟩
  obtain ⟨xs₃, ctx₃, hstage₃, hxs₃, hrun₃, hopen₃⟩ :=
    hstage₂.exists_substituteInheritance (fun x hx => (hleft₂ x hx).1) hopen₂ htarget
  have hleft₃ (x : Stretch) (hx : x ∈ xs₃) : (x.Leaves fun i => ∃ span, i = .directive span) ∧
      x.Leaves (Prepare.Unpicked AttributeDirective.pickCondition) := by
    rcases hxs₃ x hx with hx | hall
    · exact hleft₂ x hx
    · exact ⟨hall _, hall _⟩
  obtain ⟨xs₄, ctx₄, hxs₄, hrun₄, hopen₄⟩ := Prepare.swaps_mapTags options hstage₃
    (fun x hx => (hleft₃ x hx).1) (fun _ _ _ => AttributeDirective.free_of_pickValue) 0 ctx₃ hopen₃
  have hstage₄ := hstage₃.of_becomes hxs₄
  have hbare (x : Stretch) (hx : x ∈ xs₄) : x.Leaves fun _ => False := by
    obtain ⟨y, hy, hbecomes⟩ := Prepare.exists_of_forall₂ hxs₄ hx
    exact leaves_nothing (hstage₄.fits x hx) (hbecomes.leaves_of_leaves (hleft₃ y hy).1)
      (hbecomes.leaves_of_leaves (hleft₃ y hy).2) hbecomes.leaves
  refine ⟨xs₄, ctx₄, hstage₄, hbare, ?_, hopen₄.mono (Nat.zero_le _)⟩
  rw [prepare, StateT.run_bind, hrun₁]
  show ((do protectLiterals (← substituteAttributes (← substituteInheritance
    (← substituteConditions (textAll xs₁))))).run ctx₁) = _
  rw [StateT.run_bind, substituteConditions_eq, hrun₂]
  show ((do protectLiterals (← substituteAttributes (← substituteInheritance
    (textAll xs₂)))).run ctx₂) = _
  rw [StateT.run_bind, hrun₃]
  show ((do protectLiterals (← substituteAttributes (textAll xs₃))).run ctx₃) = _
  rw [StateT.run_bind, substituteAttributes_eq, hrun₄]
  show (protectLiterals (textAll xs₄)).run ctx₄ = _
  rw [hstage₄.protectLiterals_textAll hbare]
  rfl

end Stretch

end TemploTwig
