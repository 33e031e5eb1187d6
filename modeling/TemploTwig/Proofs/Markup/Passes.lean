import TemploTwig.Conversion.Substitution
import TemploTwig.Proofs.Markup.Reading
import TemploTwig.Proofs.Markup.Segments

/-!
# The passes on canonical markup

A pass over a template replaces segments.  On the markup of a canonical tree it does what a change
of the tree's attributes does: it goes through the start tags in document order, and writes the
tree with the attributes that it puts there.
-/

namespace TemploTwig

/-! ## Rendering pieces -/

namespace Prepare

variable {α : Type} {plain : Text → Text} {token : α → Prepare Text}

theorem render_nil : render plain token [] = pure [] := rfl

/-- `render` writes a plain run by `plain`. -/
theorem render_plain_cons (t : Text) (ps : List (Piece α)) :
    render plain token (.plain t :: ps) = (plain t ++ ·) <$> render plain token ps := by
  simp only [render, List.mapM_cons, map_eq_pure_bind, bind_assoc, pure_bind, List.flatten_cons]

/-- `render` writes a token by `token`, then the rest. -/
theorem render_token_cons (a : α) (ps : List (Piece α)) :
    render plain token (.token a :: ps) = do
      let front ← token a
      let back ← render plain token ps
      return front ++ back := by
  simp only [render, List.mapM_cons, bind_assoc, pure_bind, List.flatten_cons]

/-- `render` writes two lists one after the other. -/
theorem render_append (ps qs : List (Piece α)) :
    render plain token (ps ++ qs) = do
      let front ← render plain token ps
      let back ← render plain token qs
      return front ++ back := by
  simp only [render, List.mapM_append, bind_assoc, pure_bind, List.flatten_append]

/-- `render id` copies a run that is put in front. -/
theorem render_prepend (t : Text) (ps : List (Piece α)) :
    render id token (Piece.prepend t ps) = (t ++ ·) <$> render id token ps := by
  cases ps with
  | nil => exact render_plain_cons t []
  | cons p ps =>
    cases p with
    | plain u => simp [Piece.prepend, render_plain_cons]
    | token a => exact render_plain_cons t _

end Prepare

/-! ## Changing the attributes of a tree -/

namespace Node

variable (change : Attribute → Prepare Attribute)

mutual

/-- Change the attributes of a node by `change`, in document order. -/
def mapAttributes : Node → Prepare Node
  | .text content => return .text content
  | .raw source => return .raw source
  | .element tag children => do
    let attributes ← tag.attributes.mapM change
    let children ← mapAttributesAll children
    return .element { tag with attributes } children

/-- Change the attributes of a list of nodes. -/
def mapAttributesAll : List Node → Prepare (List Node)
  | [] => return []
  | n :: ns => do
    let n ← mapAttributes n
    let ns ← mapAttributesAll ns
    return n :: ns

end

variable {change}

mutual

/-- `sourceBy id` is `source`. -/
private theorem sourceBy_id : (n : Node) → n.sourceBy id = n.source
  | .text content => rfl
  | .raw source => rfl
  | .element tag children => by
    rw [sourceBy, source, sourceAllBy_id children]

/-- `sourceAllBy id` is `sourceAll`. -/
theorem sourceAllBy_id : (ns : List Node) → sourceAllBy id ns = sourceAll ns
  | [] => rfl
  | n :: ns => by rw [sourceAllBy, sourceAll, sourceBy_id n, sourceAllBy_id ns]

end

mutual

/-- `mapAttributes` of a change that does nothing does nothing. -/
private theorem mapAttributes_of_pure {A : Attribute → Prop}
    (hchange : ∀ a, A a → change a = pure a) : (n : Node) → {owner after : Text} →
      n.Canonical A owner after →
      n.mapAttributes change = pure n
  | .text content, _, _, _ => rfl
  | .raw source, _, _, _ => rfl
  | .element tag children, _, _, h => by
    have hattributes (attributes : List Attribute) (hA : ∀ a ∈ attributes, A a) :
        attributes.mapM change = pure attributes := by
      induction attributes with
      | nil => rfl
      | cons a attributes ih =>
        rw [List.mapM_cons, hchange a (hA a List.mem_cons_self),
          ih fun b hb => hA b (List.mem_cons_of_mem _ hb)]
        rfl
    rw [mapAttributes, mapAttributesAll_of_pure hchange children h.2.2,
      hattributes _ h.1.attributes]
    rfl

/-- `mapAttributesAll` of a change that does nothing does nothing. -/
theorem mapAttributesAll_of_pure {A : Attribute → Prop}
    (hchange : ∀ a, A a → change a = pure a) : (ns : List Node) → {owner after : Text} →
      CanonicalAll A owner after ns → mapAttributesAll change ns = pure ns
  | [], _, _, _ => rfl
  | n :: ns, _, _, h => by
    rw [mapAttributesAll, mapAttributes_of_pure hchange n h.1,
      mapAttributesAll_of_pure hchange ns h.2.2.2]
    rfl

end

end Node

/-- A pass that writes text by `write` and changes attributes by `change`, where `A` holds
    of them. -/
structure Prepare.Rewrites (plain : Text → Text) (token : Token → Prepare Text)
    (write : Text → Text) (change : Attribute → Prepare Attribute) (A : Attribute → Prop) :
    Prop where
  text (content : Text) :
    render plain token ((Span.scan content).map Piece.toSegment) = pure (write content)
  markup (source : Text) : token (.markup source) = pure source
  startTag (tag : Tag) (h : ∀ a ∈ tag.attributes, A a) :
    token (.startTag tag.start) =
      (fun attributes => { tag with attributes }.startText) <$> tag.attributes.mapM change

/-- `render` writes the pieces of a text as `write` says. -/
theorem Prepare.render_map_toSegment {plain : Text → Text} {token : Token → Prepare Text}
    (write : Piece Text → Text) (hplain : ∀ run, plain run = write (.plain run))
    (htoken : ∀ span, token (.inline (.directive span)) = pure (write (.token span)))
    (ps : List (Piece Text)) :
    render plain token (ps.map Piece.toSegment) = pure (ps.flatMap write) := by
  induction ps with
  | nil => rfl
  | cons p ps ih =>
    cases p with
    | plain run =>
      rw [List.map_cons, Piece.toSegment, render_plain_cons, ih, map_pure, hplain]
      rfl
    | token span =>
      rw [List.map_cons, Piece.toSegment, render_token_cons, ih, htoken]
      rfl

/-- `render` copies text if it copies plain runs and directives. -/
theorem Prepare.render_map_scan {token : Token → Prepare Text}
    (h : ∀ span, token (.inline (.directive span)) = pure span) (content : Text) :
    render id token ((Span.scan content).map Piece.toSegment) = pure (id content) := by
  have hscan := Span.recogniser.renderAll_scan id Span.take?_eq_append content
  exact (render_map_toSegment (Piece.render id) (fun _ => rfl) h _).trans (congrArg pure hscan)

namespace Prepare.Rewrites

variable {plain write : Text → Text} {token : Token → Prepare Text}
  {change : Attribute → Prepare Attribute} {A : Attribute → Prop}

/-- `render` copies an end tag. -/
theorem endSegments (h : Rewrites plain token write change A) (tag : Tag) :
    render plain token tag.endSegments = pure tag.endText := by
  rw [Tag.endSegments]
  split
  · rw [render_token_cons, h.markup, render_nil]
    simp
  · next hform => rw [render_nil, Tag.endText, if_neg hform]

mutual

/-- `render` writes the segments of a node as `mapAttributes` changes it. -/
theorem render_segments (h : Rewrites plain token write change A) : (n : Node) →
    {owner after : Text} → n.Canonical A owner after →
    render plain token n.segments = Node.sourceBy write <$> n.mapAttributes change
  | .text content, _, _, _ => by
    rw [Node.segments, h.text, Node.mapAttributes, map_pure]
    rfl
  | .raw source, _, _, _ => by
    rw [Node.segments, render_token_cons, h.markup, render_nil, Node.mapAttributes, map_pure]
    simp [Node.sourceBy]
  | .element tag children, _, _, hn => by
    obtain ⟨htag, -, hchildren⟩ := hn
    -- Children that are not written are not there either.
    have hinner : render plain token (if tag.showsChildren then Node.segmentsAll children else []) =
        (fun ns => if tag.showsChildren then Node.sourceAllBy write ns else []) <$>
          Node.mapAttributesAll change children := by
      cases hshows : tag.showsChildren with
      | true => exact render_segmentsAll h children hchildren
      | false =>
        rw [htag.children (tag.childless_of_showsChildren hshows)]
        rfl
    rw [Node.segments, render_token_cons, render_append, h.startTag tag htag.attributes, hinner,
      h.endSegments, Node.mapAttributes]
    simp only [map_eq_pure_bind, bind_assoc, pure_bind, Node.sourceBy, List.append_assoc]
    rfl

/-- `render` writes the segments of a tree as `mapAttributesAll` changes it. -/
theorem render_segmentsAll (h : Rewrites plain token write change A) : (ns : List Node) →
    {owner after : Text} → Node.CanonicalAll A owner after ns →
    render plain token (Node.segmentsAll ns) =
      Node.sourceAllBy write <$> Node.mapAttributesAll change ns
  | [], _, _, _ => rfl
  | n :: ns, _, _, hns => by
    obtain ⟨hn, -, -, hns⟩ := hns
    rw [Node.segmentsAll, render_append, render_segments h n hn, render_segmentsAll h ns hns,
      Node.mapAttributesAll]
    simp [Node.sourceAllBy]

end

end Prepare.Rewrites

/-! ## Start tags -/

namespace Prepare

variable {inline : Inline → Prepare Text} {change : Attribute → Prepare Attribute}

/-- `render` writes the `pieces` of an attribute, then the rest. -/
theorem render_pieces (a : Attribute) (ps : List (Piece Inline)) :
    render id inline (a.pieces ps) = do
      let front ← render id inline (a.pieces [])
      let back ← render id inline ps
      return front ++ back := by
  unfold Attribute.pieces
  split
  · simp only [render_plain_cons, render_token_cons, render_nil, map_eq_pure_bind, bind_assoc,
      pure_bind, List.append_nil, List.append_assoc]
  · simp only [render_prepend, render_nil, map_eq_pure_bind, pure_bind, List.append_nil]

/-- `mapTag` writes a start tag with the attributes that `change` gives. -/
theorem mapTag_start {tag : Tag}
    (h : ∀ a ∈ tag.attributes,
      render id inline (a.pieces []) = Attribute.text <$> change a) :
    mapTag inline tag.start =
      (fun attributes => { tag with attributes }.startText) <$> tag.attributes.mapM change := by
  -- The pass goes through the attributes one by one, and the end of the tag stays.
  have hattributes (attributes : List Attribute)
      (h : ∀ a ∈ attributes, render id inline (a.pieces []) = Attribute.text <$> change a) :
      render id inline (attributes.foldr Attribute.pieces [.plain (tag.slash ++ ['>'])]) =
        (fun new => Attribute.textAll new ++ (tag.slash ++ ['>'])) <$> attributes.mapM change := by
    induction attributes with
    | nil => simp [render_plain_cons, render_nil, Attribute.textAll]
    | cons a attributes ih =>
      rw [List.foldr_cons, render_pieces, h a List.mem_cons_self,
        ih fun b hb => h b (List.mem_cons_of_mem _ hb)]
      simp only [List.mapM_cons, map_eq_pure_bind, bind_assoc, pure_bind, Attribute.textAll_cons,
        List.append_assoc]
  rw [mapTag, Tag.start, render_prepend, hattributes tag.attributes h, Functor.map_map]
  congr 1
  funext attributes
  have htext := Tag.startText_append { tag with attributes } []
  rw [List.append_nil] at htext
  rw [htext]
  rfl

/-- `render` copies a canonical attribute. -/
theorem render_pieces_of_isCanonical {a : Attribute} (h : a.IsCanonical) :
    render id inline (a.pieces []) = pure a.text := by
  rw [h.pieces_eq]
  show render id inline [.plain a.text] = _
  rw [render_plain_cons, render_nil, map_pure, id, List.append_nil]

/-- `render` writes what `inline` makes of a directive in the place of an attribute. -/
theorem render_pieces_of_isSlot {a : Attribute} (h : a.IsSlot) :
    render id inline (a.pieces []) = (' ' :: ·) <$> inline (.directive a.name) := by
  rw [h.pieces_eq, render_plain_cons, render_token_cons, render_nil]
  simp only [map_eq_pure_bind, bind_assoc, pure_bind, List.append_nil]
  rfl

/-- `render` copies attributes if it copies directives. -/
theorem render_pieces_copy (hinline : ∀ span, inline (.directive span) = pure span) {a : Attribute}
    (h : a.IsCanonical ∨ a.IsSlot) :
    render id inline (a.pieces []) = Attribute.text <$> pure a := by
  rcases h with h | h
  · rw [render_pieces_of_isCanonical h, map_pure]
  · rw [render_pieces_of_isSlot h, hinline, map_pure, map_pure, h.text_eq]

end Prepare

/-! ## Replacing directives by holders -/

/-- The attribute that holds a placeholder. -/
def Family.holderAttribute (family : Family) (index : Nat) : Attribute :=
  ⟨family.holder, .quoted (family.token index) .double⟩

theorem Family.text_holderAttribute (family : Family) (index : Nat) :
    (family.holderAttribute index).text = ' ' :: family.holderText index := rfl

namespace Prepare

/-- Replace the directives that `select` picks. -/
def holding (select : Text → Option (Family × Text)) : Inline → Prepare Text
  | .directive span =>
    match select span with
    | some (family, entry) => recordHolder family entry
    | none => pure span
  | inline => pure inline.source

/-- Record the directive in the place of an attribute, if `select` picks it. -/
def hold (select : Text → Option (Family × Text)) (a : Attribute) : Prepare Attribute :=
  match if a.isDirective then select a.name else none with
  | some (family, entry) => do
    let (index, ctx) := (← get).record family entry
    set ctx
    return family.holderAttribute index
  | none => return a

variable {select : Text → Option (Family × Text)}

/-- `hold` leaves a canonical attribute as it is. -/
theorem hold_of_isCanonical {a : Attribute} (h : a.IsCanonical) : hold select a = pure a := by
  rw [hold, h.isDirective_eq]
  rfl

/-- `holding` writes the attribute that `hold` gives. -/
theorem render_pieces_holding {a : Attribute} (h : a.IsCanonical ∨ a.IsSlot) :
    render id (holding select) (a.pieces []) = Attribute.text <$> hold select a := by
  rcases h with h | h
  · rw [render_pieces_of_isCanonical h, hold_of_isCanonical h, map_pure]
  · rw [render_pieces_of_isSlot h, hold, h.isDirective_eq, if_pos rfl, holding]
    -- A directive that is not picked is copied; one that is picked leaves its holder.
    cases hselect : select a.name with
    | none => rw [map_pure, map_pure, h.text_eq]
    | some found =>
      obtain ⟨family, entry⟩ := found
      rfl

end Prepare

namespace AttributeDirective

/-- Picks the conditions. -/
def pickCondition (span : Text) : Option (Family × Text) :=
  match classify? span with
  | some (.cond condition) => some (.condition, condition)
  | _ => none

/-- Picks the directives that give an attribute its value. -/
def pickValue (span : Text) : Option (Family × Text) :=
  (classify? span).bind fun directive =>
    directive.family?.bind fun family => directive.value?.map fun value => (family, value)

end AttributeDirective

/-- `substituteConditions` holds what `pickCondition` picks. -/
theorem substituteConditions_eq :
    substituteConditions = Prepare.mapTags (Prepare.holding AttributeDirective.pickCondition) := by
  funext source
  rw [substituteConditions]
  congr 1
  funext inline
  cases inline with
  | call => rfl
  | directive span =>
    simp only [Prepare.holding, AttributeDirective.pickCondition]
    cases AttributeDirective.classify? span with
    | none => rfl
    | some d => cases d <;> rfl

/-- `substituteAttributes` holds what `pickValue` picks. -/
theorem substituteAttributes_eq :
    substituteAttributes = Prepare.mapTags (Prepare.holding AttributeDirective.pickValue) := by
  funext source
  rw [substituteAttributes]
  congr 1
  funext inline
  cases inline with
  | call => rfl
  | directive span =>
    simp only [Prepare.holding, AttributeDirective.pickValue]
    cases AttributeDirective.classify? span with
    | none => rfl
    | some d => cases d <;> rfl

/-- `Inheritance.first?` finds nothing if no segment names a parent. -/
theorem Inheritance.first?_eq_none {ss : List Segment}
    (h : ∀ s ∈ ss, ∀ parent, directive? s ≠ some (.inherit parent)) : first? ss = none := by
  induction ss with
  | nil => rfl
  | cons s ss ih =>
    rw [first?]
    split
    · next parent hs => exact absurd hs (h s List.mem_cons_self parent)
    · rw [ih fun s hs => h s (List.mem_cons_of_mem _ hs)]
      rfl

namespace Node

open Prepare

variable {A : Attribute → Prop} {owner : Text} {ns : List Node}

/-- `mapTags (holding select)` changes the attributes of a tree by `hold select`. -/
theorem mapTags_holding (select : Text → Option (Family × Text))
    (hA : ∀ a, A a → a.IsCanonical ∨ a.IsSlot) (h : CanonicalAll A owner [] ns) :
    mapTags (holding select) (sourceAll ns) = sourceAll <$> mapAttributesAll (hold select) ns := by
  rw [mapTags, segments_sourceAll hA h, ← funext sourceAllBy_id]
  refine Rewrites.render_segmentsAll (A := A) ⟨render_map_scan fun _ => rfl, fun _ => rfl, ?_⟩ ns h
  intro tag htag
  exact mapTag_start fun a ha => render_pieces_holding (hA a (htag a ha))

/-- `substituteCalls` leaves the markup of a canonical tree as it is. -/
theorem substituteCalls_sourceAll (hA : ∀ a, A a → a.IsCanonical ∨ a.IsSlot)
    (h : CanonicalAll A owner [] ns) : substituteCalls (sourceAll ns) = pure (sourceAll ns) := by
  have hcopy : sourceAllBy id <$> mapAttributesAll pure ns = pure (sourceAll ns) := by
    rw [mapAttributesAll_of_pure (fun _ _ => rfl) ns h, map_pure, sourceAllBy_id]
  rw [substituteCalls, segments_sourceAll hA h, ← hcopy]
  refine Rewrites.render_segmentsAll (A := A) ⟨render_map_scan fun _ => rfl, fun _ => rfl, ?_⟩ ns h
  intro tag htag
  exact mapTag_start fun a ha => render_pieces_copy (fun _ => rfl) (hA a (htag a ha))

/-- `protectLiterals` hides characters in the texts of a canonical tree. -/
theorem protectLiterals_sourceAll (h : CanonicalAll Attribute.IsCanonical owner [] ns) :
    protectLiterals (sourceAll ns) = pure (sourceAllBy Literal.protectContent ns) := by
  have hcopy : sourceAllBy Literal.protectContent <$> mapAttributesAll pure ns =
      pure (sourceAllBy Literal.protectContent ns) := by
    rw [mapAttributesAll_of_pure (fun _ _ => rfl) ns h, map_pure]
  rw [protectLiterals, segments_sourceAll (fun _ => .inl) h, ← hcopy]
  refine Rewrites.render_segmentsAll (A := Attribute.IsCanonical) ⟨fun content =>
    render_map_toSegment Literal.protectPiece (fun _ => rfl) (fun _ => rfl) (Span.scan content),
    fun _ => rfl, ?_⟩ ns h
  intro tag htag
  refine mapTag_start fun a ha => ?_
  rw [render_pieces_of_isCanonical (htag a ha), map_pure]

mutual

/-- No segment of a canonical node names a parent. -/
private theorem directive?_segments : (n : Node) → {owner after : Text} →
    n.Canonical A owner after → ∀ s ∈ n.segments, ∀ parent,
      Inheritance.directive? s ≠ some (.inherit parent)
  | .text content, _, _, h => by
    intro s hs parent
    obtain ⟨p, hp, rfl⟩ := List.mem_map.1 hs
    cases p with
    | plain run => rintro ⟨⟩
    | token span =>
      intro hdirective
      exact h.no_inherit span hp parent (Option.some.inj hdirective)
  | .raw source, _, _, _ => by
    intro s hs parent
    rw [List.mem_singleton.1 hs]
    rintro ⟨⟩
  | .element tag children, _, _, h => by
    intro s hs parent
    rw [segments, List.mem_cons, List.mem_append] at hs
    -- The start tag, the children and the end tag.
    rcases hs with rfl | hs | hs
    · rintro ⟨⟩
    · split at hs
      · exact directive?_segmentsAll children h.2.2 s hs parent
      · cases hs
    · rw [Tag.endSegments] at hs
      split at hs
      · rw [List.mem_singleton.1 hs]
        rintro ⟨⟩
      · cases hs

/-- No segment of a canonical tree names a parent. -/
private theorem directive?_segmentsAll : (ns : List Node) → {owner after : Text} →
    CanonicalAll A owner after ns → ∀ s ∈ segmentsAll ns, ∀ parent,
      Inheritance.directive? s ≠ some (.inherit parent)
  | [], _, _, _ => fun s hs => by cases hs
  | n :: ns, _, _, h => by
    intro s hs
    rcases List.mem_append.1 hs with hs | hs
    · exact directive?_segments n h.1 s hs
    · exact directive?_segmentsAll ns h.2.2.2 s hs

end

/-- `substituteInheritance` leaves the markup of a canonical tree as it is. -/
theorem substituteInheritance_sourceAll (hA : ∀ a, A a → a.IsCanonical ∨ a.IsSlot)
    (h : CanonicalAll A owner [] ns) :
    substituteInheritance (sourceAll ns) = pure (sourceAll ns) := by
  have hfirst : Inheritance.first? (segmentsAll ns) = none :=
    Inheritance.first?_eq_none (directive?_segmentsAll ns h)
  rw [substituteInheritance, segments_sourceAll hA h, hfirst]

end Node

end TemploTwig
