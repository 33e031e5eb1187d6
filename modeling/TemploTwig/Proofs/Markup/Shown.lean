import TemploTwig.Proofs.Markup.Building

/-!
# Trees that are shown as a whole

The markup of a void or self-closing element leaves out its children.  The reader gives such an
element none, so nothing in the tree of a document is lost when it is written down.
-/

namespace TemploTwig

namespace Node

mutual

/-- An element of the node whose children are not written has none. -/
def Shown : Node → Prop
  | .text _ => True
  | .raw _ => True
  | .element tag children => (tag.showsChildren = false → children = []) ∧ ShownIn children

/-- An element of the nodes whose children are not written has none. -/
def ShownIn : List Node → Prop
  | [] => True
  | n :: ns => Shown n ∧ ShownIn ns

end

theorem shownIn_append_iff {ns ms : List Node} : ShownIn (ns ++ ms) ↔ ShownIn ns ∧ ShownIn ms := by
  induction ns with
  | nil => simp [ShownIn]
  | cons n ns ih => rw [List.cons_append, ShownIn, ShownIn, ih, and_assoc]

theorem shownIn_singleton_iff {n : Node} : ShownIn [n] ↔ n.Shown := by
  simp [ShownIn]

theorem shown_element {tag : Tag} {children : List Node} (htag : tag.showsChildren = true)
    (h : ShownIn children) : (Node.element tag children).Shown := by
  rw [Shown]
  exact ⟨fun hshows => absurd htag (by simp [hshows]), h⟩

theorem ShownIn.pushText {ns : List Node} (h : ShownIn ns) (t : Text) : ShownIn (pushText t ns) := by
  fun_induction Node.pushText t ns with
  | case1 | case2 u => exact shownIn_singleton_iff.2 trivial
  | case3 n ns hn ih => exact ⟨h.1, ih h.2⟩

end Node

namespace Builder

/-- Everything read so far is shown. -/
structure Shown (b : Builder) : Prop where
  frames : ∀ f ∈ b.frames, Node.ShownIn f.children
  children : Node.ShownIn b.children

/-- Building puts nothing into an element that does not show it. -/
theorem rules_shownIn : Rules Node.ShownIn Node.Shown Node.ShownIn where
  nil := trivial
  push hns hn := Node.shownIn_append_iff.2 ⟨hns, Node.shownIn_singleton_iff.2 hn⟩
  pushText t hns := hns.pushText t
  leaf _ := ⟨fun _ => rfl, trivial⟩
  verbatim _ := trivial
  left_nil := trivial
  unclosed hns hinner := Node.shownIn_singleton_iff.2
    (Node.shown_element rfl (Node.shownIn_append_iff.2 ⟨hns, hinner⟩))
  closed hns hinner := Node.shown_element rfl (Node.shownIn_append_iff.2 ⟨hns, hinner⟩)

theorem Shown.finish {b : Builder} (h : b.Shown) : Node.ShownIn b.finish :=
  rules_shownIn.of_finish (fun hns hinner => Node.shownIn_append_iff.2 ⟨hns, hinner⟩) h.frames
    h.children

end Builder

namespace Document

/-- No event puts something into an element that does not show it. -/
theorem shown_step {b b' : Builder} {e : Event} (h : b.Shown) (hstep : step b e = .reading b') :
    b'.Shown := by
  obtain ⟨hframes, hchildren⟩ :=
    Builder.rules_shownIn.of_effect h.frames h.children (effect_of_step hstep)
  exact ⟨hframes, hchildren⟩

/-- The tree of a document is shown as a whole. -/
theorem shownIn_parse? {t : Text} {root : Element} (h : parse? t = some root) :
    Node.ShownIn root.children := by
  have hempty : Builder.empty.Shown := ⟨by simp [Builder.empty], trivial⟩
  exact readOn_induction (fun b _ => b.Shown)
    (fun b _ e _ b' hb _ hstep => shown_step hb hstep) (fun b _ hb => hb.finish) hempty
    (readOn_of_parse? h)

end Document

end TemploTwig
