import TemploTwig.Proofs.Markup.Reading

/-!
# What building a tree keeps

A tree is built event by event.  An event adds a node or text to the innermost open element, opens
an element, closes open ones or changes nothing.  So a rule about children that all of these keep
holds of the children in the finished tree.

Key results: `Document.Effect`, `Document.readOn_induction`, `Builder.Rules.of_effect`.
-/

namespace TemploTwig

/-! ## Closing elements -/

namespace Frame

variable {opened : Frame → Prop} {left : List Node → Prop} {fs frames : List Frame}
  {inner : List Node} {n : Node}

/-- The element that an end tag closes is one of the open ones, with what was left open inside it
    behind its children.  Those around it stay open. -/
theorem exists_of_closeNamed? {name : Text}
    (hleft : ∀ {f inner}, opened f → left inner → left [f.close .unclosed inner])
    (hfs : ∀ f ∈ fs, opened f) (hinner : left inner)
    (hclose : closeNamed? name fs inner = some (n, frames)) :
    (∃ f inner, opened f ∧ left inner ∧ n = f.close .normal inner) ∧ ∀ f ∈ frames, opened f := by
  induction fs generalizing inner with
  | nil => cases hclose
  | cons f fs ih =>
    have hf := hfs f List.mem_cons_self
    have hrest (g : Frame) (hg : g ∈ fs) := hfs g (List.mem_cons_of_mem f hg)
    rw [closeNamed?] at hclose
    split at hclose
    · obtain ⟨rfl, rfl⟩ := Prod.mk.inj (Option.some.inj hclose)
      exact ⟨⟨f, inner, hf, hinner, rfl⟩, hrest⟩
    · exact ih hrest (hleft hf hinner) hclose

/-- What is left open at the end of the text is closed from the innermost outwards. -/
theorem left_closeAll (hleft : ∀ {f inner}, opened f → left inner → left [f.close .unclosed inner])
    (hfs : ∀ f ∈ fs, opened f) (hinner : left inner) : left (closeAll fs inner) := by
  induction fs generalizing inner with
  | nil => exact hinner
  | cons f fs ih =>
    exact ih (fun g hg => hfs g (List.mem_cons_of_mem f hg))
      (hleft (hfs f List.mem_cons_self) hinner)

end Frame

/-! ## The effect of an event -/

namespace Document

/-- All that an event can do while the root is open. -/
inductive Effect (b : Builder) : Builder → Prop
  | leaf (tag : Tag) (h : tag.showsChildren = false) : Effect b (b.push (.element tag []))
  | verbatim (content : Text) : Effect b (b.push (.raw ('<' :: content ++ ['>'])))
  | text (t : Text) : Effect b (b.pushText t)
  | enter (name : Text) (attributes : List Attribute) :
    Effect b { b with frames := ⟨name, attributes, []⟩ :: b.frames }
  | close {name : Text} {n : Node} {frames : List Frame}
    (h : Frame.closeNamed? name b.frames [] = some (n, frames)) :
    Effect b ({ b with frames }.push n)
  | skip : Effect b b

/-- `step` has one of the effects. -/
theorem effect_of_step {b b' : Builder} {e : Event} (h : step b e = .reading b') : Effect b b' := by
  have hraw {source : Text} (content : Text) (hsource : source = '<' :: content ++ ['>']) :
      Effect b (b.push (.raw source)) := hsource ▸ .verbatim content
  cases e with
  | start name raw =>
    rw [step] at h
    split at h
    · rw [← Progress.reading.inj h]
      exact .leaf _ rfl
    · rw [← Progress.reading.inj h]
      exact .enter name _
  | empty name raw =>
    rw [← Progress.reading.inj h]
    exact .leaf _ rfl
  | text _ | reference _ =>
    rw [← Progress.reading.inj h]
    exact .text _
  | cdata content =>
    rw [← Progress.reading.inj h]
    exact hraw ("![CDATA[".toList ++ content ++ "]]".toList) (by simp)
  | comment content =>
    rw [← Progress.reading.inj h]
    exact hraw ("!--".toList ++ content ++ "--".toList) (by simp)
  | doctype content =>
    rw [← Progress.reading.inj h]
    exact hraw ("!DOCTYPE ".toList ++ content.trimStart) (by simp)
  | instruction content =>
    rw [← Progress.reading.inj h]
    exact hraw ('?' :: content ++ ['?']) (by simp)
  | close name =>
    rw [step] at h
    split at h
    · next n frames hclose =>
      rw [← Progress.reading.inj h]
      exact .close hclose
    · -- An end tag that matches nothing is skipped, unless it is that of the root.
      split at h
      · cases h
      · rw [← Progress.reading.inj h]
        exact .skip

/-- The root is closed with what was read so far. -/
theorem eq_finish_of_step {b : Builder} {e : Event} {ns : List Node} (h : step b e = .closed ns) :
    ns = b.finish := by
  cases e with
  | start name raw => rw [step] at h; split at h <;> cases h
  | close name =>
    rw [step] at h
    split at h
    · cases h
    · split at h
      · exact (Progress.closed.inj h).symm
      · cases h
  | empty _ _ | text _ | reference _ | cdata _ | comment _ | doctype _ | instruction _ =>
    cases h

/-- `readOn` goes on with the event at the front of the text, or the text is at its end. -/
theorem exists_of_readOn {b : Builder} {t : Text} {ns : List Node} (hread : readOn b t = some ns) :
    (t = [] ∧ ns = b.finish) ∨ ∃ e rest, Event.take? t = some (e, rest) ∧
      (step b e = .closed ns ∨ ∃ b', step b e = .reading b' ∧ readOn b' rest = some ns) := by
  cases t with
  | nil =>
    rw [readOn, Reading.ofText] at hread
    exact .inl ⟨rfl, (Option.some.inj hread).symm⟩
  | cons c cs =>
    cases htake : Event.take? (c :: cs) with
    | none =>
      rw [readOn, Reading.ofText] at hread
      split at hread
      · next heq => rw [htake] at heq; cases heq
      · cases hread
    | some found =>
      obtain ⟨e, rest⟩ := found
      refine .inr ⟨e, rest, rfl, ?_⟩
      cases hstep : step b e with
      | reading b' =>
        rw [readOn_of_reading htake hstep] at hread
        exact .inr ⟨b', rfl, hread⟩
      | closed children =>
        rw [readOn_of_closed htake hstep] at hread
        rw [Option.some.inj hread]
        exact .inl rfl

/-- What every event keeps holds of the tree in the end. -/
theorem readOn_induction (inv : Builder → Text → Prop) {post : List Node → Prop}
    (hreading : ∀ b t e rest b', inv b t → Event.take? t = some (e, rest) →
      step b e = .reading b' → inv b' rest)
    (hend : ∀ b t, inv b t → post b.finish) {b : Builder} {t : Text} (h : inv b t) {ns : List Node}
    (hread : readOn b t = some ns) : post ns := by
  -- Every event takes something off the text, so the induction is on what is left of it.
  induction hlen : t.length using Nat.strongRecOn generalizing b t with
  | _ n ih =>
    rcases exists_of_readOn hread with ⟨-, rfl⟩ | ⟨e, rest, htake, hstep | ⟨b', hstep, hrest⟩⟩
    · exact hend b t h
    · rw [eq_finish_of_step hstep]
      exact hend b t h
    · have hlt := Event.length_lt_of_take? htake
      exact ih rest.length (by omega) (hreading b t e rest b' h htake hstep) hrest rfl

end Document

/-! ## Rules -/

namespace Builder

/-- A rule about the children of open elements.  `node` holds of the nodes that are added to them
    and `left` of what stands behind them when an element is closed, with all that was left open
    inside it. -/
structure Rules (children : List Node → Prop) (node : Node → Prop) (left : List Node → Prop) :
    Prop where
  nil : children []
  push : ∀ {ns n}, children ns → node n → children (ns ++ [n])
  pushText : ∀ {ns} t, children ns → children (Node.pushText t ns)
  leaf : ∀ {tag : Tag}, tag.showsChildren = false → node (.element tag [])
  verbatim : ∀ content, node (.raw ('<' :: content ++ ['>']))
  left_nil : left []
  unclosed : ∀ {f : Frame} {inner}, children f.children → left inner →
    left [f.close .unclosed inner]
  closed : ∀ {f : Frame} {inner}, children f.children → left inner → node (f.close .normal inner)

section Keeping

variable {b b' : Builder}

/-- The innermost open element is one of the open ones, or the root. -/
theorem modifyInnermost_keeps {rule : List Node → Prop} {change : List Node → List Node}
    (hchange : ∀ ns, rule ns → rule (change ns)) (hframes : ∀ f ∈ b.frames, rule f.children)
    (hchildren : rule b.children) :
    (∀ f ∈ (b.modifyInnermost change).frames, rule f.children) ∧
      rule (b.modifyInnermost change).children := by
  obtain ⟨frames, children⟩ := b
  cases frames with
  | nil => exact ⟨hframes, hchange _ hchildren⟩
  | cons frame frames =>
    refine ⟨?_, hchildren⟩
    intro f hf
    rcases List.mem_cons.1 hf with rfl | hf
    · exact hchange _ (hframes frame List.mem_cons_self)
    · exact hframes f (List.mem_cons_of_mem frame hf)

namespace Rules

variable {children : List Node → Prop} {node : Node → Prop} {left : List Node → Prop}

/-- One event keeps the rule, in every open element and in the root. -/
theorem of_effect (h : Rules children node left) (hframes : ∀ f ∈ b.frames, children f.children)
    (hchildren : children b.children) (heffect : Document.Effect b b') :
    (∀ f ∈ b'.frames, children f.children) ∧ children b'.children := by
  have hpush {n : Node} (hn : node n) (ns : List Node) (hns : children ns) := h.push hns hn
  cases heffect with
  | leaf tag hshows => exact modifyInnermost_keeps (hpush (h.leaf hshows)) hframes hchildren
  | verbatim content => exact modifyInnermost_keeps (hpush (h.verbatim content)) hframes hchildren
  | text t => exact modifyInnermost_keeps (fun _ hns => h.pushText t hns) hframes hchildren
  | enter name attributes =>
    refine ⟨?_, hchildren⟩
    intro f hf
    rcases List.mem_cons.1 hf with rfl | hf
    · exact h.nil
    · exact hframes f hf
  | close hclose =>
    obtain ⟨⟨f, inner, hf, hinner, rfl⟩, hrest⟩ :=
      Frame.exists_of_closeNamed? h.unclosed hframes h.left_nil hclose
    exact modifyInnermost_keeps (hpush (h.closed hf hinner)) hrest hchildren
  | skip => exact ⟨hframes, hchildren⟩

/-- What is left open at the end stands behind the other children of the root. -/
theorem of_finish (h : Rules children node left) {post : List Node → Prop}
    (hpost : ∀ {ns inner}, children ns → left inner → post (ns ++ inner))
    (hframes : ∀ f ∈ b.frames, children f.children) (hchildren : children b.children) :
    post b.finish :=
  hpost hchildren (Frame.left_closeAll h.unclosed hframes h.left_nil)

end Rules

end Keeping

end Builder

end TemploTwig
