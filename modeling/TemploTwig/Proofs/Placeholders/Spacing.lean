import TemploTwig.Proofs.Placeholders.Legible

/-!
# Where nodes meet

A mark can come to lie across the border of two nodes only where a text meets a text, or where an
element without an end tag is followed by something.  The reader builds no such tree, and what the
conversion puts next to a text begins and ends with characters of no mark.
-/

namespace TemploTwig

namespace Node

/-- The node begins with a tag, or it is a text that `starts`. -/
def Starts (starts : Text → Prop) : Node → Prop
  | .text t => starts t
  | _ => True

/-- The node ends with a tag, or it is a text that `ends`. -/
def Ends (ends : Text → Prop) : Node → Prop
  | .element tag _ => tag.form ≠ .unclosed
  | .text t => ends t
  | .raw _ => True

/-- Verbatim markup has its brackets. -/
def Enclosed (source : Text) : Prop := ∃ inner, source = '<' :: inner ++ ['>']

section

variable (starts ends : Text → Prop)

mutual

/-- At every border inside the node one side is harmless. -/
def Spaced : Node → Prop
  | .element _ children => SpacedIn children
  | .text _ => True
  | .raw source => Enclosed source

/-- At every border between and inside the nodes one side is harmless. -/
def SpacedIn : List Node → Prop
  | [] => True
  | n :: ns => Spaced n ∧ (∀ m ∈ ns.head?, n.Ends ends ∨ m.Starts starts) ∧ SpacedIn ns

end

end

variable {starts ends : Text → Prop} {n : Node} {ns ms : List Node}

theorem spacedIn_nil : SpacedIn starts ends [] := by
  rw [SpacedIn]
  trivial

theorem spacedIn_cons_iff : SpacedIn starts ends (n :: ns) ↔ Spaced starts ends n ∧
    (∀ m ∈ ns.head?, n.Ends ends ∨ m.Starts starts) ∧ SpacedIn starts ends ns := by
  rw [SpacedIn]

theorem spacedIn_singleton_iff : SpacedIn starts ends [n] ↔ Spaced starts ends n := by
  rw [spacedIn_cons_iff]
  simp [spacedIn_nil]

/-- `SpacedIn` of two parts needs space at the seam. -/
theorem spacedIn_append_iff : SpacedIn starts ends (ns ++ ms) ↔ SpacedIn starts ends ns ∧
    SpacedIn starts ends ms ∧
      ∀ n ∈ ns.getLast?, ∀ m ∈ ms.head?, n.Ends ends ∨ m.Starts starts := by
  induction ns with
  | nil => simp [spacedIn_nil]
  | cons n ns ih =>
    rw [List.cons_append, spacedIn_cons_iff, spacedIn_cons_iff, ih]
    cases ns with
    | nil =>
      simp [spacedIn_nil]
      tauto
    | cons k ns =>
      rw [List.getLast?_cons_cons]
      simp only [List.cons_append, List.head?_cons]
      tauto

/-! ## The tree of a text -/

/-- No text meets a text, nothing follows an element without an end tag, and more may follow. -/
structure Grows (ns : List Node) : Prop where
  spaced : SpacedIn (fun _ => False) (fun _ => False) ns
  last : ∀ n ∈ ns.getLast?, n.Ends fun _ => True

theorem grows_nil : Grows [] := ⟨spacedIn_nil, fun _ h => (by cases h)⟩

theorem Starts.of_isText {starts : Text → Prop} (h : n.isText = false) : n.Starts starts := by
  cases n with
  | element _ _ | raw _ => trivial
  | text _ => cases h

theorem Ends.of_isText {ends ends' : Text → Prop} (h : n.isText = false) (hends : n.Ends ends) :
    n.Ends ends' := by
  cases n with
  | element _ _ => exact hends
  | raw _ => trivial
  | text _ => cases h

theorem Grows.append (h : Grows ns)
    (hms : SpacedIn (fun _ => False) (fun _ => False) ms) (hhead : ∀ m ∈ ms.head?, m.isText = false) :
    SpacedIn (fun _ => False) (fun _ => False) (ns ++ ms) := by
  refine spacedIn_append_iff.2 ⟨h.spaced, hms, fun n _ m hm => ?_⟩
  exact .inr (Starts.of_isText (hhead m hm))

theorem Grows.push (h : Grows ns) (hn : Spaced (fun _ => False) (fun _ => False) n)
    (htext : n.isText = false) (hend : n.Ends fun _ => True) : Grows (ns ++ [n]) := by
  refine ⟨h.append (spacedIn_singleton_iff.2 hn) (by simpa using htext), ?_⟩
  rw [List.getLast?_concat]
  simpa using hend

/-- `pushText` keeps `Grows`. -/
theorem Grows.pushText (h : Grows ns) (t : Text) : Grows (Node.pushText t ns) := by
  cases hends : endsInText ns with
  | false =>
    rw [pushText_of_endsInText hends]
    have hlast (n : Node) (hn : n ∈ ns.getLast?) : n.isText = false := by
      rw [endsInText, Option.mem_def.1 hn] at hends
      exact hends
    refine ⟨spacedIn_append_iff.2 ⟨h.spaced, spacedIn_singleton_iff.2 ?_, ?_⟩, ?_⟩
    · rw [Spaced]
      trivial
    · intro n hn m _
      exact .inl (Ends.of_isText (hlast n hn) (h.last n hn))
    · rw [List.getLast?_concat]
      simp [Ends]
  | true =>
    -- A text at the end grows, and the borders stay where they were.
    obtain ⟨n, hlast, hn⟩ := (Option.any_eq_true _ _).1 hends
    obtain ⟨front, rfl⟩ := List.getLast?_eq_some_iff.1 hlast
    cases n with
    | element _ _ | raw _ => cases hn
    | text u =>
      rw [pushText_concat_text]
      have hspaced := h.spaced
      rw [spacedIn_append_iff] at hspaced
      refine ⟨spacedIn_append_iff.2 ⟨hspaced.1, spacedIn_singleton_iff.2 ?_, ?_⟩, ?_⟩
      · rw [Spaced]
        trivial
      · intro n hn m hm
        obtain rfl : .text (u ++ t) = m := Option.some.inj hm
        exact hspaced.2.2 n hn (.text u) rfl
      · rw [List.getLast?_concat]
        simp [Ends]

end Node

namespace Builder

/-- The children of every open element and of the root may grow. -/
structure Grows (b : Builder) : Prop where
  frames : ∀ f ∈ b.frames, Node.Grows f.children
  children : Node.Grows b.children

/-- Building keeps texts apart, and puts nothing behind an element without an end tag.  What is left
    open begins with a tag. -/
theorem rules_grows : Rules Node.Grows
    (fun n => Node.Spaced (fun _ => False) (fun _ => False) n ∧ n.isText = false ∧
      n.Ends fun _ => True)
    (fun inner => Node.SpacedIn (fun _ => False) (fun _ => False) inner ∧
      ∀ m ∈ inner.head?, m.isText = false) where
  nil := Node.grows_nil
  push hns hn := hns.push hn.1 hn.2.1 hn.2.2
  pushText t hns := hns.pushText t
  leaf {tag} hshows := by
    refine ⟨?_, rfl, ?_⟩
    · rw [Node.Spaced]
      exact Node.spacedIn_nil
    · intro hform
      simp [Tag.showsChildren, hform] at hshows
  verbatim content := by
    rw [Node.Spaced]
    exact ⟨⟨content, rfl⟩, rfl, trivial⟩
  left_nil := ⟨Node.spacedIn_nil, by simp⟩
  -- What was left open inside begins with a tag, so it meets no text.
  unclosed hns hinner := by
    refine ⟨Node.spacedIn_singleton_iff.2 ?_, by simp [Frame.close, Node.isText]⟩
    rw [Frame.close, Node.Spaced]
    exact hns.append hinner.1 hinner.2
  closed hns hinner := by
    refine ⟨?_, rfl, by simp [Frame.close, Node.Ends]⟩
    rw [Frame.close, Node.Spaced]
    exact hns.append hinner.1 hinner.2

end Builder

namespace Document

/-- One event keeps the children of the open elements spaced. -/
theorem grows_step {b b' : Builder} {e : Event} (h : b.Grows) (hstep : step b e = .reading b') :
    b'.Grows := by
  obtain ⟨hframes, hchildren⟩ :=
    Builder.rules_grows.of_effect h.frames h.children (effect_of_step hstep)
  exact ⟨hframes, hchildren⟩

/-- In the tree of a text no text meets a text, and nothing follows an element without an end
    tag. -/
theorem spacedIn_parse? {t : Text} {root : Element} (h : parse? t = some root) :
    Node.SpacedIn (fun _ => False) (fun _ => False) root.children := by
  have hstart : Builder.empty.Grows := ⟨fun f hf => (by cases hf), Node.grows_nil⟩
  refine readOn_induction (fun b _ => b.Grows) ?_ ?_ hstart (readOn_of_parse? h)
  · intro b t e rest b' hb _ hstep
    exact grows_step hb hstep
  · intro b _ hb
    exact Builder.rules_grows.of_finish (fun hns hinner => hns.append hinner.1 hinner.2) hb.frames
      hb.children

end Document

/-! ## Other nodes in the place of a node -/

namespace Node

section Fitting

variable {starts ends starts' ends' : Text → Prop} {n : Node} {ns ms ls : List Node}

/-- The nodes may stand in the place of `n`: where the borders of `n` are harmless, so are theirs. -/
structure Fits (starts ends starts' ends' : Text → Prop) (n : Node) (ms : List Node) : Prop where
  spaced : SpacedIn starts' ends' ms
  ne_nil : ms ≠ []
  head : n.Starts starts → ∀ m ∈ ms.head?, m.Starts starts'
  last : n.Ends ends → ∀ m ∈ ms.getLast?, m.Ends ends'

/-- The nodes may stand in the place of `ns`, behind whatever `ns` may follow. -/
structure FitsIn (starts starts' ends' : Text → Prop) (ns ms : List Node) : Prop where
  spaced : SpacedIn starts' ends' ms
  head : ∀ m ∈ ms.head?, ∃ n ∈ ns.head?, n.Starts starts → m.Starts starts'

theorem fitsIn_nil : FitsIn starts starts' ends' [] [] :=
  ⟨spacedIn_nil, fun _ h => (by cases h)⟩

theorem fits_singleton (h : Spaced starts ends n) : Fits starts ends starts ends n [n] where
  spaced := spacedIn_singleton_iff.2 h
  ne_nil := by simp
  head hstart m hm := Option.some.inj hm ▸ hstart
  last hend m hm := Option.some.inj hm ▸ hend

theorem fitsIn_self (h : SpacedIn starts ends ns) : FitsIn starts starts ends ns ns :=
  ⟨h, fun m hm => ⟨m, hm, id⟩⟩

/-- Node by node. -/
theorem Fits.cons (h : Fits starts ends starts' ends' n ms) (hrest : FitsIn starts starts' ends' ns ls)
    (hborder : ∀ m ∈ ns.head?, n.Ends ends ∨ m.Starts starts) :
    FitsIn starts starts' ends' (n :: ns) (ms ++ ls) := by
  refine ⟨spacedIn_append_iff.2 ⟨h.spaced, hrest.spaced, ?_⟩, ?_⟩
  · intro m hm l hl
    obtain ⟨k, hk, hstart⟩ := hrest.head l hl
    rcases hborder k hk with hend | hk
    · exact .inl (h.last hend m hm)
    · exact .inr (hstart hk)
  · intro m hm
    refine ⟨n, rfl, fun hstart => h.head hstart m ?_⟩
    rwa [List.head?_append_of_ne_nil _ h.ne_nil] at hm

/-- Replacing an element by nodes that `Fits` keeps a list of nodes spaced. -/
theorem SpacedIn.replaced {test : Tag → Bool} {new : Element → List Node}
    (h : SpacedIn starts ends ns)
    (hnew : ∀ t children, SpacedIn starts ends children →
      Fits starts ends starts ends (.element t children) (new ⟨t, children⟩))
    (hms : Replaced test new ns ms) : FitsIn starts starts ends ns ms := by
  induction hms with
  | here _ children ns =>
    rw [spacedIn_cons_iff, Spaced] at h
    exact (hnew _ children h.1).cons (fitsIn_self h.2.2) h.2.1
  | @inside t _ cs ds _ ns ih =>
    rw [spacedIn_cons_iff, Spaced] at h
    have hnode : Spaced starts ends (.element t ds) := by
      rw [Spaced]
      exact (ih h.1).spaced
    -- An element borders on its neighbours in the same way whatever its children are.
    obtain ⟨hspaced, hne, hhead, hlast⟩ := fits_singleton hnode
    have hfits : Fits starts ends starts ends (.element t cs) [.element t ds] :=
      ⟨hspaced, hne, hhead, hlast⟩
    exact hfits.cons (fitsIn_self h.2.2) h.2.1
  | later _ _ ih =>
    rw [spacedIn_cons_iff] at h
    exact (fits_singleton h.1).cons (ih h.2.2) h.2.1

/-- `modifyFirstElement?` keeps `SpacedIn` if the change fits. -/
theorem SpacedIn.modifyFirstElement? {f : Element → Element}
    (hf : ∀ t children, SpacedIn starts ends children →
      Fits starts ends starts ends (.element t children) [(f ⟨t, children⟩).toNode])
    (h : SpacedIn starts ends ns) (hms : Node.modifyFirstElement? f ns = some ms) :
    FitsIn starts starts ends ns ms := by
  fun_induction Node.modifyFirstElement? f ns generalizing ms with
  | case1 => cases hms
  | case2 t children ns =>
    rw [spacedIn_cons_iff, Spaced] at h
    rw [← Option.some.inj hms]
    exact (hf t children h.1).cons (fitsIn_self h.2.2) h.2.1
  | case3 n ns _ ih =>
    obtain ⟨rest, hrest, rfl⟩ := Option.map_eq_some_iff.1 hms
    rw [spacedIn_cons_iff] at h
    exact (fits_singleton h.1).cons (ih h.2.2 hrest) h.2.1

end Fitting

end Node

/-! ## Converting -/

namespace Text

variable {marks : List Text} {s t : Text}

theorem BeginsBarred.append (h : BeginsBarred marks s) : BeginsBarred marks (s ++ t) := by
  obtain ⟨c, cs, rfl, hc⟩ := h
  exact ⟨c, cs ++ t, rfl, hc⟩

theorem EndsBarred.append (h : EndsBarred marks t) : EndsBarred marks (s ++ t) := by
  obtain ⟨cs, c, rfl, hc⟩ := h
  exact ⟨s ++ cs, c, by simp, hc⟩

end Text

namespace Convert

variable {marks : List Text}

/-- A statement of Twig begins and ends with a brace. -/
theorem barred_statement (hmarks : Text.Apart marks) (s : Twig.Statement) :
    Text.BeginsBarred marks s.text ∧ Text.EndsBarred marks s.text := by
  obtain ⟨content, hcontent⟩ : ∃ content, s.text = Twig.tag content := ⟨_, rfl⟩
  rw [hcontent]
  exact ⟨⟨'\x7b', _, rfl, hmarks.bars _ rfl⟩,
    ⟨"\x7b% ".toList ++ content ++ " %".toList, '\x7d', by simp [Twig.tag], hmarks.bars _ rfl⟩⟩

/-- In what the conversion makes, a border next to a text is harmless if the text makes it so. -/
def SpacedTree (marks : List Text) (ns : List Node) : Prop :=
  Node.SpacedIn (Text.BeginsBarred marks) (Text.EndsBarred marks) ns

/-- The statements around an element with conditions begin and end with characters of no mark. -/
theorem fits_wrapConditions (hmarks : Text.Apart marks) (conditions : List Text) {t t' : Tag}
    {children children' : List Node} (hform : t'.form = t.form) (h : SpacedTree marks children') :
    Node.Fits (fun _ => False) (fun _ => False) (Text.BeginsBarred marks) (Text.EndsBarred marks)
      (.element t children) (wrapConditions conditions (.element t' children')) := by
  have hline : Text.Bars marks '\n' := hmarks.bars _ rfl
  have helement : Node.Spaced (Text.BeginsBarred marks) (Text.EndsBarred marks)
      (.element t' children') := by rwa [Node.Spaced]
  unfold wrapConditions
  split
  · refine ⟨Node.spacedIn_singleton_iff.2 helement, by simp, ?_, ?_⟩
    · intro _ m hm
      -- The element stands alone, and it is no text.
      obtain rfl := Option.some.inj hm
      trivial
    · intro hend m hm
      obtain rfl := Option.some.inj hm
      show t'.form ≠ .unclosed
      rw [hform]
      exact hend
  · -- A line break keeps the statements apart from the element.
    have hclose := (barred_statement hmarks (.close .conditional)).2
    refine ⟨?_, by simp, ?_, ?_⟩
    · rw [Node.spacedIn_cons_iff, Node.spacedIn_cons_iff, Node.spacedIn_singleton_iff]
      refine ⟨by rw [Node.Spaced]; trivial, ?_, helement, ?_, by rw [Node.Spaced]; trivial⟩
      · intro m hm
        obtain rfl := Option.some.inj hm
        exact .inr trivial
      · intro m hm
        obtain rfl := Option.some.inj hm
        exact .inr ⟨'\n', _, rfl, hline⟩
    · intro _ m hm
      obtain rfl := Option.some.inj hm
      exact (barred_statement hmarks _).1.append
    · intro _ m hm
      obtain rfl := Option.some.inj hm
      exact Text.EndsBarred.append (s := ['\n']) hclose

theorem ensures_any {α : Type} (x : Convert α) :
    Ensures (fun _ => True) (fun _ => True) (fun _ => True) x :=
  fun _ _ => ⟨trivial, fun _ _ => trivial, fun _ _ => trivial⟩

mutual

/-- `convertNode` makes nodes that fit where the node stood. -/
theorem ensures_convertNode_spaced (hmarks : Text.Apart marks) :
    (n : Node) → Node.Spaced (fun _ => False) (fun _ => False) n →
      Ensures (fun _ => True) (fun _ => True)
        (Node.Fits (fun _ => False) (fun _ => False) (Text.BeginsBarred marks)
          (Text.EndsBarred marks) n) (convertNode n)
  | .text content, _ => by
    rw [convertNode]
    refine ensures_bind (ensures_any _) fun out _ => ?_
    refine ensures_pure ⟨?_, by simp, fun h => h.elim, fun h => h.elim⟩
    rw [Node.spacedIn_singleton_iff, Node.Spaced]
    trivial
  | .raw source, h => by
    rw [convertNode]
    refine ensures_pure ⟨Node.spacedIn_singleton_iff.2 ?_, by simp, ?_, ?_⟩
    · rwa [Node.Spaced] at h ⊢
    · intro _ m hm
      obtain rfl := Option.some.inj hm
      trivial
    · intro _ m hm
      obtain rfl := Option.some.inj hm
      trivial
  | .element t children, h => by
    rw [Node.Spaced] at h
    rw [convertNode]
    refine ensures_bind (ensures_any _) fun converted _ => ?_
    refine ensures_bind (ensures_convertNodes_spaced hmarks children h) fun ns hns => ?_
    exact ensures_pure (fits_wrapConditions hmarks _ rfl hns.spaced)

/-- Converting a spaced list of nodes gives a spaced list. -/
theorem ensures_convertNodes_spaced (hmarks : Text.Apart marks) :
    (ns : List Node) → Node.SpacedIn (fun _ => False) (fun _ => False) ns →
      Ensures (fun _ => True) (fun _ => True)
        (Node.FitsIn (fun _ => False) (Text.BeginsBarred marks) (Text.EndsBarred marks) ns)
        (convertNodes ns)
  | [], _ => by
    rw [convertNodes]
    exact ensures_pure Node.fitsIn_nil
  | n :: ns, h => by
    rw [Node.spacedIn_cons_iff] at h
    rw [convertNodes]
    refine ensures_bind (ensures_convertNode_spaced hmarks n h.1) fun front hfront => ?_
    refine ensures_bind (ensures_convertNodes_spaced hmarks ns h.2.2) fun back hback => ?_
    exact ensures_pure (hfront.cons hback h.2.1)

end

theorem ensures_convertTree_spaced (hmarks : Text.Apart marks) {root : Element}
    (h : Node.SpacedIn (fun _ => False) (fun _ => False) root.children) :
    Ensures (fun _ => True) (fun _ => True) (fun root' => SpacedTree marks root'.children)
      (convertTree root) := by
  rw [convertTree]
  refine ensures_bind (ensures_convertNodes_spaced hmarks root.children h) fun ns hns => ?_
  exact ensures_pure hns.spaced

/-! ## The finished tree -/

/-- The import of the macros may stand in front of any nodes. -/
theorem spacedTree_import (hmarks : Text.Apart marks) (library : Text) {ns : List Node}
    (h : SpacedTree marks ns) : SpacedTree marks (importNode library :: ns) := by
  refine Node.spacedIn_cons_iff.2 ⟨?_, fun m _ => .inl ?_, h⟩
  · rw [importNode, Node.Spaced]
    trivial
  · exact Text.EndsBarred.append (s := ['\n']) (barred_statement hmarks _).2

/-- `placeImport` keeps `SpacedTree`. -/
theorem spacedTree_placeImport (hmarks : Text.Apart marks) (library : Text) {root : Element}
    (h : SpacedTree marks root.children) :
    SpacedTree marks (placeImport library root).children := by
  -- The import ends in a brace, so it may stand in front of any text.
  have hinsert (t : Tag) (children : List Node) (hchildren : SpacedTree marks children) :
      Node.Fits (Text.BeginsBarred marks) (Text.EndsBarred marks) (Text.BeginsBarred marks)
        (Text.EndsBarred marks) (.element t children)
        [(Element.prependChild (importNode library) ⟨t, children⟩).toNode] := by
    have hnode : Node.Spaced (Text.BeginsBarred marks) (Text.EndsBarred marks)
        (.element t (importNode library :: children)) := by
      rw [Node.Spaced]
      exact spacedTree_import hmarks library hchildren
    obtain ⟨hspaced, hne, hhead, hlast⟩ := Node.fits_singleton hnode
    exact ⟨hspaced, hne, hhead, hlast⟩
  simp only [placeImport]
  split
  · next children hchildren =>
    refine (h.replaced ?_ (Node.replaced_of_eq _ hchildren)).spaced
    intro t cs hcs
    exact hinsert t cs hcs
  · split
    · next children hchildren => exact (h.modifyFirstElement? hinsert hchildren).spaced
    · exact spacedTree_import hmarks library h

/-- The block for the parent may stand in the place of any nodes. -/
theorem fits_inheritanceBlock (hmarks : Text.Apart marks) (parent : Text) {content : List Node}
    (h : SpacedTree marks content) (n : Node) :
    Node.Fits (Text.BeginsBarred marks) (Text.EndsBarred marks) (Text.BeginsBarred marks)
      (Text.EndsBarred marks) n (inheritanceBlock parent content) := by
  have hopen := (barred_statement hmarks (.block "content".toList)).2
  have hclose := barred_statement hmarks .endBlock
  have hheader : Text.EndsBarred marks (inheritanceHeader parent) :=
    Text.EndsBarred.append (s := (Twig.Statement.inherit parent).text)
      (Text.EndsBarred.append (s := ['\n']) hopen)
  have htext (t : Text) : Node.Spaced (Text.BeginsBarred marks) (Text.EndsBarred marks)
      (.text t) := by
    rw [Node.Spaced]
    trivial
  refine ⟨?_, by simp [inheritanceBlock], ?_, ?_⟩
  · rw [inheritanceBlock, List.cons_append, Node.spacedIn_cons_iff, Node.spacedIn_append_iff,
      Node.spacedIn_singleton_iff]
    -- The header ends barred and the end tag begins barred, whatever the content.
    refine ⟨htext _, fun m _ => .inl hheader, h, htext _, fun k _ m hm => .inr ?_⟩
    obtain rfl := Option.some.inj hm
    exact hclose.1
  · intro _ m hm
    obtain rfl := Option.some.inj hm
    exact (barred_statement hmarks _).1.append
  · intro _ m hm
    rw [inheritanceBlock, List.getLast?_concat] at hm
    obtain rfl := Option.some.inj hm
    exact hclose.2

/-- The finished tree is spaced. -/
theorem ensures_completeTree_spaced (hmarks : Text.Apart marks) {root : Element}
    (h : SpacedTree marks root.children) :
    Ensures (fun _ => True) (fun _ => True) (fun root' => SpacedTree marks root'.children)
      (completeTree root) := by
  have hinsert (ctx : Context) : SpacedTree marks (insertImport ctx root).children := by
    unfold insertImport
    split
    · exact spacedTree_placeImport hmarks _ h
    · exact h
  unfold completeTree
  refine ensures_bind (ensures_any _) fun _ _ => ensures_bind (ensures_any _) fun ctx _ => ?_
  split
  · next parent _ =>
    unfold completeInheritance
    dsimp only
    split
    · next children hchildren =>
      refine ensures_pure ((hinsert ctx).replaced ?_ (Node.replaced_of_eq _ hchildren)).spaced
      intro t cs hcs
      exact fits_inheritanceBlock hmarks parent hcs _
    · refine ensures_bind (ensures_any _) fun _ _ => ?_
      exact ensures_pure (fits_inheritanceBlock hmarks parent (hinsert ctx) (.text [])).spaced
  · exact ensures_pure (hinsert ctx)

end Convert

end TemploTwig
