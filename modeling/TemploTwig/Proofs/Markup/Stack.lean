import TemploTwig.Markup.Document

/-!
# Reading with a stack

`Document.readChildren` calls itself for every element that is opened, and hands an end tag outwards
from call to call.  The open elements can be kept on a stack instead: every event then changes the
stack once, and an end tag closes the innermost frame of its name with all frames inside it.  The
two ways of reading give the same tree.

Key results: `Document.step`, `Document.build?`, `Document.Returns`,
`Document.returns_readChildren`, `Document.map_nodes_readChildren`.
-/

namespace TemploTwig

variable {name : Text} {b : Builder} {e : Event} {opened : List Text}

/-! ## Frames -/

/-- An element that is still open, with the children read so far. -/
structure Frame where
  name : Text
  attributes : List Attribute
  children : List Node

namespace Frame

/-- The finished element.  The nodes `inner` come behind the children read so far. -/
def close (form : Form) (inner : List Node) (f : Frame) : Node :=
  .element ⟨f.name, f.attributes, form⟩ (f.children ++ inner)

/-- Close the innermost frame of the given name and all frames inside it.  The result is the
    closed element and the frames around it. -/
def closeNamed? (name : Text) : List Frame → (inner : List Node) → Option (Node × List Frame)
  | [], _ => none
  | f :: fs, inner =>
    if Text.sameIgnoringCase f.name name then some (f.close .normal inner, fs)
    -- An element inside the one that is looked for ends here, without an end tag.
    else closeNamed? name fs [f.close .unclosed inner]

/-- Close all frames without an end tag.  The result is what belongs to the root. -/
def closeAll : List Frame → (inner : List Node) → List Node
  | [], inner => inner
  | f :: fs, inner => closeAll fs [f.close .unclosed inner]

theorem close_nil (form : Form) (f : Frame) :
    f.close form [] = .element ⟨f.name, f.attributes, form⟩ f.children := by
  rw [close, List.append_nil]

/-- `closeNamed?` finds a frame exactly if one has the name. -/
theorem closeNamed?_eq_none_iff {fs : List Frame} {inner : List Node} :
    closeNamed? name fs inner = none ↔
      (fs.map Frame.name).any (Text.sameIgnoringCase · name) = false := by
  induction fs generalizing inner with
  | nil => simp [closeNamed?]
  | cons f fs ih =>
    rw [closeNamed?, List.map_cons, List.any_cons, Bool.or_eq_false_iff]
    cases hname : Text.sameIgnoringCase f.name name with
    | true => simp
    | false => simp [ih]

end Frame

/-- The open elements of a document, innermost first, and the finished children of its root. -/
structure Builder where
  frames : List Frame
  children : List Node

namespace Builder

/-- A document without content. -/
def empty : Builder := ⟨[], []⟩

/-- Open an element. -/
def pushFrame (name : Text) (attributes : List Attribute) (b : Builder) : Builder :=
  { b with frames := ⟨name, attributes, []⟩ :: b.frames }

/-- Change the children of the innermost open element. -/
def modifyInnermost (f : List Node → List Node) (b : Builder) : Builder :=
  match b.frames with
  -- With no element open, the root is the innermost one.
  | [] => { b with children := f b.children }
  | frame :: frames => { b with frames := { frame with children := f frame.children } :: frames }

/-- Add a node to the innermost open element. -/
def push (n : Node) (b : Builder) : Builder := b.modifyInnermost (· ++ [n])

/-- Add text to the innermost open element. -/
def pushText (t : Text) (b : Builder) : Builder := b.modifyInnermost (Node.pushText t)

/-- The children of the root when the text ends here. -/
def finish (b : Builder) : List Node := b.children ++ Frame.closeAll b.frames []

/-- The names of the open elements, innermost first. -/
def openNames (b : Builder) : List Text := b.frames.map Frame.name

/-- The children of the innermost open element. -/
def innermost (b : Builder) : List Node :=
  match b.frames with
  | [] => b.children
  | frame :: _ => frame.children

/-- Put other children in the place of those of the innermost open element. -/
def setInnermost (children : List Node) (b : Builder) : Builder :=
  b.modifyInnermost fun _ => children

theorem openNames_modifyInnermost (f : List Node → List Node) (b : Builder) :
    (b.modifyInnermost f).openNames = b.openNames := by
  obtain ⟨frames, children⟩ := b
  cases frames <;> rfl

theorem innermost_modifyInnermost (f : List Node → List Node) (b : Builder) :
    (b.modifyInnermost f).innermost = f b.innermost := by
  obtain ⟨frames, children⟩ := b
  cases frames <;> rfl

theorem modifyInnermost_modifyInnermost (f g : List Node → List Node) (b : Builder) :
    (b.modifyInnermost f).modifyInnermost g = b.modifyInnermost fun ns => g (f ns) := by
  obtain ⟨frames, children⟩ := b
  cases frames <;> rfl

/-- `modifyInnermost` depends on what is made of the innermost children and nothing else. -/
theorem modifyInnermost_congr {f g : List Node → List Node} (h : f b.innermost = g b.innermost) :
    b.modifyInnermost f = b.modifyInnermost g := by
  obtain ⟨frames, children⟩ := b
  cases frames with
  | nil | cons frame frames => simpa [modifyInnermost, innermost] using h

theorem modifyInnermost_id (b : Builder) : b.modifyInnermost (fun ns => ns) = b := by
  obtain ⟨frames, children⟩ := b
  cases frames <;> rfl

theorem setInnermost_innermost (b : Builder) : b.setInnermost b.innermost = b := by
  obtain ⟨frames, children⟩ := b
  cases frames <;> rfl

theorem setInnermost_modifyInnermost (children : List Node) (f : List Node → List Node)
    (b : Builder) : (b.modifyInnermost f).setInnermost children = b.setInnermost children :=
  modifyInnermost_modifyInnermost f _ b

/-- `push` adds a node behind the innermost children. -/
theorem setInnermost_append (n : Node) (b : Builder) :
    b.setInnermost (b.innermost ++ [n]) = b.push n :=
  modifyInnermost_congr rfl

end Builder

/-! ## The machine -/

namespace Document

/-- The state after an event. -/
inductive Progress where
  | reading (builder : Builder)
  /-- The root has been closed, and its children are complete. -/
  | closed (children : List Node)

/-- The effect of one event. -/
def step (b : Builder) : Event → Progress
  | .start name raw =>
    if isVoid name then .reading (b.push (.element ⟨name, readAttributes raw, .void⟩ []))
    else .reading (b.pushFrame name (readAttributes raw))
  | .close name =>
    match Frame.closeNamed? name b.frames [] with
    | some (node, frames) => .reading ({ b with frames }.push node)
    | none =>
      -- The root is no frame: its end tag counts only where no open element has its name.
      if Text.sameIgnoringCase rootName name then .closed b.finish else .reading b
  | e => .reading (b.modifyInnermost (addTo · e))

theorem step_text (b : Builder) (content : Text) :
    step b (.text content) = .reading (b.pushText (Literal.restore content)) := rfl

theorem step_empty (b : Builder) (name raw : Text) : step b (.empty name raw) =
    .reading (b.push (.element ⟨name, readAttributes raw, .selfClosing⟩ [])) := rfl

/-- The root's children after a list of events.  If the root is still open behind the last one,
    the document ends there, unless reading broke off. -/
def build? (broken : Bool) : Builder → List Event → Option (List Node)
  | b, [] => if broken then none else some b.finish
  | b, e :: es =>
    match step b e with
    | .reading b => build? broken b es
    | .closed children => some children

theorem build?_cons_of_reading {b' : Builder} (h : step b e = .reading b') (broken : Bool)
    (es : List Event) : build? broken b (e :: es) = build? broken b' es := by
  rw [build?, h]

/-- The names of the open elements and that of the root, innermost first. -/
def namesIn (b : Builder) : List Text := b.openNames ++ [rootName]

theorem namesIn_modifyInnermost (f : List Node → List Node) (b : Builder) :
    namesIn (b.modifyInnermost f) = namesIn b := by
  rw [namesIn, Builder.openNames_modifyInnermost, namesIn]

/-! ## One event -/

/-- An event that opens an element puts a frame on the stack. -/
theorem step_of_opening? {attributes : List Attribute} (h : opening? e = some (name, attributes)) :
    step b e = .reading (b.pushFrame name attributes) := by
  cases e with
  | start startName raw =>
    rw [opening?] at h
    split at h
    · cases h
    · next hvoid =>
      obtain ⟨rfl, rfl⟩ := Prod.mk.inj (Option.some.inj h)
      rw [step, if_neg hvoid]
  | _ => cases h

/-- An end tag that matches no open element changes nothing. -/
theorem step_close_of_closing?_eq_none {endTag : Text}
    (h : closing? (namesIn b) (.close endTag) = none) : step b (.close endTag) = .reading b := by
  have hnone : (namesIn b).any (Text.sameIgnoringCase · endTag) = false := by
    rw [closing?] at h
    split at h
    · cases h
    · split at h
      · cases h
      · next hany => simpa using hany
  rw [namesIn, List.any_append, Bool.or_eq_false_iff] at hnone
  obtain ⟨hframes, hroot⟩ := hnone
  have hskip : ¬Text.sameIgnoringCase rootName endTag = true := by simpa using hroot
  rw [step, Frame.closeNamed?_eq_none_iff.2 hframes]
  exact if_neg hskip

/-- An event that neither opens nor closes an element adds to the innermost children. -/
theorem step_of_addTo (hopening : opening? e = none) (hclosing : closing? (namesIn b) e = none) :
    step b e = .reading (b.modifyInnermost (addTo · e)) := by
  cases e with
  | start name raw =>
    rw [opening?] at hopening
    split at hopening
    · next hvoid => exact if_pos hvoid
    · cases hopening
  | close endTag =>
    rw [step_close_of_closing?_eq_none hclosing]
    exact congrArg Progress.reading (Builder.modifyInnermost_id b).symm
  | _ => rfl

section Closing

variable (f : Frame) (b : Builder) {endTag : Text}

/-- The end tag of the innermost open element closes its frame. -/
theorem step_close_of_current (h : Text.sameIgnoringCase f.name endTag = true) :
    step { b with frames := f :: b.frames } (.close endTag) =
      .reading (b.push (f.close .normal [])) := by
  rw [step, Frame.closeNamed?, if_pos h]

/-- At the end of the text it makes no difference whether a frame is left on the stack or its
    element has been put, unclosed, into the frame around it. -/
theorem finish_push_unclosed :
    (b.push (f.close .unclosed [])).finish =
      Builder.finish { b with frames := f :: b.frames } := by
  obtain ⟨frames, children⟩ := b
  cases frames with
  | nil => simp [Builder.push, Builder.modifyInnermost, Builder.finish, Frame.closeAll]
  | cons g gs =>
    simp [Builder.push, Builder.modifyInnermost, Builder.finish, Frame.closeAll, Frame.close]

/-- A node that is put into the innermost frame stands behind its other children when the frame is
    closed. -/
theorem closeNamed?_push (name : Text) (n : Node) :
    Frame.closeNamed? name (b.push n).frames [] = Frame.closeNamed? name b.frames [n] := by
  obtain ⟨frames, children⟩ := b
  cases frames with
  | nil => rfl
  | cons g gs =>
    have hclose (form : Form) :
        Frame.close form [] { g with children := g.children ++ [n] } = g.close form [n] := by
      simp [Frame.close]
    simp only [Builder.push, Builder.modifyInnermost, Frame.closeNamed?, hclose]

/-- Nor does it make a difference at the end tag of an element further out. -/
theorem step_close_of_ancestor (h : Text.sameIgnoringCase f.name endTag = false)
    (hany : (namesIn b).any (Text.sameIgnoringCase · endTag) = true) :
    step (b.push (f.close .unclosed [])) (.close endTag) =
      step { b with frames := f :: b.frames } (.close endTag) := by
  have hskip : ¬Text.sameIgnoringCase f.name endTag = true := by simp [h]
  rw [step, step, closeNamed?_push, Frame.closeNamed?, if_neg hskip]
  cases hfound : Frame.closeNamed? endTag b.frames [f.close .unclosed []] with
  | none =>
    -- No frame has the name, so the end tag is that of the root.
    have hframes : b.openNames.any (Text.sameIgnoringCase · endTag) = false :=
      Frame.closeNamed?_eq_none_iff.1 hfound
    have hroot : Text.sameIgnoringCase rootName endTag = true := by
      simpa [namesIn, hframes] using hany
    simp only [if_pos hroot, finish_push_unclosed]
  | some found =>
    obtain ⟨frames, children⟩ := b
    cases frames with
    | nil => cases hfound
    | cons g gs => rfl

end Closing

/-! ## The children of an element -/

/-- How the machine goes on from the state `b` and the events `es`, when `readChildren` makes `read`
    of them.  Where the children ended with an end tag, it comes to this end tag with the children
    in the innermost frame. -/
inductive Returns (broken : Bool) (b : Builder) (es : List Event) :
    {n : Nat} → Option (Children n) → Prop
  | none {n : Nat} (h : build? broken b es = Option.none) :
    Returns broken b es (Option.none : Option (Children n))
  | endOfText {n : Nat} {read : Children n} (hclosing : read.closing = .endOfText)
    (h : build? broken b es = some (b.setInnermost read.nodes).finish) : Returns broken b es (some read)
  | endTag {n : Nat} {read : Children n} {endTag : Text}
    (hclosing : closing? (namesIn b) (.close endTag) = some read.closing)
    (h : build? broken b es =
      build? broken (b.setInnermost read.nodes) (.close endTag :: read.rest)) :
    Returns broken b es (some read)

namespace Returns

variable {broken : Bool} {b b' : Builder} {es es' : List Event} {m n : Nat}
  {read : Option (Children m)}

/-- Only the innermost children of the two states may differ. -/
theorem of_build?_eq (h : Returns broken b' es' read) (hbuild : build? broken b es = build? broken b' es')
    (hnames : namesIn b' = namesIn b)
    (hset : ∀ ns, b'.setInnermost ns = b.setInnermost ns) (hle : m ≤ n) :
    Returns broken b es (read.map (.mono hle)) := by
  cases h with
  | none h => exact .none (hbuild.trans h)
  | endOfText hclosing h => exact .endOfText hclosing (by rw [hbuild, h, hset]; rfl)
  | endTag hclosing h =>
    exact .endTag (by rw [← hnames]; exact hclosing) (by rw [hbuild, h, hset]; rfl)

end Returns

/-- `closing?` inside an element of the given name: an end tag is its own, or that of an element
    around it. -/
theorem closing?_cons {endTag : Text} {closing : Closing}
    (h : closing? (name :: opened) (.close endTag) = some closing) :
    closing = .matched ∧ Text.sameIgnoringCase name endTag = true ∨
      closing = .ancestor endTag ∧ Text.sameIgnoringCase name endTag = false ∧
        opened.any (Text.sameIgnoringCase · endTag) = true := by
  have hhead : isCurrent (name :: opened) endTag = Text.sameIgnoringCase name endTag := rfl
  rw [closing?, hhead, List.any_cons] at h
  cases hname : Text.sameIgnoringCase name endTag with
  | true =>
    rw [hname, if_pos rfl] at h
    exact .inl ⟨(Option.some.inj h).symm, rfl⟩
  | false =>
    rw [hname, if_neg (by simp), Bool.false_or] at h
    split at h
    · next hany => exact .inr ⟨(Option.some.inj h).symm, rfl, hany⟩
    · cases h

/-- `closing?` where an element inside hands on the end tag. -/
theorem closing?_of_any {endTag : Text} (h : opened.any (Text.sameIgnoringCase · endTag) = true) :
    closing? opened (.close endTag) =
      some (if isCurrent opened endTag then .matched else .ancestor endTag) := by
  rw [closing?, if_pos h]
  split <;> rfl

section Calls

variable {broken : Bool} {b : Builder} {es : List Event} {name : Text}
  {attributes : List Attribute} {n : Nat} {inner : Children n}

/-- The call for a new element ends with the element's own end tag. -/
theorem build?_of_matched
    (h : Returns broken (b.pushFrame name attributes) es (some inner))
    (hclosing : inner.closing = .matched) :
    build? broken (b.pushFrame name attributes) es =
      build? broken (b.push (.element ⟨name, attributes, .normal⟩ inner.nodes)) inner.rest := by
  cases h with
  | endOfText hend => rw [hclosing] at hend; cases hend
  | endTag hend hbuild =>
    rw [hclosing] at hend
    rcases closing?_cons hend with ⟨-, hname⟩ | ⟨hancestor, -⟩
    · have hstep := step_close_of_current ⟨name, attributes, inner.nodes⟩ b hname
      rw [Frame.close_nil] at hstep
      exact hbuild.trans (build?_cons_of_reading hstep broken inner.rest)
    · cases hancestor

/-- The call for a new element ends with an end tag that it hands on. -/
theorem build?_of_ancestor {endTag : Text}
    (h : Returns broken (b.pushFrame name attributes) es (some inner))
    (hclosing : inner.closing = .ancestor endTag) :
    (namesIn b).any (Text.sameIgnoringCase · endTag) = true ∧
      build? broken (b.pushFrame name attributes) es =
        build? broken (b.push (.element ⟨name, attributes, .unclosed⟩ inner.nodes))
          (.close endTag :: inner.rest) := by
  cases h with
  | endOfText hend => rw [hclosing] at hend; cases hend
  | endTag hend hbuild =>
    rw [hclosing] at hend
    rcases closing?_cons hend with ⟨hmatched, -⟩ | ⟨hancestor, hname, hany⟩
    · cases hmatched
    · obtain rfl := Closing.ancestor.inj hancestor
      have hstep := step_close_of_ancestor ⟨name, attributes, inner.nodes⟩ b hname hany
      rw [Frame.close_nil] at hstep
      refine ⟨hany, ?_⟩
      rw [hbuild, build?, build?, hstep]
      rfl

/-- The call for a new element ends with the text. -/
theorem build?_of_endOfText
    (h : Returns broken (b.pushFrame name attributes) es (some inner))
    (hclosing : inner.closing = .endOfText) :
    build? broken (b.pushFrame name attributes) es =
      some (b.push (.element ⟨name, attributes, .unclosed⟩ inner.nodes)).finish := by
  cases h with
  | endOfText _ hbuild =>
    have hfinish := finish_push_unclosed ⟨name, attributes, inner.nodes⟩ b
    rw [Frame.close_nil] at hfinish
    rw [hbuild, hfinish]
    rfl
  | endTag hend _ =>
    rw [hclosing] at hend
    rcases closing?_cons hend with ⟨hmatched, -⟩ | ⟨hancestor, -⟩
    · cases hmatched
    · cases hancestor

end Calls

/-- `readChildren` is simulated by the machine.  The call stack is the list of frames: a call for a
    new element is a frame on top of it, and returning from the call takes the frame off. -/
theorem returns_readChildren {broken : Bool} {children : List Node} {es : List Event}
    (hopened : namesIn b = opened) (hchildren : b.innermost = children) :
    Returns broken b es (readChildren broken opened children es) := by
  fun_induction readChildren broken opened children es generalizing b with
  | case1 _ _ hbroken => exact .none (if_pos hbroken)
  | case2 _ _ hbroken =>
    refine .endOfText rfl ?_
    rw [← hchildren, b.setInnermost_innermost]
    exact if_neg hbroken
  | case3 opened children e es name attributes hopening hread ih =>
    -- Reading broke off inside the new element.
    have hinner := ih (b := b.pushFrame name attributes) (congrArg (name :: ·) hopened) rfl
    rw [hread] at hinner
    cases hinner with
    | none h => exact .none ((build?_cons_of_reading (step_of_opening? hopening) broken es).trans h)
  | case4 opened children e es name attributes hopening inner hread hle hclosing ih ihrest =>
    have hinner := ih (b := b.pushFrame name attributes) (congrArg (name :: ·) hopened) rfl
    rw [hread] at hinner
    have hrest := ihrest (b := b.push (.element ⟨name, attributes, .normal⟩ inner.nodes))
      ((namesIn_modifyInnermost _ b).trans hopened)
      ((b.innermost_modifyInnermost _).trans (by rw [hchildren]))
    refine hrest.of_build?_eq ?_ (namesIn_modifyInnermost _ b)
      (fun ns => b.setInnermost_modifyInnermost ns _) _
    rw [build?_cons_of_reading (step_of_opening? hopening)]
    exact build?_of_matched hinner hclosing
  | case5 opened children e es name attributes hopening inner hread hle endTag hclosing
      ih =>
    have hinner := ih (b := b.pushFrame name attributes) (congrArg (name :: ·) hopened) rfl
    rw [hread] at hinner
    obtain ⟨hany, hbuild⟩ := build?_of_ancestor hinner hclosing
    rw [hopened] at hany
    refine .endTag (by rw [hopened]; exact closing?_of_any hany) ?_
    rw [build?_cons_of_reading (step_of_opening? hopening), hbuild, ← hchildren,
      b.setInnermost_append]
  | case6 opened children e es name attributes hopening inner hread hle hclosing ih =>
    have hinner := ih (b := b.pushFrame name attributes) (congrArg (name :: ·) hopened) rfl
    rw [hread] at hinner
    refine .endOfText rfl ?_
    rw [build?_cons_of_reading (step_of_opening? hopening), build?_of_endOfText hinner hclosing,
      ← hchildren, b.setInnermost_append]
  | case7 opened children e es hopening closing hclosing =>
    cases e with
    | close endTag =>
      refine .endTag (by rw [hopened]; exact hclosing) ?_
      rw [← hchildren, b.setInnermost_innermost]
    | _ => cases hclosing
  | case8 opened children e es hopening hclosing ih =>
    have hrest := ih (b := b.modifyInnermost (addTo · e))
      ((namesIn_modifyInnermost _ b).trans hopened)
      ((b.innermost_modifyInnermost _).trans (by rw [hchildren]))
    rw [← hopened] at hclosing
    exact hrest.of_build?_eq (build?_cons_of_reading (step_of_addTo hopening hclosing) broken es)
      (namesIn_modifyInnermost _ b) (fun ns => b.setInnermost_modifyInnermost ns _) _

/-- A document is read by `readChildren`, from the root inwards, as it is by the machine. -/
theorem map_nodes_readChildren (broken : Bool) (es : List Event) :
    (readChildren broken [rootName] [] es).map Children.nodes = build? broken Builder.empty es := by
  have h : Returns broken Builder.empty es (readChildren broken [rootName] [] es) :=
    returns_readChildren rfl rfl
  cases hread : readChildren broken [rootName] [] es with
  | none =>
    rw [hread] at h
    cases h with
    | none h => exact h.symm
  | some read =>
    rw [hread] at h
    have hfinish : (Builder.empty.setInnermost read.nodes).finish = read.nodes := List.append_nil _
    cases h with
    | endOfText _ h => rw [h, hfinish]; rfl
    | endTag hclosing h =>
      have hroot : closing? [rootName] _ = _ := hclosing
      rcases closing?_cons hroot with ⟨-, hroot⟩ | ⟨-, -, hany⟩
      · -- The end tag is that of the root, and no frame is left on the stack.
        rw [h, build?, step]
        simp only [Builder.setInnermost, Builder.modifyInnermost, Builder.empty, Frame.closeNamed?,
          if_pos hroot]
        exact congrArg some hfinish.symm
      · cases hany

/-- `parse?` in terms of the machine. -/
theorem parse?_eq (t : Text) :
    parse? t = (build? (Reading.ofText (t ++ "</".toList ++ rootName ++ ['>'])).broken Builder.empty
      (Reading.ofText (t ++ "</".toList ++ rootName ++ ['>'])).events).map root := by
  rw [← map_nodes_readChildren, Option.map_map]
  rfl

theorem exists_eq_root_of_parse? {t : Text} {tree : Element} (h : parse? t = some tree) :
    ∃ ns, tree = root ns := by
  rw [parse?_eq, Option.map_eq_some_iff] at h
  obtain ⟨ns, -, rfl⟩ := h
  exact ⟨ns, rfl⟩

end Document

end TemploTwig
