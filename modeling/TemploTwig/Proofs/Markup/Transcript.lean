import TemploTwig.Proofs.Markup.Reading

/-!
# What reading and printing makes of markup

What reading and printing makes of a document needs no tree: it is written down event by event, with
the names of the open elements in mind.  An end tag closes the innermost open element of its name
and everything opened inside it, and is written with the name as the start tag spells it.  An end
tag that matches nothing is left out.
-/

namespace TemploTwig

variable {e : Event} {name : Text} {b : Builder}

/-! ## Writing down events -/

namespace Event

/-- The name of a tag. -/
def tagName? : Event → Option Text
  | .start name _ | .empty name _ | .close name => some name
  | _ => none

/-- Is the event a tag with the name of the root? -/
def namesRoot (e : Event) : Bool := e.tagName?.any (Text.sameIgnoringCase Document.rootName)

end Event

namespace Transcript

/-- What is written for an event while elements of the given names are open, innermost first, and
    the names of the elements that are open behind it. -/
def step (names : List Text) : Event → Text × List Text
  | .start name raw =>
    ('<' :: name ++ Attribute.textAll (Document.readAttributes raw) ++ ['>'],
      if Document.isVoid name then names else name :: names)
  | .empty name raw =>
    ('<' :: name ++ Attribute.textAll (Document.readAttributes raw) ++ "/>".toList, names)
  | .close name =>
    match names.dropWhile (!Text.sameIgnoringCase · name) with
    | [] => ([], names)
    | spelling :: outer => ("</".toList ++ spelling ++ ['>'], outer)
  | .text content => (Literal.restore content, names)
  | .reference name => ('&' :: name ++ [';'], names)
  | .cdata content => ("<![CDATA[".toList ++ content ++ "]]>".toList, names)
  | .comment content => ("<!--".toList ++ content ++ "-->".toList, names)
  | .doctype content => ("<!DOCTYPE ".toList ++ content.trimStart ++ ['>'], names)
  | .instruction content => ("<?".toList ++ content ++ "?>".toList, names)

-- Only the three tags depend on the names or change them.
theorem step_start (names : List Text) (name raw : Text) : step names (.start name raw) =
    ('<' :: name ++ Attribute.textAll (Document.readAttributes raw) ++ ['>'],
      if Document.isVoid name then names else name :: names) := rfl

theorem step_empty (names : List Text) (name raw : Text) : step names (.empty name raw) =
    ('<' :: name ++ Attribute.textAll (Document.readAttributes raw) ++ "/>".toList, names) := rfl

theorem step_close (names : List Text) (name : Text) : step names (.close name) =
    match names.dropWhile (!Text.sameIgnoringCase · name) with
    | [] => ([], names)
    | spelling :: outer => ("</".toList ++ spelling ++ ['>'], outer) := rfl

/-- An open element was open before, or its start tag has just been read. -/
theorem mem_step {names : List Text} {n : Text} (h : n ∈ (step names e).2) :
    n ∈ names ∨ e.tagName? = some n := by
  cases e with
  | start name raw =>
    rw [step_start] at h
    split at h
    · exact .inl h
    · rcases List.mem_cons.1 h with rfl | h
      · exact .inr rfl
      · exact .inl h
  | close name =>
    rw [step_close] at h
    split at h
    · exact .inl h
    · next spelling outer hdrop =>
      have hsuffix := List.dropWhile_suffix (l := names) (!Text.sameIgnoringCase · name)
      rw [hdrop] at hsuffix
      exact .inl (hsuffix.subset (List.mem_cons_of_mem _ h))
  | _ => exact .inl h

/-- What is written for a list of events. -/
def text : (names : List Text) → List Event → Text
  | _, [] => []
  | names, e :: es => (step names e).1 ++ text (step names e).2 es

end Transcript

/-- The document of a reading consists of the events `es`: they are all that is read, or the end
    tag of the root follows them. -/
def Reading.IsDocument (reading : Reading) (es : List Event) : Prop :=
  reading = ⟨es, false⟩ ∨ ∃ name after, Text.sameIgnoringCase Document.rootName name = true ∧
    reading.events = es ++ .close name :: after

/-! ## The text of a half-read document -/

namespace Node

theorem sourceAll_append (ms ns : List Node) :
    sourceAll (ms ++ ns) = sourceAll ms ++ sourceAll ns := by
  induction ms with
  | nil => rfl
  | cons m ms ih => rw [List.cons_append, sourceAll, sourceAll, ih, List.append_assoc]

theorem sourceAll_singleton (n : Node) : sourceAll [n] = n.source := by
  rw [sourceAll, sourceAll, List.append_nil]

/-- Whether text joins the text in front of it or not, it is printed behind it. -/
theorem sourceAll_pushText (t : Text) (ns : List Node) :
    sourceAll (pushText t ns) = sourceAll ns ++ t := by
  fun_induction pushText t ns with
  | case1 | case2 u => simp [sourceAll, source]
  | case3 n ns _ ih => rw [sourceAll, sourceAll, ih, List.append_assoc]

end Node

namespace Frame

/-- The start tag of an open element, and its children so far. -/
def written (f : Frame) : Text :=
  '<' :: f.name ++ Attribute.textAll f.attributes ++ ['>'] ++ Node.sourceAll f.children

/-- The text of the open elements, which are given innermost first. -/
def writtenAll : List Frame → Text
  | [] => []
  | f :: fs => writtenAll fs ++ f.written

theorem source_close_unclosed (f : Frame) (inner : List Node) :
    (f.close .unclosed inner).source = f.written ++ Node.sourceAll inner := by
  simp [close, Node.source, Tag.startText, Tag.endText, Tag.showsChildren, written,
    Node.sourceAll_append]

theorem source_close_normal (f : Frame) (inner : List Node) :
    (f.close .normal inner).source =
      f.written ++ Node.sourceAll inner ++ ("</".toList ++ f.name ++ ['>']) := by
  simp [close, Node.source, Tag.startText, Tag.endText, Tag.showsChildren, written,
    Node.sourceAll_append]

/-- Elements that are left open at the end add nothing to their text. -/
theorem sourceAll_closeAll (fs : List Frame) (inner : List Node) :
    Node.sourceAll (closeAll fs inner) = writtenAll fs ++ Node.sourceAll inner := by
  induction fs generalizing inner with
  | nil => rfl
  | cons f fs ih =>
    rw [closeAll, ih, Node.sourceAll_singleton, source_close_unclosed, writtenAll,
      List.append_assoc]

/-- No frame is closed when none has the name. -/
theorem dropWhile_of_closeNamed?_eq_none {fs : List Frame} {inner : List Node}
    (h : closeNamed? name fs inner = none) :
    (fs.map Frame.name).dropWhile (!Text.sameIgnoringCase · name) = [] := by
  induction fs generalizing inner with
  | nil => rfl
  | cons f fs ih =>
    rw [closeNamed?] at h
    split at h
    · cases h
    · next hname => rw [List.map_cons, List.dropWhile_cons_of_pos (by simpa using hname), ih h]

/-- The innermost frame of the name is closed.  Its end tag comes behind all that was open inside,
    and the frames around it stay. -/
theorem dropWhile_of_closeNamed?_eq_some {fs outer : List Frame} {inner : List Node} {n : Node}
    (h : closeNamed? name fs inner = some (n, outer)) :
    ∃ spelling, (fs.map Frame.name).dropWhile (!Text.sameIgnoringCase · name) =
        spelling :: outer.map Frame.name ∧
      writtenAll outer ++ n.source =
        writtenAll fs ++ Node.sourceAll inner ++ ("</".toList ++ spelling ++ ['>']) := by
  induction fs generalizing inner with
  | nil => cases h
  | cons f fs ih =>
    rw [closeNamed?] at h
    split at h
    · next hname =>
      obtain ⟨rfl, rfl⟩ : f.close .normal inner = n ∧ fs = outer := by simpa using h
      refine ⟨f.name, ?_, ?_⟩
      · rw [List.map_cons, List.dropWhile_cons_of_neg (by simp [hname])]
      · rw [source_close_normal, writtenAll]
        simp only [List.append_assoc]
    · next hname =>
      -- The frame is left unclosed, so its text is that of its start tag and children alone.
      obtain ⟨spelling, hdrop, hwritten⟩ := ih h
      refine ⟨spelling, ?_, ?_⟩
      · rw [List.map_cons, List.dropWhile_cons_of_pos (by simpa using hname), hdrop]
      · rw [hwritten, Node.sourceAll_singleton, source_close_unclosed, writtenAll]
        simp only [List.append_assoc]

end Frame

namespace Builder

/-- The text that a half-read document stands for. -/
def written (b : Builder) : Text := Node.sourceAll b.children ++ Frame.writtenAll b.frames

/-- A change of the innermost children that adds `t` to their text adds it to the whole text. -/
theorem written_modifyInnermost {f : List Node → List Node} {t : Text}
    (h : ∀ ns, Node.sourceAll (f ns) = Node.sourceAll ns ++ t) (b : Builder) :
    (b.modifyInnermost f).written = b.written ++ t := by
  obtain ⟨frames, children⟩ := b
  cases frames with
  | nil => simp [modifyInnermost, written, Frame.writtenAll, h]
  | cons frame frames =>
    simp only [modifyInnermost, written, Frame.writtenAll, Frame.written, h, List.append_assoc]

theorem written_push (n : Node) (b : Builder) : (b.push n).written = b.written ++ n.source :=
  written_modifyInnermost (fun ns => by rw [Node.sourceAll_append, Node.sourceAll_singleton]) b

theorem written_pushText (t : Text) (b : Builder) : (b.pushText t).written = b.written ++ t :=
  written_modifyInnermost (Node.sourceAll_pushText t) b

theorem sourceAll_finish (b : Builder) : Node.sourceAll b.finish = b.written := by
  rw [finish, Node.sourceAll_append, Frame.sourceAll_closeAll, Node.sourceAll, List.append_nil,
    written]

end Builder

/-! ## Events one by one -/

namespace Document

/-- The state `b'` stands behind `b` by the event `e`: the text and the open names are those that
    the transcript says. -/
def Follows (b : Builder) (e : Event) (b' : Builder) : Prop :=
  b'.written = b.written ++ (Transcript.step b.openNames e).1 ∧
    b'.openNames = (Transcript.step b.openNames e).2

theorem follows_push {n : Node} (h : Transcript.step b.openNames e = (n.source, b.openNames)) :
    Follows b e (b.push n) :=
  ⟨by rw [Builder.written_push, h], by rw [h]; exact Builder.openNames_modifyInnermost _ b⟩

theorem follows_pushText {t : Text} (h : Transcript.step b.openNames e = (t, b.openNames)) :
    Follows b e (b.pushText t) :=
  ⟨by rw [Builder.written_pushText, h], by rw [h]; exact Builder.openNames_modifyInnermost _ b⟩

/-- `step` follows a start tag. -/
theorem exists_step_start_follows (b : Builder) (name raw : Text) :
    ∃ b', step b (.start name raw) = .reading b' ∧ Follows b (.start name raw) b' := by
  cases hvoid : isVoid name with
  | true =>
    refine ⟨b.push (.element ⟨name, readAttributes raw, .void⟩ []), if_pos hvoid, ?_⟩
    apply follows_push
    simp [Transcript.step_start, hvoid, Node.source, Tag.startText, Tag.endText, Tag.showsChildren]
  | false =>
    refine ⟨{ b with frames := ⟨name, readAttributes raw, []⟩ :: b.frames },
      if_neg (by simp [hvoid]), ?_, ?_⟩
    · simp [Transcript.step_start, Builder.written, Frame.writtenAll, Frame.written, Node.sourceAll]
    · simp [Transcript.step_start, hvoid, Builder.openNames]

/-- `step` follows an end tag other than that of the root. -/
theorem exists_step_close_follows (b : Builder) (hroot : (Event.close name).namesRoot = false) :
    ∃ b', step b (.close name) = .reading b' ∧ Follows b (.close name) b' := by
  rw [step]
  split
  · next node outer hclose =>
    obtain ⟨spelling, hdrop, hwritten⟩ := Frame.dropWhile_of_closeNamed?_eq_some hclose
    have hstep : Transcript.step b.openNames (.close name) =
        ("</".toList ++ spelling ++ ['>'], outer.map Frame.name) := by
      rw [Transcript.step_close, Builder.openNames, hdrop]
    refine ⟨_, rfl, ?_, ?_⟩
    · rw [Node.sourceAll, List.append_nil] at hwritten
      rw [Builder.written_push, hstep]
      simp only [Builder.written, List.append_assoc, hwritten]
    · rw [hstep]
      exact Builder.openNames_modifyInnermost _ _
  · next hclose =>
    have hstep : Transcript.step b.openNames (.close name) = ([], b.openNames) := by
      rw [Transcript.step_close, Builder.openNames, Frame.dropWhile_of_closeNamed?_eq_none hclose]
    -- The end tag is not that of the root, so it is skipped.
    have hskip : ¬Text.sameIgnoringCase rootName name = true := by
      rw [Event.namesRoot, Event.tagName?, Option.any_some] at hroot
      simp [hroot]
    exact ⟨b, if_neg hskip, by rw [hstep, List.append_nil], by rw [hstep]⟩

/-- An event that does not name the root adds to a half-read document what the transcript writes. -/
theorem exists_step_written (b : Builder) (h : e.namesRoot = false) :
    ∃ b', step b e = .reading b' ∧ Follows b e b' := by
  cases e with
  | start name raw => exact exists_step_start_follows b name raw
  | empty name raw =>
    refine ⟨b.push (.element ⟨name, readAttributes raw, .selfClosing⟩ []), rfl, ?_⟩
    apply follows_push
    simp [Transcript.step_empty, Node.source, Tag.startText, Tag.endText, Tag.showsChildren]
  | close name => exact exists_step_close_follows b h
  | text content | reference name => exact ⟨_, rfl, follows_pushText rfl⟩
  | cdata content | comment content | doctype content | instruction content =>
    exact ⟨_, rfl, follows_push rfl⟩

/-- Elements whose name is not that of the root. -/
def NoneIsRoot (names : List Text) : Prop :=
  ∀ n ∈ names, Text.sameIgnoringCase rootName n = false

/-- Behind events that do not name the root, reading goes on from a half-read document to whose
    text they have been added, and in which no open element has the name of the root. -/
theorem exists_build?_append {es : List Event} (h : ∀ e ∈ es, e.namesRoot = false) (b : Builder)
    (hopen : NoneIsRoot b.openNames) :
    ∃ b', b'.written = b.written ++ Transcript.text b.openNames es ∧ NoneIsRoot b'.openNames ∧
      ∀ broken after, build? broken b (es ++ after) = build? broken b' after := by
  induction es generalizing b with
  | nil => exact ⟨b, (List.append_nil _).symm, hopen, fun _ _ => rfl⟩
  | cons e es ih =>
    have he := h e List.mem_cons_self
    obtain ⟨b₁, hstep, hwritten, hnames⟩ := exists_step_written b he
    have hopen₁ : NoneIsRoot b₁.openNames := by
      intro n hn
      rw [hnames] at hn
      rcases Transcript.mem_step hn with hn | hn
      · exact hopen n hn
      · rwa [Event.namesRoot, hn, Option.any_some] at he
    obtain ⟨b₂, hwritten₂, hopen₂, hbuild⟩ :=
      ih (fun e he => h e (List.mem_cons_of_mem _ he)) b₁ hopen₁
    refine ⟨b₂, ?_, hopen₂, fun broken after => ?_⟩
    · rw [hwritten₂, hwritten, hnames, Transcript.text, List.append_assoc]
    · rw [List.cons_append, build?, hstep]
      exact hbuild broken after

/-- The end tag of the root ends the document when no open element has its name. -/
theorem step_close_root (hroot : Text.sameIgnoringCase rootName name = true)
    (hopen : NoneIsRoot b.openNames) : step b (.close name) = .closed b.finish := by
  have hclose : Frame.closeNamed? name b.frames [] = none := by
    cases h : Frame.closeNamed? name b.frames [] with
    | none => rfl
    | some found =>
      -- The element that is closed would have the name of the root.
      obtain ⟨spelling, hdrop, -⟩ := Frame.dropWhile_of_closeNamed?_eq_some h
      have hspelling : Text.sameIgnoringCase spelling name = true := by
        have hhead := List.head?_dropWhile_not (!Text.sameIgnoringCase · name) b.openNames
        rw [Builder.openNames, hdrop] at hhead
        simpa using hhead
      have hmem : spelling ∈ b.openNames := by
        have hsuffix := List.dropWhile_suffix (l := b.openNames) (!Text.sameIgnoringCase · name)
        rw [Builder.openNames, hdrop] at hsuffix
        exact hsuffix.subset List.mem_cons_self
      have hname := hopen spelling hmem
      rw [Text.sameIgnoringCase, beq_iff_eq] at hroot hspelling
      rw [Text.sameIgnoringCase, hroot, hspelling, beq_self_eq_true] at hname
      cases hname
  rw [step, hclose]
  exact if_pos hroot

/-- Whatever tags are missing, crossed or left over: `readChildren` reads a document whose tags do
    not name the root, and the tree is printed as `Transcript.text` of its events.  So nothing of it
    is lost, doubled, moved or made up, but for end tags that match nothing.  The nodes are those
    that the stack machine `build?` comes to, and `parse?` puts them under the root. -/
theorem sourceAll_readChildren_eq_transcript {reading : Reading} {es : List Event}
    (hdocument : reading.IsDocument es) (hroot : ∀ e ∈ es, e.namesRoot = false) :
    ∃ read, readChildren reading.broken [rootName] [] reading.events = some read ∧
      build? reading.broken Builder.empty reading.events = some read.nodes ∧
      Node.sourceAll read.nodes = Transcript.text [] es ∧
      ∀ t, Reading.ofText (t ++ "</".toList ++ rootName ++ ['>']) = reading →
        parse? t = some (root read.nodes) := by
  obtain ⟨b, hwritten, hopen, hbuild⟩ :=
    exists_build?_append hroot Builder.empty (fun n hn => (by cases hn))
  have hfinish : build? reading.broken Builder.empty reading.events = some b.finish := by
    rcases hdocument with rfl | ⟨name, after, hname, hevents⟩
    · have hend := hbuild false []
      rw [List.append_nil] at hend
      exact hend
    · rw [hevents, hbuild, build?, step_close_root hname hopen]
  -- The recursion returns what the machine has on its stack at the end.
  have hnodes := map_nodes_readChildren reading.broken reading.events
  rw [hfinish, Option.map_eq_some_iff] at hnodes
  obtain ⟨read, hread, hnodes⟩ := hnodes
  refine ⟨read, hread, by rw [hfinish, hnodes], ?_, ?_⟩
  · rw [hnodes, Builder.sourceAll_finish, hwritten]
    rfl
  · rintro t rfl
    exact congrArg (Option.map fun read => root read.nodes) hread

/-- A list with two items that are never closed, an end tag in capitals, and one that closes
    nothing. -/
def crossed : Text := "<ul><LI class=a>1<li>2<br></UL></x>&amp;".toList

/-- The list is closed where its end tag stands, and its items are left open. -/
theorem sourceAll_readChildren_crossed :
    ∃ ns, parse? crossed = some (root ns) ∧
      Node.sourceAll ns = "<ul><LI class=a>1<li>2<br></ul>&amp;".toList := by
  have hdocument : (Reading.ofText (crossed ++ "</".toList ++ rootName ++ ['>'])).IsDocument
      [.start "ul".toList [], .start "LI".toList " class=a".toList, .text "1".toList,
        .start "li".toList [], .text "2".toList, .start "br".toList [], .close "UL".toList,
        .close "x".toList, .reference "amp".toList] :=
    .inr ⟨rootName, [], by decide +kernel, by decide +kernel⟩
  obtain ⟨read, -, -, hsource, hparse⟩ :=
    sourceAll_readChildren_eq_transcript hdocument (by decide +kernel)
  exact ⟨read.nodes, hparse crossed rfl, hsource.trans (by decide +kernel)⟩

end Document

end TemploTwig
