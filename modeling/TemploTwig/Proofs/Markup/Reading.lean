import TemploTwig.Proofs.Markup.Stack
import TemploTwig.Proofs.Markup.Tags

/-!
# Canonical markup is read back

A tree is built event by event.  On the markup of a canonical tree, in which the characters of the
text that are no markup are hidden, the builder ends with this very tree: text comes back
character by character, and an end tag closes the elements that were left open inside its own.
-/

namespace TemploTwig

variable {ns children : List Node} {b : Builder} {t rest : Text} {e : Event}

/-! ## Adding to the innermost element -/

namespace Node

/-- Does the list end in text? -/
def endsInText (ns : List Node) : Bool := ns.getLast?.any isText

theorem pushText_ne_nil (t : Text) (ns : List Node) : pushText t ns ≠ [] := by
  fun_cases pushText t ns <;> simp

/-- `pushText` twice is `pushText` once. -/
theorem pushText_pushText (s t : Text) (ns : List Node) :
    pushText t (pushText s ns) = pushText (s ++ t) ns := by
  fun_induction pushText s ns with
  | case1 => rfl
  | case2 u => simp [pushText]
  | case3 n ns hlast ih =>
    have hne := pushText_ne_nil s ns
    rw [pushText, pushText, ih]
    · exact hlast
    · exact fun u _ hnil => hne hnil

/-- `pushText` adds a node behind one that is no text. -/
theorem pushText_of_endsInText (h : endsInText ns = false) (t : Text) :
    pushText t ns = ns ++ [.text t] := by
  fun_induction pushText t ns with
  | case1 => rfl
  | case2 u => cases h
  | case3 n ns hlast ih =>
    cases ns with
    | nil => rfl
    | cons m ns => rw [ih (by simpa [endsInText] using h)]; rfl

end Node

namespace Builder

/-- Add nodes to the innermost open element. -/
def addAll (ns : List Node) (b : Builder) : Builder := b.modifyInnermost (· ++ ns)

theorem pushText_pushText (s t : Text) (b : Builder) :
    (b.pushText s).pushText t = b.pushText (s ++ t) := by
  rw [pushText, pushText, modifyInnermost_modifyInnermost]
  exact modifyInnermost_congr (Node.pushText_pushText s t _)

/-- `pushText` pushes a node where no text is in front. -/
theorem pushText_eq_push (h : Node.endsInText b.innermost = false) (t : Text) :
    b.pushText t = b.push (.text t) :=
  modifyInnermost_congr (Node.pushText_of_endsInText h t)

theorem endsInText_push (n : Node) (b : Builder) :
    Node.endsInText (b.push n).innermost = n.isText := by
  rw [push, innermost_modifyInnermost, Node.endsInText, List.getLast?_concat]
  rfl

theorem addAll_nil (b : Builder) : b.addAll [] = b := by
  obtain ⟨frames, children⟩ := b
  cases frames <;> simp [addAll, modifyInnermost]

theorem addAll_push (n : Node) (ns : List Node) (b : Builder) :
    (b.push n).addAll ns = b.addAll (n :: ns) := by
  rw [addAll, push, modifyInnermost_modifyInnermost]
  exact modifyInnermost_congr (by simp)

end Builder

/-! ## Events -/

namespace Document

/-- The children of the root when the rest of the text is `t`. -/
def readOn (b : Builder) (t : Text) : Option (List Node) :=
  build? (Reading.ofText t).broken b (Reading.ofText t).events

/-- `parse?` reads the text with the end tag of the root behind it. -/
theorem readOn_of_parse? {root : Element} (h : parse? t = some root) :
    readOn Builder.empty (t ++ "</".toList ++ rootName ++ ['>']) = some root.children := by
  rw [parse?_eq, Option.map_eq_some_iff] at h
  obtain ⟨ns, hread, rfl⟩ := h
  exact hread

/-- `Reading.ofText` at the first event. -/
theorem ofText_of_take? (h : Event.take? t = some (e, rest)) :
    Reading.ofText t = (Reading.ofText rest).cons e := by
  cases t with
  | nil => cases h
  | cons c cs =>
    rw [Reading.ofText]
    split
    · next hfound =>
      rw [h, Option.some.injEq, Prod.mk.injEq] at hfound
      rw [hfound.1, hfound.2]
    · next hnone => rw [h] at hnone; cases hnone

/-- `readOn` goes one step on at an event that keeps the document open. -/
theorem readOn_of_reading {b' : Builder} (h : Event.take? t = some (e, rest))
    (hstep : step b e = .reading b') : readOn b t = readOn b' rest := by
  rw [readOn, ofText_of_take? h]
  show build? (Reading.ofText rest).broken b (e :: (Reading.ofText rest).events) = _
  rw [build?, hstep]
  rfl

/-- `readOn` ends at an event that closes the document. -/
theorem readOn_of_closed (h : Event.take? t = some (e, rest)) (hstep : step b e = .closed children)
    :
    readOn b t = some children := by
  rw [readOn, ofText_of_take? h]
  show build? (Reading.ofText rest).broken b (e :: (Reading.ofText rest).events) = _
  rw [build?, hstep]

/-! ## Text -/

/-- `readOn` takes text character by character. -/
theorem readOn_cons {c : Char} (hc : Event.isTextChar c = true) (b : Builder) (t : Text) :
    readOn b (c :: t) = readOn (b.pushText [Literal.restoreChar c]) t := by
  have htake {d : Char} (hd : Event.isTextChar d = true) (u : Text) : Event.take? (d :: u) =
      some (.text (d :: u.takeWhile Event.isTextChar), u.dropWhile Event.isTextChar) := by
    have hne : d ≠ '<' ∧ d ≠ '&' := by simpa [Event.isTextChar] using hd
    rw [Event.take?, if_neg hne.1, if_neg hne.2]
  rw [readOn_of_reading (htake hc t) (step_text _ _)]
  cases t with
  | nil => rfl
  | cons d t =>
    -- The text event goes on over the next character if that is text too.  Reading the two one
    -- by one comes to the same, since text that follows text joins it.
    cases hd : Event.isTextChar d with
    | false =>
      rw [List.takeWhile_cons_of_neg (by simp [hd]), List.dropWhile_cons_of_neg (by simp [hd])]
      rfl
    | true =>
      rw [readOn_of_reading (htake hd t) (step_text _ _), Builder.pushText_pushText,
        List.takeWhile_cons_of_pos hd, List.dropWhile_cons_of_pos hd]
      rfl

/-- `readOn` takes a reference as the text that it is. -/
theorem readOn_reference {name : Text} (h : ∀ c ∈ name, c ≠ ';' ∧ c ≠ '<' ∧ c ≠ '&') (b : Builder)
    (t : Text) :
    readOn b ('&' :: (name ++ ';' :: t)) = readOn (b.pushText ('&' :: name ++ [';'])) t := by
  -- The name runs up to the semicolon.
  have hname (c : Char) (hc : c ∈ name) : (c != ';' && c != '<' && c != '&') = true := by
    simp [h c hc]
  have hstop (c : Char) (hc : (';' :: t).head? = some c) :
      (c != ';' && c != '<' && c != '&') = false := by
    rw [← Option.some.inj hc]; rfl
  have htake : Event.take? ('&' :: (name ++ ';' :: t)) = some (.reference name, t) := by
    show Event.takeReference? (name ++ ';' :: t) = _
    simp only [Event.takeReference?]
    rw [Text.dropWhile_append hname hstop, Text.takeWhile_append hname hstop]
    rfl
  exact readOn_of_reading htake rfl

end Document

namespace Literal

/-- `protectText` keeps text without `&` and `<`. -/
theorem protectText_append {s : Text} (h : ∀ c ∈ s, c ≠ '&' ∧ c ≠ '<') (t : Text) :
    protectText (s ++ t) = s ++ protectText t := by
  induction s with
  | nil => rfl
  | cons c s ih =>
    have hc := h c List.mem_cons_self
    rw [List.cons_append, protectText, if_neg hc.1, if_neg hc.2,
      ih fun d hd => h d (List.mem_cons_of_mem _ hd)]
    rfl

/-- `completesReference` finds a name and a semicolon. -/
theorem exists_of_completesReference (h : completesReference t = true) :
    ∃ name rest, t = name ++ ';' :: rest ∧ ∀ c ∈ name, c.isAlphanum = true ∨ c = '#' := by
  have hletters (u : Text) (c : Char) (hc : c ∈ u.takeWhile Char.isAlphanum) :
      c.isAlphanum = true := List.all_eq_true.1 List.all_takeWhile c hc
  unfold completesReference at h
  simp only at h
  split at h
  · next rest hdrop =>
    have happ := List.takeWhile_append_dropWhile (p := Char.isAlphanum)
      (l := (Text.stripStart? ['#'] t).getD t)
    rw [hdrop] at happ
    -- The hash is optional, and counts as part of the name.
    cases hstrip : Text.stripStart? ['#'] t with
    | none =>
      rw [hstrip, Option.getD_none] at happ
      exact ⟨_, rest, happ.symm, fun c hc => .inl (hletters t c hc)⟩
    | some u =>
      rw [hstrip, Option.getD_some] at happ
      refine ⟨'#' :: u.takeWhile Char.isAlphanum, rest, ?_, ?_⟩
      · rw [Text.stripStart?_eq_some_iff.1 hstrip, List.singleton_append, List.cons_append, happ]
      · rintro c (_ | ⟨_, hc⟩)
        · exact .inr rfl
        · exact .inl (hletters u c hc)
  · cases h

/-- `restoreChar` puts a hidden character back. -/
theorem restoreChar_protectChar (c : Char) : restoreChar (protectChar c) = restoreChar c := by
  unfold protectChar
  split
  · next hc => rw [hc]; rfl
  · split
    · next hc => rw [hc]; rfl
    · rfl

/-- `protectChar` gives a character of text. -/
theorem isTextChar_protectChar (c : Char) : Event.isTextChar (protectChar c) = true := by
  unfold protectChar
  split
  · rfl
  · split
    · rfl
    · next hamp hlt => simp [Event.isTextChar, hamp, hlt]

end Literal

namespace Document

/-- `readOn` takes a hidden character as the character itself. -/
theorem readOn_protectChar {c : Char} (h : Literal.isStandIn c = false) (b : Builder) (t : Text) :
    readOn b (Literal.protectChar c :: t) = readOn (b.pushText [c]) t := by
  rw [readOn_cons (Literal.isTextChar_protectChar c), Literal.restoreChar_protectChar,
    Literal.restoreChar_of_not_isStandIn h]

/-- `readOn` takes a hidden span as the span itself. -/
theorem readOn_protectSpan {span : Text} (hne : span ≠ [])
    (h : ∀ c ∈ span, Literal.isStandIn c = false) (b : Builder) (t : Text) :
    readOn b (Literal.protectSpan span ++ t) = readOn (b.pushText span) t := by
  induction span generalizing b with
  | nil => exact absurd rfl hne
  | cons c span ih =>
    show readOn b (Literal.protectChar c :: (Literal.protectSpan span ++ t)) = _
    rw [readOn_protectChar (h c List.mem_cons_self)]
    by_cases hspan : span = []
    · rw [hspan]; rfl
    · rw [ih hspan (fun d hd => h d (List.mem_cons_of_mem _ hd)), Builder.pushText_pushText]
      rfl

/-- `readOn` takes hidden text as it was: a `&` that starts a reference with it, and any other
    hidden. -/
theorem readOn_protectText {u : Text} (hne : u ≠ []) (h : ∀ c ∈ u, Literal.isStandIn c = false)
    (b : Builder) (t : Text) :
    readOn b (Literal.protectText u ++ t) = readOn (b.pushText u) t := by
  induction hlen : u.length using Nat.strongRecOn generalizing u b with
  | ind n ih =>
  cases u with
  | nil => exact absurd rfl hne
  | cons c cs =>
    -- What is read so far is put in front of what the rest gives.
    have hmore {s rest : Text} (hs : c :: cs = s ++ rest) (hpos : s ≠ []) :
        readOn (b.pushText s) (Literal.protectText rest ++ t) =
          readOn (b.pushText (c :: cs)) t := by
      have hlength := congrArg List.length hs
      have hspos := List.length_pos_iff.2 hpos
      rw [List.length_append] at hlength
      by_cases hrest : rest = []
      · rw [hs, hrest, List.append_nil]; rfl
      · rw [ih rest.length (by omega) hrest (fun d hd => h d (by rw [hs]; simp [hd])) _ rfl,
          Builder.pushText_pushText, ← hs]
    rw [Literal.protectText]
    -- A reference is read in one event; every other character is one step.
    by_cases href : c = '&' ∧ Literal.completesReference cs = true
    · obtain ⟨rfl, hcomplete⟩ := href
      obtain ⟨name, rest, hcs, hname⟩ := Literal.exists_of_completesReference hcomplete
      have hne {d e : Char} (hd : d ∈ name) (he : e.isAlphanum = false) (hhash : e ≠ '#') :
          d ≠ e := by
        rintro rfl
        rcases hname d hd with hd | rfl
        · rw [he] at hd; cases hd
        · exact hhash rfl
      -- Nothing is hidden inside the reference.
      have hprotect : Literal.protectText cs = name ++ ';' :: Literal.protectText rest := by
        rw [hcs, Literal.protectText_append
          fun d hd => ⟨hne hd (by decide) (by decide), hne hd (by decide) (by decide)⟩]
        rfl
      have hreference (d : Char) (hd : d ∈ name) : d ≠ ';' ∧ d ≠ '<' ∧ d ≠ '&' :=
        ⟨hne hd (by decide) (by decide), hne hd (by decide) (by decide),
          hne hd (by decide) (by decide)⟩
      rw [if_pos rfl, if_pos hcomplete, hprotect, List.cons_append, List.append_assoc,
        List.cons_append, readOn_reference hreference]
      exact hmore (by rw [hcs]; simp) (by simp)
    · -- Outside references, text is hidden character by character.
      have hchar : (if c = '&' then (if Literal.completesReference cs then '&' else
          Literal.ampersand) else if c = '<' then Literal.lessThan else c) =
          Literal.protectChar c := by
        unfold Literal.protectChar
        split
        · next hc => rw [if_neg fun hcomplete => href ⟨hc, hcomplete⟩]
        · rfl
      rw [hchar, List.cons_append, readOn_protectChar (h c List.mem_cons_self)]
      exact hmore rfl (by simp)

end Document

namespace Literal

/-- A piece of text with the characters hidden that are no markup. -/
def protectPiece : Piece Text → Text
  | .plain run => protectText run
  | .token span => protectSpan span

/-- A text with the characters hidden that are no markup. -/
def protectContent (content : Text) : Text := (Span.scan content).flatMap protectPiece

end Literal

namespace Document

/-- `readOn` takes the hidden pieces of a text as the text. -/
private theorem readOn_protectPieces {ps : List (Piece Text)} (hne : ps ≠ [])
    (hps : Span.recogniser.Settled id ps)
    (h : ∀ c ∈ Piece.renderAll id ps, Literal.isStandIn c = false) (b : Builder) (t : Text) :
    readOn b (ps.flatMap Literal.protectPiece ++ t) =
      readOn (b.pushText (Piece.renderAll id ps)) t := by
  induction ps generalizing b with
  | nil => exact absurd rfl hne
  | cons p ps ih =>
    rw [Piece.renderAll_cons] at h
    have hp : ∀ c ∈ p.render id, Literal.isStandIn c = false :=
      fun c hc => h c (List.mem_append_left _ hc)
    have hread (u : Text) :
        readOn b (Literal.protectPiece p ++ u) = readOn (b.pushText (p.render id)) u := by
      cases p with
      | plain run => exact readOn_protectText hps.1 hp b u
      | token span => exact readOn_protectSpan (Span.take?_ne_nil hps.1) hp b u
    have htail : Span.recogniser.Settled id ps := by
      cases p with
      | plain run => exact hps.2.2.2
      | token span => exact hps.2
    rw [List.flatMap_cons, List.append_assoc, hread, Piece.renderAll_cons]
    -- Two runs of text join where they meet, so reading them apart makes no difference.
    by_cases hnil : ps = []
    · rw [hnil, Piece.renderAll_nil, List.append_nil]; rfl
    · rw [ih hnil htail (fun c hc => h c (List.mem_append_right _ hc)), Builder.pushText_pushText]

/-- `readOn` takes hidden content as it was. -/
theorem readOn_protectContent {content : Text} (hne : content ≠ [])
    (h : content.any Literal.isStandIn = false) (b : Builder) (t : Text) :
    readOn b (Literal.protectContent content ++ t) = readOn (b.pushText content) t := by
  have hscan := Span.recogniser.renderAll_scan id Span.take?_eq_append content
  have hpieces : Span.scan content ≠ [] := by
    intro hnil
    rw [Span.scan] at hnil
    rw [hnil] at hscan
    exact hne hscan.symm
  have hread := readOn_protectPieces hpieces
    (Span.recogniser.settled_scan id Span.take?_eq_append content) (b := b) (t := t)
  rw [Span.scan, hscan] at hread
  refine hread ?_
  intro c hc
  rw [List.any_eq_false] at h
  simpa using h c hc

end Document

/-! ## Elements that are left open -/

namespace Frame

theorem close_append (f : Frame) (form : Form) (ns inner : List Node) :
    { f with children := f.children ++ ns }.close form inner = f.close form (ns ++ inner) := by
  simp [close]

/-- `closeNamed?` gives a frame what was left open inside it. -/
theorem closeNamed?_cons (name : Text) (f : Frame) (fs : List Frame) (inner : List Node) :
    closeNamed? name (f :: fs) inner =
      closeNamed? name ({ f with children := f.children ++ inner } :: fs) [] := by
  rw [closeNamed?, closeNamed?, close_append, close_append, List.append_nil]

theorem closeAll_cons (f : Frame) (fs : List Frame) (inner : List Node) :
    closeAll (f :: fs) inner = closeAll ({ f with children := f.children ++ inner } :: fs) [] := by
  rw [closeAll, closeAll, close_append, List.append_nil]

end Frame

namespace Builder

/-- Elements of `b` whose names differ from `owner` are still open; closed without an end tag, they
    leave `b'`. -/
inductive Settles (owner : Text) : Builder → Builder → Prop
  | refl (b : Builder) : Settles owner b b
  | close {f : Frame} {fs : List Frame} {children : List Node} {b' : Builder}
      (hname : Text.sameIgnoringCase f.name owner = false)
      (h : Settles owner ((⟨fs, children⟩ : Builder).push (f.close .unclosed [])) b') :
      Settles owner ⟨f :: fs, children⟩ b'

namespace Settles

variable {owner : Text} {b b' : Builder}

/-- `Settles` one after the other. -/
theorem trans {b'' : Builder} (h : Settles owner b b') (h' : Settles owner b' b'') :
    Settles owner b b'' := by
  induction h with
  | refl => exact h'
  | close hname _ ih => exact .close hname (ih h')

/-- `finish` is the same for builders that `Settles` relates. -/
theorem finish_eq (h : Settles owner b b') : b.finish = b'.finish := by
  induction h with
  | refl => rfl
  | @close f fs children b' hname _ ih =>
    rw [← ih]
    cases fs with
    | nil => simp [finish, Frame.closeAll, push, modifyInnermost]
    | cons g gs =>
      -- The innermost frame is closed into the one around it either way.
      show children ++ Frame.closeAll (f :: g :: gs) [] = _
      rw [Frame.closeAll, Frame.closeAll_cons]
      rfl

/-- `closeNamed?` of the owner is the same for builders that `Settles` relates. -/
theorem closeNamed?_eq (h : Settles owner b b') :
    Frame.closeNamed? owner b.frames [] = Frame.closeNamed? owner b'.frames [] := by
  induction h with
  | refl => rfl
  | @close f fs children b' hname h ih =>
    rw [← ih, Frame.closeNamed?, if_neg (by simp [hname])]
    cases fs with
    | nil => rfl
    | cons g gs =>
      rw [Frame.closeNamed?_cons]
      rfl

/-- Builders that `Settles` relates have the same children. -/
theorem children_eq (h : Settles owner b b') (hne : b'.frames ≠ []) : b.children = b'.children := by
  induction h with
  | refl => rfl
  | @close f fs children b' hname h ih =>
    cases fs with
    | nil =>
      cases h
      exact absurd rfl hne
    | cons g gs => exact ih hne

end Settles

end Builder

/-! ## Nodes -/

namespace Node

mutual

/-- The markup of a node whose text is written by `write`. -/
def sourceBy (write : Text → Text) : Node → Text
  | .text content => write content
  | .raw source => source
  | .element tag children =>
    tag.startText ++ (if tag.showsChildren then sourceAllBy write children else []) ++ tag.endText

/-- The markup of a list of nodes whose text is written by `write`. -/
def sourceAllBy (write : Text → Text) : List Node → Text
  | [] => []
  | n :: ns => sourceBy write n ++ sourceAllBy write ns

end

end Node

namespace Builder

/-- The state behind the start tag of an element that stays open. -/
def enter (tag : Tag) (b : Builder) : Builder :=
  { b with frames := ⟨tag.name, tag.attributes, []⟩ :: b.frames }

theorem addAll_enter (tag : Tag) (ns : List Node) (b : Builder) :
    (b.enter tag).addAll ns = ⟨⟨tag.name, tag.attributes, ns⟩ :: b.frames, b.children⟩ := rfl

/-- A builder `Settles` at a missing end tag. -/
theorem settles_unclosed {owner : Text} {tag : Tag} (hform : tag.form = .unclosed)
    (hname : Text.sameIgnoringCase tag.name owner = false) (ns : List Node) (b : Builder) :
    Settles owner ((b.enter tag).addAll ns) (b.push (.element tag ns)) := by
  have helement : (⟨tag.name, tag.attributes, ns⟩ : Frame).close .unclosed [] =
      .element tag ns := by
    rw [Frame.close, List.append_nil, ← hform]
  rw [addAll_enter]
  refine .close hname ?_
  rw [helement]
  exact .refl _

end Builder

theorem Tag.childless_of_showsChildren (tag : Tag) (h : tag.showsChildren = false) :
    tag.form = .void ∨ tag.form = .selfClosing := by
  cases hform : tag.form <;> simp [showsChildren, hform] at h ⊢

namespace Document

/-- `step` at the start tag of an element without children. -/
theorem step_startEvent_of_childless {tag : Tag}
    (h : tag.IsCanonical Attribute.IsCanonical children) (hshows : tag.showsChildren = false)
    (b : Builder) : step b tag.startEvent = .reading (b.push (.element tag [])) := by
  have hattributes := Attribute.readAttributes_textAll h.attributes
  by_cases hself : tag.form = .selfClosing
  · rw [Tag.startEvent, if_pos hself, step_empty, hattributes, ← hself]
  · have hvoid : tag.form = .void := by
      rcases tag.childless_of_showsChildren hshows with hform | hform
      · exact hform
      · exact absurd hform hself
    have hname : isVoid tag.name = true := by
      cases hname : isVoid tag.name with
      | true => rfl
      | false => exact absurd hvoid (h.of_not_isVoid hname)
    rw [Tag.startEvent, if_neg hself, step, if_pos hname, hattributes, ← hvoid]

/-- `step` at the start tag of an element with children. -/
theorem step_startEvent_of_showsChildren {tag : Tag}
    (h : tag.IsCanonical Attribute.IsCanonical children) (hshows : tag.showsChildren = true)
    (b : Builder) : step b tag.startEvent = .reading (b.enter tag) := by
  have hattributes := Attribute.readAttributes_textAll h.attributes
  have hchildless : ¬(tag.form = .void ∨ tag.form = .selfClosing) := by
    rintro (hform | hform) <;> simp [Tag.showsChildren, hform] at hshows
  have hname : isVoid tag.name = false := by
    cases hname : isVoid tag.name with
    | false => rfl
    | true => exact absurd (h.of_isVoid hname) hchildless
  rw [Tag.startEvent, if_neg fun hself => hchildless (.inr hself), step, if_neg (by simp [hname]),
    hattributes]
  rfl

/-- `readOn` takes a comment as one node. -/
theorem readOn_comment {source : Text} (h : Node.IsComment source) (b : Builder) (t : Text) :
    readOn b (source ++ t) = readOn (b.push (.raw source)) t := by
  obtain ⟨content, rfl, hcut⟩ := h
  have hmore := Text.cut?_append_of_some hcut t
  have htake : Event.take? ("<!--".toList ++ content ++ "-->".toList ++ t) =
      some (.comment content, t) := by
    rw [List.append_assoc, List.append_assoc, ← List.append_assoc content]
    show (Text.cut? "-->".toList (content ++ "-->".toList ++ t)).map
      (fun cut => (Event.comment cut.1, cut.2)) = _
    rw [hmore]
    rfl
  exact readOn_of_reading htake rfl

/-- `readOn` closes the element of an end tag, and what was left open in it. -/
theorem readOn_endTag {tag : Tag} (hname : Tag.IsName tag.name) (hform : tag.form = .normal)
    {b' : Builder} (h : Builder.Settles tag.name b' ((b.enter tag).addAll ns)) (t : Text) :
    readOn b' (tag.endText ++ t) = readOn (b.push (.element tag ns)) t := by
  have htake : Event.take? (tag.endText ++ t) = some (.close tag.name, t) := by
    rw [Tag.endText, if_pos hform]
    exact Event.take?_endTag hname t
  rw [Builder.addAll_enter] at h
  have hclose := h.closeNamed?_eq
  have hchildren := h.children_eq (by simp)
  -- Elements that are still open inside have other names, so the search passes them.
  have hfound : Frame.closeNamed? tag.name b'.frames [] = some (.element tag ns, b.frames) := by
    rw [hclose, Frame.closeNamed?, if_pos (by simp [Text.sameIgnoringCase]), Frame.close,
      List.append_nil, ← hform]
  refine readOn_of_reading htake ?_
  rw [step, hfound]
  simp only [hchildren]

mutual

/-- `readOn` reads a node back.  If it is left open, it counts as closed for the end tag of its
    owner. -/
theorem readOn_sourceBy : (n : Node) → {owner after : Text} →
    n.Canonical Attribute.IsCanonical owner after → (b : Builder) →
    (n.isText = true → Node.endsInText b.innermost = false) → (t : Text) →
    ∃ b', readOn b (n.sourceBy Literal.protectContent ++ t) = readOn b' t ∧
      b'.Settles owner (b.push n) ∧ (n.isUnclosed = false → b' = b.push n)
  | .text content, _, _, h, b, htext, t => by
    refine ⟨b.push (.text content), ?_, .refl _, fun _ => rfl⟩
    rw [Node.sourceBy, readOn_protectContent h.ne_nil h.no_stand_in,
      Builder.pushText_eq_push (htext rfl)]
  | .raw source, _, _, h, b, _, t => ⟨_, readOn_comment h b t, .refl _, fun _ => rfl⟩
  | .element tag children, owner, after, h, b, _, t => by
    obtain ⟨htag, howner, hchildren⟩ := h
    have hstart (u : Text) := Event.take?_startText htag.name htag.attributes u
    cases hshows : tag.showsChildren with
    | false =>
      have hform := tag.childless_of_showsChildren hshows
      have hend : tag.endText = [] := by
        rw [Tag.endText, if_neg]
        rcases hform with h | h <;> simp [h]
      refine ⟨b.push (.element tag children), ?_, .refl _, fun _ => rfl⟩
      rw [Node.sourceBy, hshows, hend, htag.children hform, if_neg (by simp), List.append_nil,
        List.append_nil]
      exact readOn_of_reading (hstart t) (step_startEvent_of_childless htag hshows b)
    | true =>
      -- First the start tag, then the children, and the end tag or what stands in its place.
      obtain ⟨b', hread, hsettles⟩ :=
        readOn_sourceAllBy children hchildren (b.enter tag) (fun _ => rfl) (tag.endText ++ t)
      rw [← readOn_of_reading (hstart _) (step_startEvent_of_showsChildren htag hshows b)] at hread
      rw [Node.sourceBy, hshows, if_pos rfl, List.append_assoc, List.append_assoc, hread]
      by_cases hform : tag.form = .unclosed
      · -- The element stays open, and so may others inside it.
        rw [Tag.owner, if_pos hform] at hsettles
        refine ⟨b', ?_, hsettles.trans (Builder.settles_unclosed hform (howner hform) _ b), ?_⟩
        · rw [Tag.endText, if_neg (by simp [hform])]
          rfl
        · intro hclosed
          simp [Node.isUnclosed, hform] at hclosed
      · have hnormal : tag.form = .normal := by simpa [Tag.showsChildren, hform] using hshows
        rw [Tag.owner, if_neg hform] at hsettles
        exact ⟨_, readOn_endTag htag.name hnormal hsettles t, .refl _, fun _ => rfl⟩

/-- `readOn` reads nodes back. -/
theorem readOn_sourceAllBy : (ns : List Node) → {owner after : Text} →
    Node.CanonicalAll Attribute.IsCanonical owner after ns → (b : Builder) →
    (Node.startsWithText ns = true → Node.endsInText b.innermost = false) → (t : Text) →
    ∃ b', readOn b (Node.sourceAllBy Literal.protectContent ns ++ t) = readOn b' t ∧
      b'.Settles owner (b.addAll ns)
  | [], _, _, _, b, _, t => ⟨b, rfl, by rw [b.addAll_nil]; exact .refl b⟩
  | n :: ns, owner, after, h, b, htext, t => by
    obtain ⟨hn, hnext, hunclosed, hns⟩ := h
    obtain ⟨b', hread, hsettles, hclosed⟩ := readOn_sourceBy n hn b htext
      (Node.sourceAllBy Literal.protectContent ns ++ t)
    rw [Node.sourceAllBy, List.append_assoc, hread, ← Builder.addAll_push]
    -- An element that is left open comes last, so that nothing is read into it.
    by_cases hopen : n.isUnclosed = true
    · rw [hunclosed hopen, Builder.addAll_nil]
      exact ⟨b', rfl, hsettles⟩
    · rw [hclosed (by simpa using hopen)]
      refine readOn_sourceAllBy ns hns (b.push n) ?_ t
      intro hstart
      rw [Builder.endsInText_push]
      cases hn : n.isText with
      | false => rfl
      | true => rw [hnext hn] at hstart; cases hstart

end

/-- `parse?` reads a canonical tree back from its markup. -/
theorem parse?_sourceAllBy (h : IsCanonical ns) :
    parse? (Node.sourceAllBy Literal.protectContent ns) = some (root ns) := by
  have hname : Tag.IsName rootName := ⟨'t', "wig-root".toList, rfl, rfl, rfl⟩
  have htake := Event.take?_endTag hname []
  rw [List.append_nil] at htake
  obtain ⟨b', hread, hsettles⟩ := readOn_sourceAllBy ns h Builder.empty (fun _ => rfl)
    ("</".toList ++ rootName ++ ['>'])
  -- No open element has the name of the root, so its end tag closes the document.
  have hstep : step b' (.close rootName) = .closed ns := by
    have hclose : Frame.closeNamed? rootName b'.frames [] = none := hsettles.closeNamed?_eq
    have hfinish : b'.finish = ns := by
      rw [hsettles.finish_eq]
      exact List.append_nil ns
    rw [step, hclose]
    simp only [hfinish]
    rw [if_pos (by simp [Text.sameIgnoringCase])]
  rw [readOn_of_closed htake hstep, ← List.append_assoc, ← List.append_assoc] at hread
  exact (parse?_eq _).trans (congrArg (Option.map root) hread)

end Document

end TemploTwig
