import TemploTwig.Proofs.Markup.Building
import TemploTwig.Proofs.Placeholders.Outcomes
import TemploTwig.Proofs.Placeholders.Prepared

/-!
# How a prepared text is read

The reader cuts a text into events, and builds a tree of them by pushing nodes into open elements.
What holds of the nodes one by one holds of the tree.  A tag is cut into attributes, and in a traced
tag these hold only tokens with an entry.
-/

namespace TemploTwig

variable {t rest name v : Text} {e : Event} {n : Node} {f : Family} {i : Nat}

/-! ## Events -/

namespace Event

/-- Is the construct carried through as it is? -/
def isVerbatim : Event → Bool
  | cdata _ | comment _ | doctype _ | instruction _ => true
  | _ => false

/-- The event stands at the front of the text, and `rest` follows it. -/
inductive Reads : Text → Event → Text → Prop
  | text {content rest : Text} (h : ∀ c cs, rest = c :: cs → isTextChar c = false) :
    Reads (content ++ rest) (.text content) rest
  | reference (name rest : Text) : Reads ('&' :: name ++ ';' :: rest) (.reference name) rest
  | start (name raw rest : Text) : Reads ('<' :: (name ++ raw) ++ '>' :: rest) (.start name raw) rest
  | empty (name raw rest : Text) :
    Reads ('<' :: (name ++ raw) ++ '/' :: '>' :: rest) (.empty name raw) rest
  | close (content name rest : Text) : Reads ('<' :: content ++ '>' :: rest) (.close name) rest
  | verbatim (content rest : Text) {e : Event} (h : e.isVerbatim = true) :
    Reads ('<' :: content ++ '>' :: rest) e rest

/-- `ofTag` reads a tag. -/
theorem reads_ofTag (content rest : Text) :
    Reads ('<' :: content ++ '>' :: rest) (ofTag content) rest := by
  have hname (t : Text) : t = t.takeWhile (!isMarkupBlank ·) ++ t.dropWhile (!isMarkupBlank ·) :=
    List.takeWhile_append_dropWhile.symm
  unfold ofTag
  split
  · next body hstrip =>
    have hsplit : '<' :: content ++ '>' :: rest = '<' :: (body.takeWhile (!isMarkupBlank ·) ++
        body.dropWhile (!isMarkupBlank ·)) ++ '/' :: '>' :: rest := by
      rw [← hname body, Text.stripEnd?_eq_some_iff.1 hstrip]
      simp
    rw [hsplit]
    exact .empty _ _ rest
  · have hsplit : '<' :: content ++ '>' :: rest = '<' :: (content.takeWhile (!isMarkupBlank ·) ++
        content.dropWhile (!isMarkupBlank ·)) ++ '>' :: rest := by rw [← hname content]
    rw [hsplit]
    exact .start _ _ rest

/-- `takeDoctype?` reads a doctype. -/
theorem reads_of_takeDoctype? (h : takeDoctype? t = some (e, rest)) :
    Reads ('<' :: '!' :: t) e rest := by
  simp only [takeDoctype?, Option.bind_eq_some_iff, Prod.exists] at h
  obtain ⟨content, r, hclose, hif⟩ := h
  rw [closeDoctype?_eq_append hclose]
  split at hif
  · split at hif
    · cases hif
    · obtain ⟨rfl, rfl⟩ := Prod.mk.inj (Option.some.inj hif)
      exact .verbatim ('!' :: content) r rfl
  · cases hif

/-- `takeBang?` reads a comment, a section or a doctype. -/
theorem reads_of_takeBang? (h : takeBang? t = some (e, rest)) : Reads ('<' :: '!' :: t) e rest := by
  unfold takeBang? at h
  split at h
  · exact reads_of_takeDoctype? h
  · exact reads_of_takeDoctype? h
  · next body =>
    simp only [Option.map_eq_some_iff, Prod.exists, Prod.mk.injEq] at h
    obtain ⟨content, r, hcut, rfl, rfl⟩ := h
    rw [Text.cut?_eq_append hcut]
    have hreads := Reads.verbatim ("!--".toList ++ content ++ "--".toList) r
      (e := comment content) rfl
    simpa using hreads
  · simp only [Option.bind_eq_some_iff, Option.map_eq_some_iff, Prod.exists, Prod.mk.injEq] at h
    obtain ⟨body, hstrip, content, r, hcut, rfl, rfl⟩ := h
    rw [Text.stripStart?_eq_some_iff.1 hstrip, Text.cut?_eq_append hcut]
    have hreads := Reads.verbatim ("![CDATA[".toList ++ content ++ "]]".toList) r
      (e := cdata content) rfl
    simpa using hreads

/-- `takeInstruction?` reads an instruction. -/
theorem reads_of_takeInstruction? (h : takeInstruction? t = some (e, rest)) :
    Reads ('<' :: t) e rest := by
  simp only [takeInstruction?, Option.bind_eq_some_iff, Prod.exists] at h
  obtain ⟨front, r, hcut, hmatch⟩ := h
  rw [Text.cut?_eq_append hcut]
  split at hmatch
  · next c content after heq =>
    obtain ⟨rfl, rfl⟩ := Prod.mk.inj heq
    obtain ⟨rfl, rfl⟩ := Prod.mk.inj (Option.some.inj hmatch)
    have hreads := Reads.verbatim (c :: content ++ ['?']) r (e := instruction content) rfl
    simpa using hreads
  · cases hmatch

/-- `takeMarkup?` reads an event. -/
theorem reads_of_takeMarkup? (h : takeMarkup? t = some (e, rest)) : Reads ('<' :: t) e rest := by
  cases t with
  | nil => cases h
  | cons c cs =>
    -- By the sign behind the `<`: a declaration, an instruction, an end tag or a start tag.
    rw [takeMarkup?] at h
    split at h
    · next hc =>
      subst hc
      exact reads_of_takeBang? h
    · split at h
      · exact reads_of_takeInstruction? h
      · split at h
        · next hc =>
          subst hc
          simp only [Option.map_eq_some_iff, Prod.exists, Prod.mk.injEq] at h
          obtain ⟨content, r, hclose, rfl, rfl⟩ := h
          rw [closeTag?_eq_append hclose]
          exact .close ('/' :: content) _ r
        · simp only [Option.map_eq_some_iff, Prod.exists, Prod.mk.injEq] at h
          obtain ⟨content, r, hclose, rfl, rfl⟩ := h
          rw [closeTag?_eq_append hclose]
          exact reads_ofTag content r

/-- Where the reader cuts. -/
theorem reads_of_take? (h : take? t = some (e, rest)) : Reads t e rest := by
  cases t with
  | nil => cases h
  | cons c cs =>
    rw [take?] at h
    split at h
    · next hc =>
      subst hc
      exact reads_of_takeMarkup? h
    · split at h
      · next hc =>
        subst hc
        simp only [takeReference?] at h
        split at h
        · next r hdrop =>
          obtain ⟨rfl, rfl⟩ := Prod.mk.inj (Option.some.inj h)
          have hsplit := List.takeWhile_append_dropWhile (l := cs)
            (p := fun c => c != ';' && c != '<' && c != '&')
          rw [hdrop] at hsplit
          rw [← hsplit]
          have hreads := Reads.reference
            (cs.takeWhile fun c => c != ';' && c != '<' && c != '&') r
          simpa [hsplit] using hreads
        · cases h
      · obtain ⟨rfl, rfl⟩ := Prod.mk.inj (Option.some.inj h)
        have hsplit : c :: cs = (c :: cs.takeWhile isTextChar) ++ cs.dropWhile isTextChar := by
          rw [List.cons_append, List.takeWhile_append_dropWhile]
        rw [hsplit]
        -- The run of text ends at the first character that may not stand in it.
        refine .text ?_
        intro d ds hrest
        have := List.head?_dropWhile_not isTextChar cs
        rw [hrest] at this
        simpa using this

end Event

/-! ## Open elements -/

/-- `pushText` goes on with a text at the end. -/
theorem Node.pushText_concat_text (t : Text) (front : List Node) (u : Text) :
    pushText t (front ++ [.text u]) = front ++ [.text (u ++ t)] := by
  induction front with
  | nil => rfl
  | cons n front ih =>
    rw [List.cons_append, pushText, ih, List.cons_append]
    intro v _ hnil
    exact absurd hnil (by simp)

section Building

variable {text raw : Text → Prop} {tag : Text → List Attribute → Prop}

namespace Frame

/-- The name, the attributes and the children read so far satisfy their predicates. -/
structure Every (text raw : Text → Prop) (tag : Text → List Attribute → Prop) (f : Frame) : Prop where
  named : tag f.name f.attributes
  children : Node.EveryIn text raw (fun t => tag t.name t.attributes) f.children

theorem Every.close {f : Frame} (h : f.Every text raw tag) (form : Form) {inner : List Node}
    (hinner : Node.EveryIn text raw (fun t => tag t.name t.attributes) inner) :
    Node.Every text raw (fun t => tag t.name t.attributes) (f.close form inner) :=
  Node.every_element_iff.2 ⟨h.named, Node.everyIn_append_iff.2 ⟨h.children, hinner⟩⟩

theorem everyIn_close_unclosed {f : Frame} {inner : List Node} (h : f.Every text raw tag)
    (hinner : Node.EveryIn text raw (fun t => tag t.name t.attributes) inner) :
    Node.EveryIn text raw (fun t => tag t.name t.attributes) [f.close .unclosed inner] :=
  Node.everyIn_singleton_iff.2 (h.close .unclosed hinner)

theorem every_closeNamed? {fs frames : List Frame} (h : ∀ f ∈ fs, f.Every text raw tag)
    (hclose : closeNamed? name fs [] = some (n, frames)) :
    Node.Every text raw (fun t => tag t.name t.attributes) n ∧ n.isText = false ∧
      ∀ f ∈ frames, f.Every text raw tag := by
  obtain ⟨⟨f, inner, hf, hinner, rfl⟩, hframes⟩ :=
    exists_of_closeNamed? everyIn_close_unclosed h Node.everyIn_nil hclose
  exact ⟨hf.close .normal hinner, rfl, hframes⟩

end Frame

namespace Builder

/-- Everything read so far satisfies its predicate. -/
structure Every (text raw : Text → Prop) (tag : Text → List Attribute → Prop) (b : Builder) :
    Prop where
  frames : ∀ f ∈ b.frames, f.Every text raw tag
  children : Node.EveryIn text raw (fun t => tag t.name t.attributes) b.children

variable {b : Builder}

theorem Every.innermost (h : b.Every text raw tag) :
    Node.EveryIn text raw (fun t => tag t.name t.attributes) b.innermost := by
  obtain ⟨frames, children⟩ := b
  cases frames with
  | nil => exact h.children
  | cons frame frames => exact (h.frames frame List.mem_cons_self).children

/-- `modifyInnermost` keeps `Every` if the innermost nodes keep it. -/
theorem Every.modifyInnermost (h : b.Every text raw tag) {f : List Node → List Node}
    (hf : Node.EveryIn text raw (fun t => tag t.name t.attributes) (f b.innermost)) :
    (b.modifyInnermost f).Every text raw tag := by
  obtain ⟨frames, children⟩ := b
  cases frames with
  | nil => exact ⟨h.frames, hf⟩
  | cons frame frames =>
    refine ⟨?_, h.children⟩
    intro g hg
    rcases List.mem_cons.1 hg with rfl | hg
    · exact ⟨(h.frames frame List.mem_cons_self).named, hf⟩
    · exact h.frames g (List.mem_cons_of_mem frame hg)

theorem Every.push (h : b.Every text raw tag)
    (hn : Node.Every text raw (fun t => tag t.name t.attributes) n) :
    (b.push n).Every text raw tag :=
  h.modifyInnermost (Node.everyIn_append_iff.2 ⟨h.innermost, Node.everyIn_singleton_iff.2 hn⟩)

theorem Every.finish (h : b.Every text raw tag) :
    Node.EveryIn text raw (fun t => tag t.name t.attributes) b.finish :=
  Node.everyIn_append_iff.2 ⟨h.children,
    Frame.left_closeAll Frame.everyIn_close_unclosed h.frames Node.everyIn_nil⟩

/-! ## Texts that may still grow -/

theorem getLast?_innermost_push (n : Node) (b : Builder) :
    (b.push n).innermost.getLast? = some n := by
  rw [push, innermost_modifyInnermost, List.getLast?_concat]

/-- Everything read so far satisfies its predicate, and a text that the next one would join also
    satisfies `last`. -/
structure Follows (text raw : Text → Prop) (tag : Text → List Attribute → Prop)
    (last : Text → Prop) (b : Builder) : Prop where
  every : b.Every text raw tag
  last : ∀ u, b.innermost.getLast? = some (.text u) → last u

namespace Follows

variable {last : Text → Prop}

theorem mono (h : b.Follows text raw tag last) {last' : Text → Prop} (hlast : ∀ u, last u → last' u) :
    b.Follows text raw tag last' :=
  ⟨h.every, fun u hu => hlast u (h.last u hu)⟩

/-- Behind a node that is no text, no text is waiting. -/
theorem of_push (h : b.Every text raw tag)
    (hn : Node.Every text raw (fun t => tag t.name t.attributes) n) (htext : n.isText = false) :
    (b.push n).Follows text raw tag last := by
  refine ⟨h.push hn, fun u hu => ?_⟩
  rw [getLast?_innermost_push] at hu
  obtain rfl := Option.some.inj hu
  cases htext

/-- An element that was just opened holds no text to join. -/
theorem of_enter (h : b.Every text raw tag) {attributes : List Attribute}
    (htag : tag name attributes) :
    Follows text raw tag last { b with frames := ⟨name, attributes, []⟩ :: b.frames } := by
  refine ⟨⟨fun f hf => ?_, h.children⟩, fun u hu => (by cases hu)⟩
  rcases List.mem_cons.1 hf with rfl | hf
  · exact ⟨htag, Node.everyIn_nil⟩
  · exact h.frames f hf

/-- The element that an end tag closes is no text. -/
theorem of_close (h : b.Every text raw tag) {frames : List Frame}
    (hclose : Frame.closeNamed? name b.frames [] = some (n, frames)) :
    ({ b with frames }.push n).Follows text raw tag last := by
  obtain ⟨hn, htext, hframes⟩ := Frame.every_closeNamed? h.frames hclose
  have hevery : Every text raw tag { b with frames } := ⟨hframes, h.children⟩
  exact of_push hevery hn htext

/-- A text joins the one in front of it, or it is a node of its own. -/
theorem pushText (h : b.Follows text raw tag last) {last' : Text → Prop} (hnew : text t ∧ last' t)
    (hjoin : ∀ u, last u → text (u ++ t) ∧ last' (u ++ t)) :
    (b.pushText t).Follows text raw tag last' := by
  cases hends : Node.endsInText b.innermost with
  | false =>
    rw [pushText_eq_push hends]
    refine ⟨h.every.push (Node.every_text_iff.2 hnew.1), fun u hu => ?_⟩
    rw [getLast?_innermost_push] at hu
    obtain rfl : t = u := Node.text.inj (Option.some.inj hu)
    exact hnew.2
  | true =>
    obtain ⟨n, hlast, hn⟩ := (Option.any_eq_true _ _).1 hends
    cases n with
    | element tag children => cases hn
    | raw source => cases hn
    | text u =>
      obtain ⟨htext, hlast'⟩ := hjoin u (h.last u hlast)
      obtain ⟨front, hfront⟩ := List.getLast?_eq_some_iff.1 hlast
      have heq : Node.pushText t b.innermost = front ++ [.text (u ++ t)] := by
        rw [hfront, Node.pushText_concat_text]
      refine ⟨h.every.modifyInnermost ?_, fun w hw => ?_⟩
      · have hevery := h.every.innermost
        rw [hfront, Node.everyIn_append_iff] at hevery
        rw [heq, Node.everyIn_append_iff, Node.everyIn_singleton_iff, Node.every_text_iff]
        exact ⟨hevery.1, htext⟩
      · rw [Builder.pushText, innermost_modifyInnermost, heq, List.getLast?_concat] at hw
        obtain rfl : u ++ t = w := Node.text.inj (Option.some.inj hw)
        exact hlast'

end Follows

end Builder

end Building

/-! ## Attributes -/

namespace AttributeValue

/-- A value ends with the text, in front of a quotation mark, or in front of a character that no
    token has. -/
def EndsBefore : Text → Prop
  | [] => True
  | c :: _ => c = '"' ∨ Tables.isTokenChar c = false

/-- `takeAssigned` gives a value as it stands in the text. -/
theorem exists_suffix_of_takeAssigned (h : (takeAssigned t).1.text? = some v) :
    ∃ more, v ++ more <:+ t ∧ EndsBefore more := by
  cases t with
  | nil =>
    obtain rfl := Option.some.inj h
    exact ⟨[], List.suffix_refl _, trivial⟩
  | cons c cs =>
    simp only [takeAssigned] at h
    split at h
    · next quote hquote =>
      split at h
      · next value rest hcut =>
        obtain rfl := Option.some.inj h
        -- The closing quote follows, which no token has.
        refine ⟨quote.char :: rest, ?_, ?_⟩
        · have hcs := Text.cut?_eq_append hcut
          rw [List.append_assoc] at hcs
          rw [hcs]
          exact List.suffix_cons c _
        · cases quote with
          | double => exact .inl rfl
          | single => exact .inr rfl
      · obtain rfl := Option.some.inj h
        exact ⟨[], by simp, trivial⟩
    · obtain rfl := Option.some.inj h
      refine ⟨(c :: cs).dropWhile isUnquotedChar, ?_, ?_⟩
      · exact (List.takeWhile_append_dropWhile (l := c :: cs)).symm ▸ List.suffix_refl _
      · cases hrest : (c :: cs).dropWhile isUnquotedChar with
        | nil => trivial
        | cons d ds =>
          have hd := List.head?_dropWhile_not isUnquotedChar (c :: cs)
          rw [hrest] at hd
          -- A value without quotes ends at a blank or at the `>`, and no token has these either.
          have hblank : isAsciiBlank d = true ∨ d = '>' := by
            simpa [isUnquotedChar, Classical.or_iff_not_imp_left] using hd
          refine .inr ?_
          rcases hblank with hblank | rfl
          · have hcases : (((d = ' ' ∨ d = '\t') ∨ d = '\n') ∨ d = '\x0c') ∨ d = '\r' := by
              simpa [isAsciiBlank] using hblank
            rcases hcases with (((rfl | rfl) | rfl) | rfl) | rfl <;> rfl
          · rfl

/-- `take` gives a value as it stands in the text. -/
theorem exists_suffix_of_take (h : (take t).1.text? = some v) :
    ∃ more, v ++ more <:+ t ∧ EndsBefore more := by
  unfold take at h
  split at h
  · next rest heq =>
    obtain ⟨more, hsuffix, hends⟩ := exists_suffix_of_takeAssigned h
    refine ⟨more, hsuffix.trans (List.IsSuffix.trans (List.dropWhile_suffix _) ?_), hends⟩
    exact (List.suffix_cons '=' rest).trans (heq ▸ List.dropWhile_suffix _)
  · cases h

/-- What is left behind a value is the end of the text. -/
theorem suffix_of_take (t : Text) : (take t).2 <:+ t := by
  have hassigned (t : Text) : (takeAssigned t).2 <:+ t := by
    cases t with
    | nil => exact List.suffix_refl _
    | cons c cs =>
      simp only [takeAssigned]
      split
      · split
        · next value rest hcut =>
          rw [Text.cut?_eq_append hcut]
          exact (List.suffix_append _ rest).trans (List.suffix_cons c _)
        · exact List.nil_suffix
      · exact List.dropWhile_suffix _
  unfold take
  split
  · next rest heq =>
    refine (hassigned _).trans (List.IsSuffix.trans (List.dropWhile_suffix _) ?_)
    exact (List.suffix_cons '=' rest).trans (heq ▸ List.dropWhile_suffix _)
  · exact List.suffix_refl t

end AttributeValue

/-- The value of an attribute stands in the text that the attribute was read from. -/
theorem Attribute.exists_suffix_of_mem_parse {a : Attribute} (ha : a ∈ parse t)
    (hv : a.value.text? = some v) : ∃ more, v ++ more <:+ t ∧ AttributeValue.EndsBefore more := by
  fun_induction parse t with
  | case1 => cases ha
  | case2 c cs _ ih =>
    obtain ⟨more, hsuffix, hends⟩ := ih ha
    exact ⟨more, hsuffix.trans (List.suffix_cons c cs), hends⟩
  | case3 => cases ha
  | case4 c cs _ _ taken ih =>
    have hname : cs.dropWhile isNameChar <:+ c :: cs :=
      (List.dropWhile_suffix _).trans (List.suffix_cons c cs)
    rcases List.mem_cons.1 ha with rfl | ha
    · obtain ⟨more, hsuffix, hends⟩ := AttributeValue.exists_suffix_of_take hv
      exact ⟨more, hsuffix.trans hname, hends⟩
    · obtain ⟨more, hsuffix, hends⟩ := ih ha
      exact ⟨more, hsuffix.trans ((AttributeValue.suffix_of_take _).trans hname), hends⟩

/-! ## Tokens in attributes -/

namespace Family

/-- A token stands for one index of one family. -/
theorem eq_of_parseToken?_token {g : Family} {j : Nat} (h : f.parseToken? (g.token j) = some i) :
    f = g ∧ i = j := by
  by_cases hfg : f = g
  · subst hfg
    have htoken : f.token j = f.name ++ ['_'] ++ decimal j := by simp [token]
    rw [parseToken?, htoken, Text.stripStart?_append, Option.bind_some, parseIndex?_decimal_eq] at h
    split at h
    · exact ⟨rfl, (Option.some.inj h).symm⟩
    · cases h
  · -- The names differ in front of the digits.
    have hnone : f.parseToken? (g.token j) = none := by
      revert hfg
      cases f <;> cases g <;> intro hfg <;> first | rfl | exact absurd rfl hfg
    rw [hnone] at h
    cases h

/-- The characters of the texts that are read as a token. -/
def isValueChar (c : Char) : Bool := c.isUpper || c.isDigit || c == '_' || c == '+'

/-- A text that is read as a token begins with the mark of one and has few characters. -/
theorem exists_of_parseToken? (h : f.parseToken? v = some i) :
    (∃ r, v = Attribute.tokenMark ++ r) ∧ ∀ c ∈ v, isValueChar c = true := by
  simp only [parseToken?, Option.bind_eq_some_iff, Text.stripStart?_eq_some_iff] at h
  obtain ⟨digits, rfl, hindex⟩ := h
  have hname : (∃ r, f.name ++ ['_'] = Attribute.tokenMark ++ r) ∧
      (f.name ++ ['_']).all isValueChar = true := by
    cases f
    · exact ⟨⟨"MACRO_".toList, rfl⟩, by decide⟩
    · exact ⟨⟨"COND_".toList, rfl⟩, by decide⟩
    · exact ⟨⟨"CLASS_".toList, rfl⟩, by decide⟩
    · exact ⟨⟨"CHECKED_".toList, rfl⟩, by decide⟩
    · exact ⟨⟨"SELECTED_".toList, rfl⟩, by decide⟩
  -- An index has digits only, behind a plus sign perhaps.
  have hdigits (c : Char) (hc : c ∈ digits) : isValueChar c = true := by
    have hdigit {c : Char} (h : c.isDigit = true) : isValueChar c = true := by simp [isValueChar, h]
    rw [parseIndex?] at hindex
    dsimp only at hindex
    split at hindex
    · next hall =>
      cases hplus : Text.stripStart? ['+'] digits with
      | none =>
        rw [hplus] at hall
        exact hdigit (List.all_eq_true.1 hall.2 c hc)
      | some body =>
        rw [hplus] at hall
        rw [Text.stripStart?_eq_some_iff.1 hplus] at hc
        rcases List.mem_cons.1 hc with rfl | hc
        · rfl
        · exact hdigit (List.all_eq_true.1 hall.2 c hc)
    · cases hindex
  obtain ⟨⟨r, hr⟩, hall⟩ := hname
  refine ⟨⟨r ++ digits, by rw [hr, List.append_assoc]⟩, ?_⟩
  intro c hc
  rcases List.mem_append.1 hc with hc | hc
  · exact List.all_eq_true.1 hall c hc
  · exact hdigits c hc

theorem not_mem_of_parseToken? (h : f.parseToken? v = some i) {c : Char}
    (hc : isValueChar c = false) : c ∉ v := by
  intro hmem
  rw [(exists_of_parseToken? h).2 c hmem] at hc
  cases hc

end Family

namespace Tables

/-- Every token in the attributes has an entry. -/
def Covers (tables : Tables) (attributes : List Attribute) : Prop :=
  ∀ a ∈ attributes, ∀ f i, a.index? f = some i → i < (tables.entries f).length

theorem quote_not_mem_token (f : Family) (i : Nat) : '"' ∉ f.token i := by
  have hname : '"' ∉ f.name := by cases f <;> decide
  have hdigits : '"' ∉ decimal i := not_mem_decimal rfl i
  simp [Family.token, hname, hdigits]

/-- A token at the front of a value, closed by a character that the value does not have, is all of
    the value. -/
theorem eq_token_of_append_eq {c : Char} {x more : Text} (h : f.token i ++ c :: x = v ++ more)
    (hc : c ∉ v) (hmore : AttributeValue.EndsBefore more) : v = f.token i := by
  rcases List.append_eq_append_iff.1 h with ⟨tail, rfl, htail⟩ | ⟨tail, htoken, hrest⟩
  · cases tail with
    | nil => exact List.append_nil _
    | cons d tail =>
      obtain ⟨rfl, -⟩ := List.cons.inj htail
      exact absurd (List.mem_append_right _ List.mem_cons_self) hc
  · cases tail with
    | nil => rw [htoken, List.append_nil]
    | cons d tail =>
      -- The token would go on behind the value.
      have hd : d ∈ f.token i := htoken ▸ List.mem_append_right v List.mem_cons_self
      rw [hrest] at hmore
      rcases hmore with rfl | hmore
      · exact absurd hd (quote_not_mem_token f i)
      · rw [isTokenChar_of_mem_token hd] at hmore
        cases hmore

/-- Where a word stands at the front of a value that is read as a token, it is this token. -/
theorem Word.exists_eq_token {tables : Tables} {w more : Text} (hw : tables.Word w)
    (hbegin : w <+: v ++ more) (hquote : '"' ∉ v) (hbracket : ']' ∉ v)
    (hmore : AttributeValue.EndsBefore more) :
    ∃ f i, i < (tables.entries f).length ∧ v = f.token i := by
  obtain ⟨x, hx⟩ := hbegin
  cases hw with
  | @held f i hi =>
    rw [List.append_assoc] at hx
    exact ⟨f, i, hi, eq_token_of_append_eq hx hquote hmore⟩
  | @inline i hi =>
    rw [List.append_assoc] at hx
    exact ⟨.macroCall, i, hi, eq_token_of_append_eq hx hbracket hmore⟩

/-- The attributes of a tag hold only tokens with an entry. -/
theorem covers_parse {tables : Tables} {raw : Text}
    (h : Text.Traced Attribute.tokenMark tables.Word raw) : tables.Covers (Attribute.parse raw) := by
  intro a ha f i hindex
  rw [Attribute.index?] at hindex
  split at hindex
  · obtain ⟨v, hv, htoken⟩ := Option.bind_eq_some_iff.1 hindex
    obtain ⟨more, hsuffix, hmore⟩ := Attribute.exists_suffix_of_mem_parse ha hv
    have hquote : '"' ∉ v := Family.not_mem_of_parseToken? htoken rfl
    have hbracket : ']' ∉ v := Family.not_mem_of_parseToken? htoken rfl
    obtain ⟨⟨r, rfl⟩, -⟩ := Family.exists_of_parseToken? htoken
    rw [List.append_assoc] at hsuffix
    obtain ⟨w, hw, hbegin⟩ := h (r ++ more) hsuffix
    rw [← List.append_assoc] at hbegin
    obtain ⟨g, j, hj, heq⟩ := hw.exists_eq_token hbegin hquote hbracket hmore
    rw [heq] at htoken
    obtain ⟨rfl, rfl⟩ := Family.eq_of_parseToken?_token htoken
    exact hj
  · cases hindex

end Tables

end TemploTwig
