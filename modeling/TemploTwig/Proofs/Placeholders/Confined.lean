import TemploTwig.Proofs.Placeholders.Contents
import TemploTwig.Proofs.Placeholders.Printing

/-!
# Where the reader finds marks

The reader of markup goes through a prepared template stretch by stretch.  It puts runs, directives
and tokens into texts, and it finds every holder as an attribute of its own.  So the tree holds a
mark only where the conversion looks for one.
-/

namespace TemploTwig

open Document (strayMarks)

/-! ## Start tags -/

theorem Literal.isStandIn_of_isTokenChar {c : Char} (h : Tables.isTokenChar c = true) :
    isStandIn c = false := by
  rw [Bool.eq_false_iff]
  intro hc
  simp only [isStandIn, Bool.or_eq_true, beq_iff_eq] at hc
  rcases hc with (rfl | rfl) | rfl <;> cases h

/-- A holder hides nothing. -/
theorem Family.isStandIn_of_mem_holderText {f : Family} {n : Nat} {c : Char}
    (h : c ∈ f.holderText n) : Literal.isStandIn c = false := by
  have hfixed : (f.holder ++ ['=', '"']).all (fun d => !Literal.isStandIn d) = true := by
    cases f <;> decide
  have hmem : c ∈ f.holder ++ ['=', '"'] ∨ c ∈ f.token n := by
    simp only [Family.holderText, Quote.enclose, Quote.char, List.mem_append, List.mem_cons,
      List.not_mem_nil, or_false] at h ⊢
    tauto
  rcases hmem with hmem | hmem
  · simpa using List.all_eq_true.1 hfixed c hmem
  · exact Literal.isStandIn_of_isTokenChar (Tables.isTokenChar_of_mem_token hmem)

namespace Stretch

/-- The tag has no mark in its name, nor in an attribute that is no placeholder. -/
def Confined (name : Text) (attributes : List Attribute) : Prop :=
  Text.Free strayMarks name ∧ ∀ a ∈ attributes, a.placeholder? = none → a.IsFree strayMarks

variable {bound : Nat} {name lead : Text} {fields : List (Field × Text)}

/-- Nothing is hidden in a tag whose constructs are all held. -/
theorem IsTag.isStandIn_eq_false (h : IsTag bound name lead fields) (hheld : Field.AllHeld fields)
    {c : Char} (hc : c ∈ lead ++ Field.textAll fields) : Literal.isStandIn c = false := by
  rcases List.mem_append.1 hc with hc | hc
  · exact Document.isStandIn_eq_false h.free (List.mem_append_right name hc)
  · obtain ⟨⟨f, t⟩, hx, hmem⟩ := List.mem_flatMap.1 hc
    rcases List.mem_append.1 hmem with hmem | hmem
    · obtain ⟨family, n, rfl⟩ := hheld _ hx
      exact Family.isStandIn_of_mem_holderText hmem
    · exact Document.isStandIn_eq_false (h.each _ hx).2 hmem

/-- The reader takes the tag as a whole, and finds marks only in its placeholders. -/
theorem IsTag.exists_take? (h : IsTag bound name lead fields) (hheld : Field.AllHeld fields)
    (hbound : bound ≤ indexBound) :
    ∃ e name' raw, (e = .start name' raw ∨ e = .empty name' raw) ∧
      Confined name' (Document.readAttributes raw) ∧
      ∀ rest, Event.take? ((tag name lead fields).text ++ rest) = some (e, rest) := by
  obtain ⟨c, cs, rfl, hc, hname⟩ := h.named
  obtain ⟨content, hcontent, hclose⟩ := Field.closeTag?_fields h.orderly hheld
  obtain ⟨name', raw, htag, hprefix, hraw, hattributes⟩ :=
    Field.exists_of_ofTag h.orderly hheld hname hcontent
  refine ⟨_, name', raw, htag, ⟨h.free.of_infix hprefix.isInfix, fun a ha hnone => ?_⟩,
    fun rest => ?_⟩
  · have hrestore : Literal.restore raw = raw :=
      Literal.restore_of_no_stand_in (List.any_eq_false.2 fun d hd =>
        Bool.eq_false_iff.1 (h.isStandIn_eq_false hheld (hraw.subset hd)))
    rw [Document.readAttributes, hrestore] at ha
    rcases hattributes a ha with ⟨u, hu, hwithin⟩ | ⟨f, n, u, hmem, rfl⟩
    · have hfree : Text.Free strayMarks u := by
        rcases List.mem_cons.1 hu with rfl | hu
        · exact h.free.of_infix (List.suffix_append _ _).isInfix
        · obtain ⟨x, hx, rfl⟩ := List.mem_map.1 hu
          exact (h.each x hx).2
      exact ⟨hfree.of_infix hwithin.1, fun v hv => hfree.of_infix (hwithin.2 v hv)⟩
    · -- A holder is read as the placeholder that it is.
      have hindex : n < bound := (h.each _ hmem).1
      rw [Family.placeholder?_holderAttribute (Nat.lt_of_lt_of_le hindex hbound)] at hnone
      cases hnone
  · have hskips : Event.Skips (c :: cs) := by
      refine Event.skips_of_all fun d hd => isOutside_iff.2 ?_
      have hd' := hname d hd
      refine ⟨?_, ?_, ?_, ?_, ?_⟩ <;> (rintro rfl; cases hd')
    have hletter : c ≠ '!' ∧ c ≠ '?' ∧ c ≠ '/' := by
      refine ⟨?_, ?_, ?_⟩ <;> (rintro rfl; cases hc)
    have htext : (tag (c :: cs) lead fields).text ++ rest =
        '<' :: c :: (cs ++ (lead ++ (Field.textAll fields ++ rest))) := by
      simp [text]
    have hmarkup := hskips (lead ++ (Field.textAll fields ++ rest))
    rw [hclose, Option.map_some] at hmarkup
    rw [htext]
    show Event.takeMarkup? (c :: (cs ++ _)) = _
    rw [Event.takeMarkup?, if_neg hletter.1, if_neg hletter.2.1, if_neg hletter.2.2]
    show (Event.closeTag? none (c :: cs ++ _)).map _ = _
    rw [hmarkup]
    rfl

/-! ## Texts -/

/-- A text that the reader may still add to: it is made of stretches of running text that may be
    followed by the flow. -/
def Grows (bound : Nat) (fs : List Flow) (u : Text) : Prop :=
  ∃ qs, (∀ x ∈ qs, x.Fits bound) ∧ (∀ x ∈ qs, x.isText = true) ∧ u = textAll qs ∧
    Flow.Flowing strayMarks (qs.map flow ++ fs)

variable {fs : List Flow} {u : Text} {x : Stretch}

theorem Grows.exists_isContent (h : Grows bound fs u) : ∃ qs, IsContent bound qs ∧ u = textAll qs := by
  obtain ⟨qs, hfits, htexts, rfl, hflowing⟩ := h
  exact ⟨qs, ⟨hfits, htexts, hflowing.of_append_left⟩, rfl⟩

/-- A stretch of running text begins a text. -/
theorem grows_text (hx : x.Fits bound) (htext : x.isText = true)
    (hflowing : Flow.Flowing strayMarks (x.flow :: fs)) : Grows bound fs x.text :=
  ⟨[x], by simpa using hx, by simpa using htext, by simp, hflowing⟩

/-- A stretch of running text goes on with a text. -/
theorem Grows.append (h : Grows bound (x.flow :: fs) u) (hx : x.Fits bound)
    (htext : x.isText = true) : Grows bound fs (u ++ x.text) := by
  obtain ⟨qs, hfits, htexts, rfl, hflowing⟩ := h
  refine ⟨qs ++ [x], fun y hy => ?_, fun y hy => ?_, by simp, by simpa using hflowing⟩
  · rcases List.mem_append.1 hy with hy | hy
    · exact hfits y hy
    · rwa [List.mem_singleton.1 hy]
  · rcases List.mem_append.1 hy with hy | hy
    · exact htexts y hy
    · rwa [List.mem_singleton.1 hy]

/-- An end tag that closes nothing may stand in the middle of a text. -/
theorem Grows.skip (h : Grows bound (.gap :: fs) u) : Grows bound fs u := by
  obtain ⟨qs, hfits, htexts, rfl, hflowing⟩ := h
  exact ⟨qs, hfits, htexts, rfl, hflowing.remove_gap⟩

/-- The reader takes a stretch of running text as it stood in the source. -/
theorem readOn_hidden (hx : x.Fits bound) (htext : x.isText = true) (b : Builder) (rest : Text) :
    Document.readOn b (x.hidden ++ rest) = Document.readOn (b.pushText x.text) rest := by
  cases x with
  | run t =>
    obtain ⟨⟨hne, -⟩, -, hfree⟩ := hx
    exact Document.readOn_protectText hne (fun c hc => Document.isStandIn_eq_false hfree hc) b rest
  | directive span =>
    obtain ⟨hfree, body, rfl, -⟩ := hx
    exact Document.readOn_protectSpan (List.cons_ne_nil _ _)
      (fun c hc => Document.isStandIn_eq_false hfree hc) b rest
  | token i =>
    have hhidden : Literal.protectText (MacroToken.ofIndex i) = MacroToken.ofIndex i := by
      simpa [Literal.protectText] using Literal.protectText_ofIndex_append i []
    have hread := Document.readOn_protectText (u := MacroToken.ofIndex i) (List.cons_ne_nil _ _)
      (fun c hc => Literal.isStandIn_of_isTokenChar (Tables.isTokenChar_of_mem_ofIndex hc)) b rest
    rwa [hhidden] at hread
  | call | tag | markup => cases htext

end Stretch

/-! ## The tree -/

namespace Document

open Stretch (Confined Grows IsContent textAll)

variable {bound : Nat} {b : Builder} {xs : List Stretch} {ns : List Node}

/-- What a prepared template is read as holds marks only where the conversion looks for them. -/
def ConfinedIn (bound : Nat) (ns : List Node) : Prop :=
  Node.EveryIn (fun u => ∃ qs, IsContent bound qs ∧ u = textAll qs) (Text.Free strayMarks)
    (fun t => Confined t.name t.attributes) ns

/-- The reader has put marks only where the conversion looks for them, and the text that it may
    still add to may be followed by the flow. -/
def Keeps (bound : Nat) (fs : List Flow) (b : Builder) : Prop :=
  b.Follows (fun u => ∃ qs, IsContent bound qs ∧ u = textAll qs) (Text.Free strayMarks) Confined
    (Grows bound fs)

/-- The markup that is kept as it is holds no mark. -/
theorem free_raw {m source : Text} (hfree : Text.Free strayMarks m)
    (hsource : source = m ∨ ∃ body, body <:+: m ∧ source = "<!DOCTYPE ".toList ++ body ++ ['>']) :
    Text.Free strayMarks source := by
  rcases hsource with rfl | ⟨body, hbody, rfl⟩
  · exact hfree
  · refine apart_strayMarks.free_behind ['>'] rfl rfl ?_
    -- A blank ends the keyword, so no mark goes from there into the rest.
    have hkeyword : "<!DOCTYPE ".toList = "<!DOCTYPE".toList ++ [' '] := rfl
    rw [hkeyword]
    exact Text.free_append (by decide) (hfree.of_infix hbody)
      (Text.not_across_of_last (apart_strayMarks.bars ' ' rfl) _ _)

/-- A start tag opens an element, or is one by itself. -/
theorem exists_keeps_of_tag {fs fs' : List Flow} (hb : Keeps bound fs b) {e : Event}
    {name raw : Text} (he : e = .start name raw ∨ e = .empty name raw)
    (hconfined : Confined name (readAttributes raw)) :
    ∃ b', step b e = .reading b' ∧ Keeps bound fs' b' := by
  have helement (form : Form) : Node.Every (fun u => ∃ qs, IsContent bound qs ∧ u = textAll qs)
      (Text.Free strayMarks) (fun t => Confined t.name t.attributes)
      (.element ⟨name, readAttributes raw, form⟩ []) :=
    Node.every_element_iff.2 ⟨hconfined, trivial⟩
  rcases he with rfl | rfl
  · by_cases hvoid : isVoid name = true
    · exact ⟨_, by rw [step, if_pos hvoid], .of_push hb.every (helement .void) rfl⟩
    · exact ⟨_, by rw [step, if_neg hvoid]; rfl, .of_enter hb.every hconfined⟩
  · exact ⟨_, rfl, .of_push hb.every (helement .selfClosing) rfl⟩

/-- An end tag closes elements, ends the document or is skipped. -/
theorem keeps_of_close {fs : List Flow} (hb : Keeps bound (.gap :: fs) b) (name : Text) :
    step b (.close name) = .closed b.finish ∨
      ∃ b', step b (.close name) = .reading b' ∧ Keeps bound fs b' := by
  rw [step]
  cases hclose : Frame.closeNamed? name b.frames [] with
  | some found => exact .inr ⟨_, rfl, .of_close hb.every hclose⟩
  | none =>
    by_cases hroot : Text.sameIgnoringCase rootName name = true
    · exact .inl (if_pos hroot)
    · exact .inr ⟨b, if_neg hroot, hb.mono fun u hu => hu.skip⟩

/-- The layout of a prepared template is read stretch by stretch. -/
theorem confinedIn_of_readOn (hbound : bound ≤ indexBound) (hfits : ∀ x ∈ xs, x.Fits bound)
    (hbare : ∀ x ∈ xs, x.Leaves fun _ => False)
    (hflowing : Flow.Flowing strayMarks (xs.map Stretch.flow))
    (hb : Keeps bound (xs.map Stretch.flow) b)
    (hread : readOn b (xs.flatMap Stretch.hidden) = some ns) : ConfinedIn bound ns := by
  induction xs generalizing b with
  | nil =>
    rcases exists_of_readOn hread with ⟨-, rfl⟩ | ⟨e, rest, htake, -⟩
    · exact hb.every.finish
    · cases htake
  | cons x xs ih =>
    have hx := hfits x List.mem_cons_self
    have hrest {b' : Builder} (hb' : Keeps bound (xs.map Stretch.flow) b')
        (hread' : readOn b' (xs.flatMap Stretch.hidden) = some ns) : ConfinedIn bound ns :=
      ih (fun y hy => hfits y (List.mem_cons_of_mem x hy))
        (fun y hy => hbare y (List.mem_cons_of_mem x hy)) hflowing.2.2 hb' hread'
    rw [List.flatMap_cons] at hread
    by_cases htext : x.isText = true
    · -- Running text is added to the innermost element.
      rw [Stretch.readOn_hidden hx htext] at hread
      refine hrest (hb.pushText ?_ fun u hu => ?_) hread
      · have hgrows := Stretch.grows_text hx htext hflowing
        exact ⟨hgrows.exists_isContent, hgrows⟩
      · have hgrows := Grows.append hu hx htext
        exact ⟨hgrows.exists_isContent, hgrows⟩
    · cases x with
      | run | directive | token => exact absurd rfl htext
      | call c => exact absurd (hbare _ List.mem_cons_self) id
      | tag name lead fields =>
        have hheld := Stretch.allHeld_of_leaves (hbare _ List.mem_cons_self)
        obtain ⟨e, name', raw, he, hconfined, htake⟩ := hx.exists_take? hheld hbound
        obtain ⟨b', hstep, hb'⟩ := exists_keeps_of_tag hb he hconfined
        have hread : readOn b ((Stretch.tag name lead fields).text ++ xs.flatMap Stretch.hidden) =
            some ns := hread
        rw [readOn_of_reading (htake _) hstep] at hread
        exact hrest hb' hread
      | markup m =>
        obtain ⟨hclosed, hends, hfree⟩ := hx
        have hread : readOn b (m ++ xs.flatMap Stretch.hidden) = some ns := hread
        rcases markup_of_readOn hclosed hends hread with ⟨source, hsource, hraw⟩ | ⟨hgap, name, htake⟩
        · rw [hraw] at hread
          exact hrest (.of_push hb.every (Node.every_raw_iff.2 (free_raw hfree hsource)) rfl) hread
        · have hflow : (Stretch.markup m).flow = .gap :=
            if_pos (Text.stripStart?_isSome_iff.2 hgap)
          rw [List.map_cons, hflow] at hb
          rcases keeps_of_close hb name with hclose | ⟨b', hstep, hb'⟩
          · rw [readOn_of_closed htake hclose] at hread
            rw [← Option.some.inj hread]
            exact hb.every.finish
          · rw [readOn_of_reading htake hstep] at hread
            exact hrest hb' hread

/-- The tree of a prepared template holds marks only where the conversion looks for them. -/
theorem confinedIn_parse? (hbound : bound ≤ indexBound) (h : Stretch.Stage bound xs)
    (hbare : ∀ x ∈ xs, x.Leaves fun _ => False) {root : Element}
    (hroot : parse? (xs.flatMap Stretch.hidden) = some root) : ConfinedIn bound root.children := by
  -- The root's end tag is one more stretch.
  have hend : (Stretch.markup ("</".toList ++ rootName ++ ['>'])).Fits bound := by
    have hclosed : Token.IsClosed ("</twig-root".toList ++ ['>']) :=
      .other rfl (by decide) (by decide) (.inl ⟨'t', "wig-root".toList, rfl, rfl⟩)
    exact ⟨hclosed, by decide, by decide⟩
  have hread := readOn_of_parse? hroot
  have htext : xs.flatMap Stretch.hidden ++ "</".toList ++ rootName ++ ['>'] =
      (xs ++ [Stretch.markup ("</".toList ++ rootName ++ ['>'])]).flatMap Stretch.hidden := by
    simp [Stretch.hidden, Stretch.text]
  rw [htext] at hread
  refine confinedIn_of_readOn hbound (fun x hx => ?_) (fun x hx => ?_) ?_ ?_ hread
  · rcases List.mem_append.1 hx with hx | hx
    · exact h.fits x hx
    · rw [List.mem_singleton.1 hx]
      exact hend
  · rcases List.mem_append.1 hx with hx | hx
    · exact hbare x hx
    · rw [List.mem_singleton.1 hx]
      trivial
  · rw [List.map_append]
    exact h.flowing.concat_gap nil_not_mem_strayMarks
  · exact ⟨⟨fun f hf => (by cases hf), trivial⟩, fun u hu => (by cases hu)⟩

/-- What `prepare` leaves of an orderly template: its entries hold no mark, and its tree holds marks
    only where the conversion looks for them. -/
theorem confined_of_isOrderly {options : Options} {source text : Text} {kind : TemplateKind}
    {ctx : Context} (horderly : isOrderly source = true)
    (hsource : Text.EverFree strayMarks openChars closeChars source)
    (hextension : Text.Free strayMarks options.targetExtension) (hlength : source.length ≤ indexBound)
    (hprepare : (prepare source).run { options, kind } = (text, ctx)) :
    Context.Open options source.length 0 ctx ∧
      ∀ root, parse? text = some root → ConfinedIn source.length root.children := by
  obtain ⟨xs, ctx', hstage, hbare, hrun, hopen⟩ :=
    Stretch.exists_stage_prepare kind horderly hsource hextension
  rw [hprepare] at hrun
  obtain ⟨rfl, rfl⟩ := Prod.mk.inj hrun
  exact ⟨hopen, fun root hroot => confinedIn_parse? hlength hstage hbare hroot⟩

end Document

end TemploTwig
