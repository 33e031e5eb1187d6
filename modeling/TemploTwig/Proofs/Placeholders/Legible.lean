import TemploTwig.Proofs.Placeholders.Readings

/-!
# What the tree of a prepared text holds

A text node is what stands between two tags, with stand-ins restored.  Where an end tag closes
nothing, it is what stands on both sides of the tag.  So the texts of the tree hold an inline token
only where the prepared text does, and its attributes hold only tokens with an entry.
-/

namespace TemploTwig

/-! ## Restoring hidden characters -/

namespace Literal

/-- A stand-in is replaced by the character that it hides. -/
inductive Restores : Text → Text → Prop
  | restore {c : Char} (h : isStandIn c = true) : Restores [c] [restoreChar c]

theorem substitutes_restore (t : Text) : Substitutes Restores t (restore t) := by
  refine Substitutes.map (fun c => ?_) t
  by_cases hc : isStandIn c = true
  · exact .inr (.restore hc)
  · exact .inl (restoreChar_of_not_isStandIn (Bool.not_eq_true _ ▸ hc))

/-- `Restores` puts one of three signs in place of a stand-in. -/
theorem Restores.cases {old new : Text} (h : Restores old new) :
    (∃ c, old = [c] ∧ Tables.isTokenChar c = false) ∧ ∃ d ∈ ['&', '<', '>'], new = [d] := by
  obtain ⟨hc⟩ := h
  simp only [isStandIn, Bool.or_eq_true, beq_iff_eq] at hc
  rcases hc with (rfl | rfl) | rfl
  · exact ⟨⟨_, rfl, rfl⟩, '&', by simp, rfl⟩
  · exact ⟨⟨_, rfl, rfl⟩, '<', by simp, rfl⟩
  · exact ⟨⟨_, rfl, rfl⟩, '>', by simp, rfl⟩

/-- No mark has one of the characters that may be hidden. -/
theorem bars_hidden {d : Char} (hd : d ∈ ['&', '<', '>']) : Text.Bars Family.marks d := by
  simp only [List.mem_cons, List.not_mem_nil, or_false] at hd
  rcases hd with rfl | rfl | rfl <;> unfold Text.Bars <;> decide

theorem Restores.last_new {old new : Text} (h : Restores old new) :
    ∃ cs c, new = cs ++ [c] ∧ Text.Bars Family.marks c := by
  obtain ⟨-, d, hd, rfl⟩ := h.cases
  exact ⟨[], d, rfl, bars_hidden hd⟩

theorem Restores.avoids {m : Text} (hm : m ∈ Family.marks) :
    Substitutes.Avoids Restores m := by
  refine Substitutes.avoids_of_head fun old new hnew => ?_
  obtain ⟨-, d, hd, rfl⟩ := hnew.cases
  exact ⟨d, [], rfl, bars_hidden hd m hm⟩

/-- Restoring characters keeps a text traced. -/
theorem traced_restores {mark : Text} {words : Text → Prop} {t u : Text}
    (hmark : mark ∈ Family.marks) (hwords : ∀ w, words w → ∀ c ∈ w, Tables.isTokenChar c = true)
    (ht : Text.Traced mark words t) (h : Substitutes Restores t u) : Text.Traced mark words u := by
  refine ht.substitutes h ?_ ((Restores.avoids hmark).of_suffix (List.tail_suffix mark)) ?_ ?_ ?_
  · rintro rfl
    exact absurd hmark (by decide)
  · intro old new hnew
    obtain ⟨⟨c, rfl, hc⟩, -⟩ := hnew.cases
    refine ⟨c, [], rfl, fun w hw hmem => ?_⟩
    rw [hwords w hw c hmem] at hc
    cases hc
  · intro old new hnew
    obtain ⟨-, d, hd, rfl⟩ := hnew.cases
    apply Text.traced_of_not_occurs
    intro hoccurs
    -- The text is one character, and the mark does not have it.
    have hne : mark ≠ [] := by
      rintro rfl
      exact absurd hmark (by decide)
    obtain ⟨c, cs, rfl⟩ := List.exists_cons_of_ne_nil hne
    have hc : c ∈ [d] := hoccurs.mem List.mem_cons_self
    rw [List.mem_singleton] at hc
    exact bars_hidden hd _ hmark (hc ▸ List.mem_cons_self)
  · intro old new hnew
    obtain ⟨cs, c, heq, hbars⟩ := hnew.last_new
    exact ⟨cs, c, heq, hbars mark hmark⟩

/-- Restoring characters keeps a text seamless where directives are left out. -/
theorem seamless_restores {marks : List Text} (hmarks : marks ⊆ Family.marks) {t u : Text}
    (ht : Text.Seamless marks [':'] [':'] t) (h : Substitutes Restores t u) :
    Text.Seamless marks [':'] [':'] u := by
  refine ht.substitutes h ?_ ?_ ?_
  · intro old new hnew
    obtain ⟨-, d, hd, rfl⟩ := hnew.cases
    refine Substitutes.framed_of_not_mem (by simp) fun c hc => ?_
    rw [List.mem_singleton.1 hc]
    simp only [List.mem_cons, List.not_mem_nil, or_false] at hd
    rcases hd with rfl | rfl | rfl <;> decide
  · rintro s ⟨-, m, hm, hsuffix⟩
    exact (Restores.avoids (hmarks hm)).of_suffix (hsuffix.trans (List.tail_suffix m))
  · intro old new hnew
    obtain ⟨cs, c, heq, hbars⟩ := hnew.last_new
    exact ⟨cs, c, heq, fun m hm => hbars m (hmarks hm)⟩

end Literal

/-! ## Texts -/

/-- No mark comes together where parts are left out, and inline tokens stand only where calls were
    recorded. -/
structure Tables.Legible (tables : Tables) (marks : List Text) (opens closes : List Char)
    (t : Text) : Prop where
  seamless : Text.Seamless marks opens closes t
  opening : MacroToken.opening ∈ marks → Text.Traced MacroToken.opening tables.Inlined t

namespace Tables.Legible

variable {tables : Tables} {marks : List Text} {opens closes : List Char} {s t u : Text}

theorem of_suffix (h : tables.Legible marks opens closes t) (hs : s <:+ t) :
    tables.Legible marks opens closes s where
  seamless := h.seamless.of_within hs.isInfix
  opening hopening := (h.opening hopening).of_suffix hs

theorem of_append_cons {c : Char} (h : tables.Legible marks opens closes (s ++ c :: t))
    (hc : isTokenChar c = false) : tables.Legible marks opens closes s where
  seamless := h.seamless.of_within (List.prefix_append s _).isInfix
  opening hopening := by
    refine (h.opening hopening).of_append fun w hw hmem => ?_
    rw [hw.isTokenChar_of_mem hmem] at hc
    cases hc

theorem of_append_last {c : Char} (h : tables.Legible marks opens closes (s ++ [c] ++ t))
    (hc : isTokenChar c = false) : tables.Legible marks opens closes (s ++ [c]) where
  seamless := h.seamless.of_within (List.prefix_append _ t).isInfix
  opening hopening := by
    refine (h.opening hopening).of_append_last (fun w hw hmem => ?_) (by decide)
    rw [hw.isTokenChar_of_mem hmem] at hc
    cases hc

/-- A part that begins with no character of a token may be left out. -/
theorem skip {d : Text} (h : tables.Legible marks openChars closeChars (s ++ d ++ t))
    (hd : Text.Bounded openChars closeChars d) :
    tables.Legible marks openChars closeChars (s ++ t) where
  seamless := h.seamless.of_shortens (Text.Shortens.skip s t hd)
  opening hopening := by
    have hborder : ¬Text.Across [MacroToken.opening] s t := by
      rintro ⟨m, hm, hacross⟩
      rw [List.mem_singleton.1 hm] at hacross
      exact h.seamless s d t .refl hd ⟨_, hopening, hacross⟩
    have htraced := h.opening hopening
    obtain ⟨c, cs, rfl, hc⟩ := hd.head
    refine Text.Traced.append ?_ (htraced.of_suffix (List.suffix_append _ t)) hborder
    rw [List.append_assoc] at htraced
    refine Text.Traced.of_append htraced fun w hw hmem => ?_
    have htoken := hw.isTokenChar_of_mem hmem
    simp only [openChars, List.mem_cons, List.not_mem_nil, or_false] at hc
    rcases hc with rfl | rfl <;> cases htoken

/-- Restoring characters leaves a text that can be cut at its directives. -/
theorem restores (hmarks : marks ⊆ Family.marks) (h : tables.Legible marks openChars closeChars t)
    (hu : Substitutes Literal.Restores t u) : tables.Legible marks [':'] [':'] u where
  seamless := Literal.seamless_restores hmarks (h.seamless.mono (by decide) (by decide)) hu
  opening hopening := Literal.traced_restores (hmarks hopening)
    (fun _ hw _ hc => hw.isTokenChar_of_mem hc) (h.opening hopening) hu

end Tables.Legible

/-! ## The tree -/

namespace Builder

variable {tables : Tables} {marks : List Text} {b : Builder} {t : Text}

/-- What is read so far and what is left to read fit together: what is left is traced, and with the
    text that it may join it can be cut. -/
structure Tracks (tables : Tables) (marks : List Text) (b : Builder) (t : Text) : Prop where
  every : b.Every (tables.Legible marks [':'] [':']) (fun _ => True) (fun _ => tables.Covers)
  token : Text.Traced Attribute.tokenMark tables.Word t
  rest : tables.Legible marks openChars closeChars t
  last : ∀ u, b.innermost.getLast? = some (.text u) →
    ∃ u₀, Substitutes Literal.Restores u₀ u ∧ tables.Legible marks openChars closeChars (u₀ ++ t)

/-- Reading on behind a cut, where no text is left to join. -/
theorem Tracks.follows (h : b.Tracks tables marks t) :
    b.Follows (tables.Legible marks [':'] [':']) (fun _ => True) (fun _ => tables.Covers)
      fun u => ∃ u₀, Substitutes Literal.Restores u₀ u ∧
        tables.Legible marks openChars closeChars (u₀ ++ t) :=
  ⟨h.every, h.last⟩

/-- What was read may change, as long as it follows what is left to read. -/
theorem Tracks.of_follows (h : b.Tracks tables marks t) {rest : Text} (hrest : rest <:+ t)
    {b' : Builder} (hb : b'.Follows (tables.Legible marks [':'] [':']) (fun _ => True)
      (fun _ => tables.Covers) fun u => ∃ u₀, Substitutes Literal.Restores u₀ u ∧
        tables.Legible marks openChars closeChars (u₀ ++ rest)) : b'.Tracks tables marks rest where
  every := hb.every
  token := h.token.of_suffix hrest
  rest := h.rest.of_suffix hrest
  last := hb.last

/-- What follows an end tag that closes nothing may join the text in front of the tag. -/
theorem Tracks.skip {content rest : Text}
    (h : b.Tracks tables marks ('<' :: content ++ '>' :: rest)) : b.Tracks tables marks rest := by
  have hsuffix : rest <:+ '<' :: content ++ '>' :: rest :=
    (List.suffix_cons '>' rest).trans (List.suffix_append _ _)
  have htag : Text.Bounded openChars closeChars ('<' :: content ++ ['>']) :=
    ⟨⟨'<', _, rfl, by decide⟩, ⟨'<' :: content, '>', rfl, by decide⟩⟩
  refine h.of_follows hsuffix (h.follows.mono ?_)
  rintro u ⟨u₀, hrestores, hjoined⟩
  exact ⟨u₀, hrestores, Tables.Legible.skip (by simpa using hjoined) htag⟩

/-- Reading a text joins it to the text in front of it or makes a new node. -/
theorem Tracks.pushText (hmarks : marks ⊆ Family.marks) {content rest u : Text}
    (h : b.Tracks tables marks (content ++ rest)) (hu : Substitutes Literal.Restores content u)
    (hcut : ∀ s, tables.Legible marks openChars closeChars (s ++ content ++ rest) →
      tables.Legible marks openChars closeChars (s ++ content)) :
    (b.pushText u).Tracks tables marks rest := by
  refine h.of_follows (List.suffix_append content rest) (h.follows.pushText ?_ ?_)
  · have hcontent : tables.Legible marks openChars closeChars content := hcut [] h.rest
    exact ⟨hcontent.restores hmarks hu, content, hu, h.rest⟩
  · -- The text joins the one in front, and both were read from one legible text.
    rintro v ⟨v₀, hv, hjoined⟩
    rw [← List.append_assoc] at hjoined
    exact ⟨(hcut v₀ hjoined).restores hmarks (hv.append hu), v₀ ++ content, hv.append hu, hjoined⟩

end Builder

namespace Document

variable {tables : Tables} {marks : List Text} {b b' : Builder} {t rest : Text} {e : Event}

/-- `readAttributes` covers the tokens of a traced text. -/
theorem covers_readAttributes (before : Text) {raw after : Text} {c : Char}
    (h : Text.Traced Attribute.tokenMark tables.Word (before ++ raw ++ c :: after))
    (hc : Tables.isTokenChar c = false) : tables.Covers (readAttributes raw) := by
  apply Tables.covers_parse
  have hraw : Text.Traced Attribute.tokenMark tables.Word raw := by
    rw [List.append_assoc] at h
    refine (h.of_suffix (List.suffix_append before _)).of_append fun w hw hmem => ?_
    rw [hw.isTokenChar_of_mem hmem] at hc
    cases hc
  exact Literal.traced_restores (by decide) (fun _ hw _ hmem => hw.isTokenChar_of_mem hmem) hraw
    (Literal.substitutes_restore raw)

/-- What is read fits together with what is left to read after every event. -/
theorem tracks_step (hmarks : marks ⊆ Family.marks) (h : b.Tracks tables marks t)
    (hreads : Event.Reads t e rest) (hstep : step b e = .reading b') :
    b'.Tracks tables marks rest := by
  cases hreads with
  | @text content _ hstop =>
    obtain rfl := Progress.reading.inj hstep
    refine h.pushText hmarks (Literal.substitutes_restore content) fun s hs => ?_
    -- What ends a run of text is no character of a token, so none is cut in two.
    cases rest with
    | nil => rwa [List.append_nil] at hs
    | cons c cs =>
      refine hs.of_append_cons ?_
      have hc := hstop c cs rfl
      by_cases hopen : c = '<'
      · rw [hopen]; rfl
      · have hamp : c = '&' := by simpa [Event.isTextChar, hopen] using hc
        rw [hamp]; rfl
  | reference name =>
    obtain rfl := Progress.reading.inj hstep
    have hcontent : b.Tracks tables marks ('&' :: name ++ [';'] ++ rest) := by simpa using h
    refine hcontent.pushText hmarks (.refl _) fun s hs => ?_
    have hlast : tables.Legible marks openChars closeChars (s ++ '&' :: name ++ [';'] ++ rest) := by
      simpa using hs
    simpa using hlast.of_append_last rfl
  | start name raw =>
    have hcovers : tables.Covers (readAttributes raw) :=
      covers_readAttributes ('<' :: name) (by simpa using h.token) rfl
    have hsuffix : rest <:+ '<' :: (name ++ raw) ++ '>' :: rest :=
      (List.suffix_cons '>' rest).trans (List.suffix_append _ _)
    rw [step] at hstep
    split at hstep
    · obtain rfl := Progress.reading.inj hstep
      exact h.of_follows hsuffix
        (.of_push h.every (Node.every_element_iff.2 ⟨hcovers, Node.everyIn_nil⟩) rfl)
    · obtain rfl := Progress.reading.inj hstep
      exact h.of_follows hsuffix (.of_enter h.every hcovers)
  | empty name raw =>
    have hcovers : tables.Covers (readAttributes raw) :=
      covers_readAttributes ('<' :: name) (by simpa using h.token) rfl
    have hsuffix : rest <:+ '<' :: (name ++ raw) ++ '/' :: '>' :: rest :=
      ((List.suffix_cons '>' rest).trans (List.suffix_cons '/' _)).trans (List.suffix_append _ _)
    obtain rfl := Progress.reading.inj hstep
    exact h.of_follows hsuffix
      (.of_push h.every (Node.every_element_iff.2 ⟨hcovers, Node.everyIn_nil⟩) rfl)
  | close content name =>
    have hsuffix : rest <:+ '<' :: content ++ '>' :: rest :=
      (List.suffix_cons '>' rest).trans (List.suffix_append _ _)
    rw [step] at hstep
    split at hstep
    · next n frames hclose =>
      obtain rfl := Progress.reading.inj hstep
      exact h.of_follows hsuffix (.of_close h.every hclose)
    · -- An end tag that closes nothing is left out, unless it is that of the root.
      split at hstep
      · cases hstep
      · obtain rfl := Progress.reading.inj hstep
        exact h.skip
  | verbatim content _ hverbatim =>
    have hsuffix : rest <:+ '<' :: content ++ '>' :: rest :=
      (List.suffix_cons '>' rest).trans (List.suffix_append _ _)
    have hraw (source : Text) : (b.push (.raw source)).Tracks tables marks rest :=
      h.of_follows hsuffix (.of_push h.every (Node.every_raw_iff.2 trivial) rfl)
    cases e with
    | cdata _ | comment _ | doctype _ | instruction _ =>
      obtain rfl := Progress.reading.inj hstep
      exact hraw _
    | start _ _ | empty _ _ | close _ | text _ | reference _ => cases hverbatim

/-- The texts and attributes of the tree of a prepared text. -/
theorem everyIn_parse? (hmarks : marks ⊆ Family.marks) (htraces : tables.Traces t)
    (hseam : Text.Seamless marks openChars closeChars t) {root : Element}
    (hroot : parse? t = some root) :
    Node.EveryIn (tables.Legible marks [':'] [':']) (fun _ => True)
      (fun tag => tables.Covers tag.attributes) root.children := by
  have hread := readOn_of_parse? hroot
  -- The reader sees the end tag of the root behind the text.
  have hname : 'W' ∉ rootName ∧ ∀ c ∈ rootName, c ∉ closeChars :=
    ⟨by decide, Text.not_mem_of_all (by decide)⟩
  have htraces' := htraces.append_tag hname.1
  have hseam' := hseam.append_tag hmarks hname.2
  have hstart : Builder.empty.Tracks tables marks (t ++ ('<' :: '/' :: rootName ++ ['>'])) := by
    exact ⟨⟨fun f hf => (by cases hf), Node.everyIn_nil⟩, htraces'.token,
      ⟨hseam', fun _ => htraces'.opening⟩, fun u hu => (by cases hu)⟩
  refine readOn_induction (fun b t => b.Tracks tables marks t) ?_ (fun b t hb => hb.every.finish)
    hstart ?_
  · intro b t e rest b' hb htake hstep
    exact tracks_step hmarks hb (Event.reads_of_take? htake) hstep
  · have hend : t ++ "</".toList ++ rootName ++ ['>'] = t ++ ('<' :: '/' :: rootName ++ ['>']) := by
      simp
    rw [hend] at hread
    exact hread

end Document

end TemploTwig
