import TemploTwig.Proofs.Placeholders.Replacements
import TemploTwig.Proofs.Template.Syntax

/-!
# What the passes leave

Whatever the template, each pass writes what it was given with replacements only.  So in the text
that all passes leave, the mark of a token stands only where a token with an entry does, and parts
that are left out bring a mark together only where they did so in the template.
-/

namespace TemploTwig

variable {span t rest source : Text} {x : Prepare Text} {marks : List Text}

theorem Span.eq_ofBody_of_stripBoth? {body : Text}
    (h : Text.stripBoth? Span.delimiter span = some body) : span = Span.ofBody body := by
  simp only [Text.stripBoth?, Option.bind_eq_some_iff, Text.stripStart?_eq_some_iff,
    Text.stripEnd?_eq_some_iff] at h
  obtain ⟨rest, rfl, rfl⟩ := h
  rw [Span.ofBody, List.append_assoc]

/-! ## The constructs of a template -/

/-- A directive is a span that is read back. -/
theorem Inline.exists_isBody_of_take? (h : Inline.take? t = some (.directive span, rest)) :
    ∃ body, Span.IsBody body ∧ span = Span.ofBody body := by
  unfold Inline.take? at h
  split at h
  · next found hspan =>
    simp only [Option.some.injEq, Prod.mk.injEq, Inline.directive.injEq] at h
    obtain ⟨rfl, rfl⟩ := h
    exact Span.exists_isBody_of_take? hspan
  · simp only [Option.map_eq_some_iff, Prod.exists, Prod.mk.injEq] at h
    obtain ⟨c, r, -, hc, -⟩ := h
    cases hc

/-- A directive span has its delimiters. -/
theorem Inline.exists_ofBody_of_take? (h : Inline.take? t = some (.directive span, rest)) :
    ∃ body, span = Span.ofBody body := by
  obtain ⟨body, -, hspan⟩ := exists_isBody_of_take? h
  exact ⟨body, hspan⟩

/-- Every construct between the runs of a start tag was taken from somewhere. -/
theorem StartTag.exists_take?_of_close? {pieces : List (Piece Inline)}
    (h : StartTag.close? t = some (pieces, rest)) {i : Inline} (hmem : .token i ∈ pieces) :
    ∃ u after, Inline.take? u = some (i, after) := by
  fun_induction StartTag.close? t generalizing pieces rest with
  | case1 => cases h
  | case2 cs =>
    simp only [Option.some.injEq, Prod.mk.injEq] at h
    rw [← h.1] at hmem
    cases List.mem_singleton.1 hmem
  | case3 => cases h
  | case4 c cs _ _ _ value r hcut ih =>
    simp only [Option.map_eq_some_iff, Prod.exists, Prod.mk.injEq] at h
    obtain ⟨ps, after, hclose, rfl, rfl⟩ := h
    exact ih hclose (Piece.token_mem_prepend.1 hmem)
  | case5 => cases h
  -- Only an inline construct becomes a token of the tag.
  | case6 c cs _ _ _ inline r htake ih =>
    simp only [Option.map_eq_some_iff, Prod.exists, Prod.mk.injEq] at h
    obtain ⟨ps, after, hclose, rfl, rfl⟩ := h
    rcases List.mem_cons.1 hmem with heq | hmem
    · obtain rfl := Piece.token.inj heq
      exact ⟨_, _, htake⟩
    · exact ih hclose hmem
  | case7 c cs _ _ _ _ ih =>
    simp only [Option.map_eq_some_iff, Prod.exists, Prod.mk.injEq] at h
    obtain ⟨ps, after, hclose, rfl, rfl⟩ := h
    exact ih hclose (Piece.token_mem_prepend.1 hmem)

/-- `StartTag.take?` holds directives as spans of bodies. -/
theorem StartTag.exists_ofBody_of_take? {tag : StartTag} (h : StartTag.take? t = some (tag, rest))
    (hmem : .token (.directive span) ∈ tag.pieces) : ∃ body, span = Span.ofBody body := by
  unfold StartTag.take? at h
  split at h
  · split at h
    · simp only [Option.map_eq_some_iff, Prod.exists, Prod.mk.injEq] at h
      obtain ⟨ps, after, hps, rfl, rfl⟩ := h
      obtain ⟨u, after', htake⟩ :=
        StartTag.exists_take?_of_close? hps (Piece.token_mem_prepend.1 hmem)
      exact Inline.exists_ofBody_of_take? htake
    · cases h
  · cases h

/-- Every construct of a template was taken from somewhere. -/
theorem exists_take?_of_mem_segments {token : Token} (h : .token token ∈ segments source) :
    ∃ t rest, Token.take? t = some (token, rest) := by
  have hsettled := Token.recogniser.settled_scan Token.source
    (fun h => (Token.take?_spells h).1) source
  obtain ⟨rest, hrest⟩ := hsettled.exists_next?_of_mem h
  exact ⟨_, rest, hrest⟩

theorem renderAll_segments (source : Text) :
    Piece.renderAll Token.source (segments source) = source :=
  Token.recogniser.renderAll_scan Token.source (fun h => (Token.take?_spells h).1) source

theorem source_infix_of_mem_segments {token : Token} (h : .token token ∈ segments source) :
    token.source <:+: source := by
  have hwithin := Piece.render_infix_renderAll (f := Token.source) h
  rwa [renderAll_segments] at hwithin

namespace Token

/-- `takeMarkup?` takes markup or a start tag. -/
theorem takeMarkup?_cases {t rest : Text} {token : Token}
    (h : takeMarkup? t = some (token, rest)) :
    (∃ m, token = .markup m) ∨ ∃ tag, token = .startTag tag ∧ StartTag.take? t = some (tag, rest) := by
  have hclose (h : takeToClose? t = some (token, rest)) : ∃ m, token = .markup m := by
    simp only [takeToClose?, Option.map_eq_some_iff, Prod.exists, Prod.mk.injEq] at h
    obtain ⟨before, r, -, rfl, -⟩ := h
    exact ⟨_, rfl⟩
  unfold takeMarkup? at h
  split at h
  · next body _ =>
    obtain rfl : (takeComment body).1 = token := by rw [Option.some.inj h]
    refine .inl ?_
    unfold takeComment
    split
    · exact ⟨_, rfl⟩
    · exact ⟨_, rfl⟩
  · split at h
    · split at h
      · exact .inl (hclose h)
      · cases h
    · exact .inl (hclose h)
    · exact .inl (hclose h)
    · simp only [Option.map_eq_some_iff, Prod.exists, Prod.mk.injEq] at h
      obtain ⟨tag, r, htag, rfl, rfl⟩ := h
      exact .inr ⟨tag, rfl, htag⟩

/-- A construct is markup, a start tag or an inline construct. -/
theorem take?_cases {token : Token} (h : take? t = some (token, rest)) :
    (∃ m, token = .markup m ∧ takeMarkup? t = some (.markup m, rest)) ∨
      (∃ tag, token = .startTag tag ∧ StartTag.take? t = some (tag, rest)) ∨
      ∃ i, token = .inline i ∧ Inline.take? t = some (i, rest) := by
  unfold take? at h
  split at h
  · next found hfound =>
    obtain rfl := Option.some.inj h
    rcases takeMarkup?_cases hfound with ⟨m, rfl⟩ | htag
    · exact .inl ⟨m, rfl, hfound⟩
    · exact .inr (.inl htag)
  · simp only [Option.map_eq_some_iff, Prod.exists, Prod.mk.injEq] at h
    obtain ⟨i, r, hi, rfl, rfl⟩ := h
    exact .inr (.inr ⟨i, rfl, hi⟩)

/-- The directives in a start tag have their delimiters. -/
theorem exists_ofBody_of_mem_pieces {tag : StartTag} (h : .token (.startTag tag) ∈ segments source)
    (hmem : .token (.directive span) ∈ tag.pieces) : ∃ body, span = Span.ofBody body := by
  obtain ⟨t, rest, htake⟩ := exists_take?_of_mem_segments h
  rcases take?_cases htake with ⟨m, hm, -⟩ | ⟨tag', htag, htake'⟩ | ⟨i, hi, -⟩
  · cases hm
  · obtain rfl := startTag.inj htag
    exact StartTag.exists_ofBody_of_take? htake' hmem
  · cases hi

/-- The directives in running text have their delimiters. -/
theorem exists_ofBody_of_mem_segments (h : .token (.inline (.directive span)) ∈ segments source) :
    ∃ body, span = Span.ofBody body := by
  obtain ⟨t, rest, htake⟩ := exists_take?_of_mem_segments h
  rcases take?_cases htake with ⟨m, hm, -⟩ | ⟨tag, htag, -⟩ | ⟨i, hi, htake'⟩
  · cases hm
  · cases htag
  · obtain rfl := inline.inj hi
    exact Inline.exists_ofBody_of_take? htake'

end Token

/-- The text begins like a print tag. -/
def Twig.OpensPrint (t : Text) : Prop := "\x7b\x7b".toList <+: t

theorem Twig.OpensPrint.head? (h : OpensPrint t) : t.head? = some '\x7b' := by
  obtain ⟨rest, rfl⟩ := h
  rfl

/-! ## Writing with replacements -/

namespace Prepare

variable {inv : Context → Prop} {s t : Text}

/-- The step writes `t` with replacements that the tables in the end have entries for.  It loses no
    entry, it records no more calls than `t` has characters, and `inv` holds as before. -/
structure WritesAt (inv : Context → Prop) (t : Text) (x : Prepare Text) (ctx : Context) : Prop where
  holds : inv (x.run ctx).2
  extend : ctx.tables.Extends (x.run ctx).2.tables
  substitutes : Substitutes (x.run ctx).2.tables.Replaces t (x.run ctx).1
  count : (x.run ctx).2.tables.macroCalls.length ≤ ctx.tables.macroCalls.length + t.length

/-- The step writes `t` with replacements wherever `inv` holds. -/
def Writes (inv : Context → Prop) (t : Text) (x : Prepare Text) : Prop :=
  ∀ ctx, inv ctx → WritesAt inv t x ctx

theorem extends_refl (tables : Tables) : tables.Extends tables := fun _ => List.prefix_refl _

theorem writes_of_substitutes {u : Text} (h : ∀ tables : Tables, Substitutes tables.Replaces t u) :
    Writes inv t (pure u) :=
  fun _ hctx => ⟨hctx, extends_refl _, h _, Nat.le_add_right _ _⟩

theorem writes_pure (t : Text) : Writes inv t (pure t) :=
  writes_of_substitutes fun _ => .refl t

/-- `Writes` goes on over two parts. -/
theorem Writes.append {y : Prepare Text} (hx : Writes inv s x) (hy : Writes inv t y) :
    Writes inv (s ++ t) (do
      let front ← x
      let back ← y
      return front ++ back) := by
  intro ctx hctx
  have hfirst := hx ctx hctx
  have hsecond := hy (x.run ctx).2 hfirst.holds
  refine ⟨hsecond.holds, fun f => (hfirst.extend f).trans (hsecond.extend f), ?_, ?_⟩
  · exact (hfirst.substitutes.mono fun _ _ h => h.mono hsecond.extend).append hsecond.substitutes
  · have hcount := hfirst.count
    have hcount' := hsecond.count
    rw [List.length_append]
    show (y.run (x.run ctx).2).2.tables.macroCalls.length ≤ _
    omega

/-- Rendering pieces writes their text. -/
theorem writes_render {α : Type} {source : α → Text} {plain : Text → Text} {token : α → Prepare Text}
    {ps : List (Piece α)}
    (hplain : ∀ t (tables : Tables), Substitutes tables.Replaces t (plain t))
    (htoken : ∀ a, .token a ∈ ps → Writes inv (source a) (token a)) :
    Writes inv (Piece.renderAll source ps) (render plain token ps) := by
  induction ps with
  | nil => exact writes_pure []
  | cons p ps ih =>
    have hrest := ih fun a ha => htoken a (List.mem_cons_of_mem p ha)
    rw [Piece.renderAll_cons]
    cases p with
    | plain t =>
      have hfront : Writes inv t (pure (plain t)) := writes_of_substitutes (hplain t)
      rw [render_plain_cons, map_eq_pure_bind, Piece.render]
      simpa only [pure_bind] using hfront.append hrest
    | token a =>
      rw [render_token_cons]
      exact (htoken a List.mem_cons_self).append hrest

/-- Recording a construct writes its placeholder in place of it. -/
theorem writes_record {family : Family} {entry : Context → Text} {old : Text}
    {placeholder : Nat → Text}
    (hinv : ∀ ctx, inv ctx → inv (ctx.record family (entry ctx)).2)
    (hreplaces : ∀ (tables : Tables) (i : Nat), i < (tables.entries family).length →
      tables.Replaces old (placeholder i)) :
    Writes inv old (do record family (entry (← get)) placeholder) := by
  intro ctx hctx
  have hlength : ((ctx.tables.record family (entry ctx)).entries family).length =
      (ctx.tables.entries family).length + 1 := by
    rw [Tables.entries_record_self, List.length_append, List.length_singleton]
  have hnew : (ctx.tables.record family (entry ctx)).Replaces old
      (placeholder (ctx.tables.entries family).length) := hreplaces _ _ (by omega)
  refine ⟨hinv ctx hctx, fun f => ctx.tables.entries_prefix_record family f (entry ctx),
    .single hnew, ?_⟩
  obtain ⟨c, cs, rfl, -⟩ := hnew.head_old
  show ((ctx.tables.record family (entry ctx)).entries .macroCall).length ≤
    (ctx.tables.entries .macroCall).length + (c :: cs).length
  -- At most one call is recorded for a text that is not empty.
  by_cases hfamily : family = .macroCall
  · subst hfamily
    rw [hlength, List.length_cons]
    omega
  · rw [Tables.entries_record_of_ne (Ne.symm hfamily)]
    omega

theorem writes_mapTag {inline : Inline → Prepare Text} {tag : StartTag}
    (h : ∀ i, .token i ∈ tag.pieces → Writes inv i.source (inline i)) :
    Writes inv tag.source (mapTag inline tag) :=
  writes_render (fun t _ => .refl t) h

/-! ## The passes -/

/-- The first pass writes placeholders for calls. -/
theorem writes_substituteCalls
    (hinv : ∀ call : MacroCall, call.source <:+: source →
      ∀ ctx, inv ctx → inv (ctx.record .macroCall (ctx.renderCall call)).2) :
    Writes inv source (substituteCalls source) := by
  have hwrites : Writes inv (Piece.renderAll Token.source (segments source))
      (substituteCalls source) := by
    refine writes_render (fun t _ => .refl t) ?_
    intro token htoken
    have hsource := source_infix_of_mem_segments htoken
    match token with
    | .inline (.directive span) => exact writes_pure span
    | .markup m => exact writes_pure m
    | .inline (.call call) =>
      exact writes_record (hinv call hsource) fun tables i hi => .inline call hi
    -- In a start tag only calls are replaced, too.
    | .startTag tag =>
      refine writes_mapTag fun i hi => ?_
      match i with
      | .directive span => exact writes_pure span
      | .call call =>
        have hcall : call.source <:+: tag.source :=
          Piece.render_infix_renderAll (f := Inline.source) hi
        exact writes_record (hinv call (hcall.trans hsource)) fun tables i hi => .heldCall call hi
  rwa [renderAll_segments] at hwrites

/-- A pass over the directives of start tags writes holders for those that it picks. -/
theorem writes_mapTags_holding {select : Text → Option (Family × Text)} (source : Text)
    (hselect : ∀ span family entry, select span = some (family, entry) →
      (∃ body, span = Span.ofBody body) ∧ ∀ ctx, inv ctx → inv (ctx.record family entry).2) :
    Writes inv source (mapTags (holding select) source) := by
  have hwrites : Writes inv (Piece.renderAll Token.source (segments source))
      (mapTags (holding select) source) := by
    refine writes_render (fun t _ => .refl t) ?_
    intro token _
    match token with
    | .inline i => exact writes_pure i.source
    | .markup m => exact writes_pure m
    | .startTag tag =>
      refine writes_mapTag fun i _ => ?_
      match i with
      | .call call => exact writes_pure call.source
      | .directive span =>
        show Writes inv span (holding select (.directive span))
        rw [holding]
        cases hpick : select span with
        | none => exact writes_pure span
        | some found =>
          obtain ⟨family, entry⟩ := found
          obtain ⟨⟨body, rfl⟩, hrecord⟩ := hselect span family entry hpick
          exact writes_record hrecord fun tables i hi => .held body family hi
  rwa [renderAll_segments] at hwrites

/-- `protectText` replaces characters by their tokens. -/
theorem substitutes_protectText (t : Text) (tables : Tables) :
    Substitutes tables.Replaces t (Literal.protectText t) := by
  have hampersand : tables.Replaces ['&'] [Literal.ampersand] := .hide (by simp) (by simp)
  have hlessThan : tables.Replaces ['<'] [Literal.lessThan] := .hide (by simp) (by simp)
  induction t with
  | nil => exact .nil
  | cons c t ih =>
    rw [Literal.protectText]
    split
    · next hc =>
      subst hc
      split
      · exact .keep '&' ih
      · exact .swap hampersand ih
    · split
      · next hc =>
        subst hc
        exact .swap hlessThan ih
      · exact .keep c ih

/-- `protectChar` keeps a character or replaces it. -/
theorem replaces_protectChar (tables : Tables) (c : Char) :
    Literal.protectChar c = c ∨ tables.Replaces [c] [Literal.protectChar c] := by
  unfold Literal.protectChar
  split
  · next hc => exact .inr (.hide (by simp [hc]) (by simp))
  · split
    · next hc => exact .inr (.hide (by simp [hc]) (by simp))
    · exact .inl rfl

/-- A span between attributes is printed: braces for its delimiters, its body with the markup
    characters hidden. -/
theorem substitutes_protectPrint (body : Text) (tables : Tables) :
    Substitutes tables.Replaces (Span.ofBody body)
      (Literal.protectPrint (Twig.print (Span.body (Span.ofBody body)))) := by
  have hbody : Substitutes tables.Replaces body (Literal.protectPrint body) := by
    refine .map ?_ body
    intro c
    split
    · next hc => exact .inr (.hide (by simp [hc]) (by simp))
    · exact replaces_protectChar tables c
  have hopen : Substitutes tables.Replaces Span.delimiter "\x7b\x7b".toList :=
    .single (.braces (by simp))
  have hclose : Substitutes tables.Replaces Span.delimiter "\x7d\x7d".toList :=
    .single (.braces (by simp))
  have hprint : Literal.protectPrint (Twig.print body) =
      "\x7b\x7b".toList ++ Literal.protectPrint body ++ "\x7d\x7d".toList := by
    rw [Twig.print, Literal.protectPrint, List.map_append, List.map_append]
    rfl
  rw [Span.body_ofBody, hprint]
  exact (hopen.append hbody).append hclose

/-- The last pass hides markup characters and prints what is left between attributes. -/
theorem writes_protectLiterals (source : Text) (hwarn : ∀ ctx w, inv ctx → inv (ctx.warn w)) :
    Writes inv source (protectLiterals source) := by
  have hwrites : Writes inv (Piece.renderAll Token.source (segments source))
      (protectLiterals source) := by
    refine writes_render substitutes_protectText ?_
    intro token htoken
    match token with
    | .inline (.call call) => exact writes_pure call.source
    | .markup m => exact writes_pure m
    | .inline (.directive span) =>
      exact writes_of_substitutes fun tables => .map (replaces_protectChar tables) span
    | .startTag tag =>
      refine writes_mapTag fun i hi => ?_
      match i with
      | .call call => exact writes_pure call.source
      | .directive span =>
        obtain ⟨body, rfl⟩ := Token.exists_ofBody_of_mem_pieces htoken hi
        intro ctx hctx
        exact ⟨hwarn ctx _ hctx, extends_refl _, substitutes_protectPrint body _,
          Nat.le_add_right _ _⟩
  rwa [renderAll_segments] at hwrites

/-! ## The wrapper of inherited content -/

end Prepare

namespace Inheritance

theorem exists_of_directive? {s : Segment} {d : Directive} (h : directive? s = some d) :
    ∃ span, Directive.classify span = d ∧ s = .token (.inline (.directive span)) := by
  unfold directive? at h
  split at h
  · next span => exact ⟨span, Option.some.inj h, rfl⟩
  · cases h

/-- `Inheritance.first?` cuts the segments at the directive that names the parent. -/
theorem exists_of_first? {ss before after : List Segment} {parent : Text}
    (h : first? ss = some (before, parent, after)) :
    ∃ span, Directive.classify span = .inherit parent ∧
      ss = before ++ .token (.inline (.directive span)) :: after := by
  induction ss generalizing before with
  | nil => cases h
  | cons s ss ih =>
    rw [first?] at h
    split at h
    · next hdirective =>
      simp only [Option.some.injEq, Prod.mk.injEq] at h
      obtain ⟨rfl, rfl, rfl⟩ := h
      obtain ⟨span, hspan, rfl⟩ := exists_of_directive? hdirective
      exact ⟨span, hspan, rfl⟩
    · simp only [Option.map_eq_some_iff, Prod.exists, Prod.mk.injEq] at h
      obtain ⟨front, p, back, hrest, rfl, rfl, rfl⟩ := h
      obtain ⟨span, hspan, hss⟩ := ih hrest
      exact ⟨span, hspan, by rw [hss]; rfl⟩

/-- `Inheritance.lastEnd?` cuts the segments at an end. -/
theorem exists_of_lastEnd? {ss content after : List Segment}
    (h : lastEnd? ss = some (content, after)) :
    ∃ span, Directive.classify span = .endBlock ∧
      ss = content ++ .token (.inline (.directive span)) :: after := by
  induction ss generalizing content with
  | nil => cases h
  | cons s ss ih =>
    rw [lastEnd?] at h
    split at h
    · -- There is a later end, so this segment belongs to the content.
      next front back hrest =>
      simp only [Option.some.injEq, Prod.mk.injEq] at h
      obtain ⟨rfl, rfl⟩ := h
      obtain ⟨span, hspan, hss⟩ := ih hrest
      exact ⟨span, hspan, by rw [hss]; rfl⟩
    · split at h
      · next hdirective =>
        simp only [Option.some.injEq, Prod.mk.injEq] at h
        obtain ⟨rfl, rfl⟩ := h
        obtain ⟨span, hspan, rfl⟩ := exists_of_directive? hdirective
        exact ⟨span, hspan, rfl⟩
      · cases h

end Inheritance

/-! ## All passes -/

/-- Every mark of a token in the text is one that the tables have an entry for. -/
structure Tables.Traces (tables : Tables) (t : Text) : Prop where
  token : Text.Traced Attribute.tokenMark tables.Word t
  opening : Text.Traced MacroToken.opening tables.Inlined t

theorem isRest_avoids (hmarks : marks ⊆ Family.marks) (tables : Tables) {s : Text}
    (hs : Text.IsRest marks s) : Substitutes.Avoids tables.Replaces s := by
  obtain ⟨-, m, hm, hsuffix⟩ := hs
  exact (Tables.Replaces.avoids tables (hmarks hm)).of_suffix hsuffix

namespace Tables.Traces

variable {tables tables' : Tables} {t u : Text}

/-- Replacements keep a text traced. -/
theorem substitutes (h : tables.Traces t) (hextends : tables.Extends tables')
    (hsub : Substitutes tables'.Replaces t u) : tables'.Traces u := by
  -- No replaced part begins inside a word, and no new one ends inside a mark.
  have hold {words : Text → Prop} (hwords : ∀ w, words w → ∀ c ∈ w, isTokenChar c = true)
      (old new : Text) (hnew : tables'.Replaces old new) :
      ∃ c cs, old = c :: cs ∧ ∀ w, words w → c ∉ w := by
    obtain ⟨c, cs, heq, hc⟩ := hnew.head_old
    refine ⟨c, cs, heq, fun w hw hmem => ?_⟩
    rw [hwords w hw c hmem] at hc
    cases hc
  have hlast {mark : Text} (hmark : mark ∈ Family.marks) (old new : Text)
      (hnew : tables'.Replaces old new) : ∃ cs c, new = cs ++ [c] ∧ c ∉ mark := by
    obtain ⟨cs, c, heq, hbars⟩ := hnew.last_new
    exact ⟨cs, c, heq, hbars mark hmark⟩
  have htoken : Attribute.tokenMark ∈ Family.marks := by simp [Family.marks]
  have hopening : MacroToken.opening ∈ Family.marks := by simp [Family.marks]
  constructor
  · exact (h.token.mono fun _ hw => hw.mono hextends).substitutes hsub (by decide)
      (Replaces.avoids tables' htoken) (hold fun _ hw _ => hw.isTokenChar_of_mem)
      (fun _ _ hnew => hnew.traced_token) (hlast htoken)
  · exact (h.opening.mono fun _ hw => hw.mono hextends).substitutes hsub (by decide)
      (Replaces.avoids tables' hopening) (hold fun _ hw _ => hw.isTokenChar_of_mem)
      (fun _ _ hnew => hnew.traced_opening) (hlast hopening)

/-- A text without the mark of a token is traced. -/
theorem of_not_occurs (h : ¬Attribute.tokenMark <:+: t) : tables.Traces t := by
  refine ⟨Text.traced_of_not_occurs h, Text.traced_of_not_occurs fun hopening => h ?_⟩
  have hmark : Attribute.tokenMark <:+: MacroToken.opening :=
    ⟨['[', '['], "MACRO_".toList, rfl⟩
  exact hmark.trans hopening

/-- An end tag without a mark may follow. -/
theorem append_tag (h : tables.Traces t) {name : Text} (hname : 'W' ∉ name) :
    tables.Traces (t ++ ('<' :: '/' :: name ++ ['>'])) := by
  have hmem : 'W' ∉ '<' :: '/' :: name ++ ['>'] := by simp [hname]
  have hborder {mark : Text} (hmark : '<' ∉ mark) :
      ¬Text.Across [mark] t ('<' :: '/' :: name ++ ['>']) := by
    refine (Text.firm_cons (c := '<') ?_ _).not_across t
    intro m hm
    rwa [List.mem_singleton.1 hm]
  have htraced {mark : Text} {words : Text → Prop} (hmark : 'W' ∈ mark) :
      Text.Traced mark words ('<' :: '/' :: name ++ ['>']) :=
    Text.traced_of_not_occurs fun hoccurs => hmem (hoccurs.mem hmark)
  exact ⟨h.token.append (htraced (by decide)) (hborder (by decide)),
    h.opening.append (htraced (by decide)) (hborder (by decide))⟩

end Tables.Traces

theorem Text.Seamless.substitutes_replaces (hmarks : marks ⊆ Family.marks) {tables : Tables}
    {u : Text} (ht : Text.Seamless marks openChars closeChars t)
    (h : Substitutes tables.Replaces t u) : Text.Seamless marks openChars closeChars u := by
  refine ht.substitutes h (fun _ _ hnew => hnew.framed)
    (fun s hs => isRest_avoids hmarks tables hs) fun old new hnew => ?_
  obtain ⟨cs, c, heq, hbars⟩ := hnew.last_new
  exact ⟨cs, c, heq, fun m hm => hbars m (hmarks hm)⟩

/-- `Seamless` goes on over a closing tag. -/
theorem Text.Seamless.append_tag (hmarks : marks ⊆ Family.marks) {name : Text}
    (ht : Text.Seamless marks openChars closeChars t) (hname : ∀ c ∈ name, c ∉ closeChars) :
    Text.Seamless marks openChars closeChars (t ++ ('<' :: '/' :: name ++ ['>'])) := by
  have hbars : Text.Bars Family.marks '<' := by unfold Text.Bars; decide
  refine ht.append (Text.firm_cons (c := '<') (fun m hm => hbars m (hmarks hm)) _) ?_
  intro c hc
  rw [List.dropLast_concat] at hc
  simp only [List.mem_cons] at hc
  rcases hc with rfl | rfl | hc
  · decide
  · decide
  · exact hname c hc

namespace Prepare

variable {inv : Context → Prop} {t : Text}

/-- The step keeps a text traced and seamless, and `inv` holds as before. -/
structure CarriesAt (inv : Context → Prop) (t : Text) (x : Prepare Text) (ctx : Context) : Prop where
  holds : inv (x.run ctx).2
  extend : ctx.tables.Extends (x.run ctx).2.tables
  traces : ctx.tables.Traces t → (x.run ctx).2.tables.Traces (x.run ctx).1
  seamless : ∀ marks, marks ⊆ Family.marks → Text.Seamless marks openChars closeChars t →
    Text.Seamless marks openChars closeChars (x.run ctx).1

/-- The step keeps a text traced and seamless wherever `inv` holds. -/
def Carries (inv : Context → Prop) (t : Text) (x : Prepare Text) : Prop :=
  ∀ ctx, inv ctx → CarriesAt inv t x ctx

theorem Writes.carries (h : Writes inv t x) : Carries inv t x := by
  intro ctx hctx
  have hwrites := h ctx hctx
  exact ⟨hwrites.holds, hwrites.extend, fun ht => ht.substitutes hwrites.extend hwrites.substitutes,
    fun marks hmarks ht => ht.substitutes_replaces hmarks hwrites.substitutes⟩

/-- `Carries` goes through a bind. -/
theorem Carries.bind {f : Text → Prepare Text} (hx : Carries inv t x)
    (hf : ∀ u, Carries inv u (f u)) : Carries inv t (x >>= f) := by
  intro ctx hctx
  have hfirst := hx ctx hctx
  have hsecond := hf (x.run ctx).1 (x.run ctx).2 hfirst.holds
  exact ⟨hsecond.holds, fun g => (hfirst.extend g).trans (hsecond.extend g),
    fun ht => hsecond.traces (hfirst.traces ht),
    fun marks hmarks ht => hsecond.seamless marks hmarks (hfirst.seamless marks hmarks ht)⟩

/-- Putting what the parent gets into an element replaces two directives by tags. -/
theorem carries_substituteInheritance (source : Text)
    (hparent : ∀ ctx parent, inv ctx → inv { ctx with parent := some parent })
    (hwarn : ∀ ctx w, inv ctx → inv (ctx.warn w)) :
    Carries inv source (substituteInheritance source) := by
  unfold substituteInheritance
  split
  · exact (writes_pure source).carries
  · next before parent after hfirst =>
    obtain ⟨span, -, hsegments⟩ := Inheritance.exists_of_first? hfirst
    have hsource : source = Piece.renderAll Token.source before ++ (span ++
        Piece.renderAll Token.source after) := by
      rw [← renderAll_segments source, hsegments, Piece.renderAll_append, Piece.renderAll_cons]
      rfl
    have hmem : .token (.inline (.directive span)) ∈ segments source := by simp [hsegments]
    obtain ⟨body, hbody⟩ := Token.exists_ofBody_of_mem_segments hmem
    have hopen (tables : Tables) : tables.Replaces span Inheritance.openTag := by
      rw [hbody]
      exact .wrapper body (by simp)
    intro ctx hctx
    dsimp only
    cases hlast : Inheritance.lastEnd? after with
    | none =>
      -- Without an end the wrapper ends where the template does.
      have hname : 'W' ∉ Inheritance.wrapperName ∧
          ∀ c ∈ Inheritance.wrapperName, c ∉ closeChars :=
        ⟨by decide, Text.not_mem_of_all (by decide)⟩
      have hsub : Substitutes ctx.tables.Replaces source (Piece.renderAll Token.source before ++
          Inheritance.openTag ++ Piece.renderAll Token.source after) := by
        rw [hsource, ← List.append_assoc]
        exact ((Substitutes.refl _).append (.single (hopen _))).append (.refl _)
      exact ⟨hwarn _ _ (hparent ctx _ hctx), extends_refl _,
        fun ht => (ht.substitutes (extends_refl _) hsub).append_tag hname.1,
        fun marks hmarks ht => (ht.substitutes_replaces hmarks hsub).append_tag hmarks hname.2⟩
    | some found =>
      obtain ⟨content, rest⟩ := found
      obtain ⟨closing, -, hafter⟩ := Inheritance.exists_of_lastEnd? hlast
      have hmem' : .token (.inline (.directive closing)) ∈ segments source := by
        simp [hsegments, hafter]
      obtain ⟨body', hbody'⟩ := Token.exists_ofBody_of_mem_segments hmem'
      have hclose (tables : Tables) : tables.Replaces closing Inheritance.closeTag := by
        rw [hbody']
        exact .wrapper body' (by simp)
      have hsub : Substitutes ctx.tables.Replaces source (Piece.renderAll Token.source before ++
          Inheritance.openTag ++ Piece.renderAll Token.source content ++ Inheritance.closeTag ++
          Piece.renderAll Token.source rest) := by
        have hrest : Piece.renderAll Token.source after = Piece.renderAll Token.source content ++
            closing ++ Piece.renderAll Token.source rest := by
          rw [hafter, Piece.renderAll_append, Piece.renderAll_cons, List.append_assoc]
          rfl
        rw [hsource, hrest]
        simp only [← List.append_assoc]
        exact ((((Substitutes.refl _).append (.single (hopen _))).append (.refl _)).append
          (.single (hclose _))).append (.refl _)
      exact ⟨hparent ctx _ hctx, extends_refl _,
        fun ht => ht.substitutes (extends_refl _) hsub,
        fun marks hmarks ht => ht.substitutes_replaces hmarks hsub⟩

theorem opensPrint_printSpaced (expression : Text) :
    Twig.OpensPrint (Twig.printSpaced expression) := ⟨_, (List.append_assoc _ _ _).symm⟩

/-- The values of attribute directives are printed. -/
theorem opensPrint_of_pickValue {entry : Text} {family : Family}
    (h : AttributeDirective.pickValue span = some (family, entry)) :
    family ≠ .macroCall ∧ Twig.OpensPrint entry := by
  simp only [AttributeDirective.pickValue, Option.bind_eq_some_iff, Option.map_eq_some_iff,
    Prod.mk.injEq] at h
  obtain ⟨d, -, f, hf, value, hvalue, rfl, rfl⟩ := h
  cases d with
  | cond c => cases hf
  | className c v | checked c | selected c =>
    rw [← Option.some.inj hf, ← Option.some.inj hvalue]
    exact ⟨by decide, opensPrint_printSpaced _⟩

theorem exists_ofBody_of_classify? {d : AttributeDirective}
    (h : AttributeDirective.classify? span = some d) : ∃ body, span = Span.ofBody body := by
  simp only [AttributeDirective.classify?, Option.bind_eq_some_iff] at h
  obtain ⟨body, hstrip, -⟩ := h
  exact ⟨body, Span.eq_ofBody_of_stripBoth? hstrip⟩

/-- The second pass writes holders for conditions. -/
theorem writes_substituteConditions (t : Text)
    (hcondition : ∀ ctx entry, inv ctx → inv (ctx.record .condition entry).2) :
    Writes inv t (substituteConditions t) := by
  rw [substituteConditions_eq]
  refine writes_mapTags_holding t fun span family entry hpick => ?_
  unfold AttributeDirective.pickCondition at hpick
  split at hpick
  · next condition hclassify =>
    obtain ⟨rfl, rfl⟩ := Prod.mk.inj (Option.some.inj hpick)
    exact ⟨exists_ofBody_of_classify? hclassify, fun ctx hctx => hcondition ctx _ hctx⟩
  · cases hpick

/-- The fourth pass writes holders for the values of attributes. -/
theorem writes_substituteAttributes (t : Text)
    (hvalue : ∀ ctx family entry, family ≠ .macroCall → Twig.OpensPrint entry → inv ctx →
      inv (ctx.record family entry).2) :
    Writes inv t (substituteAttributes t) := by
  rw [substituteAttributes_eq]
  refine writes_mapTags_holding t fun span family entry hpick => ?_
  obtain ⟨hfamily, hopens⟩ := opensPrint_of_pickValue hpick
  simp only [AttributeDirective.pickValue, Option.bind_eq_some_iff] at hpick
  obtain ⟨d, hclassify, -⟩ := hpick
  exact ⟨exists_ofBody_of_classify? hclassify, fun ctx hctx => hvalue ctx _ _ hfamily hopens hctx⟩

/-- The passes behind the first one keep a text traced and seamless. -/
theorem carries_behindCalls (t : Text)
    (hcondition : ∀ ctx entry, inv ctx → inv (ctx.record .condition entry).2)
    (hvalue : ∀ ctx family entry, family ≠ .macroCall → Twig.OpensPrint entry → inv ctx →
      inv (ctx.record family entry).2)
    (hparent : ∀ ctx parent, inv ctx → inv { ctx with parent := some parent })
    (hwarn : ∀ ctx w, inv ctx → inv (ctx.warn w)) :
    Carries inv t (do protectLiterals (← substituteAttributes (← substituteInheritance
      (← substituteConditions t)))) := by
  refine (writes_substituteConditions t hcondition).carries.bind fun t₂ => ?_
  refine (carries_substituteInheritance t₂ hparent hwarn).bind fun t₃ => ?_
  exact (writes_substituteAttributes t₃ hvalue).carries.bind fun t₄ =>
    (writes_protectLiterals t₄ hwarn).carries

/-- All passes together keep a template traced and seamless, and they record no more calls than it
    has characters. -/
theorem carries_prepare
    (hcall : ∀ call : MacroCall, call.source <:+: source →
      ∀ ctx, inv ctx → inv (ctx.record .macroCall (ctx.renderCall call)).2)
    (hcondition : ∀ ctx entry, inv ctx → inv (ctx.record .condition entry).2)
    (hvalue : ∀ ctx family entry, family ≠ .macroCall → Twig.OpensPrint entry → inv ctx →
      inv (ctx.record family entry).2)
    (hparent : ∀ ctx parent, inv ctx → inv { ctx with parent := some parent })
    (hwarn : ∀ ctx w, inv ctx → inv (ctx.warn w)) {ctx : Context} (hctx : inv ctx)
    (hnone : ctx.tables.macroCalls = []) :
    CarriesAt (fun ctx => inv ctx ∧ ctx.tables.macroCalls.length ≤ source.length) source
      (prepare source) ctx := by
  have hfirst := writes_substituteCalls hcall ctx hctx
  have hcount := hfirst.count
  rw [hnone, List.length_nil, Nat.zero_add] at hcount
  have hwrites : CarriesAt inv source (substituteCalls source) ctx :=
    (writes_substituteCalls hcall).carries ctx hctx
  -- The later passes record no call, so the count of the first one stands.
  have hbehind (t : Text) : Carries (fun ctx => inv ctx ∧
      ctx.tables.macroCalls.length ≤ source.length) t (do protectLiterals (← substituteAttributes
        (← substituteInheritance (← substituteConditions t)))) := by
    refine carries_behindCalls t (fun ctx entry h => ⟨hcondition ctx entry h.1, h.2⟩) ?_
      (fun ctx parent h => ⟨hparent ctx parent h.1, h.2⟩) (fun ctx w h => ⟨hwarn ctx w h.1, h.2⟩)
    intro ctx family entry hfamily hopens h
    refine ⟨hvalue ctx family entry hfamily hopens h.1, ?_⟩
    show ((ctx.tables.record family entry).entries .macroCall).length ≤ _
    rw [Tables.entries_record_of_ne (Ne.symm hfamily)]
    exact h.2
  have hrest := hbehind ((substituteCalls source).run ctx).1 ((substituteCalls source).run ctx).2
    ⟨hfirst.holds, hcount⟩
  exact ⟨hrest.holds, fun f => (hwrites.extend f).trans (hrest.extend f),
    fun ht => hrest.traces (hwrites.traces ht),
    fun marks hmarks ht => hrest.seamless marks hmarks (hwrites.seamless marks hmarks ht)⟩

end Prepare

end TemploTwig
