import TemploTwig.Conversion.Template
import TemploTwig.Proofs.Placeholders.Legible

/-!
# Putting the constructs back

The conversion puts recorded constructs back where their tokens stand: calls in running text, and
the constructs of a tag in its attributes.  Where every token has an entry nothing fails, and no
token is left.
-/

namespace TemploTwig

variable {digits source : Text} {marks : List Text} {a : Attribute} {f : Family} {i : Nat}
  {base : Context}

/-! ## Inline tokens -/

namespace MacroToken

theorem isAnyDigit_of_isDigit {c : Char} (h : c.isDigit = true) : isAnyDigit c = true := by
  have hlt : c.toNat < 0x80 := by
    simp only [Char.isDigit, Bool.and_eq_true, decide_eq_true_eq] at h
    have hle : c.toNat ≤ '9'.toNat := h.2
    have hnine : '9'.toNat = 57 := rfl
    omega
  rw [isAnyDigit, if_pos hlt, h]

/-- The token with the given digits, of any script. -/
def spell (digits : Text) : Text := opening ++ digits ++ closing

theorem ofIndex_eq_spell (i : Nat) : ofIndex i = spell (decimal i) := by
  have hopening : opening = "[[".toList ++ Family.macroCall.name ++ ['_'] := rfl
  rw [spell, hopening, ofIndex, Family.token]
  simp

/-- Digits in brackets are found where they stand, whatever follows. -/
theorem take?_spell_append (hne : digits ≠ []) (hdigits : ∀ c ∈ digits, isAnyDigit c = true)
    (rest : Text) : take? (spell digits ++ rest) = some (digits, rest) := by
  have hclosing : closing ++ rest = ']' :: ']' :: rest := rfl
  have htake : (digits ++ (closing ++ rest)).takeWhile isAnyDigit = digits := by
    rw [List.takeWhile_append_of_pos hdigits, hclosing, List.takeWhile_cons_of_neg (by decide),
      List.append_nil]
  have hdrop : (digits ++ (closing ++ rest)).dropWhile isAnyDigit = closing ++ rest := by
    rw [List.dropWhile_append_of_pos hdigits, hclosing, List.dropWhile_cons_of_neg (by decide)]
  rw [take?, spell, List.append_assoc, List.append_assoc, Text.stripStart?_append,
    Option.bind_some]
  dsimp only
  rw [htake, hdrop, if_neg hne, Text.stripStart?_append]
  rfl

/-- A token is found where it stands, whatever follows. -/
theorem take?_ofIndex_append (i : Nat) (rest : Text) :
    take? (ofIndex i ++ rest) = some (decimal i, rest) := by
  rw [ofIndex_eq_spell]
  exact take?_spell_append Nat.toDigits_ne_nil
    (fun c hc => isAnyDigit_of_isDigit (isDigit_of_mem_decimal hc)) rest

variable {tables : Tables} {t : Text}

/-- Where the opening of a token stands in a traced text, a token is found. -/
theorem exists_take?_of_traced (h : Text.Traced opening tables.Inlined t) {r : Text}
    (hr : opening ++ r <:+ t) :
    ∃ i rest, i < tables.macroCalls.length ∧ take? (opening ++ r) = some (decimal i, rest) := by
  obtain ⟨w, ⟨i, hi, rfl⟩, rest, hrest⟩ := h r hr
  exact ⟨i, rest, hi, by rw [← hrest, take?_ofIndex_append]⟩

theorem settled_scan (t : Text) : recogniser.Settled spell (scan t) :=
  Recogniser.settled_scan _ _ (fun h => take?_eq_append h) t

theorem renderAll_scan (t : Text) : Piece.renderAll spell (scan t) = t :=
  Recogniser.renderAll_scan _ _ (fun h => take?_eq_append h) t

/-- Between the tokens of a traced text no token begins. -/
theorem free_of_mem_scan (h : Text.Traced opening tables.Inlined t) {u : Text}
    (hu : .plain u ∈ scan t) : ¬opening <:+: u := by
  have hsettled := settled_scan t
  rw [← renderAll_scan t] at h
  generalize scan t = ps at hu hsettled h
  induction ps with
  | nil => cases hu
  | cons p ps ih =>
    have hrest := h.of_suffix (List.suffix_append _ (Piece.renderAll spell ps))
    cases p with
    | token digits =>
      obtain ⟨-, hps⟩ := hsettled
      exact ih (by simpa using hu) hps hrest
    | plain v =>
      obtain ⟨-, hdeclines, -, hps⟩ := hsettled
      rcases List.mem_cons.1 hu with heq | hu
      · obtain rfl := Piece.plain.inj heq
        rintro ⟨front, back, hsplit⟩
        rw [List.append_assoc] at hsplit
        -- A token would be found where the opening stands.
        have hne : opening ++ back ≠ [] := List.append_ne_nil_of_left_ne_nil (by decide) back
        have hnone := hdeclines front (opening ++ back) hsplit.symm hne
        have hsuffix : opening ++ (back ++ Piece.renderAll spell ps) <:+
            Piece.renderAll spell (.plain u :: ps) := by
          refine ⟨front, ?_⟩
          rw [Piece.renderAll_cons, Piece.render, ← hsplit]
          simp
        obtain ⟨i, rest, -, htake⟩ := exists_take?_of_traced h hsuffix
        rw [List.append_assoc] at hnone
        cases hnone.symm.trans htake
      · exact ih hu hps hrest

/-- The tokens of a traced text have entries. -/
theorem exists_index_of_mem_scan (h : Text.Traced opening tables.Inlined t)
    (hd : .token digits ∈ scan t) : ∃ i < tables.macroCalls.length, digits = decimal i := by
  have hsettled := settled_scan t
  rw [← renderAll_scan t] at h
  generalize scan t = ps at hd hsettled h
  induction ps with
  | nil => cases hd
  | cons p ps ih =>
    have hrest := h.of_suffix (List.suffix_append _ (Piece.renderAll spell ps))
    cases p with
    | plain v =>
      obtain ⟨-, -, -, hps⟩ := hsettled
      exact ih (by simpa using hd) hps hrest
    | token digits' =>
      obtain ⟨hnext, hps⟩ := hsettled
      rcases List.mem_cons.1 hd with heq | hd
      · obtain rfl := Piece.token.inj heq
        -- The token stands where the opening is traced, so what follows is a recorded index.
        have hspell : spell digits ++ Piece.renderAll spell ps =
            opening ++ (digits ++ closing ++ Piece.renderAll spell ps) := by simp [spell]
        rw [Piece.renderAll_cons, Piece.render, hspell] at h
        rw [hspell] at hnext
        obtain ⟨i, rest, hi, htake⟩ := exists_take?_of_traced h (List.suffix_refl _)
        obtain ⟨hdigits, -⟩ := Prod.mk.inj (Option.some.inj (hnext.symm.trans htake))
        exact ⟨i, hi, hdigits⟩
      · exact ih hd hps hrest

/-- A text without a token is one plain run. -/
theorem eq_nil_or_mem_scan (h : ∀ digits, .token digits ∉ scan t) : t = [] ∨ .plain t ∈ scan t := by
  have hsettled := settled_scan t
  have hrender := renderAll_scan t
  match hscan : scan t with
  | [] =>
    rw [hscan] at hrender
    exact .inl hrender.symm
  | .token digits :: ps => exact absurd (by simp [hscan]) (h digits)
  | [.plain u] =>
    rw [hscan] at hrender
    obtain rfl : u = t := by simpa [Piece.render] using hrender
    exact .inr List.mem_cons_self
  | .plain u :: .plain v :: ps =>
    rw [hscan] at hsettled
    exact absurd ⟨v, ps, rfl⟩ hsettled.2.2.1
  | .plain u :: .token digits :: ps => exact absurd (by simp [hscan]) (h digits)

/-- Where a traced text opens a token, one stands in it. -/
theorem exists_token_mem_scan (h : Text.Traced opening tables.Inlined t) (hopens : opening <:+: t) :
    ∃ digits, .token digits ∈ scan t := by
  by_contra hnone
  rcases eq_nil_or_mem_scan fun digits hd => hnone ⟨digits, hd⟩ with rfl | hplain
  · exact absurd hopens (by decide)
  · exact free_of_mem_scan h hplain hopens

/-- `Free` holds of a text whose plain runs are free, if it opens no token. -/
theorem free_of_no_opening (hnil : [] ∉ marks) (h : ¬opening <:+: t)
    (hplain : ∀ u, .plain u ∈ scan t → Text.Free marks u) : Text.Free marks t := by
  have htoken (digits : Text) : .token digits ∉ scan t := by
    intro hd
    have hwithin : spell digits <:+: Piece.renderAll spell (scan t) :=
      Piece.render_infix_renderAll (f := spell) hd
    rw [renderAll_scan] at hwithin
    refine h (List.IsInfix.trans ⟨[], digits ++ closing, ?_⟩ hwithin)
    rw [spell, List.nil_append, List.append_assoc]
  rcases eq_nil_or_mem_scan htoken with rfl | ht
  · exact Text.free_nil hnil
  · exact hplain t ht

end MacroToken

namespace Convert

variable {marks : List Text} {inv : Context → Prop} {fails : ConvertError → Prop}

/-- A run of text with its inline tokens filled in. -/
theorem ensures_fillMacroTokens (hnil : [] ∉ marks) (hcolon : Text.Bars marks ':') {t : Text}
    (hmark : ∀ ctx, inv ctx → inv ctx.markCall)
    (hplain : ∀ u, .plain u ∈ MacroToken.scan t → Text.Free marks u)
    (htoken : ∀ digits, .token digits ∈ MacroToken.scan t →
      Ensures inv fails (Substitutes.IsBordered marks) (resolveMacroToken digits)) :
    Ensures inv fails (Piece.Turns id marks [':'] [':'] (.plain t)) (fillMacroTokens t) := by
  have hparts : Ensures inv fails
      (fun outs => List.Forall₂ (Piece.Turns MacroToken.spell marks [] []) (MacroToken.scan t) outs)
      ((MacroToken.scan t).mapM fillPiece) := by
    refine ensures_mapM fun p hp => ?_
    cases p with
    | plain u => exact ensures_pure ⟨hplain u hp, .refl u⟩
    | token digits => exact (htoken digits hp).mono fun _ h => .inl h
  cases hopens : t.contains MacroToken.opening with
  | true =>
    rw [fillMacroTokens_of_opening hopens]
    refine ensures_bind hparts fun outs houts => ?_
    refine ensures_bind (ensures_modify hmark) fun _ _ => ensures_pure ⟨?_, ?_⟩
    · exact Piece.free_flatten hnil hcolon (Text.seamless_nil _)
        (MacroToken.settled_scan t).isChain houts
    · -- No token turns into nothing, so nothing is left out.
      obtain ⟨v, hv, hsub⟩ := Piece.exists_shortens_of_turns houts
      rw [MacroToken.renderAll_scan] at hv
      rwa [Text.eq_of_shortens_nil hv] at hsub
  | false =>
    rw [fillMacroTokens_of_no_opening hopens]
    have hfree := MacroToken.free_of_no_opening hnil (Text.contains_eq_false_iff.1 hopens) hplain
    exact ensures_pure ⟨hfree, .refl t⟩

end Convert

/-! ## Texts -/

/-- What a token satisfies, or a plain run. -/
def Piece.Satisfies {α : Type} (token : α → Prop) (plain : Text → Prop) : Piece α → Prop
  | .token a => token a
  | .plain t => plain t

instance {α : Type} (token : α → Prop) (plain : Text → Prop) [DecidablePred token]
    [DecidablePred plain] : (p : Piece α) → Decidable (p.Satisfies token plain)
  | .token a => inferInstanceAs (Decidable (token a))
  | .plain t => inferInstanceAs (Decidable (plain t))

namespace Convert

variable {marks : List Text} {base : Context} {fails : ConvertError → Prop}

/-- The call behind an inline token. -/
theorem ensures_resolveMacroToken
    (hcalls : ∀ entry ∈ base.tables.entries .macroCall, Substitutes.IsBordered marks entry)
    (hfails : (∃ i < base.tables.macroCalls.length, i < indexBound ∧ digits = decimal i) ∨
      ∀ i, fails (.unresolvedPlaceholder .macroCall i)) :
    Ensures (Context.Keeps marks base) fails (Substitutes.IsBordered marks)
      (resolveMacroToken digits) := by
  unfold resolveMacroToken
  split
  · next index hindex =>
    refine ensures_resolve ?_ ?_
    · intro ctx entry hctx hentry
      rw [hctx.tables] at hentry
      exact hcalls entry (List.mem_of_getElem? hentry)
    · intro ctx hctx hmissing
      rcases hfails with ⟨i, hlt, hbound, rfl⟩ | hfails
      · rw [parseIndex?_decimal_eq, if_pos hbound] at hindex
        rw [hctx.tables, ← Option.some.inj hindex, List.getElem?_eq_none_iff] at hmissing
        exact absurd hlt (Nat.not_lt.2 hmissing)
      · exact hfails index
  · next hindex =>
    -- The digits of an index in bounds are read back.
    rcases hfails with ⟨i, -, hbound, rfl⟩ | hfails
    · rw [parseIndex?_decimal_eq, if_pos hbound] at hindex
      cases hindex
    · exact ensures_throw (hfails largestIndex)

/-- A text is converted without a mark when its directives hold none, the runs between its inline
    tokens hold none, and neither do the calls behind these tokens. -/
theorem ensures_convertText_of_pieces (hmarks : Text.Apart marks)
    (hnesting : ∀ e, fails (.malformedNesting e)) {content : Text}
    (hseam : Text.Seamless marks [':'] [':'] content)
    (hspans : ∀ span, .token span ∈ conversionPieces content → Text.Free marks span)
    (hruns : ∀ t, .plain t ∈ conversionPieces content → ∀ p ∈ MacroToken.scan t,
      p.Satisfies (fun digits => Ensures (Context.Keeps marks base) fails
        (Substitutes.IsBordered marks) (resolveMacroToken digits)) (Text.Free marks)) :
    Ensures (Context.Keeps marks base) fails (Text.Free marks) (convertText content) := by
  have hcolon : Text.Bars marks ':' := hmarks.bars ':' rfl
  refine ensures_convertText hmarks hseam fun p hp => ?_
  cases p with
  | plain t =>
    exact ensures_fillMacroTokens hmarks.nil_not_mem hcolon (fun _ h => h.markCall)
      (fun u hu => hruns t hp (.plain u) hu) fun digits hd => hruns t hp (.token digits) hd
  | token span =>
    have hbounded := bounded_of_mem_conversionPieces hp
    obtain ⟨c, cs, hhead, hc⟩ := hbounded.head
    obtain ⟨ds, d, hlast, hd⟩ := hbounded.last
    rw [List.mem_singleton] at hc hd
    -- A directive stands between colons, and no mark has one.
    have hspan : Substitutes.IsBordered marks span :=
      ⟨⟨c, cs, hhead, hc ▸ hcolon⟩, ⟨ds, d, hlast, hd ▸ hcolon⟩, hspans span hp⟩
    exact (ensures_renderDirective hmarks hnesting hspan).mono fun out hout =>
      hout.imp_right fun hnil => ⟨hnil, hbounded⟩

end Convert

/-! ## Attributes -/

namespace Attribute

theorem index?_of_placeholder? (h : a.placeholder? = some (f, i)) : a.index? f = some i := by
  obtain ⟨g, -, hg⟩ := List.exists_of_findSome?_eq_some h
  obtain ⟨j, hj, heq⟩ := Option.map_eq_some_iff.1 hg
  obtain ⟨rfl, rfl⟩ := Prod.mk.inj heq
  exact hj

theorem name_of_index? (h : a.index? f = some i) : a.name = f.holder := by
  rw [index?] at h
  split at h
  · next hname => exact hname
  · cases h

/-- A placeholder stands in the holder of its family. -/
theorem name_of_placeholder? (h : a.placeholder? = some (f, i)) :
    a.name = f.holder := name_of_index? (index?_of_placeholder? h)

theorem placeholder?_eq_none_iff : a.placeholder? = none ↔ ∀ f, a.index? f = none := by
  simp only [placeholder?, List.findSome?_eq_none_iff, Option.map_eq_none_iff]
  refine ⟨fun h f => h f ?_, fun h f _ => h f⟩
  cases f <;> decide

/-- An attribute without a value that is read as a token holds no placeholder. -/
theorem placeholder?_eq_none_of_value
    (h : ∀ v, a.value.text? = some v → ∀ f : Family, f.parseToken? v = none) :
    a.placeholder? = none := by
  rw [placeholder?_eq_none_iff]
  intro f
  unfold index?
  split
  · cases hv : a.value.text? with
    | none => rfl
    | some v => exact h v hv f
  · rfl

/-- What the attribute becomes when it holds a placeholder for the entry. -/
def fill (a : Attribute) (f : Family) (entry : Text) : Converted :=
  match f with
  | .condition => .condition (Condition.toTwig entry)
  | .macroCall => .kept ⟨entry, .bare⟩
  | _ => .kept { a with value := .unquoted entry }

end Attribute

/-- What a converted attribute satisfies, or the condition that it holds. -/
def Converted.Satisfies (kept : Attribute → Prop) (condition : Text → Prop) : Converted → Prop
  | .kept a => kept a
  | .condition c => condition c

namespace Convert

variable {marks : List Text} {inv : Context → Prop} {fails : ConvertError → Prop}
  {kept : Attribute → Prop}

/-- An attribute is filled with the entry of its placeholder, or its directives are printed.  It
    fails only if the placeholder has no entry. -/
theorem ensures_convertAttribute (hmark : ∀ ctx, inv ctx → inv ctx.markCall)
    (hindex : ∀ f i, a.placeholder? = some (f, i) → ∀ ctx, inv ctx →
      i < (ctx.tables.entries f).length ∨ fails (.unresolvedPlaceholder f i))
    (hfill : ∀ f i, a.placeholder? = some (f, i) → ∀ ctx, inv ctx →
      ∀ entry ∈ ctx.tables.entries f, (a.fill f entry).Satisfies kept (Text.Free marks))
    (hnone : a.placeholder? = none → kept { a with value := a.value.printSpans }) :
    Ensures inv fails (Converted.Satisfies kept (Text.Free marks)) (convertAttribute a) := by
  -- Looking up an entry is all that can fail.
  have hresolve (f : Family) (i : Nat) (h : a.placeholder? = some (f, i)) :
      Ensures inv fails (fun entry => (a.fill f entry).Satisfies kept (Text.Free marks))
        (resolve f i) := by
    refine ensures_resolve ?_ ?_
    · intro ctx entry hctx hentry
      exact hfill f i h ctx hctx entry (List.mem_of_getElem? hentry)
    · intro ctx hctx hmissing
      rw [List.getElem?_eq_none_iff] at hmissing
      exact (hindex f i h ctx hctx).resolve_left (Nat.not_lt.2 hmissing)
  unfold convertAttribute
  split
  · next i h => exact ensures_bind (hresolve .condition i h) fun entry hentry => ensures_pure hentry
  · next i h =>
    refine ensures_bind (hresolve .macroCall i h) fun entry hentry => ?_
    exact ensures_bind (ensures_modify hmark) fun _ _ => ensures_pure hentry
  · next f i hcondition hcall h =>
    refine ensures_bind (hresolve f i h) fun entry hentry => ensures_pure ?_
    cases f with
    | condition => exact absurd rfl hcondition
    | macroCall => exact absurd rfl hcall
    | className => exact hentry
    | checked => exact hentry
    | selected => exact hentry
  · next h => exact ensures_pure (hnone h)

/-- The attributes of a tag are converted one by one. -/
theorem ensuresTag_of_attributes {t : Tag}
    (h : ∀ a ∈ t.attributes,
      Ensures inv fails (Converted.Satisfies kept (Text.Free marks)) (convertAttribute a)) :
    EnsuresTag marks inv fails (fun t => ∀ a ∈ t.attributes, kept a) t := by
  have hall : Ensures inv fails
      (fun cs => List.Forall₂ (fun _ c => c.Satisfies kept (Text.Free marks)) t.attributes cs)
      (t.attributes.mapM convertAttribute) := ensures_mapM h
  refine hall.mono fun cs hcs => ?_
  have hmem : ∀ c ∈ cs, c.Satisfies kept (Text.Free marks) := by
    clear h hall
    generalize t.attributes = as at hcs
    induction hcs with
    | nil => exact fun c hc => by cases hc
    | cons hc _ ih => exact fun d hd => (List.mem_cons.1 hd).elim (fun heq => heq ▸ hc) (ih d)
  constructor
  · intro a ha
    obtain ⟨c, hc, heq⟩ := List.mem_filterMap.1 ha
    cases c with
    | kept b =>
      obtain rfl := Option.some.inj heq
      exact hmem _ hc
    | condition e => cases heq
  · intro e he
    obtain ⟨c, hc, heq⟩ := List.mem_filterMap.1 he
    cases c with
    | kept b => cases heq
    | condition d =>
      obtain rfl := Option.some.inj heq
      exact hmem _ hc

end Convert

/-! ## No token is left in an attribute -/

/-- Printing directives brings in braces, unless there is none. -/
theorem printSpans_eq_of_brace_not_mem {v : Text} (h : '\x7b' ∉ printSpans v) : printSpans v = v := by
  have hpieces (ps : List (Piece Text))
      (hps : '\x7b' ∉ Piece.renderAll (fun span => Twig.print (Span.body span)) ps) :
      Piece.renderAll (fun span => Twig.print (Span.body span)) ps = Piece.renderAll id ps := by
    induction ps with
    | nil => rfl
    | cons p ps ih =>
      rw [Piece.renderAll_cons, List.mem_append, not_or] at hps
      rw [Piece.renderAll_cons, Piece.renderAll_cons, ih hps.2]
      cases p with
      | plain t => rfl
      | token span => exact absurd List.mem_cons_self hps.1
  rw [printSpans, hpieces _ h]
  exact Recogniser.renderAll_scan _ _ (fun h => Span.take?_eq_append h) v

theorem AttributeValue.text?_printSpans (v : AttributeValue) :
    v.printSpans.text? = v.text?.map TemploTwig.printSpans := by
  cases v <;> rfl

namespace Attribute

theorem placeholder?_bare (name : Text) : (⟨name, .bare⟩ : Attribute).placeholder? = none :=
  placeholder?_eq_none_of_value fun _ hv => by cases hv

/-- A value that begins with a brace is no token. -/
theorem placeholder?_unquoted {name v : Text} (h : v.head? = some '\x7b') :
    (⟨name, .unquoted v⟩ : Attribute).placeholder? = none := by
  refine placeholder?_eq_none_of_value fun u hu f => ?_
  obtain rfl : v = u := Option.some.inj hu
  cases htoken : f.parseToken? v with
  | none => rfl
  | some i =>
    obtain ⟨cs, rfl⟩ : ∃ cs, v = '\x7b' :: cs := List.head?_eq_some_iff.1 h
    exact absurd List.mem_cons_self (Family.not_mem_of_parseToken? htoken rfl)

/-- Printing the directives in a value makes no token of it. -/
theorem placeholder?_printSpans (h : a.placeholder? = none) :
    ({ a with value := a.value.printSpans } : Attribute).placeholder? = none := by
  rw [placeholder?_eq_none_iff] at h ⊢
  intro f
  have hindex := h f
  unfold index? at hindex ⊢
  dsimp only
  split at hindex
  · next hname =>
    rw [if_pos hname, AttributeValue.text?_printSpans]
    cases hv : a.value.text? with
    | none => rfl
    | some v =>
      rw [hv] at hindex
      cases htoken : f.parseToken? (printSpans v) with
      | none => exact htoken
      | some i =>
        -- A token has no brace, so nothing was printed.
        rw [printSpans_eq_of_brace_not_mem (Family.not_mem_of_parseToken? htoken rfl)] at htoken
        cases hindex.symm.trans htoken
  · next hname => rw [if_neg hname]

end Attribute

/-! ## The final check -/

/-- `textPlaceholder?` finds macro tokens only. -/
theorem textPlaceholder?_eq_some {t : Text} (h : textPlaceholder? t = some (f, i)) :
    f = .macroCall ∧ MacroToken.opening <:+: t := by
  obtain ⟨digits, hfirst, heq⟩ := Option.map_eq_some_iff.1 h
  obtain ⟨rfl, -⟩ := Prod.mk.inj heq
  obtain ⟨p, hp, hdigits⟩ := List.exists_of_findSome?_eq_some hfirst
  cases p with
  | plain u => cases hdigits
  | token d =>
    have hwithin : MacroToken.spell d <:+: Piece.renderAll MacroToken.spell (MacroToken.scan t) :=
      Piece.render_infix_renderAll (f := MacroToken.spell) hp
    rw [MacroToken.renderAll_scan] at hwithin
    refine ⟨rfl, List.IsInfix.trans ⟨[], d ++ MacroToken.closing, ?_⟩ hwithin⟩
    rw [MacroToken.spell, List.nil_append, List.append_assoc]

/-- No attribute of the tag holds a placeholder. -/
def Tag.Resolved (t : Tag) : Prop := ∀ a ∈ t.attributes, a.placeholder? = none

theorem Tag.Resolved.tagPlaceholder? {t : Tag} (h : t.Resolved) : tagPlaceholder? t = none :=
  List.findSome?_eq_none_iff.2 h

namespace Node

mutual

/-- The texts of a node, in document order. -/
def texts : Node → List Text
  | .element _ children => textsAll children
  | .text content => [content]
  | .raw _ => []

/-- The texts of nodes, in document order. -/
def textsAll : List Node → List Text
  | [] => []
  | n :: ns => n.texts ++ textsAll ns

end

section Texts

variable {text raw : Text → Prop} {tag : Tag → Prop} {content : Text}

mutual

/-- `texts` of a node satisfy `Every`. -/
theorem text_of_mem_texts : (n : Node) → Every text raw tag n → content ∈ n.texts → text content
  | .element t children, h, hmem => by
    rw [every_element_iff] at h
    exact text_of_mem_textsAll children h.2 hmem
  | .text t, h, hmem => by
    rw [texts, List.mem_singleton] at hmem
    exact hmem ▸ every_text_iff.1 h
  | .raw source, _, hmem => by
    rw [texts] at hmem
    cases hmem

/-- `textsAll` of nodes satisfy `EveryIn`. -/
theorem text_of_mem_textsAll :
    (ns : List Node) → EveryIn text raw tag ns → content ∈ textsAll ns → text content
  | [], _, hmem => by
    rw [textsAll] at hmem
    cases hmem
  | n :: ns, h, hmem => by
    rw [everyIn_cons_iff] at h
    rw [textsAll, List.mem_append] at hmem
    rcases hmem with hmem | hmem
    · exact text_of_mem_texts n h.1 hmem
    · exact text_of_mem_textsAll ns h.2 hmem

end

end Texts

end Node

mutual

/-- `nodePlaceholder?` looks at the texts of a resolved node. -/
theorem nodePlaceholder?_of_resolved {text raw : Text → Prop} :
    (n : Node) → Node.Every text raw Tag.Resolved n →
      nodePlaceholder? n = n.texts.findSome? textPlaceholder?
  | .element t children, h => by
    rw [Node.every_element_iff] at h
    rw [nodePlaceholder?, h.1.tagPlaceholder?, Option.none_or, Node.texts]
    exact nodesPlaceholder?_of_resolved children h.2
  | .text content, _ => by rw [nodePlaceholder?, Node.texts, List.findSome?_singleton]
  | .raw source, _ => by
    rw [nodePlaceholder?, Node.texts]
    rfl

/-- In a tree without placeholders in its attributes, the check finds the first inline token of the
    texts. -/
theorem nodesPlaceholder?_of_resolved {text raw : Text → Prop} :
    (ns : List Node) → Node.EveryIn text raw Tag.Resolved ns →
      nodesPlaceholder? ns = (Node.textsAll ns).findSome? textPlaceholder?
  | [], _ => by
    rw [nodesPlaceholder?, Node.textsAll]
    rfl
  | n :: ns, h => by
    rw [Node.everyIn_cons_iff] at h
    rw [nodesPlaceholder?, Node.textsAll, List.findSome?_append,
      nodePlaceholder?_of_resolved n h.1, nodesPlaceholder?_of_resolved ns h.2]

end

/-- Where no attribute holds a placeholder, the check fails on the first inline token of the texts,
    or not at all. -/
theorem checkPlaceholders_eq_error_iff {text raw : Text → Prop} {root : Element} {e : ConvertError}
    (h : Node.Every text raw Tag.Resolved root.toNode) :
    checkPlaceholders root = .error e ↔
      ∃ i, root.toNode.texts.findSome? textPlaceholder? = some (.macroCall, i) ∧
        e = .unresolvedPlaceholder .macroCall i := by
  rw [checkPlaceholders, nodePlaceholder?_of_resolved _ h]
  cases hfirst : root.toNode.texts.findSome? textPlaceholder? with
  | none => simp
  | some p =>
    obtain ⟨f, i⟩ := p
    obtain ⟨content, -, hcontent⟩ := List.exists_of_findSome?_eq_some hfirst
    obtain ⟨rfl, -⟩ := textPlaceholder?_eq_some hcontent
    simp [eq_comm]

/-- What the final check may complain about. -/
theorem checkPlaceholders_eq_error {raw : Text → Prop} {root : Element} {e : ConvertError}
    (htag : root.tag.Resolved) (h : Node.EveryIn (Text.Free marks) raw Tag.Resolved root.children)
    (he : checkPlaceholders root = .error e) :
    MacroToken.opening ∉ marks ∧ ∃ i, e = .unresolvedPlaceholder .macroCall i := by
  have hevery : Node.Every (Text.Free marks) raw Tag.Resolved root.toNode :=
    Node.every_element_iff.2 ⟨htag, h⟩
  obtain ⟨i, hfirst, rfl⟩ := (checkPlaceholders_eq_error_iff hevery).1 he
  obtain ⟨content, hmem, hcontent⟩ := List.exists_of_findSome?_eq_some hfirst
  obtain ⟨-, hopening⟩ := textPlaceholder?_eq_some hcontent
  exact ⟨fun hmark => Node.text_of_mem_texts _ hevery hmem _ hmark hopening, i, rfl⟩

/-! ## Documents -/

/-- A pass is a step of the conversion that succeeds. -/
theorem Convert.run_prepare {text : Text} {ctx : Context}
    (h : (prepare source).run ctx = (text, base)) :
    (liftM (prepare source) : Convert Text).run.run ctx = (.ok text, base) := by
  show (Except.ok ((prepare source).run ctx).1, ((prepare source).run ctx).2) = _
  rw [h]

/-- The result of a document is what its tree gives, from the context behind the passes. -/
theorem Document.result_eq {options : Options} {text : Text}
    (hprepare : (prepare source).run { options, kind := .document } = (text, base)) :
    (convertTemplate options (some .document) source).result =
      ((match Document.parse? text with
        | some root => do assemble (← convertTree root)
        | none => throw .malformedMarkup : Convert Text).run.run base).1 := by
  have hrun : (convertTemplate options (some .document) source).result =
      ((convertDocument source).run.run { options, kind := .document }).1 := rfl
  rw [hrun, convertDocument]
  refine (congrArg Prod.fst (Convert.run_bind_ok (Convert.run_prepare hprepare) _)).trans ?_
  cases Document.parse? text <;> rfl

/-- A document satisfies what the conversion of its tree ensures. -/
theorem satisfies_result {options : Options} {text : Text} {fails : ConvertError → Prop}
    {post : Text → Prop}
    (hprepare : (prepare source).run { options, kind := .document } = (text, base))
    (hswitches : base.switches = []) (hmarkup : fails .malformedMarkup)
    (h : ∀ root, Document.parse? text = some root →
      Convert.Ensures (Context.Keeps marks base) fails post (do assemble (← convertTree root))) :
    (∀ out, (convertTemplate options (some .document) source).result = .ok out → post out) ∧
      ∀ e, (convertTemplate options (some .document) source).result = .error e → fails e := by
  rw [Document.result_eq hprepare]
  cases hroot : Document.parse? text with
  | none =>
    refine ⟨fun out hout => (by cases hout), fun e he => ?_⟩
    rw [← Except.error.inj he]
    exact hmarkup
  | some root =>
    have hbase : base.Keeps marks base :=
      ⟨rfl, rfl, rfl, fun frame hframe => by rw [hswitches] at hframe; cases hframe⟩
    exact (h root hroot base hbase).2

end TemploTwig
