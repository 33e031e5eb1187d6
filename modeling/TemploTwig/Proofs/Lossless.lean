import Mathlib.Data.List.Chain
import TemploTwig.Proofs.SpanBody
import TemploTwig.Source.Segment

/-!
# Cutting a template loses nothing

Passes copy the pieces of a template that they do not change.  They rely on the pieces: these make
up the template, byte for byte, and where one of them ends the scan could as well start afresh.
-/

namespace TemploTwig

variable {t rest : Text} {pieces : List (Piece Inline)}

/-! ## Slices of bytes -/

namespace Text

/-- `byteSize` adds up. -/
theorem byteSize_append (s t : Text) : (s ++ t).byteSize = s.byteSize + t.byteSize := by
  induction s with
  | nil => simp [byteSize]
  | cons c s ih =>
    simp only [byteSize, List.cons_append, List.foldr_cons] at ih ⊢
    omega

/-- `takeBytes?` gives the front part of the text that has as many bytes as it is asked for. -/
theorem takeBytes?_eq_some_iff {front : Text} {n : Nat} :
    t.takeBytes? n = some front ↔ (∃ back, t = front ++ back) ∧ front.byteSize = n := by
  have hcons (c : Char) (cs : Text) : byteSize (c :: cs) = c.utf8Size + byteSize cs := rfl
  induction t generalizing n front with
  | nil =>
    cases n with
    | zero => cases front <;> simp [takeBytes?, byteSize]
    | succ n =>
      refine iff_of_false (by simp [takeBytes?]) ?_
      rintro ⟨⟨back, hnil⟩, hsize⟩
      rw [(List.append_eq_nil_iff.1 hnil.symm).1] at hsize
      cases hsize
  | cons c t ih =>
    cases n with
    | zero =>
      -- A character takes at least one byte, so only the empty text takes none.
      rw [takeBytes?, Option.some.injEq]
      constructor
      · rintro rfl
        exact ⟨⟨c :: t, rfl⟩, rfl⟩
      · rintro ⟨-, hsize⟩
        cases front with
        | nil => rfl
        | cons d front =>
          have := d.utf8Size_pos
          rw [hcons] at hsize
          omega
    | succ n =>
      rw [takeBytes?]
      constructor
      · intro h
        split at h
        · next hle =>
          obtain ⟨rest, hrest, rfl⟩ := Option.map_eq_some_iff.1 h
          obtain ⟨⟨back, rfl⟩, hsize⟩ := ih.1 hrest
          refine ⟨⟨back, rfl⟩, ?_⟩
          rw [hcons]
          omega
        · cases h
      · rintro ⟨⟨back, hsplit⟩, hsize⟩
        cases front with
        | nil => cases hsize
        | cons d front =>
          obtain ⟨rfl, rfl⟩ := List.cons.inj hsplit
          rw [hcons] at hsize
          rw [if_pos (by omega), ih.2 ⟨⟨back, rfl⟩, by omega⟩]
          rfl

/-- `byteSize` is the number of bytes of the string. -/
theorem utf8ByteSize_ofList (t : Text) : (String.ofList t).utf8ByteSize = t.byteSize := by
  induction t with
  | nil => rfl
  | cons c t ih =>
    rw [String.ofList_cons, String.utf8ByteSize_append, String.utf8ByteSize_singleton, ih]
    rfl

theorem rawEndPos_ofList (t : Text) : (String.ofList t).rawEndPos = ⟨t.byteSize⟩ := by
  apply String.Pos.Raw.ext
  exact utf8ByteSize_ofList t

/-- The bytes of `t` from `start` to `stop` are those of `part`, and both ends lie between two
    characters. -/
structure IsSlice (t : Text) (start stop : Nat) (part : Text) : Prop where
  start_isValid : String.Pos.Raw.IsValid (String.ofList t) ⟨start⟩
  stop_isValid : String.Pos.Raw.IsValid (String.ofList t) ⟨stop⟩
  bytes_eq : (String.ofList t).toUTF8.extract start stop = (String.ofList part).toUTF8

/-- The end of a front part lies between two characters. -/
theorem isValid_byteSize (front back : Text) :
    String.Pos.Raw.IsValid (String.ofList (front ++ back)) ⟨front.byteSize⟩ := by
  have hend : String.Pos.Raw.IsValid (String.ofList front) (String.ofList front).rawEndPos :=
    String.Pos.Raw.isValid_rawEndPos
  rw [rawEndPos_ofList] at hend
  rw [String.ofList_append]
  exact hend.append_right _

/-- A part of a text `IsSlice` between what stands in front of it and what stands behind it. -/
theorem isSlice_append (front part back : Text) :
    (front ++ part ++ back).IsSlice front.byteSize (front.byteSize + part.byteSize) part := by
  have hsize (t : Text) : (String.ofList t).toByteArray.size = t.byteSize := utf8ByteSize_ofList t
  constructor
  · rw [List.append_assoc]
    exact isValid_byteSize front (part ++ back)
  · rw [← byteSize_append]
    exact isValid_byteSize (front ++ part) back
  · show (String.ofList (front ++ part ++ back)).toByteArray.extract (front.byteSize + 0) _ = _
    rw [List.append_assoc, String.ofList_append, String.toByteArray_append, ← hsize front,
      ByteArray.extract_append_size_add, String.ofList_append, String.toByteArray_append,
      ByteArray.extract_append_eq_left (hsize part).symm]
    rfl

end Text

/-! ## What every scan guarantees -/

namespace Piece

variable {α : Type}

/-- Is the piece a plain run? -/
def isPlain : Piece α → Bool
  | plain _ => true
  | token _ => false

/-- No piece is empty, and no two plain runs are neighbours. -/
structure Tidy (f : α → Text) (ps : List (Piece α)) : Prop where
  ne_nil : ∀ p ∈ ps, p.render f ≠ []
  isChain : ps.IsChain fun p q => ¬(p.isPlain = true ∧ q.isPlain = true)

namespace Tidy

variable {f : α → Text} {ps : List (Piece α)}

theorem nil : Tidy f ([] : List (Piece α)) := ⟨by simp, .nil⟩

/-- `Tidy` pieces stay so behind a token. -/
theorem token_cons {a : α} (h : Tidy f ps) (ha : f a ≠ []) : Tidy f (.token a :: ps) := by
  constructor
  · intro p hp
    rcases List.mem_cons.1 hp with rfl | hp
    · exact ha
    · exact h.ne_nil p hp
  · cases ps with
    | nil => exact .singleton _
    | cons q ps => exact .cons_cons (by simp [isPlain]) h.isChain

/-- `Tidy` pieces stay so behind a plain run. -/
theorem plain_cons (h : Tidy f ps) (ht : t ≠ []) (hstart : ¬StartsPlain ps) :
    Tidy f (.plain t :: ps) := by
  constructor
  · intro p hp
    rcases List.mem_cons.1 hp with rfl | hp
    · exact ht
    · exact h.ne_nil p hp
  · cases ps with
    | nil => exact .singleton _
    | cons q ps =>
      cases q with
      | plain u => exact absurd ⟨u, ps, rfl⟩ hstart
      | token a => exact .cons_cons (by simp [isPlain]) h.isChain

/-- `prepend` keeps pieces `Tidy`, since it joins a leading run. -/
theorem prepend (h : Tidy f ps) (ht : t ≠ []) : Tidy f (prepend t ps) := by
  cases ps with
  | nil => exact h.plain_cons ht not_startsPlain_nil
  | cons p ps =>
    cases p with
    | token a => exact h.plain_cons ht (not_startsPlain_token a ps)
    | plain u =>
      constructor
      · intro p hp
        rcases List.mem_cons.1 hp with rfl | hp
        · simp [render, ht]
        · exact h.ne_nil p (List.mem_cons_of_mem _ hp)
      · cases ps with
        | nil => exact .singleton _
        | cons q ps =>
          have hchain := h.isChain
          rw [List.isChain_cons_cons] at hchain
          exact .cons_cons hchain.1 hchain.2

end Tidy

/-- What a scan of `t` has to guarantee, when a token `a` is spelled `f a`. -/
structure CutsLosslessly (f : α → Text) (scan : Text → List (Piece α)) (t : Text) : Prop where
  /-- The pieces make up the text. -/
  renderAll_eq : renderAll f (scan t) = t
  tidy : Tidy f (scan t)
  /-- Each piece is a slice of the bytes of the text. -/
  isSlice : ∀ front p back, scan t = front ++ p :: back →
    t.IsSlice (renderAll f front).byteSize ((renderAll f front).byteSize + (p.render f).byteSize)
      (p.render f)
  /-- Scanning what is left behind the first pieces finds the other pieces. -/
  rescan : ∀ k, scan (t.drop (renderAll f ((scan t).take k)).length) = (scan t).drop k

end Piece

namespace Recogniser

variable {α : Type} {R : Recogniser α} {f : α → Text} {ps : List (Piece α)}

/-- A token that `next?` finds takes something off the text. -/
theorem ne_nil_of_next?_eq {a : α} (h : R.next? (f a ++ rest) = some (a, rest)) : f a ≠ [] := by
  intro hnil
  have hlt := R.shrinks h
  rw [hnil] at hlt
  exact Nat.lt_irrefl _ hlt

/-- `Settled` pieces are `Tidy`. -/
theorem Settled.tidy (h : R.Settled f ps) : Piece.Tidy f ps := by
  induction ps with
  | nil => exact .nil
  | cons p ps ih =>
    cases p with
    | plain t =>
      obtain ⟨hne, -, hstart, hps⟩ := h
      exact (ih hps).plain_cons hne hstart
    | token a =>
      obtain ⟨hnext, hps⟩ := h
      exact (ih hps).token_cons (ne_nil_of_next?_eq hnext)

/-- `Settled` looks at what follows a piece, not at what stands in front of it. -/
theorem Settled.drop (h : R.Settled f ps) (k : Nat) : R.Settled f (ps.drop k) := by
  induction k generalizing ps with
  | zero => exact h
  | succ k ih =>
    cases ps with
    | nil => trivial
    | cons p ps =>
      apply ih
      cases p with
      | plain t => exact h.2.2.2
      | token a => exact h.2

/-- A scan that finds every token where it is spelled `CutsLosslessly`. -/
theorem cutsLosslessly_scan (R : Recogniser α) (f : α → Text)
    (spells : ∀ {t a rest}, R.next? t = some (a, rest) → t = f a ++ rest) (t : Text) :
    Piece.CutsLosslessly f R.scan t := by
  have hsettled := R.settled_scan f spells t
  have hall := R.renderAll_scan f spells t
  refine ⟨hall, hsettled.tidy, ?_, ?_⟩
  · intro front p back hscan
    rw [hscan, Piece.renderAll_append, Piece.renderAll_cons, ← List.append_assoc] at hall
    have hslice := Text.isSlice_append (Piece.renderAll f front) (p.render f)
      (Piece.renderAll f back)
    rwa [hall] at hslice
  · intro k
    -- What the first pieces spell can be cut off, and a settled rest is scanned as it is.
    have hdrop : t.drop (Piece.renderAll f ((R.scan t).take k)).length =
        Piece.renderAll f ((R.scan t).drop k) := by
      have hsplit := Piece.renderAll_append f ((R.scan t).take k) ((R.scan t).drop k)
      rw [List.take_append_drop, hall] at hsplit
      calc t.drop (Piece.renderAll f ((R.scan t).take k)).length
        _ = (Piece.renderAll f ((R.scan t).take k) ++ Piece.renderAll f ((R.scan t).drop k)).drop
              (Piece.renderAll f ((R.scan t).take k)).length := by rw [← hsplit]
        _ = Piece.renderAll f ((R.scan t).drop k) := List.drop_left
    rw [hdrop]
    exact scan_renderAll (hsettled.drop k)

end Recogniser

/-! ## The shape of what is recognised -/

/-- A span between its delimiters, on one line. -/
structure Span.IsDelimited (span : Text) : Prop where
  starts : delimiter <+: span
  ends : delimiter <:+ span
  five_le_byteSize : 5 ≤ span.byteSize
  one_line : '\n' ∉ span

/-- `take?` finds spans that are `IsDelimited`. -/
theorem Span.isDelimited_of_take? {span : Text} (h : take? t = some (span, rest)) :
    IsDelimited span := by
  obtain ⟨b, hb, rfl⟩ := exists_isBody_of_take? h
  have hbody : 1 ≤ b.byteSize := by
    -- A body without a character would be blank.
    cases b with
    | nil => exact absurd hb.not_blank (by simp [Text.isBlankText])
    | cons c b =>
      have hc : 0 < c.utf8Size := c.utf8Size_pos
      simp only [Text.byteSize, List.foldr_cons]
      omega
  refine ⟨⟨b ++ delimiter, by simp [ofBody]⟩, ⟨delimiter ++ b, rfl⟩, ?_, ?_⟩
  · have hdelimiter : delimiter.byteSize = 2 := rfl
    rw [ofBody, Text.byteSize_append, Text.byteSize_append, hdelimiter]
    omega
  · simp [ofBody, delimiter, hb.one_line]

/-- The shape of an inline construct. -/
def Inline.IsWellFormed : Inline → Prop
  | .directive span => Span.IsDelimited span
  | .call c => c.name ≠ [] ∧ c.source = '$' :: '$' :: (c.name ++ '(' :: (c.arguments ++ [')']))

/-- `take?` finds calls with a name. -/
theorem MacroCall.name_ne_nil_of_take? {call : MacroCall} (h : take? t = some (call, rest)) :
    call.name ≠ [] := by
  unfold take? at h
  split at h
  · dsimp only at h
    split at h
    · cases h
    · next hname =>
      obtain ⟨group, -, heq⟩ := Option.map_eq_some_iff.1 h
      obtain ⟨rfl, -⟩ := Prod.mk.inj heq
      exact hname
  · cases h

/-- `take?` finds constructs that are `IsWellFormed`. -/
theorem Inline.isWellFormed_of_take? {i : Inline} (h : take? t = some (i, rest)) :
    i.IsWellFormed := by
  unfold take? at h
  split at h
  · next hspan =>
    obtain ⟨rfl, -⟩ := Prod.mk.inj (Option.some.inj h)
    exact Span.isDelimited_of_take? hspan
  · obtain ⟨⟨c, r⟩, hcall, heq⟩ := Option.map_eq_some_iff.1 h
    obtain ⟨rfl, -⟩ := Prod.mk.inj heq
    exact ⟨MacroCall.name_ne_nil_of_take? hcall, by simp [MacroCall.source]⟩

namespace StartTag

/-- The shape of a start tag. -/
structure IsWellFormed (tag : StartTag) : Prop where
  name_ne_nil : tag.name ≠ []
  starts : '<' :: tag.name <+: tag.source
  ends : ['>'] <:+ tag.source
  source_eq : tag.source = Piece.renderAll Inline.source tag.pieces
  tidy : Piece.Tidy Inline.source tag.pieces
  inlines : ∀ i, .token i ∈ tag.pieces → i.IsWellFormed

/-- What a reading of the rest of a tag gives: tidy pieces up to the closing `>`. -/
structure ClosesWell (pieces : List (Piece Inline)) : Prop where
  tidy : Piece.Tidy Inline.source pieces
  ends : ['>'] <:+ Piece.renderAll Inline.source pieces
  inlines : ∀ i, .token i ∈ pieces → i.IsWellFormed

/-- `ClosesWell` holds with more text in front. -/
theorem ClosesWell.prepend (h : ClosesWell pieces) (ht : t ≠ []) :
    ClosesWell (Piece.prepend t pieces) := by
  refine ⟨h.tidy.prepend ht, ?_, ?_⟩
  · rw [Piece.renderAll_prepend]
    exact h.ends.trans (List.suffix_append _ _)
  · intro i hi
    apply h.inlines i
    cases pieces with
    | nil => simp [Piece.prepend] at hi
    | cons p ps => cases p <;> simpa [Piece.prepend] using hi

/-- `ClosesWell` holds with a construct in front. -/
theorem ClosesWell.token_cons (h : ClosesWell pieces) {i : Inline} (hne : i.source ≠ [])
    (hi : i.IsWellFormed) : ClosesWell (.token i :: pieces) := by
  refine ⟨h.tidy.token_cons hne, ?_, ?_⟩
  · rw [Piece.renderAll_cons]
    exact h.ends.trans (List.suffix_append _ _)
  · intro j hj
    rcases List.mem_cons.1 hj with heq | hj
    · obtain rfl := Piece.token.inj heq
      exact hi
    · exact h.inlines j hj

/-- `close?` finds pieces that `ClosesWell`. -/
theorem closesWell_of_close? (h : close? t = some (pieces, rest)) : ClosesWell pieces := by
  fun_induction close? t generalizing pieces rest with
  | case1 => cases h
  | case2 cs =>
    obtain ⟨rfl, -⟩ := Prod.mk.inj (Option.some.inj h)
    refine ⟨Piece.Tidy.nil.prepend (t := ['>']) (by simp), List.suffix_refl _, ?_⟩
    intro i hi
    simp at hi
  | case3 => cases h
  -- A quoted value joins the plain run in front of the rest.
  | case4 c cs _ _ _ value r _ ih =>
    obtain ⟨⟨ps, after⟩, hclose, heq⟩ := Option.map_eq_some_iff.1 h
    obtain ⟨rfl, -⟩ := Prod.mk.inj heq
    exact (ih hclose).prepend (by simp)
  | case5 => cases h
  -- An inline construct is a piece of its own.
  | case6 c cs _ _ _ inline r htake ih =>
    obtain ⟨⟨ps, after⟩, hclose, heq⟩ := Option.map_eq_some_iff.1 h
    obtain ⟨rfl, -⟩ := Prod.mk.inj heq
    exact (ih hclose).token_cons (Inline.take?_ne_nil htake) (Inline.isWellFormed_of_take? htake)
  | case7 c cs _ _ _ _ ih =>
    obtain ⟨⟨ps, after⟩, hclose, heq⟩ := Option.map_eq_some_iff.1 h
    obtain ⟨rfl, -⟩ := Prod.mk.inj heq
    exact (ih hclose).prepend (by simp)

/-- `take?` finds tags that are `IsWellFormed`. -/
theorem isWellFormed_of_take? {tag : StartTag} (h : take? t = some (tag, rest)) :
    tag.IsWellFormed := by
  unfold take? at h
  split at h
  · next c cs =>
    split at h
    · next hc =>
      obtain ⟨⟨ps, after⟩, hclose, heq⟩ := Option.map_eq_some_iff.1 h
      obtain ⟨rfl, -⟩ := Prod.mk.inj heq
      have hpieces := (closesWell_of_close? hclose).prepend
        (t := '<' :: (c :: cs).takeWhile isNameChar) (by simp)
      refine ⟨?_, ?_, hpieces.ends, rfl, hpieces.tidy, hpieces.inlines⟩
      · -- A letter may stand in a name, so the name is at least that letter.
        have hname : isNameChar c = true := by simp [isNameChar, Char.isAlphanum, hc]
        simp [hname]
      · exact ⟨_, (Piece.renderAll_prepend _ _ _).symm⟩
    · cases h
  · cases h

end StartTag

namespace Token

/-- The shape of a construct in a template. -/
def IsWellFormed : Token → Prop
  | inline i => i.IsWellFormed
  | startTag tag => tag.IsWellFormed
  | markup source => ['<'] <+: source

/-- `takeToClose?` finds markup that `IsWellFormed`. -/
theorem isWellFormed_takeToClose? {token : Token} (ht : ['<'] <+: t)
    (h : takeToClose? t = some (token, rest)) : token.IsWellFormed := by
  obtain ⟨⟨before, r⟩, hcut, heq⟩ := Option.map_eq_some_iff.1 h
  obtain ⟨rfl, -⟩ := Prod.mk.inj heq
  obtain ⟨back, rfl⟩ := ht
  have happ := Text.cut?_eq_append hcut
  cases before with
  | nil => exact absurd (List.cons.inj happ).1 (by decide)
  | cons c before =>
    obtain ⟨rfl, -⟩ := List.cons.inj happ
    exact ⟨before ++ ['>'], rfl⟩

/-- `takeMarkup?` finds tokens that are `IsWellFormed`. -/
theorem isWellFormed_takeMarkup? {token : Token} (h : takeMarkup? t = some (token, rest)) :
    token.IsWellFormed := by
  unfold takeMarkup? at h
  split at h
  · next body _ =>
    have htoken : (takeComment body).1.IsWellFormed := by
      unfold takeComment
      split <;> exact ⟨_, rfl⟩
    rwa [Option.some.inj h] at htoken
  · split at h
    · split at h
      · exact isWellFormed_takeToClose? ⟨_, rfl⟩ h
      · cases h
    · exact isWellFormed_takeToClose? ⟨_, rfl⟩ h
    · exact isWellFormed_takeToClose? ⟨_, rfl⟩ h
    · obtain ⟨⟨tag, r⟩, htag, heq⟩ := Option.map_eq_some_iff.1 h
      obtain ⟨rfl, -⟩ := Prod.mk.inj heq
      exact StartTag.isWellFormed_of_take? htag

/-- `take?` finds tokens that are `IsWellFormed`. -/
theorem isWellFormed_of_take? {token : Token} (h : take? t = some (token, rest)) :
    token.IsWellFormed := by
  unfold take? at h
  split at h
  · next hmarkup =>
    rw [Option.some.inj h] at hmarkup
    exact isWellFormed_takeMarkup? hmarkup
  · obtain ⟨⟨i, r⟩, hinline, heq⟩ := Option.map_eq_some_iff.1 h
    obtain ⟨rfl, -⟩ := Prod.mk.inj heq
    exact Inline.isWellFormed_of_take? hinline

end Token

/-- Cutting a text into the segments of a template, or into its spans only, loses nothing: the
    pieces are slices that make up the text, none is empty, no two plain runs are neighbours, and
    a scan that starts behind some of them finds the others.  Every construct has its shape. -/
theorem segments_lossless (t : Text) :
    Piece.CutsLosslessly Token.source segments t ∧
      (∀ token, .token token ∈ segments t → token.IsWellFormed) ∧
      Piece.CutsLosslessly id Span.scan t ∧
      ∀ span, .token span ∈ Span.scan t → Span.IsDelimited span := by
  have hsegments := Token.recogniser.settled_scan Token.source
    (fun h => (Token.take?_spells h).1) t
  have hspans := Span.recogniser.settled_scan id (fun h => Span.take?_eq_append h) t
  refine ⟨?_, ?_, ?_, ?_⟩
  · exact Token.recogniser.cutsLosslessly_scan _ (fun h => (Token.take?_spells h).1) t
  · intro token htoken
    obtain ⟨rest, hnext⟩ := hsegments.exists_next?_of_mem htoken
    exact Token.isWellFormed_of_take? hnext
  · exact Span.recogniser.cutsLosslessly_scan _ (fun h => Span.take?_eq_append h) t
  · intro span hspan
    obtain ⟨rest, hnext⟩ := hspans.exists_next?_of_mem hspan
    exact Span.isDelimited_of_take? hnext

/-- A span behind a character of two bytes, a tag with a span in it and a call. -/
theorem segments_lossless_mixed :
    let t := "é::x::<p ::cond b::>$$m(c)".toList
    let tag : StartTag := ⟨"p".toList, [.plain "<p ".toList,
      .token (.directive "::cond b::".toList), .plain ['>']]⟩
    .token (.startTag tag) ∈ segments t ∧ tag.IsWellFormed ∧
      .token "::x::".toList ∈ Span.scan t ∧ Span.IsDelimited "::x::".toList ∧
      Text.IsSlice t 2 7 "::x::".toList := by
  intro t tag
  have htag : .token (.startTag tag) ∈ segments t := by decide +kernel
  have hspan : .token "::x::".toList ∈ Span.scan t := by decide +kernel
  have hscan : Span.scan t = [.plain ['é']] ++ .token "::x::".toList :: [
      .plain "<p ".toList, .token "::cond b::".toList, .plain ">$$m(c)".toList] := by
    decide +kernel
  obtain ⟨-, htokens, hcut, hspans⟩ := segments_lossless t
  exact ⟨htag, htokens _ htag, hspan, hspans _ hspan, hcut.isSlice _ _ _ hscan⟩

end TemploTwig
