import TemploTwig.Proofs.Joining
import TemploTwig.Proofs.Markup.Passes
import TemploTwig.Proofs.Placeholders.Readings

/-!
# Start tags in fields

A start tag is a name, a run of text, and fields with a run behind each: a field is an inline
construct or the holder in its place.  Where the runs are calm and settled, the scanner finds the
same fields whatever follows the tag, and the reader of markup ends the tag there, too, and reads
every holder as an attribute of its own.
-/

namespace TemploTwig

variable {quote : Option Char} {c : Char} {cs s t u : Text} {a : Attribute}

/-! ## Calm runs -/

namespace StartTag

/-- Does the character neither end a tag nor open a construct, with `rest` behind it? -/
def isQuiet (c : Char) (rest : Text) : Bool :=
  c != '<' && c != '>' && (c != ':' && c != '$' || rest.head?.any (· != c))

/-- Outside quotes all characters of the text are quiet, and every quote in it is closed in it.
    It stands in the quotes `quote` at first, if there are any. -/
def isCalm : (quote : Option Char) → Text → Bool
  | quote, [] => quote.isNone
  | quote, c :: cs => (quote.isSome || isQuiet c cs) && isCalm (Event.quoteAfter quote c) cs

theorem isCalm_cons_iff :
    isCalm quote (c :: cs) = true ↔
      (quote = none → isQuiet c cs = true) ∧ isCalm (Event.quoteAfter quote c) cs = true := by
  cases quote with
  | none | some q => simp [isCalm]

/-- Calm texts one behind the other are calm. -/
theorem isCalm_append (hs : isCalm quote s = true) (ht : isCalm none t = true) :
    isCalm quote (s ++ t) = true := by
  induction s generalizing quote with
  | nil =>
    obtain rfl : quote = none := Option.isNone_iff_eq_none.1 hs
    exact ht
  | cons c cs ih =>
    obtain ⟨hquiet, hcs⟩ := isCalm_cons_iff.1 hs
    rw [List.cons_append, isCalm_cons_iff]
    refine ⟨fun hnone => ?_, ih hcs⟩
    have hc := hquiet hnone
    -- The next character is in the first text, unless it does not matter.
    cases cs with
    | nil => simp_all [isQuiet]
    | cons d cs => exact hc

/-- A quote that is open in front of a calm text is closed in it. -/
theorem exists_of_isCalm_some {q : Char} (h : isCalm (some q) t = true) :
    ∃ value rest, t = value ++ q :: rest ∧ q ∉ value ∧ isCalm none rest = true := by
  induction t with
  | nil => cases h
  | cons c cs ih =>
    obtain ⟨-, hcs⟩ := isCalm_cons_iff.1 h
    by_cases hc : c = q
    · rw [hc, Event.quoteAfter, if_pos rfl] at hcs
      exact ⟨[], cs, by rw [hc]; rfl, by simp, hcs⟩
    · rw [Event.quoteAfter, if_neg hc] at hcs
      obtain ⟨value, rest, rfl, hvalue, hrest⟩ := ih hcs
      exact ⟨c :: value, rest, rfl, by simp [hvalue, Ne.symm hc], hrest⟩

/-- `isCalm` holds of a text that is enclosed. -/
theorem isCalm_enclose {quote : Quote} {value : Text} (h : quote.char ∉ value) :
    isCalm none (quote.enclose value) = true := by
  have hvalue (t : Text) (ht : quote.char ∉ t) : isCalm (some quote.char) (t ++ [quote.char]) = true := by
    induction t with
    | nil => simp [isCalm, Event.quoteAfter]
    | cons c cs ih =>
      obtain ⟨hc, hcs⟩ := not_or.1 (List.mem_cons.not.1 ht)
      rw [List.cons_append, isCalm_cons_iff, Event.quoteAfter, if_neg (Ne.symm hc)]
      exact ⟨by simp, ih hcs⟩
  rw [Quote.enclose, List.cons_append, isCalm_cons_iff]
  refine ⟨fun _ => by cases quote <;> rfl, ?_⟩
  have hquote : Event.quoteAfter none quote.char = some quote.char := by cases quote <;> rfl
  rw [hquote]
  exact hvalue value h

/-- A quiet character outside quotes is no construct and ends nothing. -/
theorem finds_of_isQuiet (h : isQuiet c cs = true) (hquote : Quote.ofChar? c = none) (t : Text) :
    Finds [c] (Piece.prepend [c]) (cs ++ t) := by
  simp only [isQuiet, Bool.and_eq_true, bne_iff_ne, Bool.or_eq_true] at h
  obtain ⟨⟨hlt, hgt⟩, hnext⟩ := h
  -- A second colon or dollar sign would be the next character of the text.
  have hpair (hc : c = ':' ∨ c = '$') : (cs ++ t).head? ≠ some c := by
    rcases hnext with ⟨hcolon, hdollar⟩ | hnext
    · rcases hc with hc | hc
      · exact absurd hc hcolon
      · exact absurd hc hdollar
    · cases cs with
      | nil => cases hnext
      | cons d cs => simpa using hnext
  have hprefix (hc : c = ':' ∨ c = '$') : ¬[c, c] <+: c :: (cs ++ t) := by
    rintro ⟨rest, hrest⟩
    exact hpair hc (by rw [← (List.cons.inj hrest).2]; rfl)
  have hspan : Span.take? (c :: (cs ++ t)) = none := by
    refine Span.take?_of_not_prefix fun hcolons => ?_
    obtain rfl : ':' = c := (List.cons_prefix_cons.1 hcolons).1
    exact hprefix (.inl rfl) hcolons
  have hinline : Inline.take? (c :: (cs ++ t)) = none := by
    refine Inline.take?_eq_none hspan fun hdollars => ?_
    obtain rfl : '$' = c := (List.cons_prefix_cons.1 hdollars).1
    exact hprefix (.inr rfl) hdollars
  rw [Finds, List.singleton_append, close?, if_neg hgt, if_neg hlt, if_neg (by simp [hquote])]
  split
  · next htake => rw [hinline] at htake; cases htake
  · rfl

/-- A calm run is plain, whatever follows it. -/
theorem finds_of_isCalm (h : isCalm none u = true) (t : Text) : Finds u (Piece.ahead u) t := by
  -- A quoted value is taken at once, so the induction is on the length.
  induction hlen : u.length using Nat.strongRecOn generalizing u with
  | _ n ih =>
    cases u with
    | nil =>
      rw [Finds, List.nil_append]
      simp
    | cons c cs =>
      obtain ⟨hquiet, hcs⟩ := isCalm_cons_iff.1 h
      cases hquote : Quote.ofChar? c with
      | none =>
        have hafter : Event.quoteAfter none c = none := by
          simp only [Quote.ofChar?] at hquote
          split at hquote
          · cases hquote
          · split at hquote
            · cases hquote
            · next hdouble hsingle => simp [Event.quoteAfter, hdouble, hsingle]
        rw [hafter] at hcs
        have hrest := ih cs.length (by rw [← hlen]; simp) hcs rfl
        have happend := (finds_of_isQuiet (hquiet rfl) hquote t).append hrest
        simpa only [Piece.prepend_ahead _ _ _ (List.cons_ne_nil c []), List.singleton_append]
          using happend
      | some quote =>
        obtain rfl := Quote.ofChar?_eq_some_iff.1 hquote
        have hafter : Event.quoteAfter none quote.char = some quote.char := by cases quote <;> rfl
        rw [hafter] at hcs
        obtain ⟨value, rest, rfl, hvalue, hrest⟩ := exists_of_isCalm_some hcs
        have hfinds := ih rest.length (by rw [← hlen]; simp; omega) hrest rfl
        have happend := (finds_enclose hvalue (rest ++ t)).append hfinds
        have hne : quote.enclose value ≠ [] := List.cons_ne_nil _ _
        have htext : quote.enclose value ++ rest = quote.char :: (value ++ quote.char :: rest) :=
          Quote.enclose_append quote value rest
        simpa only [Piece.prepend_ahead _ _ _ hne, htext] using happend

end StartTag

/-- Looking for the end of a tag runs over a calm text. -/
theorem Event.closeTag?_append_of_isCalm {quote : Option Char} {u : Text}
    (h : StartTag.isCalm quote u = true) (t : Text) :
    closeTag? quote (u ++ t) = (closeTag? none t).map fun (content, rest) => (u ++ content, rest) := by
  induction u generalizing quote with
  | nil =>
    obtain rfl : quote = none := Option.isNone_iff_eq_none.1 h
    exact skips_nil t
  | cons c cs ih =>
    obtain ⟨hquiet, hcs⟩ := StartTag.isCalm_cons_iff.1 h
    have hopen : ¬(quote = none ∧ c = '>') := by
      rintro ⟨hnone, rfl⟩
      simpa [StartTag.isQuiet] using hquiet hnone
    rw [List.cons_append, closeTag?, if_neg hopen, ih hcs, Option.map_map]
    cases closeTag? none t <;> simp

/-! ## Settled runs -/

/-- Does the value behind an attribute's name end in the text, so that something follows it? -/
def AttributeValue.endsIn (t : Text) : Bool :=
  match t.dropWhile isAsciiBlank with
  | '=' :: rest =>
    match rest.dropWhile isAsciiBlank with
    | [] => false
    | c :: cs =>
      match Quote.ofChar? c with
      | some quote => (Text.cut? [quote.char] cs).isSome
      | none => (c :: cs).dropWhile isUnquotedChar != []
  -- Behind a bare name, anything will do.
  | _ => t != []

namespace Text

/-- A run that stops in the first text stops there whatever follows. -/
theorem span_append_of_dropWhile_ne {p : Char → Bool} (h : s.dropWhile p ≠ []) (t : Text) :
    (s ++ t).takeWhile p = s.takeWhile p ∧ (s ++ t).dropWhile p = s.dropWhile p ++ t := by
  have hstop (c : Char) (hc : (s.dropWhile p ++ t).head? = some c) : p c = false := by
    have hhead := List.head?_dropWhile_not p s
    cases hdrop : s.dropWhile p with
    | nil => exact absurd hdrop h
    | cons d ds =>
      rw [hdrop] at hc hhead
      obtain rfl : d = c := Option.some.inj hc
      simpa using hhead
  have hrun (c : Char) (hc : c ∈ s.takeWhile p) : p c = true := List.mem_takeWhile_imp hc
  have hsplit : s ++ t = s.takeWhile p ++ (s.dropWhile p ++ t) := by
    rw [← List.append_assoc, List.takeWhile_append_dropWhile]
  rw [hsplit]
  exact ⟨takeWhile_append hrun hstop, dropWhile_append hrun hstop⟩

/-- In `s ++ t`, a last character belongs to `t` if there is one. -/
theorem exists_of_append_eq_concat {s t u : Text} {c : Char} (ht : t ≠ []) (h : s ++ t = u ++ [c]) :
    ∃ v, t = v ++ [c] ∧ u = s ++ v := by
  rcases List.eq_nil_or_concat t with rfl | ⟨v, d, rfl⟩
  · exact absurd rfl ht
  · rw [List.concat_eq_append, ← List.append_assoc] at h
    obtain ⟨rfl, hd⟩ := List.append_inj' h rfl
    exact ⟨v, by rw [List.concat_eq_append, hd], rfl⟩

end Text

namespace AttributeValue

variable {t rest : Text}

theorem takeAssigned_append_of_quote {quote : Quote} {value after : Text}
    (hquote : Quote.ofChar? c = some quote) (hcut : Text.cut? [quote.char] cs = some (value, after))
    :
    takeAssigned (c :: cs) = (quoted value quote, after) := by
  rw [takeAssigned, hquote]
  simp only [hcut]

/-- A value that ends in the text is read alike whatever follows.  Behind a bare name this is so
    if no blank and no equals sign follows. -/
theorem take_append_of_endsIn (h : endsIn t = true)
    (hrest : ∀ c, rest.head? = some c → Attribute.isNameChar c = true) :
    take (t ++ rest) = ((take t).1, (take t).2 ++ rest) := by
  rw [endsIn] at h
  split at h
  · next r hdrop =>
    -- An equals sign, and a value behind it.
    have hne : t.dropWhile isAsciiBlank ≠ [] := by rw [hdrop]; exact List.cons_ne_nil _ _
    have hskip := (Text.span_append_of_dropWhile_ne hne rest).2
    rw [hdrop] at hskip
    have htake : take t = takeAssigned (r.dropWhile isAsciiBlank) := by simp only [take, hdrop]
    have htake' : take (t ++ rest) = takeAssigned ((r ++ rest).dropWhile isAsciiBlank) := by
      simp only [take, hskip, List.cons_append]
    rw [htake, htake']
    split at h
    · cases h
    · next c cs hvalue =>
      have hne' : r.dropWhile isAsciiBlank ≠ [] := by rw [hvalue]; exact List.cons_ne_nil _ _
      rw [(Text.span_append_of_dropWhile_ne hne' rest).2, hvalue]
      split at h
      · next quote hquote =>
        obtain ⟨⟨value, after⟩, hcut⟩ := Option.isSome_iff_exists.1 h
        rw [takeAssigned_append_of_quote hquote hcut, List.cons_append,
          takeAssigned_append_of_quote hquote (Text.cut?_append_of_some hcut rest)]
      · next hquote =>
        have hstop : (c :: cs).dropWhile isUnquotedChar ≠ [] := by simpa using h
        obtain ⟨htaken, hleft⟩ := Text.span_append_of_dropWhile_ne hstop rest
        rw [takeAssigned, hquote, List.cons_append, takeAssigned, hquote, ← List.cons_append]
        simp only [htaken, hleft]
  · next hbare =>
    have hequals : ∀ u, (t ++ rest).dropWhile isAsciiBlank ≠ '=' :: u := by
      intro u hu
      by_cases hdrop : t.dropWhile isAsciiBlank = []
      · -- Blanks only: what follows begins a name.
        rw [List.dropWhile_append, hdrop, List.isEmpty_nil, if_pos rfl] at hu
        cases rest with
        | nil => cases hu
        | cons c cs =>
          have hc := Attribute.isNameChar_iff.1 (hrest c rfl)
          rw [List.dropWhile_cons_of_neg (by simp [hc.1])] at hu
          exact hc.2.1 (List.cons.inj hu).1
      · rw [(Text.span_append_of_dropWhile_ne hdrop rest).2] at hu
        cases hcons : t.dropWhile isAsciiBlank with
        | nil => exact hdrop hcons
        | cons c cs =>
          rw [hcons] at hu
          obtain ⟨rfl, -⟩ := List.cons.inj hu
          exact hbare cs hcons
    have htake : take t = (bare, t) := by
      rw [take]
      split
      · next r hdrop => exact absurd hdrop (hbare r)
      · rfl
    rw [htake, take]
    split
    · next u hdrop => exact absurd hdrop (hequals u)
    · rfl

end AttributeValue

namespace Attribute

/-- Do the attributes in the text end in it, so that a name behind it begins a new one? -/
def isSettled : Text → Bool
  | [] => true
  | c :: cs =>
    if isAsciiBlank c || c == '/' || c == '=' then isSettled cs
    else c != '>' && AttributeValue.endsIn (cs.dropWhile isNameChar) &&
      isSettled (AttributeValue.take (cs.dropWhile isNameChar)).2
termination_by t => t.length
decreasing_by
  · simp
  · have h₁ := AttributeValue.length_take_le (cs.dropWhile isNameChar)
    have h₂ := (List.dropWhile_suffix (l := cs) isNameChar).length_le
    simp only [List.length_cons]
    omega

theorem ne_nil_of_endsIn (h : AttributeValue.endsIn t = true) : t ≠ [] := by
  rintro rfl
  cases h

/-- The attributes of a settled text and of what follows it. -/
theorem parse_append_of_isSettled {rest : Text} (h : isSettled t = true)
    (hrest : ∀ c, rest.head? = some c → isNameChar c = true) :
    parse (t ++ rest) = parse t ++ parse rest := by
  fun_induction isSettled t with
  | case1 =>
    rw [List.nil_append, parse.eq_def []]
    rfl
  | case2 c cs hc ih =>
    rw [List.cons_append, parse, if_pos hc, parse, if_pos hc]
    exact ih h
  | case3 c cs hc ih =>
    simp only [Bool.and_eq_true, bne_iff_ne] at h
    obtain ⟨⟨hgt, hends⟩, hsettled⟩ := h
    obtain ⟨hname, hleft⟩ := Text.span_append_of_dropWhile_ne (ne_nil_of_endsIn hends) rest
    rw [List.cons_append, parse, if_neg hc, if_neg hgt, parse, if_neg hc, if_neg hgt, hname, hleft,
      AttributeValue.take_append_of_endsIn hends hrest]
    simp only [List.cons_append, ih hsettled]

/-- The name and the value of the attribute are parts of the text. -/
def Within (a : Attribute) (t : Text) : Prop := a.name <:+: t ∧ ∀ v, a.value.text? = some v → v <:+: t

theorem Within.of_infix (h : a.Within s) (hs : s <:+: t) : a.Within t :=
  ⟨h.1.trans hs, fun v hv => (h.2 v hv).trans hs⟩

/-- `parse` gives attributes of the text. -/
theorem within_of_mem_parse (h : a ∈ parse t) : a.Within t := by
  refine ⟨?_, fun v hv => ?_⟩
  · fun_induction parse t with
    | case1 => cases h
    | case2 c cs hc ih => exact (ih h).trans (List.suffix_cons c cs).isInfix
    | case3 => cases h
    | case4 c cs hc hgt taken ih =>
      have hleft : taken.2 <:+ c :: cs :=
        ((AttributeValue.suffix_of_take _).trans (List.dropWhile_suffix isNameChar)).trans
          (List.suffix_cons c cs)
      rcases List.mem_cons.1 h with rfl | h
      · have hname : c :: cs.takeWhile isNameChar <+: c :: cs :=
          (List.prefix_cons_inj c).2 (List.takeWhile_prefix isNameChar)
        exact hname.isInfix
      · exact (ih h).trans hleft.isInfix
  · obtain ⟨more, hsuffix, -⟩ := exists_suffix_of_mem_parse h hv
    exact (List.prefix_append v more).isInfix.trans hsuffix.isInfix

/-- A holder is read as an attribute of its own, whatever follows. -/
theorem parse_holderText_append (f : Family) (n : Nat) (rest : Text) :
    parse (f.holderText n ++ rest) = f.holderAttribute n :: parse rest := by
  have hread := (f.isCanonical_holderAttribute n).isReadable
  have hquote : Quote.double.char ∉ f.token n := Tables.quote_not_mem_token f n
  have htake := AttributeValue.take_quoted hquote rest
  have hparse := parse_text_append hread (fun c hc => ?_) htake
  · rw [Family.text_holderAttribute, List.cons_append, parse, if_pos (by decide)] at hparse
    exact hparse
  · obtain rfl : '=' = c := Option.some.inj hc
    decide

end Attribute

/-! ## Fields -/

/-- What stands between two runs of a start tag: an inline construct, or a holder in its place. -/
inductive Field where
  | inline (construct : Inline)
  | holder (family : Family) (index : Nat)

namespace Field

/-- The field as it is written. -/
def text : Field → Text
  | inline i => i.source
  | holder f n => f.holderText n

/-- The field as the scanner sees it. -/
def piece : Field → Piece Inline
  | inline i => .token i
  | holder f n => .plain (f.holderText n)

/-- Fields with a run behind each, as they are written. -/
def textAll (fields : List (Field × Text)) : Text := fields.flatMap fun (f, t) => f.text ++ t

/-- Fields with a run behind each, as the scanner sees them. -/
def pieces (fields : List (Field × Text)) : List (Piece Inline) :=
  fields.flatMap fun (f, t) => [f.piece, .plain t]

theorem textAll_cons (f : Field) (t : Text) (fields : List (Field × Text)) :
    textAll ((f, t) :: fields) = f.text ++ (t ++ textAll fields) := List.append_assoc ..

theorem pieces_cons (f : Field) (t : Text) (fields : List (Field × Text)) :
    pieces ((f, t) :: fields) = f.piece :: .plain t :: pieces fields := rfl

/-- The run in front of the first construct, and each construct with the run behind it. -/
def split : List (Piece Inline) → Text × List (Field × Text)
  | [] => ([], [])
  | .plain t :: ps => (t ++ (split ps).1, (split ps).2)
  | .token i :: ps => ([], (.inline i, (split ps).1) :: (split ps).2)

/-- Is the field a construct that one of the passes holds, or a holder already? -/
def isHeld : Field → Bool
  | inline (.directive span) => (AttributeDirective.classify? span).isSome
  | _ => true

/-- The run `t` and the fields behind it make up a tag from its name to its end: the runs are calm,
    and each in front of a field satisfies `settles`, or is settled if it is not the first. -/
def areOrderly (settles : Text → Bool) (t : Text) : List (Field × Text) → Bool
  | [] => t.getLast? == some '>' && StartTag.isCalm none t.dropLast
  | (f, u) :: fields =>
    StartTag.isCalm none t && settles t && f.isHeld && areOrderly Attribute.isSettled u fields

/-- May a field follow the run behind a tag's name?  A blank has to end the name first. -/
def mayFollow (t : Text) : Bool :=
  t.any Event.isMarkupBlank && Attribute.isSettled (t.dropWhile (!Event.isMarkupBlank ·))

/-- A construct that the scanner finds again in front of any text. -/
def IsFound : Field → Prop
  | inline (.directive span) => ∃ b, Span.IsBody b ∧ span = Span.ofBody b
  | inline (.call _) => False
  | holder _ _ => True

variable {settles : Text → Bool} {t : Text} {fields : List (Field × Text)}

/-- `areOrderly` without fields is a calm rest. -/
theorem areOrderly_nil_iff :
    areOrderly settles t [] = true ↔ ∃ u, t = u ++ ['>'] ∧ StartTag.isCalm none u = true := by
  rw [areOrderly, Bool.and_eq_true, beq_iff_eq, List.getLast?_eq_some_iff]
  constructor
  · rintro ⟨⟨u, rfl⟩, hcalm⟩
    rw [List.dropLast_concat] at hcalm
    exact ⟨u, rfl, hcalm⟩
  · rintro ⟨u, rfl, hcalm⟩
    exact ⟨⟨u, rfl⟩, by rwa [List.dropLast_concat]⟩

theorem areOrderly_cons_iff {f : Field} :
    areOrderly settles t ((f, u) :: fields) = true ↔ (StartTag.isCalm none t = true ∧
      settles t = true) ∧ f.isHeld = true ∧ areOrderly Attribute.isSettled u fields = true := by
  rw [areOrderly, Bool.and_eq_true, Bool.and_eq_true, Bool.and_eq_true, and_assoc]

/-- Every field of an orderly tag is held. -/
theorem isHeld_of_areOrderly {x : Field × Text} (h : areOrderly settles t fields = true)
    (hx : x ∈ fields) : x.1.isHeld = true := by
  induction fields generalizing settles t with
  | nil => cases hx
  | cons y fields ih =>
    obtain ⟨f, u⟩ := y
    obtain ⟨-, hheld, horderly⟩ := areOrderly_cons_iff.1 h
    rcases List.mem_cons.1 hx with rfl | hmem
    · exact hheld
    · exact ih horderly hmem

theorem isCalm_holderText (f : Family) (n : Nat) : StartTag.isCalm none (f.holderText n) = true := by
  have htext : f.holderText n = (f.holder ++ ['=']) ++ Quote.double.enclose (f.token n) := by
    simp [Family.holderText]
  have hquote : Quote.double.char ∉ f.token n := Tables.quote_not_mem_token f n
  rw [htext]
  exact StartTag.isCalm_append (by cases f <;> rfl) (StartTag.isCalm_enclose hquote)

/-- The scanner finds the runs and fields of a tag, whatever follows it. -/
theorem close?_fields (h : areOrderly settles t fields = true) (hfound : ∀ x ∈ fields, x.1.IsFound)
    (rest : Text) :
    StartTag.close? (t ++ (textAll fields ++ rest)) =
      some (Piece.join (.plain t :: pieces fields), rest) := by
  induction fields generalizing settles t with
  | nil =>
    obtain ⟨u, rfl, hcalm⟩ := areOrderly_nil_iff.1 h
    have hclose : StartTag.close? ('>' :: rest) = some ([.plain ['>']], rest) := by
      rw [StartTag.close?, if_pos rfl]
    have hfinds := StartTag.finds_of_isCalm hcalm ('>' :: rest)
    rw [StartTag.Finds, hclose] at hfinds
    rw [show u ++ ['>'] ++ (textAll [] ++ rest) = u ++ '>' :: rest by simp [textAll], hfinds]
    show some (Piece.ahead u (Piece.ahead ['>'] []), rest) = some (Piece.ahead (u ++ ['>']) [], rest)
    by_cases hu : u = []
    · subst hu
      rfl
    · rw [Piece.ahead, if_neg hu, Piece.prepend_ahead _ _ _ hu]
  | cons x fields ih =>
    obtain ⟨f, u⟩ := x
    obtain ⟨⟨hcalm, -⟩, -, horderly⟩ := areOrderly_cons_iff.1 h
    obtain ⟨hf, hfields⟩ := List.forall_mem_cons.1 hfound
    have hrest := ih horderly hfields
    have hfinds := StartTag.finds_of_isCalm hcalm (f.text ++ (u ++ (textAll fields ++ rest)))
    rw [textAll_cons, List.append_assoc, List.append_assoc, hfinds, pieces_cons, Piece.join_plain_cons]
    cases f with
    | holder f n =>
      have hholder := StartTag.finds_of_isCalm (isCalm_holderText f n) (u ++ (textAll fields ++ rest))
      rw [StartTag.Finds, hrest] at hholder
      show (StartTag.close? (f.holderText n ++ _)).map _ = _
      rw [hholder]
      rfl
    | inline i =>
      cases i with
      | call c => exact absurd hf id
      | directive span =>
        obtain ⟨b, hb, rfl⟩ := hf
        have hspan := StartTag.finds_span hb (u ++ (textAll fields ++ rest))
        rw [StartTag.Finds, hrest] at hspan
        show (StartTag.close? (Span.ofBody b ++ _)).map _ = _
        rw [hspan]
        rfl

/-! ## Reading a tag whose constructs are all held -/

/-- No construct of the source is left in the tag. -/
def AllHeld (fields : List (Field × Text)) : Prop := ∀ x ∈ fields, ∃ f n, x.1 = holder f n

/-- The reader of markup ends the tag where it ends. -/
theorem closeTag?_fields (h : areOrderly settles t fields = true) (hheld : AllHeld fields) :
    ∃ content, t ++ textAll fields = content ++ ['>'] ∧
      ∀ rest, Event.closeTag? none (t ++ (textAll fields ++ rest)) = some (content, rest) := by
  induction fields generalizing settles t with
  | nil =>
    obtain ⟨u, rfl, hcalm⟩ := areOrderly_nil_iff.1 h
    refine ⟨u, by simp [textAll], fun rest => ?_⟩
    have hclose := Event.closeTag?_append_of_isCalm hcalm ('>' :: rest)
    rw [Event.closeTag?, if_pos ⟨rfl, rfl⟩] at hclose
    simpa [textAll] using hclose
  | cons x fields ih =>
    obtain ⟨field, u⟩ := x
    obtain ⟨⟨hcalm, -⟩, -, horderly⟩ := areOrderly_cons_iff.1 h
    obtain ⟨⟨f, n, rfl⟩, hfields⟩ := List.forall_mem_cons.1 hheld
    obtain ⟨content, hcontent, hclose⟩ := ih horderly hfields
    refine ⟨t ++ (f.holderText n ++ content), ?_, fun rest => ?_⟩
    · rw [textAll_cons, hcontent]
      simp [text]
    · rw [textAll_cons, List.append_assoc, List.append_assoc,
        Event.closeTag?_append_of_isCalm hcalm]
      show Option.map _ (Event.closeTag? none (f.holderText n ++ _)) = _
      rw [Event.closeTag?_append_of_isCalm (isCalm_holderText f n), hclose]
      rfl

/-- An attribute of the tag stands within one of its runs, or it is one of its holders.  A slash in
    front of the tag's end may be left out, and the first run may be cut at its front. -/
theorem within_or_holder_of_mem_parse {lead : Text} (h : areOrderly settles lead fields = true)
    (hsettled : fields = [] ∨ Attribute.isSettled t = true) (hheld : AllHeld fields)
    {content trimmed : Text} (hcontent : t ++ textAll fields = content ++ ['>'])
    (htrimmed : content = trimmed ∨ content = trimmed ++ ['/']) (ha : a ∈ Attribute.parse trimmed) :
    (∃ u ∈ t :: fields.map Prod.snd, a.Within u) ∨
      ∃ f n u, (holder f n, u) ∈ fields ∧ a = f.holderAttribute n := by
  induction fields generalizing settles lead t content trimmed with
  | nil =>
    refine .inl ⟨t, List.mem_cons_self, Attribute.Within.of_infix (Attribute.within_of_mem_parse ha) ?_⟩
    have ht : t = content ++ ['>'] := by simpa [textAll] using hcontent
    rw [ht]
    rcases htrimmed with rfl | rfl
    · exact (List.prefix_append _ _).isInfix
    · rw [List.append_assoc]
      exact (List.prefix_append _ _).isInfix
  | cons x fields ih =>
    obtain ⟨field, u⟩ := x
    obtain ⟨-, -, horderly⟩ := areOrderly_cons_iff.1 h
    obtain ⟨⟨f, n, rfl⟩, hfields⟩ := List.forall_mem_cons.1 hheld
    obtain ⟨inner, hinner, -⟩ := closeTag?_fields horderly hfields
    have hsettled : Attribute.isSettled t = true := hsettled.resolve_left (List.cons_ne_nil _ _)
    have hnext : fields = [] ∨ Attribute.isSettled u = true := by
      cases fields with
      | nil => exact .inl rfl
      | cons y fields => exact .inr (areOrderly_cons_iff.1 horderly).1.2
    -- The run, the holder, and the rest of the tag.
    have hsplit : content = t ++ (f.holderText n ++ inner) := by
      rw [textAll_cons, hinner, ← List.append_assoc, ← List.append_assoc] at hcontent
      rw [← List.append_cancel_right hcontent, List.append_assoc]
      rfl
    -- A holder ends with a quote, so a slash at the end belongs to the rest.
    have hrest : ∃ rest, (inner = rest ∨ inner = rest ++ ['/']) ∧
        trimmed = t ++ (f.holderText n ++ rest) := by
      rcases htrimmed with rfl | htrimmed
      · exact ⟨inner, .inl rfl, hsplit⟩
      · rw [htrimmed, ← List.append_assoc] at hsplit
        have hne : inner ≠ [] := by
          rintro rfl
          have htext : f.holderText n = f.holder ++ '=' :: '"' :: f.token n ++ ['"'] := by
            simp [Family.holderText, Quote.enclose, Quote.char]
          rw [List.append_nil, htext, ← List.append_assoc] at hsplit
          cases (List.append_inj' hsplit rfl).2
        obtain ⟨rest, rfl, rfl⟩ := Text.exists_of_append_eq_concat hne hsplit.symm
        exact ⟨rest, .inr rfl, List.append_assoc ..⟩
    obtain ⟨rest, hrest, rfl⟩ := hrest
    have hname (c : Char) (hc : (f.holderText n ++ rest).head? = some c) :
        Attribute.isNameChar c = true := by
      cases f <;> (obtain rfl := Option.some.inj hc; rfl)
    rw [Attribute.parse_append_of_isSettled hsettled hname, Attribute.parse_holderText_append,
      List.mem_append, List.mem_cons] at ha
    rcases ha with ha | rfl | ha
    · exact .inl ⟨t, List.mem_cons_self, Attribute.within_of_mem_parse ha⟩
    · exact .inr ⟨f, n, u, List.mem_cons_self, rfl⟩
    · rcases ih horderly hnext hfields hinner hrest ha with ⟨v, hv, hwithin⟩ | ⟨g, m, v, hmem, heq⟩
      · exact .inl ⟨v, List.mem_cons_of_mem _ hv, hwithin⟩
      · exact .inr ⟨g, m, v, List.mem_cons_of_mem _ hmem, heq⟩

/-- `textAll` of fields is more than one character. -/
theorem length_textAll_pos {x : Field × Text} (hheld : AllHeld (x :: fields)) :
    1 < (textAll (x :: fields)).length := by
  obtain ⟨f, u⟩ := x
  obtain ⟨⟨family, n, rfl⟩, -⟩ := List.forall_mem_cons.1 hheld
  have hquotes : 1 < (Quote.double.enclose (family.token n)).length := by simp [Quote.enclose]
  rw [textAll_cons, List.length_append]
  simp only [text, Family.holderText, List.length_append, List.length_cons]
  omega

/-- `Event.ofTag` leaves out a slash at the end and cuts the rest at its first blank. -/
theorem exists_ofTag_eq {name : Text} (content : Text)
    (hname : ∀ c ∈ name, StartTag.isNameChar c = true) :
    ∃ trimmed name' raw, (content = trimmed ∨ content = trimmed ++ ['/']) ∧
      (Event.ofTag (name ++ content) = .start name' raw ∨
        Event.ofTag (name ++ content) = .empty name' raw) ∧
      name' = name ++ trimmed.takeWhile (!Event.isMarkupBlank ·) ∧
      raw = trimmed.dropWhile (!Event.isMarkupBlank ·) := by
  have hblank (c : Char) (hc : c ∈ name) : (!Event.isMarkupBlank c) = true := by
    rw [Bool.not_eq_true', Bool.eq_false_iff]
    intro hc'
    have hchar := hname c hc
    simp only [Event.isMarkupBlank, Bool.or_eq_true, beq_iff_eq] at hc'
    rcases hc' with ((rfl | rfl) | rfl) | rfl <;> cases hchar
  rw [Event.ofTag]
  cases hstrip : Text.stripEnd? ['/'] (name ++ content) with
  | none =>
    exact ⟨content, _, _, .inl rfl, .inl rfl, List.takeWhile_append_of_pos hblank,
      List.dropWhile_append_of_pos hblank⟩
  | some body =>
    rw [Text.stripEnd?_eq_some_iff] at hstrip
    -- A slash at the end is none of the name's characters.
    have hne : content ≠ [] := by
      rintro rfl
      cases hname '/' (by rw [← List.append_nil name, hstrip]; simp)
    obtain ⟨trimmed, rfl, rfl⟩ := Text.exists_of_append_eq_concat hne hstrip
    exact ⟨trimmed, _, _, .inr rfl, .inr rfl, List.takeWhile_append_of_pos hblank,
      List.dropWhile_append_of_pos hblank⟩

/-- What `Event.ofTag` makes of a tag: the name goes on into the first run, at most, and the
    attributes stand within the runs or are the holders. -/
theorem exists_of_ofTag {name lead content : Text} (h : areOrderly mayFollow lead fields = true)
    (hheld : AllHeld fields) (hname : ∀ c ∈ name, StartTag.isNameChar c = true)
    (hcontent : lead ++ textAll fields = content ++ ['>']) :
    ∃ name' raw, (Event.ofTag (name ++ content) = .start name' raw ∨
        Event.ofTag (name ++ content) = .empty name' raw) ∧
      name' <+: name ++ lead ∧ raw <:+: lead ++ textAll fields ∧
      ∀ a ∈ Attribute.parse raw, (∃ u ∈ lead :: fields.map Prod.snd, a.Within u) ∨
        ∃ f n u, (holder f n, u) ∈ fields ∧ a = f.holderAttribute n := by
  obtain ⟨trimmed, _, _, htrimmed, htag, rfl, rfl⟩ := exists_ofTag_eq content hname
  refine ⟨_, _, htag, ?_⟩
  have htrim : trimmed <+: content := by
    rcases htrimmed with rfl | rfl
    · exact List.prefix_refl _
    · exact List.prefix_append _ _
  have hwithin : trimmed.dropWhile (!Event.isMarkupBlank ·) <:+: lead ++ textAll fields := by
    rw [hcontent]
    exact (List.dropWhile_suffix _).isInfix.trans (htrim.trans (List.prefix_append _ _)).isInfix
  cases fields with
  | nil =>
    have hlead : lead = content ++ ['>'] := by simpa [textAll] using hcontent
    have htrim : trimmed <+: lead := hlead ▸ htrim.trans (List.prefix_append _ _)
    refine ⟨(List.prefix_append_right_inj name).2 ((List.takeWhile_prefix _).trans htrim), hwithin,
      fun a ha => .inl ⟨lead, List.mem_cons_self, ?_⟩⟩
    exact Attribute.Within.of_infix (Attribute.within_of_mem_parse ha)
      ((List.dropWhile_suffix _).isInfix.trans htrim.isInfix)
  | cons x fields =>
    obtain ⟨f, u⟩ := x
    obtain ⟨⟨-, hfollow⟩, -, -⟩ := areOrderly_cons_iff.1 h
    obtain ⟨hany, hsettled⟩ := Bool.and_eq_true_iff.1 hfollow
    -- The tag ends behind the fields, so the first run is cut at its front only.
    have hlength := length_textAll_pos hheld
    obtain ⟨inner, hinner, rfl⟩ :=
      Text.exists_of_append_eq_concat (List.ne_nil_of_length_pos (by omega)) hcontent
    obtain ⟨inner', hinner', rfl⟩ : ∃ inner', (inner = inner' ∨ inner = inner' ++ ['/']) ∧
        trimmed = lead ++ inner' := by
      rcases htrimmed with rfl | htrimmed
      · exact ⟨inner, .inl rfl, rfl⟩
      · have hne : inner ≠ [] := by
          rintro rfl
          rw [hinner] at hlength
          exact absurd hlength (by simp)
        obtain ⟨inner', rfl, rfl⟩ := Text.exists_of_append_eq_concat hne htrimmed
        exact ⟨inner', .inr rfl, rfl⟩
    have hstops : lead.dropWhile (!Event.isMarkupBlank ·) ≠ [] := by
      rw [Ne, List.dropWhile_eq_nil_iff]
      intro hall
      obtain ⟨c, hc, hblank⟩ := List.any_eq_true.1 hany
      have hnot := hall c hc
      rw [hblank] at hnot
      cases hnot
    obtain ⟨htake, hdrop⟩ := Text.span_append_of_dropWhile_ne hstops inner'
    rw [hdrop] at hwithin ⊢
    rw [htake]
    refine ⟨(List.prefix_append_right_inj name).2 (List.takeWhile_prefix _), hwithin, fun a ha => ?_⟩
    -- What is left of the first run is still settled, so the attributes are found as before.
    generalize hcut : lead.dropWhile (!Event.isMarkupBlank ·) = cut at ha hsettled
    have hcontent' : cut ++ textAll ((f, u) :: fields) = cut ++ inner ++ ['>'] := by
      rw [hinner, List.append_assoc]
    have htrimmed' : cut ++ inner = cut ++ inner' ∨ cut ++ inner = cut ++ inner' ++ ['/'] := by
      rcases hinner' with rfl | rfl
      · exact .inl rfl
      · exact .inr (List.append_assoc ..).symm
    refine (within_or_holder_of_mem_parse h (.inr hsettled) hheld hcontent' htrimmed' ha).imp_left ?_
    rintro ⟨v, hv, hwithin'⟩
    rcases List.mem_cons.1 hv with rfl | hv
    · exact ⟨lead, List.mem_cons_self,
        hwithin'.of_infix (hcut ▸ (List.dropWhile_suffix _).isInfix)⟩
    · exact ⟨v, List.mem_cons_of_mem lead hv, hwithin'⟩

end Field

end TemploTwig
