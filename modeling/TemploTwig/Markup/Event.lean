import TemploTwig.Text.Blank

/-!
# Markup events

Markup is read from left to right into events: tags, text, references, and the constructs that
are carried through as they are.  Nothing is decoded.  Reading stops at the first construct that
is not closed or not known.

* `Event.take?`: the event at the front of a text
* `Event.readAll`: all events of a text
-/

namespace TemploTwig

/-- One construct of a markup text. -/
inductive Event where
  /-- `<name attributes>` -/
  | start (name attributes : Text)
  /-- `<name attributes/>` -/
  | empty (name attributes : Text)
  /-- `</name>` -/
  | close (name : Text)
  | text (content : Text)
  /-- `&name;` -/
  | reference (name : Text)
  /-- `<![CDATA[content]]>` -/
  | cdata (content : Text)
  /-- `<!--content-->` -/
  | comment (content : Text)
  /-- `<!DOCTYPE content>` -/
  | doctype (content : Text)
  /-- `<?content?>` -/
  | instruction (content : Text)
  deriving DecidableEq, Repr

namespace Event

/-- Space, tab, carriage return and line feed. -/
def isMarkupBlank (c : Char) : Bool := c == ' ' || c == '\t' || c == '\r' || c == '\n'

/-- The quotation mark that is open behind `c`. -/
def quoteAfter (quote : Option Char) (c : Char) : Option Char :=
  match quote with
  | some q => if c = q then none else some q
  | none => if c = '"' ∨ c = '\'' then some c else none

/-- The text up to the first `>` outside quotes, and what follows it. -/
def closeTag? : (quote : Option Char) → Text → Option (Text × Text)
  | _, [] => none
  | quote, c :: cs =>
    if quote = none ∧ c = '>' then some ([], cs)
    else (closeTag? (quoteAfter quote c) cs).map fun (content, rest) => (c :: content, rest)

/-- The markup between a `<` in the internal subset of a document type and its end, and what
    follows.  Only in the three declarations that may hold quoted `>` do quotes count. -/
def takeDeclaration? (t : Text) : Option (Text × Text) :=
  match Text.stripStart? "?".toList t with
  | some body =>
    (Text.cut? "?>".toList body).map fun (before, rest) =>
      ("?".toList ++ before ++ "?>".toList, rest)
  | none =>
    match Text.stripStart? "!--".toList t with
    | some body =>
      (Text.cut? "-->".toList body).map fun (before, rest) =>
        ("!--".toList ++ before ++ "-->".toList, rest)
    | none =>
      if ["!ENTITY", "!ATTLIST", "!NOTATION"].any (Text.startsWith t ·.toList) then
        (closeTag? none t).map fun (content, rest) => (content ++ ['>'], rest)
      else
        (Text.cut? ['>'] t).map fun (content, rest) => (content ++ ['>'], rest)

theorem closeTag?_eq_append {quote : Option Char} {t content rest : Text}
    (h : closeTag? quote t = some (content, rest)) : t = content ++ '>' :: rest := by
  fun_induction closeTag? quote t generalizing content rest with
  | case1 => simp at h
  | case2 quote c cs hc =>
    simp only [Option.some.injEq, Prod.mk.injEq] at h
    obtain ⟨rfl, rfl⟩ := h
    simp [hc.2]
  | case3 quote c cs _ ih =>
    simp only [Option.map_eq_some_iff, Prod.exists, Prod.mk.injEq] at h
    obtain ⟨b, r, hclose, rfl, rfl⟩ := h
    simp [ih hclose]

theorem takeDeclaration?_eq_append {t content rest : Text}
    (h : takeDeclaration? t = some (content, rest)) : t = content ++ rest := by
  unfold takeDeclaration? at h
  split at h
  · next hstrip =>
    simp only [Option.map_eq_some_iff, Prod.exists, Prod.mk.injEq] at h
    obtain ⟨b, r, hcut, rfl, rfl⟩ := h
    rw [Text.stripStart?_eq_some_iff.1 hstrip, Text.cut?_eq_append hcut]
    simp
  · split at h
    · next hstrip =>
      simp only [Option.map_eq_some_iff, Prod.exists, Prod.mk.injEq] at h
      obtain ⟨b, r, hcut, rfl, rfl⟩ := h
      rw [Text.stripStart?_eq_some_iff.1 hstrip, Text.cut?_eq_append hcut]
      simp
    · split at h
      · simp only [Option.map_eq_some_iff, Prod.exists, Prod.mk.injEq] at h
        obtain ⟨b, r, hclose, rfl, rfl⟩ := h
        rw [closeTag?_eq_append hclose]
        simp
      · simp only [Option.map_eq_some_iff, Prod.exists, Prod.mk.injEq] at h
        obtain ⟨b, r, hcut, rfl, rfl⟩ := h
        exact Text.cut?_eq_append hcut

/-- The rest of a document type from inside its internal subset, without the closing `>`, and
    what follows. -/
def closeSubset? : Text → Option (Text × Text)
  | [] => none
  | c :: cs =>
    -- Whatever stands between the bracket and the next `>` is taken as it is.
    if c = ']' then (Text.cut? ['>'] cs).map fun (before, rest) => (c :: before, rest)
    else if c = '<' then
      match _h : takeDeclaration? cs with
      | some (declaration, rest) =>
        (closeSubset? rest).map fun (content, after) => (c :: declaration ++ content, after)
      | none => none
    else (closeSubset? cs).map fun (content, rest) => (c :: content, rest)
termination_by t => t.length
decreasing_by
  · have := congrArg List.length (takeDeclaration?_eq_append _h)
    simp only [List.length_append, List.length_cons] at this ⊢
    omega
  · simp

/-- The text of a document type up to its closing `>`, and what follows. -/
def closeDoctype? : (quote : Option Char) → Text → Option (Text × Text)
  | _, [] => none
  | quote, c :: cs =>
    if quote = none ∧ c = '>' then some ([], cs)
    else if quote = none ∧ c = '[' then
      -- The subset is the last part of a document type.
      (closeSubset? cs).map fun (content, rest) => (c :: content, rest)
    else (closeDoctype? (quoteAfter quote c) cs).map fun (content, rest) => (c :: content, rest)

/-- A document type, from what follows `<!`. -/
def takeDoctype? (t : Text) : Option (Event × Text) :=
  (closeDoctype? none t).bind fun (content, rest) =>
    let keyword := "DOCTYPE".toList
    if Text.sameIgnoringCase (content.take keyword.length) keyword then
      let body := (content.drop keyword.length).dropWhile isMarkupBlank
      -- A document type has to name something.
      if body = [] then none else some (doctype body, rest)
    else none

/-- A construct that starts with `<!`, from what follows these characters. -/
def takeBang? (t : Text) : Option (Event × Text) :=
  match t with
  -- The first letter decides, and the rest of the keyword is compared later.
  | 'D' :: _ | 'd' :: _ => takeDoctype? t
  | '-' :: '-' :: body =>
    (Text.cut? "-->".toList body).map fun (content, rest) => (comment content, rest)
  | _ =>
    (Text.stripStart? "[CDATA[".toList t).bind fun body =>
      (Text.cut? "]]>".toList body).map fun (content, rest) => (cdata content, rest)

/-- A processing instruction, from its first question mark on. -/
def takeInstruction? (t : Text) : Option (Event × Text) :=
  (Text.cut? "?>".toList t).bind fun
    | (_ :: content, rest) => some (instruction content, rest)
    -- In `<?>` one question mark would have to serve twice.
    | ([], _) => none

/-- The name of an end tag.  Blanks behind a name do not belong to it. -/
def closingName (content : Text) : Text :=
  match content.reverse.dropWhile isMarkupBlank with
  | [] => content
  | name => name.reverse

/-- A start tag from what stands between `<` and `>`. -/
def ofTag (content : Text) : Event :=
  match Text.stripEnd? ['/'] content with
  | some content => empty (content.takeWhile (!isMarkupBlank ·)) (content.dropWhile (!isMarkupBlank ·))
  | none => start (content.takeWhile (!isMarkupBlank ·)) (content.dropWhile (!isMarkupBlank ·))

/-- A construct that starts with `<`, from what follows. -/
def takeMarkup? : Text → Option (Event × Text)
  | [] => none
  | c :: cs =>
    if c = '!' then takeBang? cs
    else if c = '?' then takeInstruction? (c :: cs)
    else if c = '/' then
      (closeTag? none cs).map fun (content, rest) => (close (closingName content), rest)
    else (closeTag? none (c :: cs)).map fun (content, rest) => (ofTag content, rest)

/-- A reference, from what follows its `&`. -/
def takeReference? (t : Text) : Option (Event × Text) :=
  let isNameChar := fun c => c != ';' && c != '<' && c != '&'
  -- A `<` or another `&` in front of the semicolon leaves this one without a reference.
  match t.dropWhile isNameChar with
  | ';' :: rest => some (reference (t.takeWhile isNameChar), rest)
  | _ => none

/-- May the character stand in a text event? -/
def isTextChar (c : Char) : Bool := c != '<' && c != '&'

/-- The event at the front of a text, and what follows. -/
def take? : Text → Option (Event × Text)
  | [] => none
  | c :: cs =>
    if c = '<' then takeMarkup? cs
    else if c = '&' then takeReference? cs
    else some (text (c :: cs.takeWhile isTextChar), cs.dropWhile isTextChar)

end Event

end TemploTwig
