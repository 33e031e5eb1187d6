import TemploTwig.Text.Basic

/-!
# Quoted texts in TOML

The four kinds of quoted text: between `"` or `'` on one line, and between three of them over
several lines.  Escapes are read between `"` only.

Each reader gets the text behind the opening quotes and gives the value and what follows the
closing quotes, or nothing if the text is not well formed.
-/

namespace TemploTwig.Toml

/-- May the character stand in a comment or a quoted text?  Control characters other than the
    tab may not. -/
def isPlainChar (c : Char) : Bool := c == '\t' || (0x20 ≤ c.toNat && c.toNat != 0x7f)

/-- Space or tab. -/
def isInlineBlank (c : Char) : Bool := c == ' ' || c == '\t'

/-- What follows the line break at the front of a text. -/
def stripLineBreak? : Text → Option Text
  | '\n' :: rest => some rest
  | '\r' :: '\n' :: rest => some rest
  | _ => none

/-- The value of a hexadecimal digit. -/
def hexValue? (c : Char) : Option Nat :=
  if c.isDigit then some (c.toNat - '0'.toNat)
  else if 'a' ≤ c ∧ c ≤ 'f' then some (c.toNat - 'a'.toNat + 10)
  else if 'A' ≤ c ∧ c ≤ 'F' then some (c.toNat - 'A'.toNat + 10)
  else none

/-- The number in a list of hexadecimal digits. -/
def hexNumber? (digits : Text) : Option Nat :=
  digits.foldlM (fun n c => (hexValue? c).map (16 * n + ·)) 0

/-- The character with a code point given in `count` hexadecimal digits, and what follows. -/
def takeCodePoint? (count : Nat) (t : Text) : Option (Char × Text) :=
  if t.length < count then none
  else
    (hexNumber? (t.take count)).bind fun n =>
      if n.isValidChar then some (Char.ofNat n, t.drop count) else none

/-- The character that an escape stands for, from what follows its backslash. -/
def takeEscape? : Text → Option (Char × Text)
  | 'b' :: rest => some ('\x08', rest)
  | 't' :: rest => some ('\t', rest)
  | 'n' :: rest => some ('\n', rest)
  | 'f' :: rest => some ('\x0c', rest)
  | 'r' :: rest => some ('\r', rest)
  | 'e' :: rest => some ('\x1b', rest)
  | '"' :: rest => some ('"', rest)
  | '\\' :: rest => some ('\\', rest)
  | 'x' :: rest => takeCodePoint? 2 rest
  | 'u' :: rest => takeCodePoint? 4 rest
  | 'U' :: rest => takeCodePoint? 8 rest
  | _ => none

/-- A text between single quotes. -/
def takeLiteral? (t : Text) : Option (Text × Text) :=
  match Text.cut? ['\''] t with
  | some (value, rest) => if value.all isPlainChar then some (value, rest) else none
  | none => none

/-- A text between double quotes.  Each step takes something off the text, so `fuel` need not
    exceed its length. -/
def takeBasic? : (fuel : Nat) → Text → Option (Text × Text)
  | 0, _ => none
  | _, [] => none
  | fuel + 1, c :: cs =>
    if c = '"' then some ([], cs)
    else if c = '\\' then
      (takeEscape? cs).bind fun (value, rest) =>
        (takeBasic? fuel rest).map fun (values, rest) => (value :: values, rest)
    else if isPlainChar c then
      (takeBasic? fuel cs).map fun (values, rest) => (c :: values, rest)
    else none

/-- The quotes at the end of a text over several lines, if `mark` is doubled at least three times:
    up to two of them belong to the value. -/
def takeClosing? (mark : Char) (t : Text) : Option (Text × Text) :=
  let count := (t.takeWhile (· = mark)).length
  if count < 3 then none
  else
    -- Quotes in front of the last three belong to the value, but no more than two.
    let inside := min (count - 3) 2
    some (List.replicate inside mark, t.drop (inside + 3))

/-- What follows an escaped line break and all blanks behind it.  Blanks may stand between the
    backslash and the line break. -/
def skipEscapedBreak? (t : Text) : Option Text :=
  (stripLineBreak? (t.dropWhile isInlineBlank)).map
    (·.dropWhile fun c => isInlineBlank c || c == '\n' || c == '\r')

/-- A text over several lines between three quotes `mark`.  Escapes count only if `escapes`. -/
def takeLines? (mark : Char) (escapes : Bool) : (fuel : Nat) → Text → Option (Text × Text)
  | 0, _ => none
  | _, [] => none
  | fuel + 1, c :: cs =>
    match takeClosing? mark (c :: cs) with
    | some (value, rest) => some (value, rest)
    | none =>
      match stripLineBreak? (c :: cs) with
      | some rest => (takeLines? mark escapes fuel rest).map fun (vs, after) => ('\n' :: vs, after)
      | none =>
        if escapes && c == '\\' then
          match skipEscapedBreak? cs with
          -- An escaped line break leaves nothing in the value.
          | some rest => takeLines? mark escapes fuel rest
          | none =>
            (takeEscape? cs).bind fun (value, rest) =>
              (takeLines? mark escapes fuel rest).map fun (vs, after) => (value :: vs, after)
        else if isPlainChar c then
          (takeLines? mark escapes fuel cs).map fun (vs, after) => (c :: vs, after)
        else none

/-- A text over several lines, without a line break right behind the opening quotes. -/
def takeLinesTrimmed? (mark : Char) (escapes : Bool) (t : Text) : Option (Text × Text) :=
  let body := (stripLineBreak? t).getD t
  takeLines? mark escapes (body.length + 1) body

/-- A quoted text of any kind at the front of a text, and what follows. -/
def takeQuoted? (t : Text) : Option (Text × Text) :=
  match Text.stripStart? "\"\"\"".toList t with
  | some body => takeLinesTrimmed? '"' true body
  | none =>
    match Text.stripStart? "'''".toList t with
    | some body => takeLinesTrimmed? '\'' false body
    | none =>
      -- Two quotes in a row are an empty text, which the readers of one line take.
      match t with
      | '"' :: body => takeBasic? (body.length + 1) body
      | '\'' :: body => takeLiteral? body
      | _ => none

end TemploTwig.Toml
