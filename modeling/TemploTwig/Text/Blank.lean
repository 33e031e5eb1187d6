import TemploTwig.Text.Basic

/-!
# Blanks

Two sets of blank characters are in use, and they differ.  Directives are read with the
Unicode property White_Space (`isBlank`); attributes in a start tag are separated by the five
ASCII blanks (`isAsciiBlank`), which leave out the vertical tab.
-/

namespace TemploTwig

/-- Unicode White_Space. -/
def isBlank (c : Char) : Bool :=
  let n := c.toNat
  (0x9 ≤ n && n ≤ 0xd) || n == 0x20 || n == 0x85 || n == 0xa0 || n == 0x1680 ||
    (0x2000 ≤ n && n ≤ 0x200a) || n == 0x2028 || n == 0x2029 || n == 0x202f || n == 0x205f ||
    n == 0x3000

/-- Space, tab, line feed, form feed and carriage return. -/
def isAsciiBlank (c : Char) : Bool :=
  c == ' ' || c == '\t' || c == '\n' || c == '\x0c' || c == '\r'

namespace Text

/-- The text from its first character that is no blank. -/
def trimStart (t : Text) : Text := t.dropWhile isBlank

/-- The text up to its last character that is no blank. -/
def trimEnd (t : Text) : Text := (t.reverse.dropWhile isBlank).reverse

/-- The text without the blanks around it. -/
def trim (t : Text) : Text := trimEnd (trimStart t)

/-- Does the text consist of blanks only? -/
def isBlankText (t : Text) : Bool := t.all isBlank

/-- The text before and the text after the first blank. -/
def cutAtBlank? (t : Text) : Option (Text × Text) :=
  match t.dropWhile (!isBlank ·) with
  | [] => none
  | _ :: rest => some (t.takeWhile (!isBlank ·), rest)

end Text

end TemploTwig
