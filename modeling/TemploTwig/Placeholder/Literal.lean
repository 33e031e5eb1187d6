import TemploTwig.Text.Basic

/-!
# Literal markup characters

A `<` or `&` that is no markup would stop the markup reader.  Such a character is replaced by a
private-use character before reading, and put back when text and attributes are read.

* `Literal.protectText`: hides every `<`, and every `&` that starts no character reference
* `Literal.protectSpan`: hides every `<` and `&`
* `Literal.restore`: puts the characters back
-/

namespace TemploTwig

namespace Literal

/-- Stands for `&`. -/
def ampersand : Char := '\uE000'

/-- Stands for `<`. -/
def lessThan : Char := '\uE001'

/-- Stands for `>`. -/
def greaterThan : Char := '\uE002'

/-- Does the text behind a `&` complete a character reference?  It is a name or number in ASCII
    letters and digits, after an optional `#` and closed by `;`. -/
def completesReference (t : Text) : Bool :=
  let name := (Text.stripStart? ['#'] t).getD t
  match name.dropWhile Char.isAlphanum with
  | ';' :: _ => name.takeWhile Char.isAlphanum != []
  | _ => false

/-- Hide the characters of running text that are no markup. -/
def protectText : Text → Text
  | [] => []
  | c :: cs =>
    (if c = '&' then (if completesReference cs then '&' else ampersand)
     else if c = '<' then lessThan
     else c) :: protectText cs

/-- Hide `&` and `<`. -/
def protectChar (c : Char) : Char :=
  if c = '&' then ampersand else if c = '<' then lessThan else c

/-- Hide the markup characters of a directive in running text. -/
def protectSpan (span : Text) : Text := span.map protectChar

/-- Hide the markup characters of a print statement between attributes. -/
def protectPrint (printed : Text) : Text :=
  printed.map fun c => if c = '>' then greaterThan else protectChar c

/-- The character that a stand-in hides. -/
def restoreChar (c : Char) : Char :=
  if c = ampersand then '&' else if c = lessThan then '<' else if c = greaterThan then '>' else c

/-- Put the hidden characters back. -/
def restore (t : Text) : Text := t.map restoreChar

end Literal

end TemploTwig
