import TemploTwig.Source.Quote
import TemploTwig.Text.Blank

/-!
# Attributes

The attributes of a start tag, read from the text behind the tag's name and written back.

* `Attribute.parse`: the attributes in a text
* `Attribute.text`: one attribute as it is written, with a blank in front
* `Attribute.textAll` a list of attributes as it is written

Reading skips blanks, slashes and stray equals signs and stops at a `>` outside quotes.  A quoted
value whose closing quote is missing runs to the end of the text.
-/

namespace TemploTwig

/-- The value of an attribute. -/
inductive AttributeValue where
  | bare
  | quoted (value : Text) (quote : Quote)
  | unquoted (value : Text)
  deriving DecidableEq, Repr

/-- An attribute of a start tag. -/
structure Attribute where
  name : Text
  value : AttributeValue
  deriving DecidableEq, Repr

namespace AttributeValue

/-- The value without its quotes.  A bare attribute has none. -/
def text? : AttributeValue → Option Text
  | bare => none
  | quoted value _ => some value
  | unquoted value => some value

/-- May the character stand in a value without quotes? -/
def isUnquotedChar (c : Char) : Bool := !isAsciiBlank c && c != '>'

/-- The value behind an equals sign and the blanks that follow it, and what is left. -/
def takeAssigned : Text → AttributeValue × Text
  | [] => (unquoted [], [])
  | c :: cs =>
    match Quote.ofChar? c with
    | some quote =>
      match Text.cut? [quote.char] cs with
      | some (value, rest) => (quoted value quote, rest)
      | none => (quoted cs quote, [])
    | none =>
      (unquoted ((c :: cs).takeWhile isUnquotedChar), (c :: cs).dropWhile isUnquotedChar)

/-- The value behind an attribute's name, and what is left. -/
def take (t : Text) : AttributeValue × Text :=
  match t.dropWhile isAsciiBlank with
  | '=' :: rest => takeAssigned (rest.dropWhile isAsciiBlank)
  -- The blanks stay in front of the next attribute.
  | _ => (bare, t)

theorem length_takeAssigned_le (t : Text) : (takeAssigned t).2.length ≤ t.length := by
  cases t with
  | nil => simp [takeAssigned]
  | cons c cs =>
    simp only [takeAssigned]
    split
    · split
      · next hcut =>
        have := congrArg List.length (Text.cut?_eq_append hcut)
        simp only [List.length_append, List.length_cons] at this ⊢
        omega
      · simp
    · exact (List.dropWhile_suffix isUnquotedChar).length_le

/-- Reading a value never makes the text longer. -/
theorem length_take_le (t : Text) : (take t).2.length ≤ t.length := by
  unfold take
  split
  · next rest heq =>
    have h₁ := (List.dropWhile_suffix (l := t) isAsciiBlank).length_le
    have h₂ := (List.dropWhile_suffix (l := rest) isAsciiBlank).length_le
    have h₃ := length_takeAssigned_le (rest.dropWhile isAsciiBlank)
    rw [heq, List.length_cons] at h₁
    omega
  · exact Nat.le_refl _

end AttributeValue

namespace Attribute

/-- May the character stand in a name? -/
def isNameChar (c : Char) : Bool := !isAsciiBlank c && c != '=' && c != '>' && c != '/'

/-- The attributes in the text behind a tag's name. -/
def parse : Text → List Attribute
  | [] => []
  | c :: cs =>
    if isAsciiBlank c || c == '/' || c == '=' then parse cs
    else if c = '>' then []
    else
      let taken := AttributeValue.take (cs.dropWhile isNameChar)
      ⟨c :: cs.takeWhile isNameChar, taken.1⟩ :: parse taken.2
termination_by t => t.length
decreasing_by
  · simp
  · have h₁ := AttributeValue.length_take_le (cs.dropWhile isNameChar)
    have h₂ := (List.dropWhile_suffix (l := cs) isNameChar).length_le
    simp only [List.length_cons]
    omega

/-- An attribute as it is written in a start tag, with a blank in front. -/
def text (a : Attribute) : Text :=
  match a.value with
  | .bare => ' ' :: a.name
  | .quoted value quote => ' ' :: a.name ++ '=' :: quote.enclose value
  | .unquoted value => ' ' :: a.name ++ '=' :: value

/-- A list of attributes as it is written in a start tag. -/
def textAll (attributes : List Attribute) : Text := attributes.flatMap text

end Attribute

end TemploTwig
