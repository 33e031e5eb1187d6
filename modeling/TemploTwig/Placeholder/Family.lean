import TemploTwig.Source.Quote

/-!
# Placeholder families

A construct that a markup reader cannot take is replaced by a placeholder before the template
is read as markup.  Each family of constructs numbers its own placeholders.  The token
`NAME_index` says which one is meant; in a start tag the token is the value of the family's
holder attribute.

* `Family.token`: the token of an index
* `Family.parseToken?`: the index of a token
-/

namespace TemploTwig

/-- A family of constructs with placeholders. -/
inductive Family where
  | macroCall
  | condition
  | className
  | checked
  | selected
  deriving DecidableEq, Repr

/-- Indices are below this bound, the 64th power of two. -/
def indexBound : Nat := 18446744073709551616

/-- The index that stands for a number out of bounds. -/
def largestIndex : Nat := indexBound - 1

/-- A number in decimal digits. -/
def decimal (n : Nat) : Text := Nat.toDigits 10 n

/-- An index in ASCII digits, after an optional plus sign. -/
def parseIndex? (t : Text) : Option Nat :=
  let digits := (Text.stripStart? ['+'] t).getD t
  if digits ≠ [] ∧ digits.all Char.isDigit then
    let n := Nat.ofDigitChars 10 digits 0
    -- A number that is no index is not cut down to one.
    if n < indexBound then some n else none
  else none

namespace Family

/-- All families, in the order in which they are searched. -/
def all : List Family := [macroCall, condition, className, checked, selected]

/-- The part of a token in front of the index. -/
def name : Family → Text
  | macroCall => "TWIG_MACRO".toList
  | condition => "TWIG_COND".toList
  | className => "TWIG_CLASS".toList
  | checked => "TWIG_CHECKED".toList
  | selected => "TWIG_SELECTED".toList

/-- The attribute that holds the family's tokens in a start tag. -/
def holder : Family → Text
  | macroCall => "data-twig-macro".toList
  | condition => "data-twig-cond".toList
  | className => "class".toList
  | checked => "checked".toList
  | selected => "selected".toList

/-- The family with a given name. -/
def ofName? (name : Text) : Option Family := all.find? (·.name = name)

/-- The token of an index. -/
def token (f : Family) (index : Nat) : Text := f.name ++ '_' :: decimal index

/-- The index of a token of this family. -/
def parseToken? (f : Family) (value : Text) : Option Nat :=
  (Text.stripStart? (f.name ++ ['_']) value).bind parseIndex?

/-- The holder attribute of an index, as it is written in a start tag. -/
def holderText (f : Family) (index : Nat) : Text :=
  f.holder ++ '=' :: Quote.double.enclose (f.token index)

end Family

end TemploTwig
