import TemploTwig.Toml.Quoted
import TemploTwig.Toml.Scalar
import TemploTwig.Toml.Table

/-!
# TOML documents

A document is a list of lines: key and value, header, comment, or nothing.  Values nest, so a
value may go over several lines.

* `takeKey?`: a dotted key
* `takeValue?`: a value
* `parse?`: a whole document
-/

namespace TemploTwig.Toml

/-- A text without the blanks in front. -/
def skipBlanks (t : Text) : Text := t.dropWhile isInlineBlank

/-- A dotted key: the path in front of its last part, and that part. -/
structure Key where
  path : List Text
  last : Text
  deriving DecidableEq, Repr

/-- Put a part in front of a key. -/
def Key.cons (part : Text) (key : Key) : Key := { key with path := part :: key.path }

/-- May the character stand in a key without quotes? -/
def isBareChar (c : Char) : Bool := c.isAlphanum || c == '_' || c == '-'

/-- One part of a key.  Quoted parts stay on one line. -/
def takePart? (t : Text) : Option (Text × Text) :=
  match t with
  | '"' :: body => takeBasic? (body.length + 1) body
  | '\'' :: body => takeLiteral? body
  | _ =>
    let part := t.takeWhile isBareChar
    if part = [] then none else some (part, t.dropWhile isBareChar)

/-- A dotted key and what follows it and the blanks behind it. -/
def takeKey? : (fuel : Nat) → Text → Option (Key × Text)
  | 0, _ => none
  | fuel + 1, t =>
    (takePart? (skipBlanks t)).bind fun (part, rest) =>
      match skipBlanks rest with
      | '.' :: rest => (takeKey? fuel rest).map fun (key, rest) => (key.cons part, rest)
      | rest => some (⟨[], part⟩, rest)

/-- What follows the comment at the front of a text, if there is one, up to the line's end. -/
def skipComment? (t : Text) : Option Text :=
  match t with
  | '#' :: body => some (body.dropWhile isPlainChar)
  | _ => some t

/-- What follows blanks, line breaks and comments.  A comment ends at a line break. -/
def skipSpace? : (fuel : Nat) → Text → Option Text
  | 0, _ => none
  | fuel + 1, t =>
    (skipComment? (skipBlanks t)).bind fun rest =>
      match stripLineBreak? rest with
      | some rest => skipSpace? fuel rest
      -- A comment that does not end at a line break holds a control character.
      | none => if Text.startsWith (skipBlanks t) ['#'] ∧ rest ≠ [] then none else some rest

mutual

/-- A value at the front of a text, and what follows. -/
def takeValue? : (fuel : Nat) → Text → Option (Item × Text)
  | 0, _ => none
  | fuel + 1, t =>
    match t with
    | '[' :: body => (takeItems? fuel body).map fun (items, rest) => (.array items, rest)
    | '\x7b' :: body => (takeEntries? fuel [] body).map fun (entries, rest) =>
        (.table .inline entries, rest)
    | '"' :: _ => (takeQuoted? t).map fun (value, rest) => (.text value, rest)
    | '\'' :: _ => (takeQuoted? t).map fun (value, rest) => (.text value, rest)
    | _ => takeScalar? t

/-- The items of an array from behind its bracket or a comma, and what follows the array. -/
def takeItems? : (fuel : Nat) → Text → Option (List Item × Text)
  | 0, _ => none
  | fuel + 1, t =>
    (skipSpace? (t.length + 1) t).bind fun t =>
      match t with
      | ']' :: rest => some ([], rest)
      | _ =>
        (takeValue? fuel t).bind fun (item, rest) =>
          (skipSpace? (rest.length + 1) rest).bind fun rest =>
            match rest with
            -- A comma may be the last sign in an array.
            | ',' :: rest => (takeItems? fuel rest).map fun (items, rest) => (item :: items, rest)
            | ']' :: rest => some ([item], rest)
            | _ => none

/-- The entries of a table in braces from behind its brace or a comma, behind those read so far,
    and what follows the table. -/
def takeEntries? : (fuel : Nat) → Entries → Text → Option (Entries × Text)
  | 0, _, _ => none
  | fuel + 1, entries, t =>
    (skipSpace? (t.length + 1) t).bind fun t =>
      match t with
      | '\x7d' :: rest => some (entries, rest)
      | _ =>
        (takeKey? (t.length + 1) t).bind fun (key, rest) =>
          match rest with
          | '=' :: rest =>
            (takeValue? fuel (skipBlanks rest)).bind fun (item, rest) =>
              (entries.assign? item key.path key.last).bind fun entries =>
                (skipSpace? (rest.length + 1) rest).bind fun rest =>
                  match rest with
                  | ',' :: rest => takeEntries? fuel entries rest
                  | '\x7d' :: rest => some (entries, rest)
                  | _ => none
          | _ => none

end

/-- What a line says. -/
inductive Line where
  | assign (key : Key) (item : Item)
  | openTable (key : Key)
  | openArray (key : Key)
  | nothing

/-- The content of a line at the front of a text, and what follows it. -/
def takeLine? (t : Text) : Option (Line × Text) :=
  let fuel := t.length + 1
  match t with
  | '[' :: '[' :: body =>
    (takeKey? fuel body).bind fun (key, rest) =>
      (Text.stripStart? "]]".toList rest).map fun rest => (.openArray key, rest)
  | '[' :: body =>
    (takeKey? fuel body).bind fun (key, rest) =>
      (Text.stripStart? "]".toList rest).map fun rest => (.openTable key, rest)
  | [] => some (.nothing, t)
  | '#' :: _ => some (.nothing, t)
  | '\n' :: _ => some (.nothing, t)
  | '\r' :: '\n' :: _ => some (.nothing, t)
  | _ =>
    (takeKey? fuel t).bind fun (key, rest) =>
      match rest with
      | '=' :: rest =>
        -- Each level of nesting takes a bracket and two steps.
        (takeValue? (2 * rest.length + 2) (skipBlanks rest)).map fun (item, rest) =>
          (.assign key item, rest)
      | _ => none

/-- A document that has been read in part: its entries, and the path of the last header. -/
structure Draft where
  entries : Entries
  current : List Text

/-- The effect of a line. -/
def Draft.extend? (p : Draft) : Line → Option Draft
  | .assign key item =>
    -- A dotted key starts from the table of the last header.
    (Entries.modify? (Entries.assign? item key.path key.last) p.current p.entries).map fun entries =>
      { p with entries }
  | .openTable key =>
    (Entries.openTable? key.path key.last p.entries).map fun entries =>
      ⟨entries, key.path ++ [key.last]⟩
  | .openArray key =>
    (Entries.openArray? key.path key.last p.entries).map fun entries =>
      ⟨entries, key.path ++ [key.last]⟩
  | .nothing => some p

/-- The entries of a document, line by line. -/
def parseLines? : (fuel : Nat) → Draft → Text → Option Entries
  | 0, _, _ => none
  | fuel + 1, p, t =>
    (takeLine? (skipBlanks t)).bind fun (line, rest) =>
      (p.extend? line).bind fun p =>
        (skipComment? (skipBlanks rest)).bind fun rest =>
          match rest with
          | [] => some p.entries
          | _ => (stripLineBreak? rest).bind (parseLines? fuel p)

/-- The entries of a document.  A byte order mark in front is skipped. -/
def parse? (t : Text) : Option Entries :=
  let body := (Text.stripStart? ['\uFEFF'] t).getD t
  parseLines? (body.length + 1) ⟨[], []⟩ body

end TemploTwig.Toml
