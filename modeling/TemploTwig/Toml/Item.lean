import TemploTwig.Text.Basic

/-!
# TOML items

What a key of a TOML document stands for.  Only texts and the shape of tables and arrays matter
to the settings; numbers and booleans are kept as `scalar`.

A table remembers how it came about, because that decides whether it may be extended:
* `written`: by a header `[a]`
* `implied`: by a longer header `[a.b]`
* `dotted`: by a dotted key `a.b = …`
* `inline`: by braces
-/

namespace TemploTwig.Toml

/-- How a table came about. -/
inductive Origin where
  | written
  | implied
  | dotted
  | inline
  deriving DecidableEq, Repr

/-- What a key stands for. -/
inductive Item where
  | text (value : Text)
  /-- A number or a boolean. -/
  | scalar
  /-- A date, a time, or both. -/
  | moment
  | array (items : List Item)
  | table (origin : Origin) (entries : List (Text × Item))
  /-- Tables with a header `[[a]]`, the newest first. -/
  | tables (elements : List (List (Text × Item)))
  deriving Repr

/-- The entries of a table, in order. -/
abbrev Entries := List (Text × Item)

namespace Entries

/-- The item of a key. -/
def get? (entries : Entries) (key : Text) : Option Item :=
  (entries.find? (·.1 = key)).map Prod.snd

/-- The entries with the item of a key set. -/
def insert (key : Text) (item : Item) : Entries → Entries
  | [] => [(key, item)]
  | e :: es => if e.1 = key then (key, item) :: es else e :: insert key item es

end Entries

end TemploTwig.Toml
