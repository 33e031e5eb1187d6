import TemploTwig.Toml.Item

/-!
# Filling tables

A table is filled by keys and headers.  A key is set once, and a table that is complete is not
extended: one with a header of its own gets no dotted keys from elsewhere, one in braces none at
all.

* `Entries.assign?`: set a dotted key
* `Entries.openTable?`: a header `[a.b]`
* `Entries.openArray?`: a header `[[a.b]]`
-/

namespace TemploTwig.Toml

namespace Entries

/-- Set a key that is not there yet. -/
def add? (key : Text) (item : Item) (entries : Entries) : Option Entries :=
  match entries.get? key with
  | none => some (entries.insert key item)
  | some _ => none

/-- Set the key `key` in the table that the dotted key `path` leads to. -/
def assign? (item : Item) : (path : List Text) → (key : Text) → Entries → Option Entries
  | [], key, entries => entries.add? key item
  | [last], key, entries =>
    match entries.get? last with
    | none => some (entries.insert last (.table .dotted [(key, item)]))
    | some (.table .dotted sub) => (add? key item sub).map fun sub =>
        entries.insert last (.table .dotted sub)
    | some _ => none
  | next :: path, key, entries =>
    match entries.get? next with
    | none => (assign? item path key []).map fun sub => entries.insert next (.table .dotted sub)
    | some (.table .dotted sub) => (assign? item path key sub).map fun sub =>
        entries.insert next (.table .dotted sub)
    -- A table that only a longer header has implied is still open to keys in deeper tables.
    | some (.table .implied sub) => (assign? item path key sub).map fun sub =>
        entries.insert next (.table .implied sub)
    | some _ => none

/-- Change the table that a header's path leads to.  Tables on the way that are not there yet are
    implied; the newest of several tables is meant. -/
def modify? (change : Entries → Option Entries) : (path : List Text) → Entries → Option Entries
  | [], entries => change entries
  | next :: path, entries =>
    match entries.get? next with
    | none => (modify? change path []).map fun sub => entries.insert next (.table .implied sub)
    -- A table in braces is complete.
    | some (.table .inline _) => none
    | some (.table origin sub) => (modify? change path sub).map fun sub =>
        entries.insert next (.table origin sub)
    | some (.tables (newest :: older)) => (modify? change path newest).map fun sub =>
        entries.insert next (.tables (sub :: older))
    | some _ => none

/-- A header `[path.key]`. -/
def openTable? (path : List Text) (key : Text) : Entries → Option Entries :=
  modify? (fun entries =>
    match entries.get? key with
    | none => some (entries.insert key (.table .written []))
    -- A header may come behind those of the tables inside it.
    | some (.table .implied sub) => some (entries.insert key (.table .written sub))
    | some _ => none) path

/-- A header `[[path.key]]`. -/
def openArray? (path : List Text) (key : Text) : Entries → Option Entries :=
  modify? (fun entries =>
    match entries.get? key with
    | none => some (entries.insert key (.tables [[]]))
    | some (.tables elements) => some (entries.insert key (.tables ([] :: elements)))
    | some _ => none) path

end Entries

end TemploTwig.Toml
