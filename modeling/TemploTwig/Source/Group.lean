import TemploTwig.Text.Basic

/-!
# Parenthesised groups

A group opens with `(` at the front of a text and closes at the parenthesis that matches it.
Between quotes (`"` or `'`, each closed by the next same character) parentheses do not count.

* `Group.take?`: the group at the front of a text
* `Group.take?_eq_append`: nothing of the text is lost
-/

namespace TemploTwig

/-- A parenthesised group and what follows it. -/
structure Group where
  /-- The text between the outer parentheses. -/
  inner : Text
  /-- The text behind the closing parenthesis. -/
  rest : Text
  deriving DecidableEq, Repr

namespace Group

/-- The group as it was written, both parentheses included. -/
def source (g : Group) : Text := '(' :: g.inner ++ [')']

/-- Number of bytes that the group takes, both parentheses included. -/
def byteSize (g : Group) : Nat := g.inner.byteSize + 2

/-- Put a character in front of the inner text. -/
def cons (c : Char) (g : Group) : Group := { g with inner := c :: g.inner }

/-- Read on inside `depth + 1` open parentheses, in the quotes `quote` if there are any, to the
    parenthesis that closes the outermost one. -/
def close? : (depth : Nat) → (quote : Option Char) → Text → Option Group
  | _, _, [] => none
  -- Between quotes only the closing quote counts; there are no escapes.
  | depth, some q, c :: cs =>
    (close? depth (if c = q then none else some q) cs).map (cons c)
  | depth, none, c :: cs =>
    if c = '"' ∨ c = '\'' then (close? depth (some c) cs).map (cons c)
    else if c = '(' then (close? (depth + 1) none cs).map (cons c)
    else if c = ')' then
      match depth with
      -- This one closes the group itself, and it is no part of the inner text.
      | 0 => some ⟨[], cs⟩
      | depth + 1 => (close? depth none cs).map (cons c)
    else (close? depth none cs).map (cons c)

/-- The group at the front of a text. -/
def take? : Text → Option Group
  | '(' :: cs => close? 0 none cs
  | _ => none

theorem close?_eq_append {depth : Nat} {quote : Option Char} {t : Text} {g : Group}
    (h : close? depth quote t = some g) : t = g.inner ++ ')' :: g.rest := by
  fun_induction close? depth quote t generalizing g with
  | case1 => simp at h
  | case5 cs => simp at h; subst h; simp_all
  | _ =>
    simp only [Option.map_eq_some_iff] at h
    obtain ⟨g', hg', rfl⟩ := h
    rename_i ih
    simp [cons, ih hg']

/-- A group and what follows it make up the text that it was taken from. -/
theorem take?_eq_append {t : Text} {g : Group} (h : take? t = some g) : t = g.source ++ g.rest := by
  unfold take? at h
  split at h
  · simp [source, close?_eq_append h]
  · simp at h

end Group

end TemploTwig
