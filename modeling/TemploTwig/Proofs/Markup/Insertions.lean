import TemploTwig.Directive.Attribute
import TemploTwig.Placeholder.Family
import TemploTwig.Proofs.Template.Expression

/-!
# Directives between attributes

The four directives that may stand between the attributes of a start tag, with the expressions in
them.  The expressions carry the proofs that they can stand there, so every such directive is read
back from its own text.
-/

namespace TemploTwig

/-! ## Groups -/

namespace Group

theorem close?_append_of_some {depth : Nat} {quote : Option Char} {t : Text} {g : Group}
    (h : close? depth quote t = some g) (after : Text) :
    close? depth quote (t ++ after) = some { g with rest := g.rest ++ after } := by
  fun_induction close? depth quote t generalizing g with
  | case1 => cases h
  | case5 cs =>
    obtain rfl : ⟨[], cs⟩ = g := by simpa using h
    rfl
  | _ =>
    simp only [Option.map_eq_some_iff] at h
    obtain ⟨g', hg', rfl⟩ := h
    rename_i ih
    simp_all [close?, cons]

/-- Text behind a group does not change how it is read. -/
theorem take?_append_of_some {t : Text} {g : Group} (h : take? t = some g) (after : Text) :
    take? (t ++ after) = some { g with rest := g.rest ++ after } := by
  unfold take? at h
  split at h
  · exact close?_append_of_some h after
  · cases h

end Group

/-! ## Expressions -/

namespace Expression

/-- Two expressions with nothing between them. -/
def append (e f : Expression) : Expression where
  text := e.text ++ f.text
  trimmed := by
    rw [Text.trim_eq_self_iff]
    constructor
    · intro c h
      rw [e.head?_append] at h
      exact e.head_not_blank h
    · intro c h
      rw [f.getLast?_append] at h
      exact f.last_not_blank h
  ne_nil := by simp [e.ne_nil]
  one_line := by simp [e.one_line, f.one_line]
  no_delimiter := by
    rw [Span.delimiter_infix_append e.last_ne, not_or]
    exact ⟨e.no_delimiter, f.no_delimiter⟩
  head_ne := by
    rw [e.head?_append]
    exact e.head_ne
  last_ne := by
    rw [f.getLast?_append]
    exact f.last_ne

end Expression

/-- An expression for parentheses: the parenthesis behind it is the one that closes it. -/
structure Guard extends Expression where
  closed : Group.take? ('(' :: text ++ [')']) = some ⟨text, []⟩

namespace Guard

/-- The expression in parentheses. -/
def group (c : Guard) : Expression where
  text := '(' :: c.text ++ [')']
  trimmed := by
    rw [Text.trim_eq_self_iff]
    constructor
    · intro d h
      rw [← Option.some.inj h]
      rfl
    · intro d h
      rw [List.getLast?_concat] at h
      rw [← Option.some.inj h]
      rfl
  ne_nil := by simp
  one_line := by simp [c.one_line]
  no_delimiter := by
    rw [Span.delimiter_infix_append_cons (by decide), Span.delimiter_infix_cons (by decide), not_or]
    exact ⟨c.no_delimiter, by simp [Span.delimiter]⟩
  head_ne := by simp
  last_ne := by
    rw [List.getLast?_concat]
    decide

theorem take?_group (c : Guard) (rest : Text) :
    Group.take? (c.group.text ++ rest) = some ⟨c.text, rest⟩ :=
  Group.take?_append_of_some c.closed rest

end Guard

/-- The value of a class: an expression without quotes around it. -/
structure ClassValue extends Expression where
  not_quoted : Quote.enclosed? text = none

/-- A directive between the attributes of a start tag. -/
inductive Insertion where
  | cond (condition : Expression)
  | className (condition : Guard) (value : ClassValue)
  | checked (condition : Guard)
  | selected (condition : Guard)

namespace Insertion

/-- What stands behind the word `attr`: `class if(c) v`, `checked (c)` or `selected (c)`. -/
def argument : Insertion → Expression
  | cond e => e
  | className c v =>
    ((Expression.ofText "class".toList (by decide)).pair
      ((Expression.ofText "if".toList (by decide)).append c.group)).pair v.toExpression
  | checked c => (Expression.ofText "checked".toList (by decide)).pair c.group
  | selected c => (Expression.ofText "selected".toList (by decide)).pair c.group

/-- The word that the directive starts with. -/
def keyword : Insertion → Expression
  | cond _ => .ofText "cond".toList (by decide)
  | _ => .ofText "attr".toList (by decide)

/-- The directive as it is written. -/
def source (d : Insertion) : Text := Span.ofBody (d.keyword.pair d.argument).text

/-- The directive that is meant. -/
def meant : Insertion → AttributeDirective
  | cond e => .cond e.text
  | className c v => .className c.text v.text
  | checked c => .checked c.text
  | selected c => .selected c.text

end Insertion

namespace AttributeDirective

theorem trim_cons_blank (e : Expression) : Text.trim (' ' :: e.text) = e.text :=
  (Text.trim_cons_space e.text).trans e.trimmed

theorem afterKeyword?_pair (word e : Expression) :
    afterKeyword? word.text (word.pair e).text = some e.text := by
  show afterKeyword? word.text (word.text ++ ' ' :: e.text) = _
  rw [afterKeyword?, Text.stripStart?_append]
  show some (Text.trim (' ' :: e.text)) = _
  rw [trim_cons_blank]

theorem condition?_group (c : Guard) : condition? (' ' :: c.group.text) = some c.text := by
  -- The group is the whole argument, so nothing is left behind it.
  have htake := c.take?_group []
  rw [List.append_nil] at htake
  simp only [condition?, trim_cons_blank, htake, Option.map_some, Option.getD_some, c.trimmed]
  rw [if_neg c.ne_nil]

theorem className?_group (c : Guard) (v : ClassValue) :
    className? (" if".toList ++ (c.group.text ++ ' ' :: v.text)) =
      some (className c.text v.text) := by
  -- Quotes around the value would be taken off.
  have hunquote : Quote.unquote v.text = v.text := by
    rw [Quote.unquote, v.not_quoted]
    rfl
  show (Group.take? (c.group.text ++ ' ' :: v.text)).map
    (fun group => className group.inner.trim (Quote.unquote group.rest.trim)) = _
  rw [c.take?_group, Option.map_some, c.trimmed, trim_cons_blank, hunquote]

end AttributeDirective

namespace Insertion

/-- What follows the word `attr` is read back. -/
theorem ofAttr?_argument (d : Insertion) (h : ∀ e, d ≠ cond e) :
    AttributeDirective.ofAttr? d.argument.text = some d.meant := by
  cases d with
  | cond e => exact absurd rfl (h e)
  | className c v =>
    have htext : (className c v).argument.text =
        "class".toList ++ (" if".toList ++ (c.group.text ++ ' ' :: v.text)) := by
      simp [argument, Expression.pair, Expression.append, Expression.ofText]
    rw [htext, AttributeDirective.ofAttr?, Text.stripStart?_append]
    exact AttributeDirective.className?_group c v
  | checked c =>
    show (AttributeDirective.condition? (' ' :: c.group.text)).map AttributeDirective.checked = _
    rw [AttributeDirective.condition?_group]
    rfl
  | selected c =>
    show (AttributeDirective.condition? (' ' :: c.group.text)).map AttributeDirective.selected = _
    rw [AttributeDirective.condition?_group]
    rfl

/-- A directive is read back from its own text. -/
theorem classify?_source (d : Insertion) :
    AttributeDirective.classify? d.source = some d.meant := by
  -- The delimiters are taken off, and the body is trimmed already.
  have hbody : AttributeDirective.classify? d.source =
      AttributeDirective.ofBody? (d.keyword.pair d.argument).text := by
    rw [AttributeDirective.classify?, source, Span.stripBoth?_ofBody, Option.bind_some,
      (d.keyword.pair d.argument).trimmed]
  have hargument := AttributeDirective.afterKeyword?_pair d.keyword d.argument
  rw [hbody, AttributeDirective.ofBody?]
  -- The word `cond` is tried first, and none of the other directives starts with it.
  by_cases hcond : ∃ e, d = cond e
  · obtain ⟨e, rfl⟩ := hcond
    rw [show "cond".toList = (keyword (cond e)).text from rfl, hargument]
    exact if_neg e.ne_nil
  · have hattr : AttributeDirective.afterKeyword? "cond".toList (d.keyword.pair d.argument).text =
        none ∧ d.keyword.text = "attr".toList := by
      cases d with
      | cond e => exact absurd ⟨e, rfl⟩ hcond
      | className c v | checked c | selected c => exact ⟨rfl, rfl⟩
    rw [hattr.1, ← hattr.2, hargument]
    exact ofAttr?_argument d fun e he => hcond ⟨e, he⟩

end Insertion

end TemploTwig
