import TemploTwig.Source.Group
import TemploTwig.Source.Quote
import TemploTwig.Source.Span
import TemploTwig.Twig.Statement

/-!
# Attribute directives

Directives between the attributes of a start tag.  `::cond e::` makes the whole element
conditional; `::attr class if(c) v::`, `::attr checked (c)::` and `::attr selected (c)::` give
an attribute whose value Twig computes.

* `AttributeDirective.classify?`: the directive that a span in a tag holds
* `AttributeDirective.value?`: the Twig value of the attribute, for all but `cond`
-/

namespace TemploTwig

/-- A directive in attribute position. -/
inductive AttributeDirective where
  | cond (condition : Text)
  | className (condition value : Text)
  | checked (condition : Text)
  | selected (condition : Text)
  deriving DecidableEq, Repr

namespace AttributeDirective

/-- The trimmed text behind `keyword`, when a blank follows it. -/
def afterKeyword? (keyword body : Text) : Option Text :=
  match Text.stripStart? keyword body with
  | some (c :: cs) => if isBlank c then some (Text.trim (c :: cs)) else none
  | _ => none

/-- A condition in parentheses, or the whole argument if it does not start with a group.
    What stands behind the group is not read. -/
def condition? (argument : Text) : Option Text :=
  let argument := argument.trim
  let condition := ((Group.take? argument).map Group.inner).getD argument
  let condition := condition.trim
  if condition = [] then none else some condition

/-- A class directive from what follows the word `class`. -/
def className? (argument : Text) : Option AttributeDirective :=
  (Text.stripStart? "if".toList argument.trimStart).bind fun rest =>
    (Group.take? rest.trimStart).map fun group =>
      -- The value is whatever follows the group, quoted or not.
      className group.inner.trim (Quote.unquote group.rest.trim)

/-- A directive from what follows the keyword `attr`. -/
def ofAttr? (argument : Text) : Option AttributeDirective :=
  match Text.stripStart? "class".toList argument with
  -- No blank is asked for behind the name of the attribute.
  | some rest => className? rest
  | none =>
    match Text.stripStart? "checked".toList argument with
    | some rest => (condition? rest).map checked
    | none =>
      (Text.stripStart? "selected".toList argument).bind fun rest =>
        (condition? rest).map selected

/-- The directive that a trimmed body holds. -/
def ofBody? (body : Text) : Option AttributeDirective :=
  match afterKeyword? "cond".toList body with
  | some condition => if condition = [] then none else some (cond condition)
  | none => (afterKeyword? "attr".toList body).bind ofAttr?

/-- The directive that a span in a start tag holds. -/
def classify? (span : Text) : Option AttributeDirective :=
  (Text.stripBoth? Span.delimiter span).bind fun body => ofBody? body.trim

/-- The expressions in a directive, in the order in which they are written. -/
def captures : AttributeDirective → List Text
  | cond c | checked c | selected c => [c]
  | className c v => [c, v]

/-- The value that Twig computes for the attribute.  A `cond` directive gives no attribute. -/
def value? : AttributeDirective → Option Text
  | cond _ => none
  | className c v => some (Twig.printSpaced (c ++ " ? \"".toList ++ v ++ "\" : \"\"".toList))
  | checked c | selected c => some (Twig.printSpaced c)

end AttributeDirective

end TemploTwig
