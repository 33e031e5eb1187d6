import TemploTwig.Source.Span

/-!
# Directives

What a directive span says.  The body's first word decides, and a body that fits no keyword is
an expression to print.

* `Directive.classify`: the directive that a span holds
* `Directive.captures`: the expressions in it, in order
* `Directive.source`: the canonical spelling of a directive
-/

namespace TemploTwig

/-- A directive in text position. -/
inductive Directive where
  | switch (subject : Text)
  | nextCase
  | ifThen (condition : Text)
  | elseIf (condition : Text)
  | otherwise
  | endBlock
  | foreach (item collection : Text)
  | contentBlock
  | raw (expression : Text)
  | fill (expression : Text)
  | assign (expression : Text)
  | inherit (path : Text)
  | print (body : Text)
  deriving DecidableEq, Repr

namespace Directive

/-- A first word that a directive may have. -/
inductive Keyword where
  | switch
  | nextCase
  | ifThen
  | elseIf
  | otherwise
  | endBlock
  | foreach
  | raw
  | fill
  | assign
  | inherit
  deriving DecidableEq, Repr

namespace Keyword

/-- The keyword as it is written. -/
def word : Keyword → Text
  | switch => "switch".toList
  | nextCase => "case".toList
  | ifThen => "if".toList
  | elseIf => "elseif".toList
  | otherwise => "else".toList
  | endBlock => "end".toList
  | foreach => "foreach".toList
  | raw => "raw".toList
  | fill => "fill".toList
  | assign => "set".toList
  | inherit => "use".toList

/-- All keywords. -/
def all : List Keyword :=
  [switch, nextCase, ifThen, elseIf, otherwise, endBlock, foreach, raw, fill, assign, inherit]

/-- The keyword that is written as `t`. -/
def ofWord? (t : Text) : Option Keyword := all.find? (·.word = t)

end Keyword

/-- The expression that names the place of a child template's content. -/
def contentName : Text := "__content__".toList

/-- A directive that needs an argument. -/
def withArgument? (make : Text → Directive) (argument : Text) : Option Directive :=
  if argument = [] then none else some (make argument)

/-- A directive that takes no argument. -/
def alone? (d : Directive) (argument : Text) : Option Directive :=
  if argument = [] then some d else none

/-- A loop: the item is the first word of the argument, the collection the trimmed rest. -/
def foreach? (argument : Text) : Option Directive :=
  (Text.cutAtBlank? argument).bind fun (item, rest) =>
    withArgument? (foreach item) rest.trim

/-- The directive that a keyword and its trimmed argument make. -/
def ofKeyword? (argument : Text) : Keyword → Option Directive
  | .switch => withArgument? switch argument
  | .nextCase => alone? nextCase argument
  | .ifThen => withArgument? ifThen argument
  | .elseIf => withArgument? elseIf argument
  | .otherwise => alone? otherwise argument
  | .endBlock => alone? endBlock argument
  | .foreach => foreach? argument
  -- This name stands for the content of a child template, not for an expression.
  | .raw => if argument = contentName then some contentBlock else withArgument? raw argument
  | .fill => withArgument? fill argument
  | .assign => withArgument? assign argument
  | .inherit => withArgument? inherit argument

/-- The first word of a body and its trimmed argument. -/
def splitBody (body : Text) : Text × Text :=
  match Text.cutAtBlank? body with
  | some (word, rest) => (word, rest.trim)
  | none => (body, [])

/-- The directive that a body holds. -/
def ofBody (body : Text) : Directive :=
  let (word, argument) := splitBody body
  -- A keyword whose argument does not fit is printed like any other expression.
  ((Keyword.ofWord? word).bind (ofKeyword? argument)).getD (print body)

/-- The directive that a span holds. -/
def classify (span : Text) : Directive := ofBody (Span.body span)

/-- The expressions in a directive, in the order in which they are written. -/
def captures : Directive → List Text
  | switch e | ifThen e | elseIf e | raw e | fill e | assign e | inherit e | print e => [e]
  | foreach item collection => [item, collection]
  | nextCase | otherwise | endBlock | contentBlock => []

/-- The body of a directive in its canonical spelling: one blank between words. -/
def canonicalBody : Directive → Text
  | switch e => Keyword.switch.word ++ ' ' :: e
  | nextCase => Keyword.nextCase.word
  | ifThen e => Keyword.ifThen.word ++ ' ' :: e
  | elseIf e => Keyword.elseIf.word ++ ' ' :: e
  | otherwise => Keyword.otherwise.word
  | endBlock => Keyword.endBlock.word
  | foreach item collection => Keyword.foreach.word ++ ' ' :: item ++ ' ' :: collection
  | contentBlock => Keyword.raw.word ++ ' ' :: contentName
  | raw e => Keyword.raw.word ++ ' ' :: e
  | fill e => Keyword.fill.word ++ ' ' :: e
  | assign e => Keyword.assign.word ++ ' ' :: e
  | inherit e => Keyword.inherit.word ++ ' ' :: e
  | print body => body

/-- The canonical span of a directive. -/
def source (d : Directive) : Text := Span.ofBody d.canonicalBody

end Directive

end TemploTwig
