import TemploTwig.Conversion.Context
import TemploTwig.Directive.Basic
import TemploTwig.Placeholder.MacroToken
import TemploTwig.Source.Condition
import TemploTwig.Source.Partition

/-!
# Converting text

Each directive in a text becomes Twig, and each inline token becomes the macro call behind it.

* `renderDirective`: the Twig text of a directive span
* `fillMacroTokens`: a plain run with its inline tokens filled in
* `convertText`: a whole text
* `printSpans`: a text in which every span is printed, whatever it says
-/

namespace TemploTwig

/-- Every directive span printed as an expression. -/
def printSpans (t : Text) : Text :=
  Piece.renderAll (fun span => Twig.print (Span.body span)) (Span.scan t)

/-- Open a block and give the statement that opens it. -/
def openWith (kind : BlockKind) (statement : Twig.Statement) : Convert Text := do
  modify (·.openBlock kind)
  return statement.text

/-- The Twig text of a directive. -/
def renderClassified (span : Text) : Directive → Convert Text
  -- Twig has no switch.  What the first case prints opens the chain of conditions.
  | .switch subject => do
    modify (·.openSwitch subject)
    return []
  | .nextCase => return (← Convert.nesting Context.nextCase).text
  | .ifThen condition => openWith .conditional (.ifThen (Condition.toTwig condition))
  | .elseIf condition => return (Twig.Statement.elseIf (Condition.toTwig condition)).text
  | .otherwise => return Twig.Statement.otherwise.text
  | .endBlock => return (Twig.Statement.close (← Convert.nesting Context.closeBlock)).text
  | .foreach item collection => openWith .loop (.forIn item collection)
  | .contentBlock =>
    return (Twig.Statement.block Directive.contentName).text ++ Twig.Statement.endBlock.text
  | .raw expression => return Twig.printSpaced (expression ++ "|raw".toList)
  | .fill expression => openWith .assignment (.assign expression)
  | .assign expression => openWith .assignment (.assign expression)
  -- The first one has become an element, so this is a later one.
  | .inherit _ => do
    Convert.warn (.repeatedInheritance span)
    return span
  | .print body => return Twig.print body

/-- The Twig text of a directive span. -/
def renderDirective (span : Text) : Convert Text := renderClassified span (Directive.classify span)

/-- The macro call behind the digits of an inline token. -/
def resolveMacroToken (digits : Text) : Convert Text :=
  match parseIndex? digits with
  | some index => Convert.resolve .macroCall index
  | none => throw (.unresolvedPlaceholder .macroCall largestIndex)

/-- A plain run with its inline tokens filled in.  The opening of a token counts as a macro call
    even if no token follows. -/
def fillMacroTokens (t : Text) : Convert Text :=
  if Text.contains t MacroToken.opening then do
    let parts ← (MacroToken.scan t).mapM fun
      | .plain u => pure u
      | .token digits => resolveMacroToken digits
    modify (·.markCall)
    return parts.flatten
  else return t

/-- A piece of a text, converted. -/
def convertPiece : Piece Text → Convert Text
  | .token span => renderDirective span
  | .plain t => fillMacroTokens t

/-- A part of a text, converted. -/
def convertPart (t : Text) : Convert Text := do
  return (← (Span.scan t).mapM convertPiece).flatten

/-- A text, converted part by part. -/
def convertText (t : Text) : Convert Text := do
  return (← (Partition.split t).mapM convertPart).flatten

end TemploTwig
