import TemploTwig.Placeholder.Family
import TemploTwig.Twig.Statement

/-!
# What can go wrong in a conversion

An error ends the conversion of a template; a warning is noted and the conversion goes on.  The
wording of each stands here and nowhere else.

* `NestingError`: blocks that do not fit into each other
* `ConvertError`: all reasons why a conversion fails
* `Warning`: what is worth telling, but no failure
-/

namespace TemploTwig

/-- Blocks that do not nest. -/
inductive NestingError where
  /-- An `::end::` without an open block.  It is counted among all ends so far, from 1. -/
  | unexpectedEnd (ordinal : Nat)
  /-- The template ended inside a block. -/
  | unclosed (depth : Nat) (innermost : BlockKind)
  /-- A `::case::` without an open `::switch::`. -/
  | caseOutsideSwitch
  deriving DecidableEq, Repr

/-- The wording of a nesting error. -/
def NestingError.message : NestingError → Text
  | unexpectedEnd ordinal =>
    "`::end::` #".toList ++ decimal ordinal ++ " closes no open block".toList
  | unclosed depth innermost =>
    decimal depth ++ " block(s) left open, innermost `".toList ++ innermost.keyword ++ ['`']
  | caseOutsideSwitch => "`::case::` outside of `::switch::`".toList

/-- A reason why a conversion fails. -/
inductive ConvertError where
  /-- The template cannot be read as markup. -/
  | malformedMarkup
  | malformedNesting (cause : NestingError)
  /-- A placeholder names an entry that was never recorded. -/
  | unresolvedPlaceholder (family : Family) (index : Nat)
  /-- A macro definition without a name. -/
  | missingMacroName (line : Nat)
  deriving DecidableEq, Repr

/-- The wording of an error. -/
def ConvertError.message : ConvertError → Text
  | malformedMarkup => "markup parse error".toList
  | malformedNesting cause => "malformed nesting: ".toList ++ cause.message
  | unresolvedPlaceholder family index => "unresolved placeholder ".toList ++ family.token index
  | missingMacroName line =>
    "macro definition on line ".toList ++ decimal line ++ " has no name attribute".toList

/-- Something worth telling about a conversion. -/
inductive Warning where
  /-- A `::use::` without an `::end::`. -/
  | unclosedInheritance
  /-- A directive between attributes that is none of the attribute directives. -/
  | unknownAttributeDirective (span : Text)
  /-- A `::use::` behind the first one. -/
  | repeatedInheritance (span : Text)
  /-- A conditional element in a macro library. -/
  | conditionInLibrary
  /-- The element around the inherited content is gone. -/
  | missingInheritanceWrapper
  /-- Directive spans in the finished text. -/
  | leftoverSpans (count : Nat)
  deriving DecidableEq, Repr

/-- The wording of a warning. -/
def Warning.message : Warning → Text
  | unclosedInheritance => "`::use::` has no closing `::end::`".toList
  | unknownAttributeDirective _ => "Unrecognised attribute directive printed as-is".toList
  | repeatedInheritance _ => "Only the first `::use::` of a document is honoured".toList
  | conditionInLibrary => "Conditional attribute left unconverted in macro library".toList
  | missingInheritanceWrapper => "Inheritance wrapper not found, wrapping whole document".toList
  | leftoverSpans _ => "Directive spans left unconverted".toList

end TemploTwig
