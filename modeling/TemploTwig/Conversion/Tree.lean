import TemploTwig.Conversion.Text
import TemploTwig.Markup.Node

/-!
# Converting a tree

Text nodes are converted in document order.  An element's attributes come before its children:
a condition among them wraps the element in an `if` statement.

* `convertAttribute`: one attribute, or the condition that it holds
* `convertNode`: one node
* `convertTree`: everything below a root
-/

namespace TemploTwig

/-- What a converted attribute is. -/
inductive Converted where
  | kept (a : Attribute)
  /-- A condition of the whole element. -/
  | condition (c : Text)
  deriving DecidableEq, Repr

namespace Converted

/-- The attributes in a list of results. -/
def attributes (cs : List Converted) : List Attribute :=
  cs.filterMap fun
    | kept a => some a
    | condition _ => none

/-- The conditions in a list of results. -/
def conditions (cs : List Converted) : List Text :=
  cs.filterMap fun
    | kept _ => none
    | condition c => some c

end Converted

/-- The index that an attribute holds for a family. -/
def Attribute.index? (a : Attribute) (family : Family) : Option Nat :=
  if a.name = family.holder then a.value.text?.bind family.parseToken? else none

/-- The placeholder that an attribute holds. -/
def Attribute.placeholder? (a : Attribute) : Option (Family × Nat) :=
  Family.all.findSome? fun family => (a.index? family).map fun index => (family, index)

/-- An attribute value with its directive spans printed. -/
def AttributeValue.printSpans : AttributeValue → AttributeValue
  | bare => bare
  | quoted value quote => quoted (TemploTwig.printSpans value) quote
  | unquoted value => unquoted (TemploTwig.printSpans value)

/-- Convert an attribute. -/
def convertAttribute (a : Attribute) : Convert Converted :=
  match a.placeholder? with
  | some (.condition, index) => do
    return .condition (Condition.toTwig (← Convert.resolve .condition index))
  | some (.macroCall, index) => do
    let call ← Convert.resolve .macroCall index
    modify (·.markCall)
    -- The call stands alone, in place of the attribute that held its token.
    return .kept ⟨call, .bare⟩
  | some (family, index) => do
    -- What was recorded is a print tag, and it stays without quotes.
    return .kept { a with value := .unquoted (← Convert.resolve family index) }
  | none => return .kept { a with value := a.value.printSpans }

/-- An element, wrapped in the conjunction of its conditions if it has any. -/
def wrapConditions (conditions : List Text) (element : Node) : List Node :=
  match conditions with
  | [] => [element]
  | _ =>
    let condition := (conditions.intersperse " and ".toList).flatten
    [.text ((Twig.Statement.ifThen condition).text ++ ['\n']), element,
      .text ('\n' :: (Twig.Statement.close .conditional).text)]

mutual

/-- Convert a node. -/
def convertNode : Node → Convert (List Node)
  | .text content => do return [.text (← convertText content)]
  | .raw source => return [.raw source]
  | .element tag children => do
    -- Attributes come first, so that an error in them is the one that is told.
    let converted ← tag.attributes.mapM convertAttribute
    let children ← convertNodes children
    return wrapConditions (Converted.conditions converted)
      (.element { tag with attributes := Converted.attributes converted } children)

/-- Convert a list of nodes. -/
def convertNodes : List Node → Convert (List Node)
  | [] => return []
  | n :: ns => do
    let front ← convertNode n
    let back ← convertNodes ns
    return front ++ back

end

/-- Convert everything below a root. -/
def convertTree (root : Element) : Convert Element := do
  return { root with children := ← convertNodes root.children }

end TemploTwig
