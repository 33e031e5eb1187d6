import TemploTwig.Proofs.Markup.Holders
import TemploTwig.Proofs.Markup.Insertions

/-!
# Trees with directives between the attributes

A draft is a tree in whose start tags directives stand between the attributes.  It has three
readings: the tree without the directives, the tree as it is written, and the tree that it stands
for, in which every directive has its effect on the element that carries it.
-/

namespace TemploTwig

/-- The directive as it stands in the place of an attribute. -/
def Insertion.slot (d : Insertion) : Attribute := ⟨d.source, .bare⟩

/-- What stands between two blanks of a start tag. -/
inductive Slot where
  | plain (a : Attribute)
  | directive (d : Insertion)

/-- A tree with directives between the attributes of its start tags. -/
inductive Draft where
  | element (name : Text) (slots : List Slot) (form : Form) (children : List Draft)
  | text (content : Text)
  | raw (source : Text)

namespace Slot

/-- The attribute in the slot, unless a directive stands there. -/
def attribute? : Slot → Option Attribute
  | .plain a => some a
  | .directive _ => none

/-- The slot as it is written. -/
def written : Slot → Attribute
  | .plain a => a
  | .directive d => d.slot

/-- The directive in the slot, if there is one. -/
def insertions : Slot → List Insertion
  | .plain _ => []
  | .directive d => [d]

/-- The condition that the slot puts on its element. -/
def condition? : Slot → Option Text
  | .directive (.cond e) => some (Condition.toTwig e.text)
  | _ => none

/-- The attribute that the slot stands for.  One without directives in its value stays as it is. -/
def converted? : Slot → Option Attribute
  | .plain a =>
    some (if a.text.contains Span.delimiter then { a with value := a.value.printSpans } else a)
  | .directive (.cond _) => none
  | .directive (.className c v) =>
    some ⟨"class".toList, .unquoted
      ("\x7b\x7b ".toList ++ c.text ++ " ? \"".toList ++ v.text ++ "\" : \"\" \x7d\x7d".toList)⟩
  | .directive (.checked c) =>
    some ⟨"checked".toList, .unquoted ("\x7b\x7b ".toList ++ c.text ++ " \x7d\x7d".toList)⟩
  | .directive (.selected c) =>
    some ⟨"selected".toList, .unquoted ("\x7b\x7b ".toList ++ c.text ++ " \x7d\x7d".toList)⟩

end Slot

namespace Draft

/-- An element between the start and the end of an `if` statement, when there are conditions. -/
def guarded (conditions : List Text) (element : Node) : List Node :=
  if conditions = [] then [element]
  else [.text ("\x7b% if ".toList ++ (conditions.intersperse " and ".toList).flatten ++
      " %\x7d\n".toList), element, .text "\n\x7b% endif %\x7d".toList]

mutual

/-- The node without the directives. -/
def plain : Draft → Node
  | .text content => .text content
  | .raw source => .raw source
  | .element name slots form children =>
    .element ⟨name, slots.filterMap Slot.attribute?, form⟩ (plainAll children)

/-- The nodes without the directives. -/
def plainAll : List Draft → List Node
  | [] => []
  | d :: ds => plain d :: plainAll ds

end

mutual

/-- The node as it is written. -/
def written : Draft → Node
  | .text content => .text content
  | .raw source => .raw source
  | .element name slots form children =>
    .element ⟨name, slots.map Slot.written, form⟩ (writtenAll children)

/-- The nodes as they are written. -/
def writtenAll : List Draft → List Node
  | [] => []
  | d :: ds => written d :: writtenAll ds

end

mutual

/-- The nodes that a draft stands for. -/
def converted : Draft → List Node
  | .text content => [.text content]
  | .raw source => [.raw source]
  | .element name slots form children =>
    guarded (slots.filterMap Slot.condition?)
      (.element ⟨name, slots.filterMap Slot.converted?, form⟩ (convertedAll children))

/-- The nodes that a list of drafts stands for. -/
def convertedAll : List Draft → List Node
  | [] => []
  | d :: ds => converted d ++ convertedAll ds

end

mutual

/-- The directives of a draft, in document order. -/
def insertions : Draft → List Insertion
  | .text _ => []
  | .raw _ => []
  | .element _ slots _ children => slots.flatMap Slot.insertions ++ insertionsAll children

/-- The directives of a list of drafts, in document order. -/
def insertionsAll : List Draft → List Insertion
  | [] => []
  | d :: ds => insertions d ++ insertionsAll ds

end

mutual

/-- No text has two colons in a row, and neither text nor attributes have the mark of a token. -/
def Unmarked : Draft → Prop
  | .text content => content.contains Span.delimiter = false ∧
      content.contains Attribute.tokenMark = false
  | .raw _ => True
  | .element _ slots _ children =>
    (∀ a ∈ slots.filterMap Slot.attribute?, a.text.contains Attribute.tokenMark = false) ∧
      UnmarkedAll children

/-- The same of a list of drafts. -/
def UnmarkedAll : List Draft → Prop
  | [] => True
  | d :: ds => d.Unmarked ∧ UnmarkedAll ds

end

mutual

instance decidableUnmarked : (d : Draft) → Decidable d.Unmarked
  | .text content => inferInstanceAs (Decidable (content.contains Span.delimiter = false ∧
      content.contains Attribute.tokenMark = false))
  | .raw _ => isTrue trivial
  | .element _ slots _ children =>
    have := decidableUnmarkedAll children
    inferInstanceAs (Decidable ((∀ a ∈ slots.filterMap Slot.attribute?,
      a.text.contains Attribute.tokenMark = false) ∧ UnmarkedAll children))

instance decidableUnmarkedAll : (ds : List Draft) → Decidable (UnmarkedAll ds)
  | [] => isTrue trivial
  | d :: ds =>
    have := decidableUnmarked d
    have := decidableUnmarkedAll ds
    inferInstanceAs (Decidable (d.Unmarked ∧ UnmarkedAll ds))

end

end Draft

end TemploTwig
