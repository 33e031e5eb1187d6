import TemploTwig.Markup.Node
import TemploTwig.Markup.Reading
import TemploTwig.Placeholder.Literal

/-!
# The tree of a document

The children of an element are read up to its end tag, and those of an element inside it in the
same way.  An end tag that belongs to an element further out ends the children too: the element is
left without an end tag of its own, and the one that was found is handed outwards until it comes to
the element it belongs to.  An end tag that matches no open element is skipped.

* `Closing`: how the children of an element ended
* `Document.readChildren` the children of an element
* `Document.parse?`: the tree of a text
-/

namespace TemploTwig

/-- How the children of an element ended. -/
inductive Closing where
  /-- The element's own end tag. -/
  | matched
  /-- The end tag of an element around it, which that element has yet to see. -/
  | ancestor (endTag : Text)
  /-- The end of the text. -/
  | endOfText
  deriving DecidableEq, Repr

namespace Document

/-- The name of the element around a whole document. -/
def rootName : Text := "twig-root".toList

/-- Names of the elements that never have an end tag. -/
def voidNames : List Text :=
  ["area", "base", "br", "col", "embed", "hr", "img", "input", "link", "meta", "source", "track",
    "wbr"].map String.toList

/-- Does an element of this name never have an end tag? -/
def isVoid (name : Text) : Bool := voidNames.any (Text.sameIgnoringCase name)

/-- Attributes from the text behind a tag's name. -/
def readAttributes (raw : Text) : List Attribute := Attribute.parse (Literal.restore raw)

/-- The name and the attributes of an element that an event opens. -/
def opening? : Event → Option (Text × List Attribute)
  | .start name raw => if isVoid name then none else some (name, readAttributes raw)
  | _ => none

/-- Does the end tag close the innermost open element?  The names of the open elements are given
    innermost first. -/
def isCurrent (opened : List Text) (endTag : Text) : Bool :=
  opened.head?.any (Text.sameIgnoringCase · endTag)

/-- How an event ends the children of the innermost open element, if it does. -/
def closing? (opened : List Text) : Event → Option Closing
  | .close endTag =>
    if isCurrent opened endTag then some .matched
    else if opened.any (Text.sameIgnoringCase · endTag) then some (.ancestor endTag)
    else none
  | _ => none

/-- The children of an element behind an event that neither opens nor closes one. -/
def addTo (children : List Node) : Event → List Node
  | .start name raw => children ++ [.element ⟨name, readAttributes raw, .void⟩ []]
  | .empty name raw => children ++ [.element ⟨name, readAttributes raw, .selfClosing⟩ []]
  | .text content => Node.pushText (Literal.restore content) children
  -- A reference is not decoded, so there is nothing to restore in it.
  | .reference name => Node.pushText ('&' :: name ++ [';']) children
  | .cdata content => children ++ [.raw ("<![CDATA[".toList ++ content ++ "]]>".toList)]
  | .comment content => children ++ [.raw ("<!--".toList ++ content ++ "-->".toList)]
  -- The keyword is written in capitals, however it was spelled.
  | .doctype content => children ++ [.raw ("<!DOCTYPE ".toList ++ content.trimStart ++ ['>'])]
  | .instruction content => children ++ [.raw ("<?".toList ++ content ++ "?>".toList)]
  | .close _ => children

/-- The children of an element, how they ended, and the events behind them: at most `n`. -/
structure Children (n : Nat) where
  nodes : List Node
  closing : Closing
  rest : List Event
  length_rest_le : rest.length ≤ n

/-- The same children, with a larger bound. -/
def Children.mono {m n : Nat} (h : m ≤ n) (read : Children m) : Children n :=
  ⟨read.nodes, read.closing, read.rest, Nat.le_trans read.length_rest_le h⟩

/-- The children of the innermost open element, with `children` read so far, or nothing if reading
    broke off in front of its end.  The names of the open elements are given innermost first. -/
def readChildren (broken : Bool) (opened : List Text) (children : List Node) :
    (es : List Event) → Option (Children es.length)
  | [] => if broken then none else some ⟨children, .endOfText, [], Nat.le_refl 0⟩
  | e :: es =>
    match opening? e with
    | some (name, attributes) =>
      match readChildren broken (name :: opened) [] es with
      | none => none
      | some inner =>
        have hrest : inner.rest.length ≤ es.length + 1 := Nat.le_succ_of_le inner.length_rest_le
        match inner.closing with
        | .matched =>
          (readChildren broken opened
            (children ++ [.element ⟨name, attributes, .normal⟩ inner.nodes]) inner.rest).map
              (.mono hrest)
        | .ancestor endTag =>
          -- The end tag is that of the element around this one, or is handed on.
          some ⟨children ++ [.element ⟨name, attributes, .unclosed⟩ inner.nodes],
            if isCurrent opened endTag then .matched else .ancestor endTag, inner.rest, hrest⟩
        | .endOfText =>
          some ⟨children ++ [.element ⟨name, attributes, .unclosed⟩ inner.nodes], .endOfText,
            inner.rest, hrest⟩
    | none =>
      match closing? opened e with
      | some closing => some ⟨children, closing, es, Nat.le_succ _⟩
      | none => (readChildren broken opened (addTo children e) es).map (.mono (Nat.le_succ _))
termination_by es => es.length
decreasing_by
  · exact Nat.lt_succ_self _
  · exact Nat.lt_succ_of_le inner.length_rest_le
  · exact Nat.lt_succ_self _

/-- A root element with the given children. -/
def root (children : List Node) : Element := ⟨⟨rootName, [], .normal⟩, children⟩

/-- The tree of a text, or nothing if it cannot be read as markup.  The root's end tag is part
    of what is read, so a construct that is never closed takes it in. -/
def parse? (t : Text) : Option Element :=
  let reading := Reading.ofText (t ++ "</".toList ++ rootName ++ ['>'])
  (readChildren reading.broken [rootName] [] reading.events).map fun read => root read.nodes

end Document

end TemploTwig
