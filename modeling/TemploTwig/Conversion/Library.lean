import TemploTwig.Conversion.Text
import TemploTwig.Directive.Attribute
import TemploTwig.Source.Segment
import TemploTwig.Conversion.Substitution

/-!
# Converting a library of macros

A library is converted segment by segment.  The tags around the library are dropped, each
definition becomes a macro statement, and no block may reach out of a definition.

* `Library.definitionName?`: the name in a definition's start tag
* `Library.lineAt?`: the line of a byte offset, for the error about a missing name
* `Library.convert`: a whole library
-/

namespace TemploTwig

namespace Library

/-- The element around a library. -/
def containerName : Text := "macros".toList

/-- The element around a definition. -/
def definitionElement : Text := "macro".toList

/-- Is the markup an end tag of this name? -/
def isEndTag (name markup : Text) : Bool :=
  match (Text.stripStart? "</".toList markup).bind (Text.stripEnd? ['>']) with
  | some inner => inner.trim == name
  | none => false

/-- The name in a definition's start tag: the value of its first attribute `name`, if that value
    is not blank. -/
def definitionName? (tag : StartTag) : Option Text :=
  ((tag.attributes.find? (·.name = "name".toList)).bind (·.value.text?)).filter
    (!Text.isBlankText ·)

/-- Convert a directive between the attributes of a start tag. -/
def convertAttributeSpan (span : Text) : Convert Text :=
  match AttributeDirective.classify? span with
  | some directive =>
    match directive.family?, directive.value? with
    | some family, some value => return family.holder ++ '=' :: value
    -- A condition would wrap the element, and here there is no tree to wrap it in.
    | _, _ => do
      Convert.warn .conditionInLibrary
      return span
  | none => renderDirective span

/-- Convert a piece of a start tag. -/
def convertTagPiece : Piece Inline → Convert Text
  -- The plain runs of a tag hold its quoted values.
  | .plain t => return printSpans t
  | .token (.call call) => return (← get).renderCall call
  | .token (.directive span) => convertAttributeSpan span

/-- The number of the line that the byte at `offset` stands on, counted from 1.  An offset inside a
    character has none. -/
def lineAt? (source : Text) (offset : Nat) : Option Nat :=
  (source.takeBytes? offset).map fun front => front.count '\n' + 1

/-- The error about a definition without a name, whose tag begins at `offset`. -/
def missingName (source : Text) (offset : Nat) : ConvertError :=
  -- 0 is the number of no line, so it stands for an offset that has none.
  .missingMacroName ((lineAt? source offset).getD 0)

/-- Convert the start tag at `offset`. -/
def convertTag (source : Text) (offset : Nat) (tag : StartTag) : Convert Text :=
  if tag.name = containerName then return []
  else if tag.name = definitionElement then
    match definitionName? tag with
    | some name => return (Twig.Statement.defineMacro name).text
    | none => throw (missingName source offset)
  else do return (← tag.pieces.mapM convertTagPiece).flatten

/-- Convert markup other than a start tag. -/
def convertMarkup (markup : Text) : Convert Text :=
  if isEndTag containerName markup then return []
  else if isEndTag definitionElement markup then do
    -- A block that was opened in the definition ends in it.
    Convert.ensureClosed
    return Twig.Statement.endMacro.text
  else return markup

/-- Convert the segment at `offset`. -/
def convertSegment (source : Text) (offset : Nat) : Segment → Convert Text
  | .plain t => return t
  | .token (.inline (.directive span)) => renderDirective span
  | .token (.inline (.call call)) => return (← get).renderCall call
  | .token (.startTag tag) => convertTag source offset tag
  | .token (.markup markup) => convertMarkup markup

/-- Convert segments, the first of them at `offset`. -/
def convertSegments (source : Text) (offset : Nat) : List Segment → Convert Text
  | [] => return []
  | s :: ss => do
    let front ← convertSegment source offset s
    -- Offsets are those of the source, not of the output.
    let back ← convertSegments source (offset + (s.render Token.source).byteSize) ss
    return front ++ back

/-- Convert a library. -/
def convert (source : Text) : Convert Text := do
  let output ← convertSegments source 0 (segments source)
  Convert.ensureClosed
  return output

end Library

end TemploTwig
