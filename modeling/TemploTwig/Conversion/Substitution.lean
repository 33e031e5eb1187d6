import TemploTwig.Conversion.Context
import TemploTwig.Directive.Attribute
import TemploTwig.Directive.Basic
import TemploTwig.Placeholder.Literal
import TemploTwig.Placeholder.MacroToken
import TemploTwig.Source.Segment
import TemploTwig.Source.TemplatePath

/-!
# Making a template readable as markup

Before a template is read as markup, whatever a markup reader cannot take is replaced.  The
passes run in a fixed order, each over the segments of what the one before left:

1. `substituteCalls`       macro calls become placeholders
2. `substituteConditions`  `::cond …::` between attributes becomes a placeholder
3. `substituteInheritance` what the first `::use …::` governs becomes an element
4. `substituteAttributes`  the other attribute directives become placeholders
5. `protectLiterals`       `<` and `&` that are no markup are hidden

`prepare` runs them all.
-/

namespace TemploTwig

/-- A step that cannot fail. -/
abbrev Prepare := StateM Context

namespace Prepare

/-- Record a construct and give the placeholder that its index makes. -/
def record (family : Family) (entry : Text) (placeholder : Nat → Text) : Prepare Text := do
  let (index, ctx) := (← get).record family entry
  set ctx
  return placeholder index

/-- Record a construct and give its holder attribute. -/
def recordHolder (family : Family) (entry : Text) : Prepare Text :=
  record family entry family.holderText

/-- The text of a list of pieces, given what to do with each part of it. -/
def render {α : Type} (plain : Text → Text) (token : α → Prepare Text) (pieces : List (Piece α)) :
    Prepare Text := do
  let parts ← pieces.mapM fun
    | .plain t => pure (plain t)
    | .token a => token a
  return parts.flatten

/-- A start tag with its inline constructs replaced. -/
def mapTag (inline : Inline → Prepare Text) (tag : StartTag) : Prepare Text :=
  render id inline tag.pieces

/-- A template in which only the constructs of start tags are replaced. -/
def mapTags (inline : Inline → Prepare Text) (source : Text) : Prepare Text :=
  render id (fun
    | .startTag tag => mapTag inline tag
    | token => pure token.source) (segments source)

end Prepare

/-- Replace macro calls. -/
def substituteCalls (source : Text) : Prepare Text :=
  Prepare.render id (fun
    | .inline (.call call) => do
      Prepare.record .macroCall ((← get).renderCall call) MacroToken.ofIndex
    -- Between attributes the token has to be the value of one.
    | .startTag tag => Prepare.mapTag (fun
        | .call call => do Prepare.recordHolder .macroCall ((← get).renderCall call)
        | inline => pure inline.source) tag
    | token => pure token.source) (segments source)

/-- Replace conditions between attributes. -/
def substituteConditions (source : Text) : Prepare Text :=
  Prepare.mapTags (fun
    | .directive span =>
      match AttributeDirective.classify? span with
      | some (.cond condition) => Prepare.recordHolder .condition condition
      | _ => pure span
    | inline => pure inline.source) source

namespace Inheritance

/-- The name of the element around the content that a template hands to its parent. -/
def wrapperName : Text := "twig-use".toList

/-- The start tag of the wrapper. -/
def openTag : Text := '<' :: wrapperName ++ ['>']

/-- The end tag of the wrapper. -/
def closeTag : Text := "</".toList ++ wrapperName ++ ['>']

/-- The directive that a segment is, if it is one in text position. -/
def directive? : Segment → Option Directive
  | .token (.inline (.directive span)) => some (Directive.classify span)
  | _ => none

/-- The first segment that names a parent: what precedes it, the parent, and what follows. -/
def first? : List Segment → Option (List Segment × Text × List Segment)
  | [] => none
  | s :: ss =>
    match directive? s with
    | some (.inherit parent) => some ([], parent, ss)
    | _ => (first? ss).map fun (before, parent, after) => (s :: before, parent, after)

/-- The last segment that is an end: what precedes it and what follows. -/
def lastEnd? : List Segment → Option (List Segment × List Segment)
  | [] => none
  | s :: ss =>
    match lastEnd? ss with
    | some (before, after) => some (s :: before, after)
    | none => if directive? s = some .endBlock then some ([], ss) else none

end Inheritance

/-- Put the content that the first `::use::` governs into an element, up to the last end. -/
def substituteInheritance (source : Text) : Prepare Text := do
  match Inheritance.first? (segments source) with
  | none => return source
  | some (before, parent, after) =>
    let options := (← get).options
    let path := TemplatePath.swapExtension parent options.sourceExtension options.targetExtension
    modify ({ · with parent := some path })
    let text := Piece.renderAll Token.source
    -- Blocks in the content have ends of their own, so the last one is that of `::use::`.
    match Inheritance.lastEnd? after with
    | some (content, after) =>
      return text before ++ Inheritance.openTag ++ text content ++ Inheritance.closeTag ++ text after
    | none =>
      modify (·.warn .unclosedInheritance)
      return text before ++ Inheritance.openTag ++ text after ++ Inheritance.closeTag

/-- The family of an attribute directive that gives an attribute its value. -/
def AttributeDirective.family? : AttributeDirective → Option Family
  | cond _ => none
  | className _ _ => some .className
  | checked _ => some .checked
  | selected _ => some .selected

/-- Replace the attribute directives that give an attribute its value. -/
def substituteAttributes (source : Text) : Prepare Text :=
  Prepare.mapTags (fun
    | .directive span =>
      match AttributeDirective.classify? span with
      | some directive =>
        match directive.family?, directive.value? with
        | some family, some value => Prepare.recordHolder family value
        -- A condition gives no attribute.
        | _, _ => pure span
      | none => pure span
    | inline => pure inline.source) source

/-- Hide the markup characters that are no markup.  A directive that is left between attributes
    is printed. -/
def protectLiterals (source : Text) : Prepare Text :=
  Prepare.render Literal.protectText (fun
    | .inline (.directive span) => pure (Literal.protectSpan span)
    | .startTag tag => Prepare.mapTag (fun
        -- The attribute directives have been replaced, so this is none of them.
        | .directive span => do
          modify (·.warn (.unknownAttributeDirective span))
          return Literal.protectPrint (Twig.print (Span.body span))
        | inline => pure inline.source) tag
    | token => pure token.source) (segments source)

/-- Make a template readable as markup. -/
def prepare (source : Text) : Prepare Text := do
  protectLiterals (← substituteAttributes (← substituteInheritance
    (← substituteConditions (← substituteCalls source))))

end TemploTwig
