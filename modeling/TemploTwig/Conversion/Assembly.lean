import TemploTwig.Conversion.Substitution
import TemploTwig.Conversion.Tree

/-!
# Assembling the output

A converted tree becomes the text of a Twig template: the macros are imported if they are called,
what a template hands to its parent becomes a block, and nothing of the placeholders may be left.

* `insertImport`: put the import in front of the content
* `completeInheritance`: make a block of what the parent gets
* `checkPlaceholders`: fail if a placeholder is left
* `assemble`: all of it
-/

namespace TemploTwig

/-- The import of the macros, on a line of its own. -/
def importNode (library : Text) : Node :=
  .text ('\n' :: (Twig.Statement.importMacros library).text)

/-- Put the import in front of the content of `body`, or else of the first element, or else of
    the whole document. -/
def placeImport (library : Text) (root : Element) : Element :=
  let isBody := fun (tag : Tag) => Text.sameIgnoringCase tag.name "body".toList
  let insert := Element.prependChild (importNode library)
  match Node.replaceFirstIn? isBody (fun body => [(insert body).toNode]) root.children with
  | some children => { root with children }
  | none =>
    -- Only elements at the top are looked at here, not those inside others.
    match Node.modifyFirstElement? insert root.children with
    | some children => { root with children }
    | none => insert root

/-- Import the macros if the output calls one. -/
def insertImport (ctx : Context) (root : Element) : Element :=
  if ctx.callsMacros then placeImport ctx.options.macroLibrary root else root

/-- The statements in front of the content that the parent gets. -/
def inheritanceHeader (parent : Text) : Text :=
  (Twig.Statement.inherit parent).text ++ '\n' :: (Twig.Statement.block "content".toList).text

/-- The content that the parent gets, as a block. -/
def inheritanceBlock (parent : Text) (content : List Node) : List Node :=
  .text (inheritanceHeader parent) :: content ++ [.text Twig.Statement.endBlock.text]

/-- Make a block of the content that the parent gets.  Without the element that marks it, the
    whole document is the content. -/
def completeInheritance (parent : Text) (root : Element) : Convert Element := do
  let isWrapper := fun (tag : Tag) => decide (tag.name = Inheritance.wrapperName)
  match Node.replaceFirstIn? isWrapper (fun wrapper => inheritanceBlock parent wrapper.children)
      root.children with
  | some children => return { root with children }
  | none =>
    Convert.warn .missingInheritanceWrapper
    return { root with children := inheritanceBlock parent root.children }

/-- The first placeholder among the attributes of a tag. -/
def tagPlaceholder? (tag : Tag) : Option (Family × Nat) :=
  tag.attributes.findSome? Attribute.placeholder?

/-- The first inline token of a text.  An index out of bounds is shown as the largest one. -/
def textPlaceholder? (t : Text) : Option (Family × Nat) :=
  (MacroToken.first? t).map fun digits => (.macroCall, (parseIndex? digits).getD largestIndex)

mutual

/-- The first placeholder that is left in a node. -/
def nodePlaceholder? : Node → Option (Family × Nat)
  | .element tag children => (tagPlaceholder? tag).or (nodesPlaceholder? children)
  | .text content => textPlaceholder? content
  -- Nothing is converted in markup that is carried through, so nothing can be left in it.
  | .raw _ => none

/-- The first placeholder that is left in a list of nodes. -/
def nodesPlaceholder? : List Node → Option (Family × Nat)
  | [] => none
  | n :: ns => (nodePlaceholder? n).or (nodesPlaceholder? ns)

end

/-- Fail if a placeholder is left. -/
def checkPlaceholders (root : Element) : Except ConvertError Unit :=
  match nodePlaceholder? root.toNode with
  | some (family, index) => .error (.unresolvedPlaceholder family index)
  | none => .ok ()

/-- Number of directive spans in a text. -/
def spanCount (t : Text) : Nat :=
  (Span.scan t).countP fun
    | .token _ => true
    | .plain _ => false

/-- The text of a converted tree. -/
def assemble (root : Element) : Convert Text := do
  Convert.ensureClosed
  let ctx ← get
  -- The import goes in while the wrapper is still an element that can take it.
  let root := insertImport ctx root
  let root ← match ctx.parent with
    | some parent => completeInheritance parent root
    | none => pure root
  match checkPlaceholders root with
  | .error e => throw e
  | .ok () =>
    let output := Node.sourceAll root.children
    -- A directive that is still there is worth a warning, but the output stands.
    let leftover := spanCount output
    if 0 < leftover then Convert.warn (.leftoverSpans leftover)
    return output

end TemploTwig
