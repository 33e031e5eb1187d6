import TemploTwig.Markup.Attribute

/-!
# Markup trees

Elements, text, and markup that is carried through as it is.  Text and attribute values are
kept as they were written, so printing a tree gives the markup back.

* `Node.source`, `Node.sourceAll`: the markup of a node, of a list of nodes
* `Node.find?`: the first element that passes a test, in document order
* `Node.replaceFirst?`: put other nodes in the place of that element
-/

namespace TemploTwig

/-- How an element was written. -/
inductive Form where
  /-- `<p>…</p>` -/
  | normal
  /-- `<p/>` -/
  | selfClosing
  /-- An element that never has an end tag, such as `<br>`. -/
  | void
  /-- A start tag whose end tag is missing. -/
  | unclosed
  deriving DecidableEq, Repr

/-- The tag of an element. -/
structure Tag where
  name : Text
  attributes : List Attribute
  form : Form
  deriving DecidableEq, Repr

/-- A node of a markup tree. -/
inductive Node where
  | element (tag : Tag) (children : List Node)
  | text (content : Text)
  /-- A comment, a document type, a CDATA section or a processing instruction. -/
  | raw (source : Text)
  deriving Repr, Inhabited

/-- An element with its children. -/
structure Element where
  tag : Tag
  children : List Node
  deriving Repr

namespace Tag

/-- The start tag as it is written. -/
def startText (tag : Tag) : Text :=
  '<' :: tag.name ++ Attribute.textAll tag.attributes ++
    (if tag.form = .selfClosing then "/>".toList else [ '>' ])

/-- The end tag as it is written.  Only an element in normal form has one. -/
def endText (tag : Tag) : Text :=
  if tag.form = .normal then "</".toList ++ tag.name ++ ['>'] else []

/-- Are the element's children written?  A self-closing or void element has none to show. -/
def showsChildren (tag : Tag) : Bool := tag.form == .normal || tag.form == .unclosed

end Tag

namespace Node

mutual

/-- The markup of a node. -/
def source : Node → Text
  | element tag children =>
    tag.startText ++ (if tag.showsChildren then sourceAll children else []) ++ tag.endText
  | text content => content
  | raw source => source

/-- The markup of a list of nodes. -/
def sourceAll : List Node → Text
  | [] => []
  | n :: ns => source n ++ sourceAll ns

end

mutual

/-- The first element of a node, itself included, whose tag passes the test. -/
def find? (test : Tag → Bool) : Node → Option Element
  | element tag children => if test tag then some ⟨tag, children⟩ else findIn? test children
  | text _ => none
  | raw _ => none

/-- The first element in a list of nodes whose tag passes the test. -/
def findIn? (test : Tag → Bool) : List Node → Option Element
  | [] => none
  | n :: ns => (find? test n).or (findIn? test ns)

end

mutual

/-- The nodes that are left of a node when its first element that passes the test is replaced. -/
def replaceFirst? (test : Tag → Bool) (new : Element → List Node) : Node → Option (List Node)
  | element tag children =>
    if test tag then some (new ⟨tag, children⟩)
    else (replaceFirstIn? test new children).map fun cs => [element tag cs]
  | text _ => none
  | raw _ => none

/-- A list of nodes with its first element that passes the test replaced. -/
def replaceFirstIn? (test : Tag → Bool) (new : Element → List Node) :
    List Node → Option (List Node)
  | [] => none
  | n :: ns =>
    match replaceFirst? test new n with
    | some front => some (front ++ ns)
    | none => (replaceFirstIn? test new ns).map (n :: ·)

end

/-- The first node that is an element. -/
def firstElement? : List Node → Option Element
  | [] => none
  | element tag children :: _ => some ⟨tag, children⟩
  | _ :: ns => firstElement? ns

/-- A list of nodes with its first node that is an element changed. -/
def modifyFirstElement? (f : Element → Element) : List Node → Option (List Node)
  | [] => none
  | element tag children :: ns =>
    let new := f ⟨tag, children⟩
    some (element new.tag new.children :: ns)
  -- Text and raw markup in front of the element are passed over.
  | n :: ns => (modifyFirstElement? f ns).map (n :: ·)

/-- Put text behind a list of nodes.  It joins a text node at the end. -/
def pushText (t : Text) : List Node → List Node
  | [] => [text t]
  | [text u] => [text (u ++ t)]
  | n :: ns => n :: pushText t ns

end Node

namespace Element

/-- An element as a node. -/
def toNode (e : Element) : Node := .element e.tag e.children

/-- Put a node in front of the children. -/
def prependChild (n : Node) (e : Element) : Element := { e with children := n :: e.children }

end Element

end TemploTwig
