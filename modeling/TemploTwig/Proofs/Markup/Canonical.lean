import TemploTwig.Directive.Basic
import TemploTwig.Markup.Document
import TemploTwig.Proofs.Scanning

/-!
# Canonical trees

A tree is canonical when its markup can be read in one way only: names, values and comments hold
nothing that could end them early, text opens no markup outside its directive spans, and elements
without an end tag stand where the end tag around them closes them.

The predicates say nothing about readers.  They speak of the tree, of its markup and, for text
that has two colons outside a span, of the markup that follows.

Key results: `Attribute.IsCanonical`, `Tag.IsCanonical`, `Node.IsComment`, `IsCanonicalText`,
`Node.CanonicalAll`, `Document.IsCanonical`.
-/

namespace TemploTwig

/-- One of the three characters that stand for hidden ones. -/
def Literal.isStandIn (c : Char) : Bool := c == ampersand || c == lessThan || c == greaterThan

namespace Attribute

/-- May the character stand outside quotes in a canonical start tag? -/
def isOpenChar (c : Char) : Bool :=
  !isAsciiBlank c && c != '>' && c != '/' && c != '<' && c != '"' && c != '\'' && c != '$'

end Attribute

/-- A quoted value does not contain its own quote, and nothing in an unquoted one ends it. -/
def AttributeValue.IsCanonical : AttributeValue → Prop
  | .bare => True
  | .quoted value quote => quote.char ∉ value
  | .unquoted value =>
    value ≠ [] ∧ value.all Attribute.isOpenChar = true ∧ value.contains Span.delimiter = false

/-- An attribute that is read back from its own text. -/
structure Attribute.IsCanonical (a : Attribute) : Prop where
  name_ne_nil : a.name ≠ []
  name_open : a.name.all isOpenChar = true
  name_no_equals : '=' ∉ a.name
  name_no_delimiter : a.name.contains Span.delimiter = false
  value : a.value.IsCanonical
  no_stand_in : a.text.any Literal.isStandIn = false

namespace Tag

/-- May the character stand in the name of an element behind the first letter? -/
def isNameChar (c : Char) : Bool := c.isAlphanum || c == '_' || c == '.' || c == '-'

/-- The name of an element: a letter, then letters, digits and a few marks. -/
def IsName (name : Text) : Prop :=
  ∃ c cs, name = c :: cs ∧ c.isAlpha = true ∧ cs.all isNameChar = true

/-- A tag whose name, attributes and form fit together, the attributes being such that `A` holds. -/
structure IsCanonical (A : Attribute → Prop) (tag : Tag) (children : List Node) : Prop where
  name : IsName tag.name
  attributes : ∀ a ∈ tag.attributes, A a
  of_isVoid : Document.isVoid tag.name = true → tag.form = .void ∨ tag.form = .selfClosing
  of_not_isVoid : Document.isVoid tag.name = false → tag.form ≠ .void
  children : tag.form = .void ∨ tag.form = .selfClosing → children = []

end Tag

/-- A comment that ends at its first `-->`. -/
def Node.IsComment (source : Text) : Prop :=
  ∃ content, source = "<!--".toList ++ content ++ "-->".toList ∧
    Text.cut? "-->".toList (content ++ "-->".toList) = some (content, [])

/-- Does the character make markup of a `<` in front of it? -/
def opensMarkup (c : Char) : Bool := c.isAlpha || c == '/' || c == '!' || c == '?'

/-- No `<` in the run is followed by a character that makes markup of it. -/
def OpensNoMarkup (run : Text) : Prop :=
  ∀ front c back, run = front ++ '<' :: c :: back → opensMarkup c = false

/-- Where the pieces of a text open no span, none opens either when `after` follows the text. -/
def Span.StayApart (after : Text) : List (Piece Text) → Prop
  | [] => True
  | .plain run :: ps =>
    recogniser.Declines run (Piece.renderAll id ps ++ after) ∧ StayApart after ps
  | .token _ :: ps => StayApart after ps

/-- Text that is read back as one text node in front of `after`. -/
structure IsCanonicalText (content after : Text) : Prop where
  ne_nil : content ≠ []
  no_dollar : '$' ∉ content
  no_stand_in : content.any Literal.isStandIn = false
  no_markup : ∀ run, .plain run ∈ Span.scan content → OpensNoMarkup run
  no_inherit : ∀ span, .token span ∈ Span.scan content →
    ∀ path, Directive.classify span ≠ .inherit path
  apart : Span.StayApart after (Span.scan content)

namespace Node

/-- Is the node text? -/
def isText : Node → Bool
  | .text _ => true
  | _ => false

/-- Is the node an element without an end tag? -/
def isUnclosed : Node → Bool
  | .element tag _ => tag.form == .unclosed
  | _ => false

/-- Does the list start with text? -/
def startsWithText : List Node → Bool
  | [] => false
  | n :: _ => n.isText

end Node

/-- The name of the nearest element around the children of `tag` that is not unclosed. -/
def Tag.owner (tag : Tag) (owner : Text) : Text :=
  if tag.form = .unclosed then owner else tag.name

namespace Node

mutual

/-- A node that is read back in front of `after`, inside an element named `owner`. -/
def Canonical (A : Attribute → Prop) (owner after : Text) : Node → Prop
  | .text content => IsCanonicalText content after
  | .raw source => IsComment source
  | .element tag children =>
    tag.IsCanonical A children ∧
      (tag.form = .unclosed → Text.sameIgnoringCase tag.name owner = false) ∧
      CanonicalAll A (tag.owner owner) (tag.endText ++ after) children

/-- Nodes that are read back in front of `after`, inside an element named `owner`: no two texts are
    adjacent, and an element without an end tag comes last. -/
def CanonicalAll (A : Attribute → Prop) (owner after : Text) : List Node → Prop
  | [] => True
  | n :: ns =>
    n.Canonical A owner (sourceAll ns ++ after) ∧
      (n.isText = true → startsWithText ns = false) ∧ (n.isUnclosed = true → ns = []) ∧
      CanonicalAll A owner after ns

end

end Node

/-- The children of a document that is read back from its markup.  The root counts as the outermost
    element with an end tag. -/
def Document.IsCanonical (children : List Node) : Prop :=
  Node.CanonicalAll Attribute.IsCanonical Document.rootName [] children

/-! ## Deciding -/

instance : DecidablePred AttributeValue.IsCanonical
  | .bare => isTrue trivial
  | .quoted value quote => inferInstanceAs (Decidable (quote.char ∉ value))
  | .unquoted value => inferInstanceAs (Decidable (value ≠ [] ∧
      value.all Attribute.isOpenChar = true ∧ value.contains Span.delimiter = false))

instance : DecidablePred Attribute.IsCanonical := fun a =>
  decidable_of_iff (((a.name ≠ [] ∧ a.name.all Attribute.isOpenChar = true) ∧
      '=' ∉ a.name ∧ a.name.contains Span.delimiter = false) ∧
      a.value.IsCanonical ∧ a.text.any Literal.isStandIn = false)
    ⟨fun ⟨⟨⟨h₁, h₂⟩, h₃, h₄⟩, h₅, h₆⟩ => ⟨h₁, h₂, h₃, h₄, h₅, h₆⟩,
      fun ⟨h₁, h₂, h₃, h₄, h₅, h₆⟩ => ⟨⟨⟨h₁, h₂⟩, h₃, h₄⟩, h₅, h₆⟩⟩

instance : DecidablePred Tag.IsName
  | [] => isFalse nofun
  | c :: cs => decidable_of_iff (c.isAlpha = true ∧ cs.all Tag.isNameChar = true) (by
      constructor
      · rintro ⟨hc, hcs⟩
        exact ⟨c, cs, rfl, hc, hcs⟩
      · rintro ⟨d, ds, heq, hd, hds⟩
        obtain ⟨rfl, rfl⟩ := List.cons.inj heq
        exact ⟨hd, hds⟩)

instance (A : Attribute → Prop) [DecidablePred A] (tag : Tag) (children : List Node) :
    Decidable (tag.IsCanonical A children) :=
  decidable_of_iff ((Tag.IsName tag.name ∧ ∀ a ∈ tag.attributes, A a) ∧
      (Document.isVoid tag.name = true → tag.form = .void ∨ tag.form = .selfClosing) ∧
      (Document.isVoid tag.name = false → tag.form ≠ .void) ∧
      (tag.form = .void ∨ tag.form = .selfClosing → children.isEmpty = true))
    ⟨fun ⟨⟨h₁, h₂⟩, h₃, h₄, h₅⟩ => ⟨h₁, h₂, h₃, h₄, fun h => List.isEmpty_iff.1 (h₅ h)⟩,
      fun ⟨h₁, h₂, h₃, h₄, h₅⟩ => ⟨⟨h₁, h₂⟩, h₃, h₄, fun h => List.isEmpty_iff.2 (h₅ h)⟩⟩

instance : DecidablePred Node.IsComment := fun source =>
  let content := (source.drop 4).take (source.length - 7)
  decidable_of_iff (source = "<!--".toList ++ content ++ "-->".toList ∧
      Text.cut? "-->".toList (content ++ "-->".toList) = some (content, [])) (by
    constructor
    · rintro ⟨hsource, hcut⟩
      exact ⟨content, hsource, hcut⟩
    · rintro ⟨c, rfl, hcut⟩
      have hcontent : content = c := by simp [content]
      rw [hcontent]
      exact ⟨rfl, hcut⟩)

/-- `OpensNoMarkup` goes character by character. -/
theorem opensNoMarkup_cons_iff {c : Char} {cs : Text} :
    OpensNoMarkup (c :: cs) ↔
      ¬(c = '<' ∧ cs.head?.any opensMarkup = true) ∧ OpensNoMarkup cs := by
  constructor
  · intro h
    refine ⟨?_, fun front d back hcs => h (c :: front) d back (by rw [hcs]; rfl)⟩
    rintro ⟨rfl, hnext⟩
    cases cs with
    | nil => cases hnext
    | cons d cs => exact absurd hnext (by simp [h [] d cs rfl])
  · rintro ⟨hfirst, hrest⟩ front d back h
    cases front with
    | nil =>
      obtain ⟨rfl, rfl⟩ := List.cons.inj h
      cases hd : opensMarkup d with
      | false => rfl
      | true => exact absurd ⟨rfl, hd⟩ hfirst
    | cons e front => exact hrest front d back (List.cons.inj h).2

instance decidableOpensNoMarkup : DecidablePred OpensNoMarkup
  | [] => isTrue fun front _ _ h => absurd h (by cases front <;> simp)
  | c :: cs =>
    have := decidableOpensNoMarkup cs
    decidable_of_iff _ opensNoMarkup_cons_iff.symm

instance Span.decidableStayApart (after : Text) : DecidablePred (Span.StayApart after)
  | [] => isTrue trivial
  | .plain run :: ps =>
    have := decidableStayApart after ps
    inferInstanceAs (Decidable (recogniser.Declines run (Piece.renderAll id ps ++ after) ∧
      StayApart after ps))
  | .token _ :: ps => decidableStayApart after ps

/-- What canonical text asks of a run between spans, and of a span. -/
private def admits : Piece Text → Bool
  | .plain run => decide (OpensNoMarkup run)
  | .token span =>
    match Directive.classify span with
    | .inherit _ => false
    | _ => true

private theorem admits_token_iff {span : Text} :
    admits (.token span) = true ↔ ∀ path, Directive.classify span ≠ .inherit path := by
  rw [admits]
  cases Directive.classify span <;> simp

instance (content after : Text) : Decidable (IsCanonicalText content after) :=
  decidable_of_iff ((content ≠ [] ∧ '$' ∉ content ∧ content.any Literal.isStandIn = false) ∧
      (Span.scan content).all admits = true ∧ Span.StayApart after (Span.scan content)) (by
    rw [List.all_eq_true]
    constructor
    · rintro ⟨⟨hne, hdollar, hstand⟩, hpieces, hapart⟩
      exact ⟨hne, hdollar, hstand, fun run hrun => of_decide_eq_true (hpieces _ hrun),
        fun span hspan => admits_token_iff.1 (hpieces _ hspan), hapart⟩
    · rintro ⟨hne, hdollar, hstand, hmarkup, hinherit, hapart⟩
      refine ⟨⟨hne, hdollar, hstand⟩, ?_, hapart⟩
      rintro (run | span) hp
      · exact decide_eq_true (hmarkup run hp)
      · exact admits_token_iff.2 (hinherit span hp))

namespace Node

mutual

instance decidableCanonical (A : Attribute → Prop) [DecidablePred A] (owner after : Text) :
    (n : Node) → Decidable (n.Canonical A owner after)
  | .text content => inferInstanceAs (Decidable (IsCanonicalText content after))
  | .raw source => inferInstanceAs (Decidable (IsComment source))
  | .element tag children =>
    have := decidableCanonicalAll A (tag.owner owner) (tag.endText ++ after) children
    inferInstanceAs (Decidable (tag.IsCanonical A children ∧
      (tag.form = .unclosed → Text.sameIgnoringCase tag.name owner = false) ∧
      CanonicalAll A (tag.owner owner) (tag.endText ++ after) children))

instance decidableCanonicalAll (A : Attribute → Prop) [DecidablePred A] (owner after : Text) :
    (ns : List Node) → Decidable (CanonicalAll A owner after ns)
  | [] => isTrue trivial
  | n :: ns =>
    have := decidableCanonical A owner (sourceAll ns ++ after) n
    have := decidableCanonicalAll A owner after ns
    decidable_of_iff (n.Canonical A owner (sourceAll ns ++ after) ∧
      (n.isText = true → startsWithText ns = false) ∧
      (n.isUnclosed = true → ns.isEmpty = true) ∧ CanonicalAll A owner after ns) (by
        rw [CanonicalAll, List.isEmpty_iff])

end

end Node

instance : DecidablePred Document.IsCanonical := fun children =>
  inferInstanceAs (Decidable (Node.CanonicalAll _ _ _ children))

end TemploTwig
