import TemploTwig.Conversion.Assembly
import TemploTwig.Conversion.Library
import TemploTwig.Markup.Document

/-!
# Converting a template

* `TemplateKind.detect`: document or library, by the first tag
* `convertDocument`: a document, through its tree
* `convertTemplate`: a template of either kind, from a fresh state
-/

namespace TemploTwig

/-- A template is a library when its first tag is the container of one. -/
def TemplateKind.detect (source : Text) : TemplateKind :=
  match Text.stripStart? ('<' :: Library.containerName) source.trimStart with
  -- `<macrosheet>` is an element of another name.
  | some (c :: _) => if c = '>' ∨ isBlank c then library else document
  | _ => document

/-- Convert a document. -/
def convertDocument (source : Text) : Convert Text := do
  let text ← prepare source
  match Document.parse? text with
  | some root => assemble (← convertTree root)
  | none => throw .malformedMarkup

/-- Convert a template of the given kind. -/
def convertAs (kind : TemplateKind) (source : Text) : Convert Text :=
  match kind with
  | .document => convertDocument source
  | .library => Library.convert source

/-- What a conversion gives: its output or the reason why it failed, and its warnings. -/
structure Report where
  kind : TemplateKind
  result : Except ConvertError Text
  warnings : List Warning

/-- Convert a template from a fresh state.  Without a kind, the template's first tag decides. -/
def convertTemplate (options : Options) (kind : Option TemplateKind) (source : Text) : Report :=
  let kind := kind.getD (TemplateKind.detect source)
  let (result, ctx) := (convertAs kind source).run.run { options, kind }
  ⟨kind, result, ctx.warnings⟩

end TemploTwig
