import TemploTwig.Source.Quote
import TemploTwig.Text.Blank

/-!
# Template paths

A template that inherits from another names it by its file name.  The converted parent has the
target extension, so the name changes with it.

* `TemplatePath.stem?`: a file name without a given extension
* `TemplatePath.swapExtension`: the quoted name of the converted template
-/

namespace TemploTwig

namespace TemplatePath

/-- The name without the dot and the extension, if it ends with them. -/
def stem? (extension name : Text) : Option Text :=
  (Text.stripEnd? extension name).bind (Text.stripEnd? ['.'])

/-- The name with a dot and an extension behind it. -/
def withExtension (extension stem : Text) : Text := stem ++ '.' :: extension

/-- The name with the target extension in place of the source extension.  A name without the
    source extension stays as it is. -/
def swapBare (source target name : Text) : Text :=
  ((stem? source name).map (withExtension target)).getD name

/-- The quoted name with its extension swapped.  Quotes around the name are kept, a bare name
    gets double quotes. -/
def swapExtension (name source target : Text) : Text :=
  let (quote, bare) := (Quote.enclosed? name.trim).getD (.double, name.trim)
  quote.enclose (swapBare source target bare)

end TemplatePath

end TemploTwig
