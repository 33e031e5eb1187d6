import TemploTwig.Text.Basic

/-!
# Twig statements

The statements of the Twig language that a converted template can hold, and their spelling.

* `BlockKind`: the three kinds of block that an `::end::` may close
* `Statement`: one `{% … %}` tag
* `Statement.text`: its spelling
* `Twig.print`: a `{{…}}` tag
-/

namespace TemploTwig

/-- A kind of Twig block that stays open until its own end tag. -/
inductive BlockKind where
  | conditional
  | loop
  | assignment
  deriving DecidableEq, Repr

namespace BlockKind

/-- The keyword that opens a block of this kind. -/
def keyword : BlockKind → Text
  | conditional => "if".toList
  | loop => "for".toList
  | assignment => "set".toList

end BlockKind

namespace Twig

/-- A statement tag around `content`. -/
def tag (content : Text) : Text := "\x7b% ".toList ++ content ++ " %\x7d".toList

/-- A print tag, with nothing added around `content`. -/
def print (content : Text) : Text := "\x7b\x7b".toList ++ content ++ "\x7d\x7d".toList

/-- A print tag with a blank on both sides of the expression. -/
def printSpaced (expression : Text) : Text := print (' ' :: expression ++ [' '])

/-- A Twig statement. -/
inductive Statement where
  | ifThen (condition : Text)
  | elseIf (condition : Text)
  | otherwise
  | forIn (item collection : Text)
  | assign (expression : Text)
  | close (kind : BlockKind)
  | block (name : Text)
  | endBlock
  | inherit (path : Text)
  | importMacros (library : Text)
  | defineMacro (signature : Text)
  | endMacro
  deriving DecidableEq, Repr

namespace Statement

/-- What stands between the tag's delimiters. -/
def content : Statement → Text
  | ifThen condition => "if ".toList ++ condition
  | elseIf condition => "elseif ".toList ++ condition
  | otherwise => "else".toList
  | forIn item collection => "for ".toList ++ item ++ " in ".toList ++ collection
  | assign expression => "set ".toList ++ expression
  | close kind => "end".toList ++ kind.keyword
  | block name => "block ".toList ++ name
  | endBlock => "endblock".toList
  | inherit path => "extends ".toList ++ path
  | importMacros library => "import '".toList ++ library ++ "' as macros".toList
  | defineMacro signature => "macro ".toList ++ signature
  | endMacro => "endmacro".toList

/-- The statement as it is written in a template. -/
def text (s : Statement) : Text := tag s.content

end Statement

end Twig

end TemploTwig
