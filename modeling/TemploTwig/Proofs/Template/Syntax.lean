import TemploTwig.Conversion.Text
import TemploTwig.Proofs.Template.Parts

/-!
# Structured templates

A template whose blocks are closed where they should be is a tree.  Its source is the sequence of
its literals and directives, and its rendering in Twig is defined along the tree: every block
knows its own end, and every case of a switch knows its number.
-/

namespace TemploTwig

mutual

/-- A template. -/
inductive Template where
  | literal (text : Text)
  | print (body : PrintBody)
  | raw (expression : RawExpression)
  | content
  | conditional (condition : Expression) (body : Template) (branches : Branches)
  | loop (item : Word) (collection : Expression) (body : Template)
  | assign (expression : Expression) (body : Template)
  | fill (expression : Expression) (body : Template)
  | switch (subject : Expression) (lead : Template) (cases : Cases)
  | append (front back : Template)

/-- What follows the first branch of a conditional. -/
inductive Branches where
  | done
  | otherwise (body : Template)
  | elseIf (condition : Expression) (body : Template) (rest : Branches)

/-- The cases of a switch.  There is at least one. -/
inductive Cases where
  | last (body : Template)
  | more (body : Template) (rest : Cases)

end

/-- A block: what opens it, what it holds, and its end. -/
def block (opener : Directive) (inner : List (Piece Directive)) : List (Piece Directive) :=
  .token opener :: inner ++ [.token .endBlock]

mutual

/-- The literals and directives of a template, in the order in which they are written. -/
def Template.pieces : Template → List (Piece Directive)
  | .literal text => [.plain text]
  | .print body => [.token (.print body.text)]
  | .raw expression => [.token (.raw expression.text)]
  | .content => [.token .contentBlock]
  | .conditional condition body branches =>
    block (.ifThen condition.text) (body.pieces ++ branches.pieces)
  | .loop item collection body => block (.foreach item.text collection.text) body.pieces
  | .assign expression body => block (.assign expression.text) body.pieces
  | .fill expression body => block (.fill expression.text) body.pieces
  | .switch subject lead cases => block (.switch subject.text) (lead.pieces ++ cases.pieces)
  | .append front back => front.pieces ++ back.pieces

@[inherit_doc Template.pieces]
def Branches.pieces : Branches → List (Piece Directive)
  | .done => []
  | .otherwise body => .token .otherwise :: body.pieces
  | .elseIf condition body rest =>
    .token (.elseIf condition.text) :: body.pieces ++ rest.pieces

@[inherit_doc Template.pieces]
def Cases.pieces : Cases → List (Piece Directive)
  | .last body => .token .nextCase :: body.pieces
  | .more body rest => .token .nextCase :: body.pieces ++ rest.pieces

end

/-- The statement for a case of a switch, numbered from zero. -/
def Twig.caseStatement (subject : Text) (number : Nat) : Twig.Statement :=
  let condition := subject ++ ".index == ".toList ++ decimal number
  if number = 0 then .ifThen condition else .elseIf condition

mutual

/-- The template in Twig. -/
def Template.rendering : Template → Text
  | .literal text => text
  | .print body => Twig.print body.text
  | .raw expression => Twig.printSpaced (expression.text ++ "|raw".toList)
  | .content =>
    (Twig.Statement.block Directive.contentName).text ++ Twig.Statement.endBlock.text
  | .conditional condition body branches =>
    (Twig.Statement.ifThen (Condition.toTwig condition.text)).text ++ body.rendering ++
      branches.rendering ++ (Twig.Statement.close .conditional).text
  | .loop item collection body =>
    (Twig.Statement.forIn item.text collection.text).text ++ body.rendering ++
      (Twig.Statement.close .loop).text
  | .assign expression body =>
    (Twig.Statement.assign expression.text).text ++ body.rendering ++
      (Twig.Statement.close .assignment).text
  | .fill expression body =>
    (Twig.Statement.assign expression.text).text ++ body.rendering ++
      (Twig.Statement.close .assignment).text
  | .switch subject lead cases =>
    lead.rendering ++ cases.rendering subject.text 0 ++ (Twig.Statement.close .conditional).text
  | .append front back => front.rendering ++ back.rendering

/-- The further branches of a conditional in Twig. -/
def Branches.rendering : Branches → Text
  | .done => []
  | .otherwise body => Twig.Statement.otherwise.text ++ body.rendering
  | .elseIf condition body rest =>
    (Twig.Statement.elseIf (Condition.toTwig condition.text)).text ++ body.rendering ++
      rest.rendering

/-- The cases of a switch in Twig, from a number on. -/
def Cases.rendering (subject : Text) (number : Nat) : Cases → Text
  | .last body => (Twig.caseStatement subject number).text ++ body.rendering
  | .more body rest =>
    (Twig.caseStatement subject number).text ++ body.rendering ++
      rest.rendering subject (number + 1)

end

/-- The number of cases. -/
def Cases.count : Cases → Nat
  | .last _ => 1
  | .more _ rest => rest.count + 1

/-- Plain runs that cannot be taken for anything else: they have no colon and no opening of an
    inline token, and one behind a directive does not begin with a word that starts a part. -/
def PlainRuns : (afterDirective : Bool) → List (Piece Directive) → Prop
  | _, [] => True
  | afterDirective, .plain t :: ps =>
    ':' ∉ t ∧ t.contains MacroToken.opening = false ∧
      (afterDirective = true → ¬Partition.BeginsPart t) ∧ PlainRuns false ps
  | _, .token _ :: ps => PlainRuns true ps

instance PlainRuns.decidable : (afterDirective : Bool) → (ps : List (Piece Directive)) →
    Decidable (PlainRuns afterDirective ps)
  | _, [] => .isTrue trivial
  | afterDirective, .plain t :: ps =>
    have := PlainRuns.decidable false ps
    inferInstanceAs (Decidable (':' ∉ t ∧ t.contains MacroToken.opening = false ∧
      (afterDirective = true → ¬Partition.BeginsPart t) ∧ PlainRuns false ps))
  | _, .token _ :: ps => PlainRuns.decidable true ps

/-- The number of ends among pieces. -/
def endCount (ps : List (Piece Directive)) : Nat := ps.count (.token .endBlock)

namespace Template

/-- The template as it is written. -/
def source (t : Template) : Text := Piece.renderAll Directive.source t.pieces

/-- The number of ends in a template. -/
def ends (t : Template) : Nat := endCount t.pieces

/-- Every maximal run of literal text is one that cannot be taken for anything else. -/
def LiteralsStandClear (t : Template) : Prop := PlainRuns false (Piece.join t.pieces)

instance (t : Template) : Decidable t.LiteralsStandClear := PlainRuns.decidable _ _

end Template

theorem readsBack_of_mem_block {opener d : Directive} {inner : List (Piece Directive)}
    (hopener : opener.ReadsBack) (hinner : .token d ∈ inner → d.ReadsBack)
    (h : .token d ∈ block opener inner) : d.ReadsBack := by
  simp only [block, List.cons_append, List.mem_cons, List.mem_append, List.not_mem_nil, or_false,
    Piece.token.injEq] at h
  rcases h with rfl | h | rfl
  · exact hopener
  · exact hinner h
  · exact .of_word .endBlock rfl rfl

mutual

/-- Every directive of a template is read back as itself. -/
theorem Template.readsBack {d : Directive} :
    (t : Template) → .token d ∈ t.pieces → d.ReadsBack
  | .literal _, h => by simp [Template.pieces] at h
  | .print body, h => by
    obtain rfl : d = .print body.text := by simpa [Template.pieces] using h
    exact Directive.readsBack_print body
  | .raw e, h => by
    obtain rfl : d = .raw e.text := by simpa [Template.pieces] using h
    exact Directive.readsBack_raw e
  | .content, h => by
    obtain rfl : d = .contentBlock := by simpa [Template.pieces] using h
    exact Directive.readsBack_contentBlock
  -- A block adds its opener and its end to what is inside.
  | .conditional e body branches, h =>
    readsBack_of_mem_block (.of_argument .ifThen e rfl (Directive.withArgument?_text _ e))
      (fun h => (List.mem_append.1 h).elim body.readsBack branches.readsBack) h
  | .loop item collection body, h =>
    readsBack_of_mem_block (Directive.readsBack_foreach item collection) body.readsBack h
  | .assign e body, h =>
    readsBack_of_mem_block (.of_argument .assign e rfl (Directive.withArgument?_text _ e))
      body.readsBack h
  | .fill e body, h =>
    readsBack_of_mem_block (.of_argument .fill e rfl (Directive.withArgument?_text _ e))
      body.readsBack h
  | .switch e lead cases, h =>
    readsBack_of_mem_block (.of_argument .switch e rfl (Directive.withArgument?_text _ e))
      (fun h => (List.mem_append.1 h).elim lead.readsBack cases.readsBack) h
  | .append front back, h => (List.mem_append.1 h).elim front.readsBack back.readsBack

/-- `Branches` are read back. -/
theorem Branches.readsBack {d : Directive} :
    (b : Branches) → .token d ∈ b.pieces → d.ReadsBack
  | .done, h => by cases h
  | .otherwise body, h => by
    rcases List.mem_cons.1 h with heq | h
    · obtain rfl : d = .otherwise := by simpa using heq
      exact .of_word .otherwise rfl rfl
    · exact body.readsBack h
  | .elseIf e body rest, h => by
    simp only [Branches.pieces, List.cons_append, List.mem_cons, List.mem_append,
      Piece.token.injEq] at h
    rcases h with rfl | h | h
    · exact .of_argument .elseIf e rfl (Directive.withArgument?_text _ e)
    · exact body.readsBack h
    · exact rest.readsBack h

/-- `Cases` are read back. -/
theorem Cases.readsBack {d : Directive} : (c : Cases) → .token d ∈ c.pieces → d.ReadsBack
  | .last body, h => by
    rcases List.mem_cons.1 h with heq | h
    · obtain rfl : d = .nextCase := by simpa using heq
      exact .of_word .nextCase rfl rfl
    · exact body.readsBack h
  | .more body rest, h => by
    simp only [Cases.pieces, List.cons_append, List.mem_cons, List.mem_append,
      Piece.token.injEq] at h
    rcases h with rfl | h | h
    · exact .of_word .nextCase rfl rfl
    · exact body.readsBack h
    · exact rest.readsBack h

end

end TemploTwig
