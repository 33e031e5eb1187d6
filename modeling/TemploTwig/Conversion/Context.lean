import TemploTwig.Conversion.BlockStack
import TemploTwig.Source.Inline

/-!
# The state of a conversion

A conversion keeps the open blocks and switches, the constructs behind the placeholders, what it
learns about macros and inheritance, and its warnings.  The state survives a failing step.

* `Options`: the settings of a conversion
* `Context`: the state
* `Convert`: a step that reads and changes the state and may fail
-/

namespace TemploTwig

/-- The settings that all templates of a run share. -/
structure Options where
  /-- Extension of the templates, without a dot. -/
  sourceExtension : Text := "mtt".toList
  /-- Extension of the converted templates, without a dot. -/
  targetExtension : Text := "twig".toList
  /-- The template that holds the macros. -/
  macroLibrary : Text := "macros.html".toList
  deriving DecidableEq, Repr

/-- A template is a document or a library of macros. -/
inductive TemplateKind where
  | document
  | library
  deriving DecidableEq, Repr

/-- The name through which a template of this kind calls macros. -/
def TemplateKind.macroNamespace : TemplateKind → Text
  | document => "macros".toList
  | library => "_self".toList

/-- An open `::switch::`. -/
structure SwitchFrame where
  subject : Text
  /-- Number of cases so far. -/
  cases : Nat
  /-- Number of open blocks inside the switch's own block, that one included. -/
  depth : Nat
  deriving DecidableEq, Repr

/-- The constructs behind the placeholders, in order of their indices. -/
structure Tables where
  macroCalls : List Text := []
  conditions : List Text := []
  classNames : List Text := []
  checked : List Text := []
  selected : List Text := []
  deriving DecidableEq, Repr

namespace Tables

/-- The entries of a family. -/
def entries (t : Tables) : Family → List Text
  | .macroCall => t.macroCalls
  | .condition => t.conditions
  | .className => t.classNames
  | .checked => t.checked
  | .selected => t.selected

/-- Add an entry to a family.  Its index is the number of entries before. -/
def record (family : Family) (entry : Text) (t : Tables) : Tables :=
  match family with
  | .macroCall => { t with macroCalls := t.macroCalls ++ [entry] }
  | .condition => { t with conditions := t.conditions ++ [entry] }
  | .className => { t with classNames := t.classNames ++ [entry] }
  | .checked => { t with checked := t.checked ++ [entry] }
  | .selected => { t with selected := t.selected ++ [entry] }

@[simp] theorem entries_record_self (t : Tables) (f : Family) (entry : Text) :
    (t.record f entry).entries f = t.entries f ++ [entry] := by
  cases f <;> rfl

theorem entries_record_of_ne {t : Tables} {f g : Family} {entry : Text} (h : g ≠ f) :
    (t.record f entry).entries g = t.entries g := by
  cases f <;> cases g <;> first | rfl | exact absurd rfl h

end Tables

/-- The state of a conversion. -/
structure Context where
  options : Options
  kind : TemplateKind
  blocks : BlockStack := .empty
  /-- The open switches, innermost first. -/
  switches : List SwitchFrame := []
  tables : Tables := {}
  /-- Has a macro call been put into the output? -/
  callsMacros : Bool := false
  /-- The quoted path of the template that this one inherits from. -/
  parent : Option Text := none
  /-- The warnings so far, in order. -/
  warnings : List Warning := []
  deriving DecidableEq, Repr

/-- A step of a conversion.  What a failing step did to the state stays done. -/
abbrev Convert := ExceptT ConvertError (StateM Context)

namespace Context

/-- Note a warning. -/
def warn (w : Warning) (ctx : Context) : Context := { ctx with warnings := ctx.warnings ++ [w] }

/-- Open a block. -/
def openBlock (kind : BlockKind) (ctx : Context) : Context :=
  { ctx with blocks := ctx.blocks.push kind }

/-- Open a switch.  In Twig it is a chain of conditions, closed like any other. -/
def openSwitch (subject : Text) (ctx : Context) : Context :=
  let ctx := ctx.openBlock .conditional
  { ctx with switches := ⟨subject, 0, ctx.blocks.depth⟩ :: ctx.switches }

/-- Close the innermost block, and the switches whose block is closed with it. -/
def closeBlock (ctx : Context) : Except NestingError BlockKind × Context :=
  match ctx.blocks.pop with
  -- A switch is over once fewer blocks are open than it has counted.
  | (.ok kind, blocks) =>
    (.ok kind,
      { ctx with blocks, switches := ctx.switches.dropWhile (blocks.depth < ·.depth) })
  | (.error e, blocks) => (.error e, { ctx with blocks })

/-- The statement for the next case of the innermost switch. -/
def nextCase (ctx : Context) : Except NestingError Twig.Statement × Context :=
  match ctx.switches with
  | [] => (.error .caseOutsideSwitch, ctx)
  | frame :: frames =>
    let condition := frame.subject ++ ".index == ".toList ++ decimal frame.cases
    -- The first case opens the `if` that the switch itself did not print.
    let statement :=
      if frame.cases = 0 then Twig.Statement.ifThen condition else .elseIf condition
    (.ok statement, { ctx with switches := { frame with cases := frame.cases + 1 } :: frames })

/-- The construct behind a placeholder. -/
def resolve (family : Family) (index : Nat) (ctx : Context) : Except ConvertError Text :=
  match (ctx.tables.entries family)[index]? with
  | some entry => .ok entry
  | none => .error (.unresolvedPlaceholder family index)

/-- Add a construct to a family.  The result is its index. -/
def record (family : Family) (entry : Text) (ctx : Context) : Nat × Context :=
  ((ctx.tables.entries family).length, { ctx with tables := ctx.tables.record family entry })

/-- Note that the output calls a macro. -/
def markCall (ctx : Context) : Context := { ctx with callsMacros := true }

/-- A macro call in Twig.  Directive delimiters in the arguments are dropped. -/
def renderCall (ctx : Context) (call : MacroCall) : Text :=
  Twig.printSpaced (ctx.kind.macroNamespace ++ '.' :: call.name ++
    '(' :: Text.remove ':' ':' call.arguments ++ [')'])

end Context

namespace Convert

/-- Run a change of the state that may fail with a nesting error. -/
def nesting {α : Type} (f : Context → Except NestingError α × Context) : Convert α := do
  let (result, ctx) := f (← get)
  -- The change stays even where it comes with an error.
  set ctx
  match result with
  | .ok a => return a
  | .error e => throw (.malformedNesting e)

/-- Fail unless every block is closed. -/
def ensureClosed : Convert Unit :=
  nesting fun ctx => (ctx.blocks.ensureClosed, ctx)

/-- The construct behind a placeholder. -/
def resolve (family : Family) (index : Nat) : Convert Text := do
  match (← get).resolve family index with
  | .ok entry => return entry
  | .error e => throw e

/-- Note a warning. -/
def warn (w : Warning) : Convert Unit := modify (·.warn w)

end Convert

end TemploTwig
