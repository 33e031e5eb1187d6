import TemploTwig.Conversion.Problem

/-!
# Open blocks

Every `::end::` closes the innermost open block.  The stack also counts the ends, so that an
end without a block can be named.
-/

namespace TemploTwig

/-- The open blocks, innermost first, and the number of ends so far. -/
structure BlockStack where
  kinds : List BlockKind
  endsSeen : Nat
  deriving DecidableEq, Repr

namespace BlockStack

/-- No block is open. -/
def empty : BlockStack := ⟨[], 0⟩

/-- Number of open blocks. -/
def depth (s : BlockStack) : Nat := s.kinds.length

/-- Open a block. -/
def push (kind : BlockKind) (s : BlockStack) : BlockStack := { s with kinds := kind :: s.kinds }

/-- Close the innermost block.  The end is counted even if there is no block to close. -/
def pop (s : BlockStack) : Except NestingError BlockKind × BlockStack :=
  let endsSeen := s.endsSeen + 1
  match s.kinds with
  | [] => (.error (.unexpectedEnd endsSeen), { s with endsSeen })
  | kind :: kinds => (.ok kind, { kinds, endsSeen })

/-- Check that no block is open. -/
def ensureClosed (s : BlockStack) : Except NestingError Unit :=
  match s.kinds with
  | [] => .ok ()
  | innermost :: _ => .error (.unclosed s.depth innermost)

end BlockStack

end TemploTwig
