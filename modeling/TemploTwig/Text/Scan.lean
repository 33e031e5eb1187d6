import TemploTwig.Text.Basic

/-!
# Scanning a text for tokens

A recogniser looks at the front of a text and either takes a token off it or declines.
`Recogniser.scan` runs it from left to right: where a token is found it is taken whole, and the
characters in between are gathered into plain runs.  The result is therefore the leftmost,
non-overlapping decomposition of the text.

* `Piece`: a plain run or a token
* `Piece.prepend`: put characters in front, joining them to a leading plain run
* `Recogniser.scan` the decomposition
-/

namespace TemploTwig

/-- A part of a text: a plain run, or a token that was recognised in it. -/
inductive Piece (α : Type) where
  | plain (text : Text)
  | token (value : α)
  deriving DecidableEq, Repr

namespace Piece

variable {α β : Type}

/-- Put characters in front of a list of pieces.  They join a leading plain run. -/
def prepend (t : Text) : List (Piece α) → List (Piece α)
  | .plain u :: ps => .plain (t ++ u) :: ps
  | ps => .plain t :: ps

/-- The text of a piece, given the text of a token. -/
def render (f : α → Text) : Piece α → Text
  | .plain t => t
  | .token a => f a

/-- The text of a list of pieces, given the text of a token. -/
def renderAll (f : α → Text) (ps : List (Piece α)) : Text := ps.flatMap (render f)

@[simp] theorem renderAll_nil (f : α → Text) : renderAll f [] = [] := rfl

@[simp] theorem renderAll_cons (f : α → Text) (p : Piece α) (ps : List (Piece α)) :
    renderAll f (p :: ps) = p.render f ++ renderAll f ps := rfl

@[simp] theorem renderAll_prepend (f : α → Text) (t : Text) (ps : List (Piece α)) :
    renderAll f (prepend t ps) = t ++ renderAll f ps := by
  cases ps with
  | nil => simp [prepend, render]
  | cons p ps => cases p <;> simp [prepend, render]

end Piece

/-- Takes a token off the front of a text.  What is left is shorter. -/
structure Recogniser (α : Type) where
  next? : Text → Option (α × Text)
  shrinks : ∀ {t a rest}, next? t = some (a, rest) → rest.length < t.length

namespace Recogniser

variable {α : Type}

/-- The leftmost, non-overlapping tokens of a text and the plain runs between them. -/
def scan (R : Recogniser α) : Text → List (Piece α)
  | [] => []
  | c :: cs =>
    match _h : R.next? (c :: cs) with
    | some (a, rest) => .token a :: scan R rest
    -- Without a token here, the character joins the plain run that follows.
    | none => Piece.prepend [c] (scan R cs)
termination_by t => t.length
decreasing_by
  · exact R.shrinks _h
  · simp

@[simp] theorem scan_nil (R : Recogniser α) : R.scan [] = [] := by
  rw [scan]

theorem scan_of_some {R : Recogniser α} {c : Char} {cs rest : Text} {a : α}
    (h : R.next? (c :: cs) = some (a, rest)) : R.scan (c :: cs) = .token a :: R.scan rest := by
  rw [scan]; split <;> simp_all

theorem scan_of_none {R : Recogniser α} {c : Char} {cs : Text}
    (h : R.next? (c :: cs) = none) : R.scan (c :: cs) = Piece.prepend [c] (R.scan cs) := by
  rw [scan]; split <;> simp_all

/-- When every token is spelled by the characters it was taken from, scanning loses nothing. -/
theorem renderAll_scan (R : Recogniser α) (f : α → Text)
    (spells : ∀ {t a rest}, R.next? t = some (a, rest) → t = f a ++ rest) (t : Text) :
    Piece.renderAll f (R.scan t) = t := by
  fun_induction scan R t with
  | case1 => rfl
  | case2 c cs a rest h ih => simp [Piece.render, ih, ← spells h]
  | case3 c cs h ih => simp [ih]

end Recogniser

end TemploTwig
