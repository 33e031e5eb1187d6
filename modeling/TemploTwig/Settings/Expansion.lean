import TemploTwig.Text.Number
import TemploTwig.Text.Scan

/-!
# References in configured paths

A configured path may refer to environment variables, as `${NAME}` or `${NAME:-default}`, and to
the home directory by a `~` in front.  A path with neither stays as it is; in a path with one of
them, `$NAME` is a reference too and `$$` stands for one dollar sign.

* `Reference.scan`: the references in a path
* `expandPath`: the path with its references replaced
-/

namespace TemploTwig

/-- What a dollar sign in a path starts. -/
inductive Reference where
  /-- A variable, with the text that stands for it if it is not set. -/
  | named (name : Text) (default? : Option Text)
  /-- No reference: the text is meant as it is. -/
  | literal (text : Text)
  deriving DecidableEq, Repr

namespace Reference

/-- May the character stand in a variable's name outside braces? -/
def isNameChar (c : Char) : Bool := isAlphanumeric c || c == '_'

/-- A reference from what stands between its braces.  A default without a name in front of it is
    part of the name. -/
def ofBraced (inside : Text) : Reference :=
  match Text.cut? ":-".toList inside with
  | some (c :: name, default) => named (c :: name) (some default)
  | _ => named inside none

/-- What the dollar sign at the front of a text starts, and what follows it. -/
def take? : Text → Option (Reference × Text)
  | '$' :: '$' :: rest => some (literal ['$'], rest)
  | '$' :: '\x7b' :: body =>
    match Text.cut? ['\x7d'] body with
    | some (inside, rest) => some (ofBraced inside, rest)
    -- Without a closing brace the two characters are meant as they are.
    | none => some (literal ['$', '\x7b'], body)
  | '$' :: cs =>
    let name := cs.takeWhile isNameChar
    if name = [] then some (literal ['$'], cs) else some (named name none, cs.dropWhile isNameChar)
  | _ => none

/-- Recognises references. -/
def recogniser : Recogniser Reference where
  next? := take?
  shrinks {t a rest} h := by
    unfold take? at h
    split at h
    · simp only [Option.some.injEq, Prod.mk.injEq] at h
      simp only [List.length_cons, ← h.2]
      omega
    · split at h
      · next hcut =>
        simp only [Option.some.injEq, Prod.mk.injEq] at h
        have hlen := congrArg List.length (Text.cut?_eq_append hcut)
        simp only [List.length_append] at hlen
        simp only [List.length_cons, ← h.2]
        omega
      · simp only [Option.some.injEq, Prod.mk.injEq] at h
        simp only [List.length_cons, ← h.2]
        omega
    · next cs _ _ =>
      simp only at h
      split at h
      · simp only [Option.some.injEq, Prod.mk.injEq] at h
        simp only [List.length_cons, ← h.2]
        omega
      · simp only [Option.some.injEq, Prod.mk.injEq] at h
        have := (List.dropWhile_suffix (l := cs) isNameChar).length_le
        simp only [List.length_cons, ← h.2]
        omega
    · simp at h

/-- The references in a path and the plain runs between them. -/
def scan (t : Text) : List (Piece Reference) := recogniser.scan t

end Reference

/-- A variable that a path needs and that is not set. -/
structure UnsetVariable where
  name : Text
  deriving DecidableEq, Repr

/-- The text that a reference stands for. -/
def resolveReference {m : Type → Type} [Monad m] (lookup? : Text → m (Option Text)) :
    Reference → ExceptT UnsetVariable m Text
  | .literal t => return t
  | .named name default? => do
    match ← lookup? name, default? with
    | some value, _ => return value
    | none, some value => return value
    | none, none => throw ⟨name⟩

/-- A path whose `~` in front is replaced by the home directory, if that is known. -/
def expandHome (home? : Option Text) (path : Text) : Text :=
  match home?, path with
  | some home, ['~'] => home
  | some home, '~' :: '/' :: rest => home ++ '/' :: rest
  | _, _ => path

/-- A path with its references replaced.  Variables come first; a `~` that stems from a variable
    stays. -/
def expandPath {m : Type → Type} [Monad m] (lookup? : Text → m (Option Text)) (path : Text) :
    ExceptT UnsetVariable m Text :=
  -- `$NAME` alone does not make a path one with references.
  if Text.contains path ['$', '\x7b'] || Text.startsWith path ['~'] then do
    let parts ← (Reference.scan path).mapM fun
      | .plain t => pure t
      | .token r => resolveReference lookup? r
    let expanded := parts.flatten
    -- The written path decides, not the expanded one.
    if Text.startsWith path ['~'] then return expandHome (← lookup? "HOME".toList) expanded
    else return expanded
  else return path

end TemploTwig
