import TemploTwig.Toml.Item

/-!
# Numbers, booleans, dates and times in TOML

A scalar is a run of characters without blanks; a date and a time may also be joined by one
blank.  `takeScalar?` reads the run and decides what it is.
-/

namespace TemploTwig.Toml

/-- A run of digits in which single underscores may stand between two digits. -/
def isDigits (isDigit : Char → Bool) : Text → Bool
  | [] => false
  | [c] => isDigit c
  | c :: '_' :: cs => isDigit c && isDigits isDigit cs
  | c :: cs => isDigit c && isDigits isDigit cs

/-- A run of digits that does not start with a needless zero. -/
def isNatural (t : Text) : Bool :=
  match t with
  | ['0'] => true
  | '0' :: _ => false
  | _ => isDigits Char.isDigit t

/-- The text without a sign in front. -/
def unsigned (t : Text) : Text :=
  match t with
  | '+' :: rest => rest
  | '-' :: rest => rest
  | _ => t

/-- Is the integer one that fits into 128 bits, with or without a sign? -/
def fits (negative : Bool) (magnitude : Nat) : Bool :=
  if negative then magnitude ≤ 170141183460469231731687303715884105728
  else magnitude < 340282366920938463463374607431768211456

/-- The number that digits make in a base.  Underscores do not count. -/
def magnitude (base : Nat) (digits : Text) : Nat :=
  digits.foldl (fun n c =>
    if c.isDigit then base * n + (c.toNat - '0'.toNat)
    else if c = '_' then n
    else base * n + (c.toLower.toNat - 'a'.toNat + 10)) 0

/-- An integer in a base other than ten, from its digits. -/
def isBased (base : Nat) (isDigit : Char → Bool) (digits : Text) : Bool :=
  isDigits isDigit digits && fits false (magnitude base digits)

/-- An integer. -/
def isInteger (t : Text) : Bool :=
  match t with
  | '0' :: 'x' :: digits => isBased 16 (fun c => c.isDigit || ('a' ≤ c.toLower && c.toLower ≤ 'f')) digits
  | '0' :: 'o' :: digits => isBased 8 (fun c => '0' ≤ c && c ≤ '7') digits
  | '0' :: 'b' :: digits => isBased 2 (fun c => c == '0' || c == '1') digits
  | _ => isNatural (unsigned t) && fits (Text.startsWith t ['-']) (magnitude 10 (unsigned t))

/-- The exponent of a number, behind its letter. -/
def isExponent (t : Text) : Bool := isDigits Char.isDigit (unsigned t)

/-- The fraction of a number behind its point, with an optional exponent. -/
def isFraction (t : Text) : Bool :=
  let isMark := fun c => c == 'e' || c == 'E'
  match t.dropWhile (!isMark ·) with
  | [] => isDigits Char.isDigit t
  | _ :: exponent => isDigits Char.isDigit (t.takeWhile (!isMark ·)) && isExponent exponent

/-- A number with a fraction or an exponent, or one of the special values. -/
def isFloat (t : Text) : Bool :=
  let body := unsigned t
  if body = "inf".toList ∨ body = "nan".toList then true
  else
    let isMark := fun c => c == '.' || c == 'e' || c == 'E'
    match body.dropWhile (!isMark ·) with
    | [] => false
    | '.' :: fraction => isNatural (body.takeWhile (!isMark ·)) && isFraction fraction
    | _ :: exponent => isNatural (body.takeWhile (!isMark ·)) && isExponent exponent

/-- A number of exactly `count` digits at the front of a text, and what follows. -/
def takeFixed? (count : Nat) (t : Text) : Option (Nat × Text) :=
  let digits := t.take count
  if digits.length = count ∧ digits.all Char.isDigit then
    some (Nat.ofDigitChars 10 digits 0, t.drop count)
  else none

/-- Number of days in a month of a year. -/
def daysIn (year month : Nat) : Nat :=
  if month = 2 then
    if year % 4 = 0 ∧ (year % 100 ≠ 0 ∨ year % 400 = 0) then 29 else 28
  else if month = 4 ∨ month = 6 ∨ month = 9 ∨ month = 11 then 30
  else 31

/-- What follows the date at the front of a text. -/
def stripDate? (t : Text) : Option Text := do
  let (year, t) ← takeFixed? 4 t
  let t ← Text.stripStart? ['-'] t
  let (month, t) ← takeFixed? 2 t
  let t ← Text.stripStart? ['-'] t
  let (day, t) ← takeFixed? 2 t
  if 1 ≤ month ∧ month ≤ 12 ∧ 1 ≤ day ∧ day ≤ daysIn year month then some t else none

/-- What follows the fraction of a second, if there is one. -/
def stripSubsecond? (t : Text) : Option Text :=
  match t with
  | '.' :: c :: rest => if c.isDigit then some (rest.dropWhile Char.isDigit) else none
  | '.' :: [] => none
  | _ => some t

/-- What follows the time at the front of a text.  Seconds may be missing. -/
def stripTime? (t : Text) : Option Text := do
  let (hour, t) ← takeFixed? 2 t
  let t ← Text.stripStart? [':'] t
  let (minute, t) ← takeFixed? 2 t
  if hour ≤ 23 ∧ minute ≤ 59 then
    match t with
    | ':' :: rest =>
      let (second, rest) ← takeFixed? 2 rest
      -- A leap second is let through.
      if second ≤ 60 then stripSubsecond? rest else none
    | _ => some t
  else none

/-- Is the text the offset of a time zone, or empty? -/
def isOffset (t : Text) : Bool :=
  match t with
  | [] => true
  | ['Z'] => true
  | ['z'] => true
  | sign :: rest =>
    let offset := do
      let (hour, rest) ← takeFixed? 2 rest
      let rest ← Text.stripStart? [':'] rest
      let (minute, rest) ← takeFixed? 2 rest
      return decide (hour ≤ 23 ∧ minute ≤ 59 ∧ rest = [])
    (sign == '+' || sign == '-') && offset.getD false

/-- A date, a time, or a date and a time with an optional offset. -/
def isMoment (t : Text) : Bool :=
  match stripDate? t with
  | some [] => true
  | some (c :: rest) =>
    (c == 'T' || c == 't' || c == ' ') && ((stripTime? rest).map isOffset).getD false
  | none => stripTime? t == some []

/-- May the character stand in a scalar? -/
def isScalarChar (c : Char) : Bool :=
  c.isAlphanum || c == '+' || c == '-' || c == '_' || c == '.' || c == ':'

/-- The run of a scalar and what follows.  A blank belongs to it between a date and a digit. -/
def splitScalar (t : Text) : Text × Text :=
  let run := t.takeWhile isScalarChar
  let rest := t.dropWhile isScalarChar
  match stripDate? run, rest with
  | some [], ' ' :: c :: cs =>
    if c.isDigit then
      (run ++ ' ' :: (c :: cs).takeWhile isScalarChar, (c :: cs).dropWhile isScalarChar)
    else (run, rest)
  | _, _ => (run, rest)

/-- The scalar at the front of a text, and what follows. -/
def takeScalar? (t : Text) : Option (Item × Text) :=
  let (run, rest) := splitScalar t
  if run = "true".toList ∨ run = "false".toList ∨ isInteger run ∨ isFloat run then
    some (.scalar, rest)
  else if isMoment run then some (.moment, rest)
  else none

end TemploTwig.Toml
