import Mathlib.Order.Bounds.Basic
import TemploTwig.Proofs.Groups
import TemploTwig.Proofs.Lossless

/-!
# Counting parentheses

Where a group ends can be told by a counter that runs over the bytes of the text.  It goes up at `(`
and down at `)`, and between quotes it stands still.  The group at the front of a text ends where
the counter is back at zero for the first time.
-/

namespace TemploTwig

variable {t w : Text} {c : Char} {depth n : Nat} {quote : Option Quote} {s : Counter} {g : Group}

/-! ## Bytes -/

namespace Text

/-- The bytes of a text in UTF-8. -/
def bytes (t : Text) : List UInt8 := t.flatMap String.utf8EncodeChar

@[simp] theorem bytes_nil : bytes [] = [] := rfl

@[simp] theorem bytes_cons (c : Char) (t : Text) :
    bytes (c :: t) = String.utf8EncodeChar c ++ t.bytes := rfl

/-- `bytes` goes over appended texts. -/
@[simp] theorem bytes_append (s t : Text) : (s ++ t).bytes = s.bytes ++ t.bytes :=
  List.flatMap_append

/-- `byteSize` counts `bytes`. -/
theorem length_bytes (t : Text) : t.bytes.length = t.byteSize := by
  rw [← utf8ByteSize_ofList]
  exact List.size_toByteArray.symm

/-- `IsSlice` determines the part. -/
theorem IsSlice.unique {part part' : Text} {start stop : Nat} (h : t.IsSlice start stop part)
    (h' : t.IsSlice start stop part') : part = part' := by
  have hbytes : (String.ofList part).toByteArray = (String.ofList part').toByteArray :=
    h.bytes_eq.symm.trans h'.bytes_eq
  exact String.ofList_inj.1 (String.toByteArray_inj.1 hbytes)

end Text

/-- A character of one byte is this byte. -/
theorem utf8EncodeChar_of_lt (h : c.toNat < 128) : String.utf8EncodeChar c = [c.toUInt8] := by
  have hle : c.val.toNat ≤ 127 := Nat.le_of_lt_succ h
  rw [String.utf8EncodeChar.eq_1, if_pos hle]
  rfl

/-- The bytes of a longer character are no characters of one byte. -/
theorem le_toNat_of_mem_utf8EncodeChar (hc : 128 ≤ c.toNat) {b : UInt8}
    (hb : b ∈ String.utf8EncodeChar c) : 128 ≤ b.toNat := by
  have hlt : ¬c.val.toNat ≤ 127 := Nat.not_le.2 hc
  rw [String.utf8EncodeChar.eq_1, if_neg hlt] at hb
  -- Two, three or four bytes, and each of them has its highest bit set.
  split at hb
  · simp only [List.mem_cons, List.not_mem_nil, or_false] at hb
    rcases hb with rfl | rfl <;> simp <;> omega
  · split at hb
    · simp only [List.mem_cons, List.not_mem_nil, or_false] at hb
      rcases hb with rfl | rfl | rfl <;> simp <;> omega
    · simp only [List.mem_cons, List.not_mem_nil, or_false] at hb
      rcases hb with rfl | rfl | rfl | rfl <;> simp <;> omega

/-! ## The counter -/

/-- How far a count has come: the parentheses that are open, and the quotes around the place. -/
structure Counter where
  depth : Int
  quote : Option Quote
  deriving DecidableEq

namespace Counter

/-- Nothing is open. -/
def start : Counter := ⟨0, none⟩

/-- The count inside `depth + 1` parentheses. -/
def inside (depth : Nat) (quote : Option Quote) : Counter := ⟨depth + 1, quote⟩

/-- `inside` is inside a parenthesis. -/
theorem one_le_depth_inside (depth : Nat) (quote : Option Quote) :
    1 ≤ (inside depth quote).depth := by
  simp only [inside]
  omega

/-- `inside` forgets nothing. -/
theorem inside_inj {depth' : Nat} {quote' : Option Quote} :
    inside depth quote = inside depth' quote' ↔ depth = depth' ∧ quote = quote' := by
  simp only [inside, mk.injEq]
  apply and_congr _ Iff.rfl
  omega

/-- Count a character.  A quote that was opened ends at the next same character. -/
def read (s : Counter) (c : Char) : Counter :=
  match s.quote with
  | some q => if c = q.char then { s with quote := none } else s
  | none =>
    match Quote.ofChar? c with
    | some q => { s with quote := some q }
    | none =>
      if c = '(' then { s with depth := s.depth + 1 }
      else if c = ')' then { s with depth := s.depth - 1 }
      else s

/-- Count a byte, as the character that has its number.  A byte from 128 on is part of a longer
    character, and no quote and no parenthesis. -/
def step (s : Counter) (b : UInt8) : Counter := s.read (Char.ofUInt8 b)

/-- Count bytes one after the other. -/
def run (s : Counter) (bytes : List UInt8) : Counter := bytes.foldl step s

theorem run_nil (s : Counter) : s.run [] = s := rfl

/-- `run` goes over appended bytes. -/
theorem run_append (s : Counter) (front back : List UInt8) :
    s.run (front ++ back) = (s.run front).run back := List.foldl_append

/-- `read` stands still at a character of more than one byte. -/
theorem read_of_le (hc : 128 ≤ c.toNat) (s : Counter) : s.read c = s := by
  have hne {a : Char} (ha : a.toNat < 128) : c ≠ a := by
    rintro rfl
    omega
  have hquote (q : Quote) : c ≠ q.char := by
    cases q
    · exact hne (by decide)
    · exact hne (by decide)
  have hnone : Quote.ofChar? c = none := by
    rw [Quote.ofChar?_eq_none_iff, not_or]
    exact ⟨hquote .double, hquote .single⟩
  unfold read
  split
  · next q _ => rw [if_neg (hquote q)]
  · rw [hnone]
    simp only [if_neg (hne (a := '(') (by decide)), if_neg (hne (a := ')') (by decide))]

/-- `run` stands still at the bytes of such characters. -/
theorem run_of_le {bytes : List UInt8} (h : ∀ b ∈ bytes, 128 ≤ b.toNat) (s : Counter) :
    s.run bytes = s := by
  induction bytes with
  | nil => rfl
  | cons b bytes ih =>
    have hb : 128 ≤ (Char.ofUInt8 b).toNat := h b List.mem_cons_self
    have hstep : s.step b = s := read_of_le hb s
    show (s.step b).run bytes = s
    rw [hstep, ih fun b hb => h b (List.mem_cons_of_mem _ hb)]

/-- `run` counts the bytes of a character as `read` counts the character. -/
theorem run_utf8EncodeChar (s : Counter) (c : Char) :
    s.run (String.utf8EncodeChar c) = s.read c := by
  by_cases hc : c.toNat < 128
  · have hchar : Char.ofUInt8 c.toUInt8 = c := by
      apply Char.toNat_inj.1
      show c.val.toNat % 256 = c.val.toNat
      exact Nat.mod_eq_of_lt (Nat.lt_trans hc (by decide))
    rw [utf8EncodeChar_of_lt hc]
    show s.read (Char.ofUInt8 c.toUInt8) = s.read c
    rw [hchar]
  · have hle : 128 ≤ c.toNat := Nat.not_lt.1 hc
    rw [read_of_le hle, run_of_le fun b hb => le_toNat_of_mem_utf8EncodeChar hle hb]

/-- Within the bytes of a character the count is the one in front of it or the one behind it. -/
theorem run_take_utf8EncodeChar (s : Counter) (c : Char) (n : Nat) :
    s.run ((String.utf8EncodeChar c).take n) = s ∨
      s.run ((String.utf8EncodeChar c).take n) = s.read c := by
  by_cases hc : c.toNat < 128
  · cases n with
    | zero => exact .inl rfl
    | succ n =>
      rw [List.take_of_length_le (by rw [utf8EncodeChar_of_lt hc]; simp), run_utf8EncodeChar]
      exact .inr rfl
  · have hle : 128 ≤ c.toNat := Nat.not_lt.1 hc
    refine .inl (run_of_le ?_ s)
    intro b hb
    exact le_toNat_of_mem_utf8EncodeChar hle (List.mem_of_mem_take hb)

/-- The count does not go below `floor` at any of the bytes. -/
def Stays (floor : Int) (s : Counter) (bytes : List UInt8) : Prop :=
  ∀ n, floor ≤ (s.run (bytes.take n)).depth

theorem stays_nil_iff {floor : Int} : s.Stays floor [] ↔ floor ≤ s.depth := by
  simp [Stays, run_nil]

/-- `Stays` goes character by character. -/
theorem stays_cons_iff {floor : Int} :
    Stays floor s (Text.bytes (c :: t)) ↔ floor ≤ s.depth ∧ Stays floor (s.read c) t.bytes := by
  constructor
  · intro h
    refine ⟨h 0, ?_⟩
    intro n
    have hn := h ((String.utf8EncodeChar c).length + n)
    rwa [Text.bytes_cons, List.take_length_add_append, run_append, run_utf8EncodeChar] at hn
  · rintro ⟨hs, hrest⟩ n
    rw [Text.bytes_cons, List.take_append]
    by_cases hn : n ≤ (String.utf8EncodeChar c).length
    · -- The count stops within the character, where it takes no other values.
      rw [Nat.sub_eq_zero_of_le hn, List.take_zero, List.append_nil]
      rcases run_take_utf8EncodeChar s c n with heq | heq
      · rw [heq]; exact hs
      · rw [heq]; exact hrest 0
    · rw [List.take_of_length_le (Nat.le_of_not_le hn), run_append, run_utf8EncodeChar]
      exact hrest _

/-- The count goes on from `s` over the text inside parentheses, and ends inside one of them. -/
structure EndsInside (s : Counter) (t : Text) : Prop where
  stays : s.Stays 1 t.bytes
  run_eq : s.run t.bytes = inside 0 none

/-- `EndsInside` goes character by character. -/
theorem endsInside_cons_iff : s.EndsInside (c :: t) ↔ 1 ≤ s.depth ∧ (s.read c).EndsInside t := by
  have hrun : s.run (Text.bytes (c :: t)) = (s.read c).run t.bytes := by
    rw [Text.bytes_cons, run_append, run_utf8EncodeChar]
  constructor
  · rintro ⟨hstays, heq⟩
    obtain ⟨hs, hrest⟩ := stays_cons_iff.1 hstays
    exact ⟨hs, hrest, by rw [← hrun, heq]⟩
  · rintro ⟨hs, hstays, heq⟩
    exact ⟨stays_cons_iff.2 ⟨hs, hstays⟩, by rw [hrun, heq]⟩

/-! ### A parenthesis around the place -/

/-- The count with one more parenthesis open around the place. -/
def raise (s : Counter) : Counter := { s with depth := s.depth + 1 }

/-- `raise` is injective. -/
theorem raise_inj {s' : Counter} : s.raise = s'.raise ↔ s = s' := by
  obtain ⟨depth, quote⟩ := s
  obtain ⟨depth', quote'⟩ := s'
  simp [raise]

/-- `read` commutes with `raise`. -/
theorem read_raise (s : Counter) (c : Char) : s.raise.read c = (s.read c).raise := by
  obtain ⟨depth, quote⟩ := s
  cases quote with
  | some q =>
    simp only [read, raise]
    split <;> rfl
  | none =>
    simp only [read, raise]
    split
    · rfl
    · split
      · rfl
      · -- Only here the order matters: `)` takes one off, the parenthesis around adds one.
        split
        · rw [Int.sub_add_cancel, Int.add_sub_cancel]
        · rfl

/-- `run` commutes with `raise`. -/
theorem run_raise (s : Counter) (bytes : List UInt8) : s.raise.run bytes = (s.run bytes).raise := by
  induction bytes generalizing s with
  | nil => rfl
  | cons b bytes ih =>
    have hstep : s.raise.step b = (s.step b).raise := read_raise s _
    show (s.raise.step b).run bytes = ((s.step b).run bytes).raise
    rw [hstep, ih]

/-- `Stays` above a floor that is raised as well. -/
theorem stays_raise_iff (floor : Int) {bytes : List UInt8} :
    s.raise.Stays (floor + 1) bytes ↔ s.Stays floor bytes := by
  apply forall_congr'
  intro n
  rw [run_raise]
  simp only [raise]
  omega

end Counter

/-! ## Reading a group -/

namespace Group

open Counter (inside)

/-- The depth after the first `n` bytes of a text. -/
def depthAfter (t : Text) (n : Nat) : Int := (Counter.start.run (t.bytes.take n)).depth

/-- The parentheses of a text match by the count: nothing is closed that was not opened, and at the
    end no parenthesis and no quote is open. -/
structure CountsOut (w : Text) : Prop where
  depth_nonneg : ∀ n, 0 ≤ depthAfter w n
  run_eq : Counter.start.run w.bytes = Counter.start

/-- `CountsOut` says that the count from inside a parenthesis never leaves it. -/
theorem endsInside_iff_countsOut : (inside 0 none).EndsInside w ↔ CountsOut w := by
  have hraise : inside 0 none = Counter.start.raise := rfl
  have hstays : (inside 0 none).Stays 1 w.bytes ↔ ∀ n, 0 ≤ depthAfter w n := by
    rw [hraise]
    exact Counter.stays_raise_iff 0
  have hrun : (inside 0 none).run w.bytes = inside 0 none ↔
      Counter.start.run w.bytes = Counter.start := by
    rw [hraise, Counter.run_raise, Counter.raise_inj]
  constructor
  · rintro ⟨h, heq⟩
    exact ⟨hstays.1 h, hrun.1 heq⟩
  · rintro ⟨h, heq⟩
    exact ⟨hstays.2 h, hrun.2 heq⟩

/-- `close?` ends the group at a character, or goes on as `read` says. -/
theorem close?_cons_cases (depth : Nat) (quote : Option Quote) (c : Char) :
    (depth = 0 ∧ quote = none ∧ c = ')') ∨
    ∃ depth' quote', (inside depth quote).read c = inside depth' quote' ∧
      ∀ cs, close? depth (quote.map Quote.char) (c :: cs) =
        (close? depth' (quote'.map Quote.char) cs).map (cons c) := by
  cases quote with
  | some q =>
    by_cases hc : c = q.char
    · refine .inr ⟨depth, none, ?_, ?_⟩
      · simp [inside, Counter.read, hc]
      · intro cs
        simp [close?, hc]
    · refine .inr ⟨depth, some q, ?_, ?_⟩
      · simp [inside, Counter.read, hc]
      · intro cs
        simp [close?, hc]
  | none =>
    cases hquote : Quote.ofChar? c with
    | some q =>
      obtain rfl := Quote.ofChar?_eq_some_iff.1 hquote
      refine .inr ⟨depth, some q, ?_, close?_of_quote q depth⟩
      simp [inside, Counter.read]
    | none =>
      by_cases hopen : c = '('
      · subst hopen
        exact .inr ⟨depth + 1, none, rfl, fun cs => rfl⟩
      · by_cases hclose : c = ')'
        · subst hclose
          -- At the outermost parenthesis the group ends, and nowhere else.
          cases depth with
          | zero => exact .inl ⟨rfl, rfl, rfl⟩
          | succ depth =>
            refine .inr ⟨depth, none, ?_, fun cs => rfl⟩
            simp [inside, Counter.read, hquote]
        · refine .inr ⟨depth, none, ?_, close?_of_not_special hquote hopen hclose depth⟩
          simp [inside, Counter.read, hquote, hopen, hclose]

/-- `close?` finds an inner text that `EndsInside`. -/
theorem endsInside_of_close? (h : close? depth (quote.map Quote.char) t = some g) :
    (inside depth quote).EndsInside g.inner := by
  induction t generalizing depth quote g with
  | nil => simp [close?] at h
  | cons c cs ih =>
    rcases close?_cons_cases depth quote c with ⟨rfl, rfl, rfl⟩ | ⟨depth', quote', hread, hclose⟩
    · -- The group ends here, and nothing was read.
      obtain rfl : ⟨[], cs⟩ = g := Option.some.inj h
      exact ⟨Counter.stays_nil_iff.2 (Int.le_refl 1), rfl⟩
    · rw [hclose] at h
      obtain ⟨g', hg', rfl⟩ := Option.map_eq_some_iff.1 h
      exact Counter.endsInside_cons_iff.2 ⟨Counter.one_le_depth_inside depth quote, hread ▸ ih hg'⟩

/-- `close?` reads a text that `EndsInside` up to its end. -/
theorem close?_of_endsInside (h : (inside depth quote).EndsInside w) (rest : Text) :
    close? depth (quote.map Quote.char) (w ++ ')' :: rest) = some ⟨w, rest⟩ := by
  induction w generalizing depth quote with
  | nil =>
    obtain ⟨rfl, rfl⟩ := Counter.inside_inj.1 h.run_eq
    rfl
  | cons c w ih =>
    obtain ⟨-, hinside⟩ := Counter.endsInside_cons_iff.1 h
    rcases close?_cons_cases depth quote c with ⟨rfl, rfl, rfl⟩ | ⟨depth', quote', hread, hclose⟩
    · -- The count would be out of the group already.
      have hzero : 1 ≤ (0 : Int) := hinside.stays 0
      omega
    · rw [hread] at hinside
      rw [List.cons_append, hclose, ih hinside]
      rfl

/-- Where `close?` finds no end of the group, the count `Stays` in it. -/
theorem stays_of_close?_eq_none (h : close? depth (quote.map Quote.char) t = none) :
    (inside depth quote).Stays 1 t.bytes := by
  induction t generalizing depth quote with
  | nil => exact Counter.stays_nil_iff.2 (Counter.one_le_depth_inside depth quote)
  | cons c cs ih =>
    rcases close?_cons_cases depth quote c with ⟨rfl, rfl, rfl⟩ | ⟨depth', quote', hread, hclose⟩
    · cases h
    · rw [hclose, Option.map_eq_none_iff] at h
      exact Counter.stays_cons_iff.2 ⟨Counter.one_le_depth_inside depth quote, hread ▸ ih h⟩

/-! ## Where a group ends -/

theorem depthAfter_cons (cs : Text) (n : Nat) :
    depthAfter ('(' :: cs) (n + 1) = ((inside 0 none).run (cs.bytes.take n)).depth := rfl

/-- The lengths after which the count is back at zero. -/
def returns (t : Text) : Set Nat := {n | 0 < n ∧ n ≤ t.byteSize ∧ depthAfter t n = 0}

/-- `take?` finds a group around text that `CountsOut`. -/
theorem take?_of_countsOut (h : CountsOut w) (rest : Text) :
    take? ('(' :: w ++ ')' :: rest) = some ⟨w, rest⟩ :=
  close?_of_endsInside (endsInside_iff_countsOut.2 h) rest

/-- `take?` finds a group whose text `CountsOut`. -/
theorem countsOut_of_take? (h : take? t = some g) : CountsOut g.inner := by
  unfold take? at h
  split at h
  · next cs =>
    have hclose : close? 0 (Option.map Quote.char none) cs = some g := h
    exact endsInside_iff_countsOut.1 (endsInside_of_close? hclose)
  · cases h

/-- `CountsOut` and `Balanced` agree. -/
theorem countsOut_iff_balanced : CountsOut w ↔ Balanced w := by
  constructor
  · intro h
    exact (take?_eq_some_iff.1 (take?_of_countsOut h [])).balanced
  · intro h
    have hleads : Leads ⟨w, []⟩ ('(' :: w ++ [')']) := ⟨h, by simp [source]⟩
    exact countsOut_of_take? (take?_eq_some_iff.2 hleads)

/-- `take?` takes a group off the front. -/
theorem eq_cons_of_take? (h : take? t = some g) : t = '(' :: (g.inner ++ ')' :: g.rest) := by
  rw [take?_eq_append h, source]
  simp only [List.cons_append, List.append_assoc, List.nil_append]

/-- `depthAfter` is not back at zero inside a group. -/
theorem one_le_depthAfter_of_take? (h : take? t = some g) (hpos : 0 < n) (hlt : n < g.byteSize) :
    1 ≤ depthAfter t n := by
  have hinside := endsInside_iff_countsOut.2 (countsOut_of_take? h)
  rw [byteSize, ← Text.length_bytes] at hlt
  obtain ⟨m, rfl⟩ := Nat.exists_eq_add_of_lt hpos
  rw [eq_cons_of_take? h, Nat.zero_add, depthAfter_cons, Text.bytes_append,
    List.take_append_of_le_length (by omega)]
  exact hinside.stays m

/-- `depthAfter` is back at zero at the end of a group. -/
theorem depthAfter_byteSize_of_take? (h : take? t = some g) : depthAfter t g.byteSize = 0 := by
  have hrun := (endsInside_iff_countsOut.2 (countsOut_of_take? h)).run_eq
  have hclose : Text.bytes (')' :: g.rest) = [')'.toUInt8] ++ g.rest.bytes := rfl
  rw [eq_cons_of_take? h, byteSize, depthAfter_cons, Text.bytes_append, hclose,
    ← Text.length_bytes, List.take_length_add_append, Counter.run_append, hrun]
  rfl

/-- `byteSize` of a group is at most that of the text. -/
theorem byteSize_le_of_take? (h : take? t = some g) : g.byteSize ≤ t.byteSize := by
  have hclose : Text.byteSize [')'] = 1 := rfl
  have hopen (u : Text) : Text.byteSize ('(' :: u) = 1 + u.byteSize := rfl
  rw [take?_eq_append h, source, Text.byteSize_append, Text.byteSize_append, hopen, hclose,
    byteSize]
  omega

/-- A group ends at the least of the `returns`. -/
theorem isLeast_returns_of_take? (h : take? t = some g) : IsLeast (returns t) g.byteSize := by
  constructor
  · exact ⟨by simp [byteSize], byteSize_le_of_take? h, depthAfter_byteSize_of_take? h⟩
  · rintro n ⟨hpos, -, hzero⟩
    by_contra hlt
    have hone := one_le_depthAfter_of_take? h hpos (Nat.not_le.1 hlt)
    omega

/-- Where a parenthesis opens but `take?` finds no group, `depthAfter` is never back at zero. -/
theorem one_le_depthAfter_of_take?_eq_none (hopen : t.head? = some '(') (h : take? t = none)
    (hpos : 0 < n) : 1 ≤ depthAfter t n := by
  obtain ⟨cs, rfl⟩ : ∃ cs, t = '(' :: cs := List.head?_eq_some_iff.1 hopen
  have hclose : close? 0 (Option.map Quote.char none) cs = none := h
  obtain ⟨m, rfl⟩ := Nat.exists_eq_add_of_lt hpos
  rw [Nat.zero_add, depthAfter_cons]
  exact stays_of_close?_eq_none hclose m

/-- The inner text of a group `IsSlice` between the two parentheses. -/
theorem isSlice_inner_of_take? (h : take? t = some g) : t.IsSlice 1 (g.byteSize - 1) g.inner := by
  have hslice := Text.isSlice_append ['('] g.inner (')' :: g.rest)
  have hstart : Text.byteSize ['('] = 1 := rfl
  have hstop : g.byteSize - 1 = 1 + g.inner.byteSize := by
    rw [byteSize]
    omega
  rw [eq_cons_of_take? h, hstop]
  rw [hstart, List.append_assoc] at hslice
  exact hslice

/-- The text inside a group, and the number of bytes that the group takes. -/
def extent (g : Group) : Text × Nat := (g.inner, g.byteSize)

/-- `take?` finds the group that reaches to the least of the `returns`. -/
theorem take?_extent_iff {inner : Text} :
    (take? t).map extent = some (inner, n) ↔
      t.head? = some '(' ∧ IsLeast (returns t) n ∧ t.IsSlice 1 (n - 1) inner := by
  constructor
  · intro h
    obtain ⟨g, hg, hextent⟩ := Option.map_eq_some_iff.1 h
    obtain ⟨rfl, rfl⟩ := Prod.mk.inj hextent
    refine ⟨?_, isLeast_returns_of_take? hg, isSlice_inner_of_take? hg⟩
    rw [eq_cons_of_take? hg, List.head?_cons]
  · rintro ⟨hopen, hleast, hslice⟩
    cases hg : take? t with
    | none =>
      -- The count would be back at zero after `n` bytes.
      obtain ⟨hpos, -, hzero⟩ := hleast.1
      have hone := one_le_depthAfter_of_take?_eq_none hopen hg hpos
      omega
    | some g =>
      obtain rfl := hleast.unique (isLeast_returns_of_take? hg)
      obtain rfl := hslice.unique (isSlice_inner_of_take? hg)
      rfl

/-- `depthAfter` is never below zero up to the end of a group. -/
theorem depthAfter_nonneg_of_take? (h : take? t = some g) (hn : n ≤ g.byteSize) :
    0 ≤ depthAfter t n := by
  rcases Nat.eq_zero_or_pos n with rfl | hpos
  · exact Int.le_refl 0
  · rcases Nat.lt_or_eq_of_le hn with hlt | rfl
    · have hone := one_le_depthAfter_of_take? h hpos hlt
      omega
    · rw [depthAfter_byteSize_of_take? h]

/-- Where a parenthesis opens but `take?` finds no group, `depthAfter` is never below zero. -/
theorem depthAfter_nonneg_of_take?_eq_none (hopen : t.head? = some '(') (h : take? t = none)
    (n : Nat) : 0 ≤ depthAfter t n := by
  rcases Nat.eq_zero_or_pos n with rfl | hpos
  · exact Int.le_refl 0
  · have hone := one_le_depthAfter_of_take?_eq_none hopen h hpos
    omega

/-- Groups are the balanced texts in parentheses.  A group is found where a text opens a parenthesis
    and the count over its bytes comes back to zero, and it ends where this happens first.  The
    count never goes below zero on the way, what the group holds is balanced itself, and whatever
    is balanced may stand in a group. -/
theorem take?_balanced_group (t w rest : Text) :
    (∀ inner n, (take? t).map extent = some (inner, n) ↔
      t.head? = some '(' ∧ IsLeast (returns t) n ∧ t.IsSlice 1 (n - 1) inner) ∧
    (∀ g, take? t = some g → (∀ n ≤ g.byteSize, 0 ≤ depthAfter t n) ∧ CountsOut g.inner) ∧
    (t.head? = some '(' → take? t = none → ∀ n, 0 ≤ depthAfter t n) ∧
    (CountsOut w ↔ Balanced w) ∧
    (CountsOut w → (take? ('(' :: w ++ ')' :: rest)).map extent = some (w, w.byteSize + 2)) := by
  refine ⟨fun inner n => take?_extent_iff, ?_, depthAfter_nonneg_of_take?_eq_none,
    countsOut_iff_balanced, ?_⟩
  · intro g hg
    exact ⟨fun n hn => depthAfter_nonneg_of_take? hg hn, countsOut_of_take? hg⟩
  · intro h
    rw [take?_of_countsOut h]
    rfl

example : (take? "(a ')' (é))b".toList).map extent = some ("a ')' (é)".toList, 12) := by decide

end Group

end TemploTwig
