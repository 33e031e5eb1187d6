import TemploTwig.Source.Group
import TemploTwig.Source.Quote

/-!
# Balanced text and the group around it

A text is balanced when its parentheses match, those between quotes aside.  The group at the front
of a text is the only balanced text between two parentheses there.

Key results: `Group.Balanced`, `Group.close?_append`, `Group.take?_eq_some_iff`.
-/

namespace TemploTwig

namespace Quote

/-- `ofChar?` knows two quotes. -/
theorem ofChar?_eq_none_iff {c : Char} : ofChar? c = none ↔ ¬(c = '"' ∨ c = '\'') := by
  rw [ofChar?]
  split
  · simp_all
  · split <;> simp_all

/-- `char` is one of two quotes. -/
theorem char_cases (q : Quote) : q.char = '"' ∨ q.char = '\'' := by
  cases q
  · exact .inl rfl
  · exact .inr rfl

/-- Both quotes are a `char`. -/
theorem exists_eq_char {c : Char} (h : c = '"' ∨ c = '\'') : ∃ q : Quote, c = q.char := by
  rcases h with rfl | rfl
  · exact ⟨double, rfl⟩
  · exact ⟨single, rfl⟩

end Quote

namespace Group

/-- Texts whose parentheses match.  Between quotes anything may stand but the quote itself. -/
inductive Balanced : Text → Prop
  | nil : Balanced []
  | char {c : Char} {t : Text} (hquote : Quote.ofChar? c = none) (hopen : c ≠ '(')
    (hclose : c ≠ ')') (ht : Balanced t) : Balanced (c :: t)
  | quoted (q : Quote) {value t : Text} (hvalue : q.char ∉ value) (ht : Balanced t) :
    Balanced (q.enclose value ++ t)
  | group {inner t : Text} (hinner : Balanced inner) (ht : Balanced t) :
    Balanced ('(' :: inner ++ ')' :: t)

/-- `Balanced` texts in a row are balanced. -/
theorem Balanced.append {s t : Text} (hs : Balanced s) (ht : Balanced t) : Balanced (s ++ t) := by
  induction hs with
  | nil => exact ht
  | char hquote hopen hclose _ ih => exact .char hquote hopen hclose ih
  | quoted q hvalue _ ih =>
    rw [List.append_assoc]
    exact .quoted q hvalue ih
  | group hinner _ _ ih =>
    rw [List.append_assoc, List.cons_append]
    exact .group hinner ih

/-! ## What is read is balanced -/

/-- What is read from inside `depth + 1` parentheses: balanced texts with closing parentheses
    between them. -/
inductive Reaches : Nat → Text → Prop
  | last {w : Text} (hw : Balanced w) : Reaches 0 w
  | next {depth : Nat} {w t : Text} (hw : Balanced w) (ht : Reaches depth t) :
    Reaches (depth + 1) (w ++ ')' :: t)

/-- `Reaches` may begin with a `Balanced` text. -/
theorem Reaches.append {depth : Nat} {w t : Text} (hw : Balanced w) (ht : Reaches depth t) :
    Reaches depth (w ++ t) := by
  cases ht with
  | last hv => exact .last (hw.append hv)
  | next hv hrest =>
    rw [← List.append_assoc]
    exact .next (hw.append hv) hrest

/-- What is read from inside quotes as well: the rest of what stands between them comes first. -/
def ReachesFrom (depth : Nat) : Option Char → Text → Prop
  | none, t => Reaches depth t
  | some q, t => ∃ value rest, t = value ++ q :: rest ∧ q ∉ value ∧ Reaches depth rest

/-- `close?` finds an inner text that `ReachesFrom` allows. -/
theorem reachesFrom_of_close? {depth : Nat} {quote : Option Char} {t : Text} {g : Group}
    (h : close? depth quote t = some g) : ReachesFrom depth quote g.inner := by
  fun_induction close? depth quote t generalizing g with
  | case1 => cases h
  | case2 depth q c cs ih =>
    obtain ⟨g', hg', rfl⟩ := Option.map_eq_some_iff.1 h
    have hcs := ih hg'
    by_cases hc : c = q
    · rw [if_pos hc] at hcs
      exact ⟨[], g'.inner, by rw [hc]; rfl, List.not_mem_nil, hcs⟩
    · rw [if_neg hc] at hcs
      obtain ⟨value, rest, hinner, hvalue, hrest⟩ := hcs
      refine ⟨c :: value, rest, by rw [cons, hinner]; rfl, ?_, hrest⟩
      simp [Ne.symm hc, hvalue]
  | case3 depth c cs hquote ih =>
    obtain ⟨g', hg', rfl⟩ := Option.map_eq_some_iff.1 h
    obtain ⟨value, rest, hinner, hvalue, hrest⟩ := ih hg'
    obtain ⟨q, rfl⟩ := Quote.exists_eq_char hquote
    have hliteral : Reaches depth (q.enclose value ++ [] ++ rest) :=
      .append (.quoted q hvalue .nil) hrest
    show Reaches depth (q.char :: g'.inner)
    rw [hinner]
    simpa [Quote.enclose] using hliteral
  | case4 depth cs _ ih =>
    obtain ⟨g', hg', rfl⟩ := Option.map_eq_some_iff.1 h
    -- The parenthesis that closes the new one comes first.
    have hcs : Reaches (depth + 1) g'.inner := ih hg'
    show Reaches depth ('(' :: g'.inner)
    generalize g'.inner = inner at hcs
    cases hcs with
    | next hw ht =>
      have hgroup := Reaches.append (.group hw .nil) ht
      simpa using hgroup
  | case5 cs =>
    obtain rfl : ⟨[], cs⟩ = g := Option.some.inj h
    exact .last .nil
  | case6 cs _ _ depth ih =>
    obtain ⟨g', hg', rfl⟩ := Option.map_eq_some_iff.1 h
    exact .next .nil (ih hg')
  | case7 depth c cs hquote hopen hclose ih =>
    obtain ⟨g', hg', rfl⟩ := Option.map_eq_some_iff.1 h
    exact .append (.char (Quote.ofChar?_eq_none_iff.2 hquote) hopen hclose .nil) (ih hg')

/-! ## Balanced text is read -/

/-- Put a text in front of the inner text. -/
def prepend (w : Text) (g : Group) : Group := { g with inner := w ++ g.inner }

/-- `close?` goes over what stands between quotes. -/
theorem close?_quoted {q : Char} {value : Text} (h : q ∉ value) (depth : Nat) (t : Text) :
    close? depth (some q) (value ++ q :: t) =
      (close? depth none t).map (prepend (value ++ [q])) := by
  induction value with
  | nil =>
    rw [List.nil_append, close?, if_pos rfl]
    rfl
  | cons c value ih =>
    rw [List.mem_cons, not_or] at h
    rw [List.cons_append, close?, if_neg (Ne.symm h.1), ih h.2, Option.map_map]
    rfl

/-- `close?` goes over a character that means nothing to it. -/
theorem close?_of_not_special {c : Char} (hquote : Quote.ofChar? c = none) (hopen : c ≠ '(')
    (hclose : c ≠ ')') (depth : Nat) (t : Text) :
    close? depth none (c :: t) = (close? depth none t).map (cons c) := by
  simp only [close?, if_neg (Quote.ofChar?_eq_none_iff.1 hquote), if_neg hopen, if_neg hclose]

/-- `close?` enters a quoted text. -/
theorem close?_of_quote (q : Quote) (depth : Nat) (t : Text) :
    close? depth none (q.char :: t) = (close? depth (some q.char) t).map (cons q.char) := by
  simp only [close?, if_pos q.char_cases]

/-- `close?` goes over `Balanced` text at any depth. -/
theorem close?_append {w : Text} (h : Balanced w) (depth : Nat) (t : Text) :
    close? depth none (w ++ t) = (close? depth none t).map (prepend w) := by
  induction h generalizing depth t with
  | nil =>
    have hid : prepend [] = id := rfl
    rw [hid, Option.map_id, List.nil_append, id]
  | char hquote hopen hclose _ ih =>
    rw [List.cons_append, close?_of_not_special hquote hopen hclose, ih, Option.map_map]
    rfl
  | quoted q hvalue _ ih =>
    rw [Quote.enclose, List.append_assoc, List.append_assoc, List.cons_append,
      List.singleton_append, close?_of_quote, close?_quoted hvalue, ih, Option.map_map, Option.map_map]
    congr 1
    funext g
    simp [prepend, cons]
  -- The outer depth comes back behind the inner group, so both hypotheses are used.
  | @group inner w _ _ ihinner ih =>
    have hopen : close? depth none ('(' :: (inner ++ ')' :: (w ++ t))) =
        (close? (depth + 1) none (inner ++ ')' :: (w ++ t))).map (cons '(') := rfl
    have hclose : close? (depth + 1) none (')' :: (w ++ t)) =
        (close? depth none (w ++ t)).map (cons ')') := rfl
    rw [List.append_assoc, List.cons_append, List.cons_append, hopen, ihinner, hclose, ih]
    simp only [Option.map_map]
    congr 1
    funext g
    simp [prepend, cons]

/-! ## Groups -/

/-- The group leads the text: it is balanced text in parentheses, and its rest follows. -/
structure Leads (g : Group) (t : Text) : Prop where
  balanced : Balanced g.inner
  eq_append : t = g.source ++ g.rest

/-- `take?` finds exactly the groups that `Leads` the text. -/
theorem take?_eq_some_iff {t : Text} {g : Group} : take? t = some g ↔ g.Leads t := by
  constructor
  · intro h
    refine ⟨?_, take?_eq_append h⟩
    unfold take? at h
    split at h
    · have hreaches : Reaches 0 g.inner := reachesFrom_of_close? h
      generalize g.inner = inner at hreaches
      cases hreaches with
      | last hw => exact hw
    · cases h
  · rintro ⟨hbalanced, rfl⟩
    have hclose := close?_append hbalanced 0 (')' :: g.rest)
    rw [close?, if_neg (by decide), if_neg (by decide), if_pos rfl] at hclose
    show take? ('(' :: g.inner ++ [')'] ++ g.rest) = _
    rw [List.append_assoc, List.cons_append, take?, List.singleton_append, hclose, Option.map_some,
      prepend, List.append_nil]

/-- `Leads` holds of one group at most. -/
theorem Leads.unique {g g' : Group} {t : Text} (h : g.Leads t) (h' : g'.Leads t) : g = g' :=
  Option.some.inj ((take?_eq_some_iff.2 h).symm.trans (take?_eq_some_iff.2 h'))

end Group

end TemploTwig
