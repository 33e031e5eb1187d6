import TemploTwig.Proofs.Scanning
import TemploTwig.Proofs.Texts
import TemploTwig.Source.Span

/-!
# Reading a span back

A body that is not blank, stays on one line and lets nothing close it early is read back from the
span around it, whatever follows.
-/

namespace TemploTwig

variable {t b rest span : Text} {c : Char}

namespace Span

/-- A `delimiter` lies on one side of a character that is no colon. -/
theorem delimiter_infix_append_cons {s : Text} (hc : c ≠ ':') :
    delimiter <:+: s ++ c :: t ↔ delimiter <:+: s ∨ delimiter <:+: t :=
  Text.infix_append_cons_iff (by simp [delimiter, hc])

/-- A `delimiter` lies on one side of the end of a text that does not end with a colon. -/
theorem delimiter_infix_append {s : Text} (hlast : s.getLast? ≠ some ':') :
    delimiter <:+: s ++ t ↔ delimiter <:+: s ∨ delimiter <:+: t := by
  rcases List.eq_nil_or_concat s with rfl | ⟨front, c, rfl⟩
  · simp [delimiter]
  · rw [List.concat_eq_append] at hlast ⊢
    have hc : c ≠ ':' := by simpa using hlast
    rw [List.append_assoc, List.singleton_append, delimiter_infix_append_cons hc,
      delimiter_infix_append_cons hc]
    simp [delimiter]

/-- A `delimiter` does not begin with another character. -/
theorem delimiter_infix_cons (hc : c ≠ ':') : delimiter <:+: c :: t ↔ delimiter <:+: t := by
  have h := delimiter_infix_append_cons (s := []) (t := t) hc
  simpa [delimiter] using h

/-- What may stand between two delimiters: it is not blank, it stays on one line, and the first
    delimiter behind it is the one that closes it. -/
structure IsBody (b : Text) : Prop where
  not_blank : b.isBlankText = false
  one_line : '\n' ∉ b
  closed_last : ¬delimiter <:+: b ++ [':']

/-- A body that closes last does so without its first character. -/
private theorem closed_last_cons (h : ¬delimiter <:+: c :: b ++ [':']) :
    ¬delimiter <:+: b ++ [':'] :=
  fun hb => h (List.infix_cons hb)

/-- `close?` finds the `delimiter` behind a body. -/
theorem close?_append_delimiter (rest : Text) (hline : '\n' ∉ b)
    (hlast : ¬delimiter <:+: b ++ [':']) : close? (b ++ delimiter ++ rest) = some (b, rest) := by
  induction b with
  | nil => rfl
  | cons c b ih =>
    rw [List.mem_cons, not_or] at hline
    have hb := ih hline.2 (closed_last_cons hlast)
    rw [List.cons_append, List.cons_append, close?]
    · rw [hb]; rfl
    · rintro rfl
      exact hline.1 rfl
    · -- Two colons here would close the body before its end.
      rintro r rfl htail
      apply hlast
      cases b with
      | nil => exact ⟨[], [], rfl⟩
      | cons d b =>
        obtain rfl : d = ':' := by simpa using congrArg List.head? htail
        exact ⟨[], b ++ [':'], rfl⟩

/-- `take?` reads `ofBody` back. -/
theorem take?_ofBody (h : IsBody b) (rest : Text) :
    take? (ofBody b ++ rest) = some (ofBody b, rest) := by
  have hclose := close?_append_delimiter rest h.one_line h.closed_last
  show take? (':' :: ':' :: (b ++ delimiter ++ rest)) = _
  rw [take?, hclose]
  simp [h.not_blank]

/-- `stripBoth?` gives the body of a span. -/
theorem stripBoth?_ofBody (b : Text) : Text.stripBoth? delimiter (ofBody b) = some b := by
  rw [Text.stripBoth?, ofBody, List.append_assoc, Text.stripStart?_append, Option.bind_some,
    Text.stripEnd?_eq_some_iff]

/-- `body` gives the body of a span. -/
@[simp] theorem body_ofBody (b : Text) : body (ofBody b) = b := by
  rw [body, stripBoth?_ofBody, Option.getD_some]

/-- `close?` finds the same body when text comes behind. -/
theorem close?_append_of_some (h : close? t = some (b, rest)) (after : Text) :
    close? (t ++ after) = some (b, rest ++ after) := by
  fun_induction close? t generalizing b rest with
  | case1 => cases h
  | case2 => cases h
  | case3 r =>
    obtain ⟨rfl, rfl⟩ : [] = b ∧ r = rest := by simpa using h
    rfl
  | case4 c cs hbreak hclose ih =>
    simp only [Option.map_eq_some_iff, Prod.exists, Prod.mk.injEq] at h
    obtain ⟨b', r, hcs, rfl, rfl⟩ := h
    rw [List.cons_append, close?, ih hcs]
    · rfl
    · exact hbreak
    · -- The next colon would come from the text itself, since something is read from it.
      rintro r' rfl htail
      cases cs with
      | nil => cases hcs
      | cons d cs =>
        simp only [List.cons_append, List.cons.injEq] at htail
        exact hclose cs rfl (by rw [htail.1])

/-- `take?` finds the same span when text comes behind. -/
theorem take?_append_of_some (h : take? t = some (span, rest)) (after : Text) :
    take? (t ++ after) = some (span, rest ++ after) := by
  unfold take? at h
  split at h
  · next cs =>
    simp only [Option.bind_eq_some_iff, Prod.exists] at h
    obtain ⟨b, r, hclose, hif⟩ := h
    show take? (':' :: ':' :: (cs ++ after)) = _
    rw [take?, close?_append_of_some hclose, Option.bind_some]
    split at hif
    · cases hif
    · next hblank =>
      simp only [Option.some.injEq, Prod.mk.injEq] at hif
      obtain ⟨rfl, rfl⟩ := hif
      simp [hblank]
  · cases h

/-- `close?` finds a body on one line that closes last. -/
private theorem close?_clear (h : close? t = some (b, rest)) :
    '\n' ∉ b ∧ ¬delimiter <:+: b ++ [':'] := by
  fun_induction close? t generalizing b rest with
  | case1 => cases h
  | case2 => cases h
  | case3 r =>
    obtain ⟨rfl, -⟩ : [] = b ∧ r = rest := by simpa using h
    exact ⟨List.not_mem_nil, by decide⟩
  | case4 c cs hbreak hclose ih =>
    simp only [Option.map_eq_some_iff, Prod.exists, Prod.mk.injEq] at h
    obtain ⟨b', r, hcs, rfl, rfl⟩ := h
    obtain ⟨hline, hlast⟩ := ih hcs
    refine ⟨?_, ?_⟩
    · rintro (_ | hmem)
      · exact hbreak rfl
      · exact hline ‹_›
    · intro hinfix
      rcases List.infix_cons_iff.1 hinfix with ⟨tail, hprefix⟩ | hb
      · -- The two colons at the front would have closed the body here.
        obtain ⟨rfl, htail⟩ := List.cons.inj hprefix
        have hcs' := close?_eq_append hcs
        cases b' with
        | nil => exact hclose _ rfl (by rw [hcs']; rfl)
        | cons d b' =>
          obtain ⟨rfl, -⟩ := List.cons.inj htail
          exact hclose _ rfl (by rw [hcs']; rfl)
      · exact hlast hb

/-- `take?` finds a span whose body `IsBody`. -/
theorem exists_isBody_of_take? (h : take? t = some (span, rest)) :
    ∃ b, IsBody b ∧ span = ofBody b := by
  unfold take? at h
  split at h
  · simp only [Option.bind_eq_some_iff, Prod.exists] at h
    obtain ⟨b, r, hclose, hif⟩ := h
    split at hif
    · cases hif
    · next hblank =>
      obtain ⟨rfl, -⟩ : ofBody b = span ∧ r = rest := by simpa using hif
      obtain ⟨hline, hlast⟩ := close?_clear hclose
      exact ⟨b, ⟨by simpa using hblank, hline, hlast⟩, rfl⟩
  · cases h

/-- `take?` finds an `ofBody`. -/
theorem exists_ofBody_of_take? (h : take? t = some (span, rest)) : ∃ b, span = ofBody b := by
  obtain ⟨b, -, hspan⟩ := exists_isBody_of_take? h
  exact ⟨b, hspan⟩

/-- `take?` finds the same span whatever follows it. -/
theorem take?_span_append (h : take? t = some (span, rest)) (after : Text) :
    take? (span ++ after) = some (span, after) := by
  obtain ⟨b, hb, rfl⟩ := exists_isBody_of_take? h
  exact take?_ofBody hb after

/-- `take?` needs a `delimiter` in front. -/
theorem take?_of_not_prefix (h : ¬delimiter <+: t) : take? t = none := by
  rw [take?.eq_def]
  split
  · next cs => exact absurd ⟨cs, rfl⟩ h
  · rfl

/-- No span opens in a `NoPair` run. -/
theorem declines_of_noPair {run after : Text} (h : Text.NoPair ':' run after) :
    recogniser.Declines run after :=
  fun _ _ hrun hne => take?_of_not_prefix (h.not_prefix hrun hne)

/-- No span opens in a run without a `delimiter`, unless its last colon meets one behind it. -/
theorem declines_of_no_delimiter {run after : Text} (h : ¬delimiter <:+: run)
    (hafter : after.head? ≠ some ':') : recogniser.Declines run after :=
  declines_of_noPair ⟨h, fun _ => hafter⟩

/-- A span that `scan` finds holds a `delimiter`. -/
theorem delimiter_infix_of_token_mem_scan (h : .token span ∈ scan t) : delimiter <:+: span := by
  have hsettled := recogniser.settled_scan id take?_eq_append t
  obtain ⟨rest, hnext⟩ := hsettled.exists_next?_of_mem h
  obtain ⟨b, rfl⟩ := exists_ofBody_of_take? hnext
  exact ⟨[], b ++ delimiter, rfl⟩

/-- `scan` makes one run of a text without a `delimiter`. -/
theorem scan_of_no_delimiter (h : ¬delimiter <:+: t) (hne : t ≠ []) : scan t = [.plain t] := by
  have hdeclines : recogniser.Declines t [] := declines_of_no_delimiter h (by simp)
  have hscan := Recogniser.scan_append_of_declines hdeclines hne
  rwa [List.append_nil, Recogniser.scan_nil] at hscan

end Span

end TemploTwig
