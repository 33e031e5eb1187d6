import TemploTwig.Proofs.Placeholders.Marks
import TemploTwig.Proofs.Template.Parts

/-!
# How running text flows

An end tag that closes nothing is skipped, and the texts around it become one.  `Flow` keeps of a
template what matters to such texts, and `Flow.flows` tells whether they may be put together: no
delimiter comes about where two of them meet, and nothing behind a directive goes on with its
delimiter.
-/

namespace TemploTwig

/-- What a part of a template is to the running text around it. -/
inductive Flow where
  | run (t : Text)
  /-- A directive.  An `::end::` may turn into an end tag. -/
  | directive (ends : Bool)
  /-- An end tag. -/
  | gap
  /-- Anything else: no text goes on behind it. -/
  | stop

namespace Flow

/-- The plain text that may be put together from the front of a flow. -/
def runsIn : List Flow → Text
  | run t :: fs => t ++ runsIn fs
  | gap :: fs => runsIn fs
  | directive true :: fs => runsIn fs
  | _ => []

/-- May the text at the front of a flow begin with a colon? -/
def startsWithColon : List Flow → Bool
  | run t :: _ => t.head? == some ':'
  | directive _ :: _ => true
  | gap :: fs => startsWithColon fs
  | _ => false

/-- Does the text leave a delimiter in front of it as it is?  It neither goes on with a colon nor
    begins with a word that starts a part. -/
def keepsOff (t : Text) : Bool :=
  t.head? != some ':' && Partition.words.all fun word => decide (¬word <+: t)

/-- May the part be followed by the flow? -/
def meets : Flow → List Flow → Bool
  | run t, fs => t.getLast? != some ':' || !startsWithColon fs
  | directive _, fs => keepsOff (runsIn fs)
  | _, _ => true

/-- May every part be followed by what follows it? -/
def flows : List Flow → Bool
  | [] => true
  | f :: fs => f.meets fs && flows fs

/-- Every part may be followed by what follows it, and no text that may be put together spells one
    of the marks. -/
def Flowing (marks : List Text) : List Flow → Prop
  | [] => True
  | f :: fs => f.meets fs = true ∧ Text.Free marks (runsIn (f :: fs)) ∧ Flowing marks fs

variable {marks : List Text} {f : Flow} {fs gs xs : List Flow} {s t : Text}

theorem keepsOff_iff :
    keepsOff t = true ↔ t.head? ≠ some ':' ∧ ∀ word ∈ Partition.words, ¬word <+: t := by
  simp [keepsOff]

theorem keepsOff_of_prefix (h : keepsOff t = true) (hs : s <+: t) : keepsOff s = true := by
  rw [keepsOff_iff] at h ⊢
  refine ⟨?_, fun word hword hs' => h.2 word hword (hs'.trans hs)⟩
  obtain ⟨rest, rfl⟩ := hs
  cases s with
  | nil => simp
  | cons c s => exact h.1

theorem Flowing.free_runsIn (h : Flowing marks fs) (hnil : [] ∉ marks) :
    Text.Free marks (runsIn fs) := by
  cases fs with
  | nil => exact Text.free_nil hnil
  | cons f fs => exact h.2.1

theorem Flowing.of_append_right (h : Flowing marks (xs ++ fs)) : Flowing marks fs := by
  induction xs with
  | nil => exact h
  | cons x xs ih => exact ih h.2.2

/-! ## Changing the end of a flow -/

/-- The second flow may stand where the first one stood: less text may be put together from its
    front, and it begins with a colon only if the first one does. -/
structure Replaces (fs gs : List Flow) : Prop where
  runs : runsIn gs <+: runsIn fs
  colon : startsWithColon gs = true → startsWithColon fs = true

namespace Replaces

/-- `Replaces` goes on behind a further flow. -/
theorem cons (h : Replaces fs gs) (f : Flow) : Replaces (f :: fs) (f :: gs) := by
  cases f with
  | run t => exact ⟨(List.prefix_append_right_inj t).2 h.runs, id⟩
  | directive ends =>
    cases ends with
    | true => exact ⟨h.runs, id⟩
    | false => exact ⟨List.prefix_refl _, id⟩
  | gap => exact ⟨h.runs, h.colon⟩
  | stop => exact ⟨List.prefix_refl _, id⟩

theorem append (h : Replaces fs gs) (xs : List Flow) : Replaces (xs ++ fs) (xs ++ gs) := by
  induction xs with
  | nil => exact h
  | cons x xs ih => exact ih.cons x

/-- `Replaces` keeps what a flow `meets`. -/
theorem meets (h : Replaces fs gs) (hf : f.meets fs = true) : f.meets gs = true := by
  cases f with
  | run t =>
    simp only [Flow.meets, Bool.or_eq_true, Bool.not_eq_true'] at hf ⊢
    rcases hf with hf | hf
    · exact .inl hf
    · refine .inr (Bool.eq_false_iff.2 fun hgs => ?_)
      rw [h.colon hgs] at hf
      cases hf
  | directive ends => exact keepsOff_of_prefix hf h.runs
  | gap | stop => rfl

theorem nil (fs : List Flow) : Replaces fs [] := ⟨List.nil_prefix, fun h => by cases h⟩

end Replaces

/-- A flow goes on flowing when its end is replaced. -/
theorem Flowing.change (h : Flowing marks (xs ++ fs)) (hreplaces : Replaces fs gs)
    (hgs : Flowing marks gs) : Flowing marks (xs ++ gs) := by
  induction xs with
  | nil => exact hgs
  | cons x xs ih =>
    obtain ⟨hmeets, hfree, hxs⟩ := h
    have hrest := hreplaces.append xs
    exact ⟨hrest.meets hmeets, hfree.of_infix (hrest.cons x).runs.isInfix, ih hxs⟩

/-- A flow may be cut off anywhere. -/
theorem Flowing.of_append_left (h : Flowing marks (xs ++ fs)) : Flowing marks xs := by
  have hcut := h.change (Replaces.nil fs) trivial
  rwa [List.append_nil] at hcut

/-- An end tag may be left out. -/
theorem Flowing.remove_gap (h : Flowing marks (xs ++ gap :: fs)) : Flowing marks (xs ++ fs) := by
  have hreplaces : Replaces (gap :: fs) fs := ⟨List.prefix_refl _, id⟩
  exact h.change hreplaces h.of_append_right.2.2

/-- An end tag may stand at the end. -/
theorem Flowing.concat_gap (h : Flowing marks xs) (hnil : [] ∉ marks) :
    Flowing marks (xs ++ [gap]) := by
  have hreplaces : Replaces [] [gap] := ⟨List.prefix_refl _, id⟩
  rw [← List.append_nil xs] at h
  exact h.change hreplaces ⟨rfl, Text.free_nil hnil, trivial⟩

/-- A directive may turn into something that no text goes on behind. -/
theorem Flowing.stop_of_directive (h : Flowing marks (xs ++ directive false :: fs)) :
    Flowing marks (xs ++ stop :: fs) := by
  have hreplaces : Replaces (directive false :: fs) (stop :: fs) :=
    ⟨List.prefix_refl _, fun hcolon => by cases hcolon⟩
  obtain ⟨-, hfree, hfs⟩ := h.of_append_right
  exact h.change hreplaces ⟨rfl, hfree, hfs⟩

/-- An `::end::` may turn into an end tag. -/
theorem Flowing.gap_of_end (h : Flowing marks (xs ++ directive true :: fs)) :
    Flowing marks (xs ++ gap :: fs) := by
  have hreplaces : Replaces (directive true :: fs) (gap :: fs) :=
    ⟨List.prefix_refl _, fun _ => rfl⟩
  obtain ⟨-, hfree, hfs⟩ := h.of_append_right
  exact h.change hreplaces ⟨rfl, hfree, hfs⟩

end Flow

end TemploTwig
