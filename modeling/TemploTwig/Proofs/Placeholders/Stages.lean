import TemploTwig.Proofs.Placeholders.Layout
import TemploTwig.Proofs.Placeholders.Recorded

/-!
# The passes on a layout

A pass over a template replaces constructs of its layout one by one.  It leaves a layout that is as
orderly, with fewer constructs in it, and the entries that it records hold no mark.  There are never
more entries than the template has constructs, so every index is small.
-/

namespace TemploTwig

open Document (strayMarks)

/-! ## Steps that swap -/

namespace Prepare

variable {α β : Type} {inv : Nat → Context → Prop} {weight : α → Nat} {text : α → Text}
  {R : α → α → Prop}

/-- Joining the runs first makes no difference to a pass that copies them. -/
theorem render_join (token : β → Prepare Text) (ps : List (Piece β)) :
    render id token (Piece.join ps) = render id token ps := by
  induction ps with
  | nil => rfl
  | cons p ps ih =>
    cases p with
    | plain t =>
      rw [Piece.join, render_plain_cons]
      split
      · next ht =>
        rw [ih, ht]
        exact (id_map _).symm
      · rw [render_prepend, ih]
        rfl
    | token a => rw [Piece.join, render_token_cons, render_token_cons, ih]

/-- With room for what `x` needs, the step writes something that `x` may turn into, and it leaves
    the room that this needs. -/
def Swaps (inv : Nat → Context → Prop) (weight : α → Nat) (text : α → Text) (R : α → α → Prop)
    (x : α) (step : Prepare Text) : Prop :=
  ∀ n ctx, inv (n + weight x) ctx →
    ∃ y ctx', R x y ∧ step.run ctx = (text y, ctx') ∧ inv (n + weight y) ctx'

/-- What the members of a list need together. -/
def total (weight : α → Nat) : List α → Nat
  | [] => 0
  | x :: xs => weight x + total weight xs

theorem total_append (weight : α → Nat) (xs ys : List α) :
    total weight (xs ++ ys) = total weight xs + total weight ys := by
  induction xs with
  | nil => exact (Nat.zero_add _).symm
  | cons x xs ih => rw [List.cons_append, total, total, ih, Nat.add_assoc]

theorem total_le_length {xs : List α} (h : ∀ x ∈ xs, weight x ≤ (text x).length) :
    total weight xs ≤ (xs.flatMap text).length := by
  induction xs with
  | nil => exact Nat.le_refl 0
  | cons x xs ih =>
    rw [total, List.flatMap_cons, List.length_append]
    exact Nat.add_le_add (h x List.mem_cons_self) (ih fun y hy => h y (List.mem_cons_of_mem x hy))

/-- Steps that swap the members of a list one by one. -/
theorem swaps_render {piecesOf : α → List (Piece β)} {token : β → Prepare Text} {xs : List α}
    (h : ∀ x ∈ xs, Swaps inv weight text R x (render id token (piecesOf x))) :
    Swaps inv (total weight) (fun ys => ys.flatMap text) (List.Forall₂ R) xs
      (render id token (xs.flatMap piecesOf)) := by
  induction xs with
  | nil => exact fun n ctx hctx => ⟨[], ctx, .nil, rfl, hctx⟩
  | cons x xs ih =>
    intro n ctx hctx
    have hroom : n + total weight (x :: xs) = n + total weight xs + weight x := by
      rw [total]
      omega
    rw [hroom] at hctx
    obtain ⟨y, ctx₁, hy, hrun₁, hctx₁⟩ := h x List.mem_cons_self _ ctx hctx
    -- What the rest of the list needs is still there behind the first step.
    rw [Nat.add_right_comm] at hctx₁
    obtain ⟨ys, ctx₂, hys, hrun₂, hctx₂⟩ := ih (fun z hz => h z (List.mem_cons_of_mem x hz)) _ _ hctx₁
    refine ⟨y :: ys, ctx₂, .cons hy hys, ?_, ?_⟩
    · rw [List.flatMap_cons, render_append, StateT.run_bind, hrun₁]
      show (do let back ← render id token (xs.flatMap piecesOf); pure (text y ++ back)).run ctx₁ = _
      rw [StateT.run_bind, hrun₂]
      rfl
    · rwa [total, ← Nat.add_assoc]

/-- A step `pure t` that copies the text of `x` swaps `x` for itself. -/
theorem swaps_pure {x : α} {t : Text} (hx : R x x) (ht : t = text x) :
    Swaps inv weight text R x (pure t) :=
  fun _ ctx hctx => ⟨x, ctx, hx, ht ▸ rfl, hctx⟩

end Prepare

/-! ## Contexts with room for entries -/

/-- The tables have room for `n` more entries of every family below `bound`, and what is recorded
    holds no mark. -/
structure Context.Open (options : Options) (bound n : Nat) (ctx : Context) : Prop where
  options : ctx.options = options
  room : ∀ f, (ctx.tables.entries f).length + n ≤ bound
  entries : ∀ f, f ≠ .macroCall → ∀ entry ∈ ctx.tables.entries f, Text.Free strayMarks entry
  parent : ∀ path ∈ ctx.parent, Text.Free strayMarks path

namespace Context.Open

variable {options : Options} {bound n : Nat} {ctx : Context}

theorem mono (h : Open options bound n ctx) {m : Nat} (hm : m ≤ n) : Open options bound m ctx where
  options := h.options
  room f := Nat.le_trans (Nat.add_le_add_left hm _) (h.room f)
  entries := h.entries
  parent := h.parent

/-- A new entry takes one place, and its index is below the bound. -/
theorem record {family : Family} {entry : Text} (h : Open options bound (n + 1) ctx)
    (hentry : family ≠ .macroCall → Text.Free strayMarks entry) :
    (ctx.record family entry).1 < bound ∧ Open options bound n (ctx.record family entry).2 := by
  refine ⟨?_, h.options, fun f => ?_, fun f hf x hx => ?_, h.parent⟩
  · have := h.room family
    show (ctx.tables.entries family).length < bound
    omega
  · have hlength := ctx.tables.length_entries_record_le family f entry
    have hroom := h.room f
    show ((ctx.tables.record family entry).entries f).length + n ≤ bound
    omega
  · rcases Tables.mem_entries_record hx with hx | ⟨rfl, rfl⟩
    · exact h.entries f hf x hx
    · exact hentry hf

theorem warn (h : Open options bound n ctx) (w : Warning) : Open options bound n (ctx.warn w) :=
  ⟨h.options, h.room, h.entries, h.parent⟩

theorem inherit (h : Open options bound n ctx) {path : Text} (hpath : Text.Free strayMarks path) :
    Open options bound n { ctx with parent := some path } :=
  ⟨h.options, h.room, h.entries, fun _ hu => Option.some.inj hu ▸ hpath⟩

end Context.Open

/-! ## What a pass makes of a stretch -/

namespace Field

/-- What a pass makes of a field and the run behind it: it keeps a construct that satisfies `q`, or
    puts a holder with an index below `bound` in its place. -/
inductive Becomes (bound : Nat) (q : Inline → Prop) : Field × Text → Field × Text → Prop
  | keep {f : Field} (t : Text) (h : ∀ i, f = inline i → q i) : Becomes bound q (f, t) (f, t)
  | hold (i : Inline) (f : Family) {n : Nat} (t : Text) (h : n < bound) :
    Becomes bound q (inline i, t) (holder f n, t)

/-- How many entries the field may need. -/
def weight : Field × Text → Nat
  | (inline _, _) => 1
  | (holder _ _, _) => 0

/-- A field needs no more entries than it has characters. -/
theorem weight_le {bound : Nat} {x : Field × Text} (h : x.1.Fits bound) :
    weight x ≤ (x.1.text ++ x.2).length := by
  obtain ⟨f, t⟩ := x
  cases f with
  | holder f n => exact Nat.zero_le _
  | inline i =>
    cases i with
    | directive span =>
      obtain ⟨-, b, -, rfl⟩ := h
      simp [weight, text, Inline.source, Span.ofBody, Span.delimiter]
    | call c => simp [weight, text, Inline.source, MacroCall.source]

end Field

namespace Stretch

/-- What a pass makes of a stretch: it replaces constructs and leaves all else as it is. -/
inductive Becomes (bound : Nat) (q : Inline → Prop) : Stretch → Stretch → Prop
  | run (t : Text) : Becomes bound q (run t) (run t)
  | directive (span : Text) : Becomes bound q (directive span) (directive span)
  | call {c : MacroCall} (h : q (.call c)) : Becomes bound q (call c) (call c)
  | replace (c : MacroCall) (n : Nat) : Becomes bound q (call c) (token n)
  | token (n : Nat) : Becomes bound q (token n) (token n)
  | tag (name lead : Text) {fields fields' : List (Field × Text)}
    (h : List.Forall₂ (Field.Becomes bound q) fields fields') :
    Becomes bound q (tag name lead fields) (tag name lead fields')
  | markup (m : Text) : Becomes bound q (markup m) (markup m)

/-- How many entries the stretch may need. -/
def weight : Stretch → Nat
  | call _ => 1
  | tag _ _ fields => Prepare.total Field.weight fields
  | _ => 0

/-- A stretch needs no more entries than it has characters. -/
theorem weight_le {bound : Nat} {x : Stretch} (h : x.Fits bound) : x.weight ≤ x.text.length := by
  cases x with
  | call c => simp [weight, text, MacroCall.source]
  | tag name lead fields =>
    have hfields : Prepare.total Field.weight fields ≤ (Field.textAll fields).length :=
      Prepare.total_le_length fun y hy => Field.weight_le (h.each y hy).1
    simp only [weight, text, List.length_append]
    omega
  | run | directive | token | markup => exact Nat.zero_le _

end Stretch

/-- What a pass does with a construct between attributes: it copies one that satisfies `q`, or it
    records an entry and writes the holder. -/
def Prepare.Holds (q : Inline → Prop) (i : Inline) (step : Prepare Text) : Prop :=
  (q i ∧ step = pure i.source) ∨ ∃ (family : Family) (entry : Context → Text),
    (family ≠ .macroCall → ∀ ctx, Text.Free strayMarks (entry ctx)) ∧
      ∀ ctx, step.run ctx = (recordHolder family (entry ctx)).run ctx

section Pass

variable {options : Options} {bound : Nat} {q : Inline → Prop} {inline : Inline → Prepare Text}

/-- A pass over a field and the run behind it. -/
theorem Field.swaps_render {f : Field} {t : Text}
    (h : ∀ i, f = .inline i → Prepare.Holds q i (inline i)) :
    Prepare.Swaps (Context.Open options bound) weight (fun x => x.1.text ++ x.2) (Becomes bound q)
      (f, t) (Prepare.render id inline [f.piece, .plain t]) := by
  have hplain : Prepare.render id inline [.plain t] = pure t := by
    rw [Prepare.render_plain_cons, Prepare.render_nil, map_pure]
    exact congrArg pure (List.append_nil t)
  cases f with
  | holder f n =>
    have hrender : Prepare.render id inline [.plain (f.holderText n), .plain t] =
        pure (f.holderText n ++ t) := by
      rw [Prepare.render_plain_cons, hplain, map_pure]
      rfl
    rw [show Field.piece (.holder f n) = .plain (f.holderText n) from rfl, hrender]
    exact Prepare.swaps_pure (.keep t fun i hi => (by cases hi)) rfl
  | inline i =>
    have hrender : Prepare.render id inline [.token i, .plain t] = (· ++ t) <$> inline i := by
      rw [Prepare.render_token_cons, hplain]
      simp
    rw [show Field.piece (.inline i) = .token i from rfl, hrender]
    rcases h i rfl with ⟨hq, hstep⟩ | ⟨family, entry, hentry, hstep⟩
    · rw [hstep, map_pure]
      exact Prepare.swaps_pure (.keep t fun j hj => Field.inline.inj hj ▸ hq) rfl
    · intro n ctx hctx
      obtain ⟨hindex, hctx'⟩ := hctx.record fun hfamily => hentry hfamily ctx
      have hrun : ((· ++ t) <$> inline i).run ctx =
          (family.holderText (ctx.record family (entry ctx)).1 ++ t,
            (ctx.record family (entry ctx)).2) := by
        rw [StateT.run_map, hstep]
        rfl
      exact ⟨_, _, .hold i family t hindex, hrun, hctx'⟩

/-- What a pass does with the tokens of a template: it goes into the start tags, and it copies all
    else or puts tokens in the place of calls. -/
structure Prepare.Passes (q : Inline → Prop) (inline : Inline → Prepare Text)
    (token : Token → Prepare Text) : Prop where
  startTag (tag : StartTag) : token (.startTag tag) = mapTag inline tag
  directive (span : Text) : token (.inline (.directive span)) = pure span
  markup (m : Text) : token (.markup m) = pure m
  call (c : MacroCall) : q (.call c) ∧ token (.inline (.call c)) = pure c.source ∨
    ∃ entry : Context → Text, ∀ ctx, (token (.inline (.call c))).run ctx =
      (record .macroCall (entry ctx) MacroToken.ofIndex).run ctx

namespace Stretch

variable {token : Token → Prepare Text}

/-- A pass over a stretch. -/
theorem swaps_segment (hpasses : Prepare.Passes q inline token) {x : Stretch} (hx : x.Fits bound)
    (hinline : ∀ i, (Field.inline i).Fits bound → Prepare.Holds q i (inline i)) :
    Prepare.Swaps (Context.Open options bound) weight text (Becomes bound q) x
      (Prepare.render id token [x.segment]) := by
  have hplain (t : Text) : Prepare.render id token [.plain t] = pure t := by
    rw [Prepare.render_plain_cons, Prepare.render_nil, map_pure]
    exact congrArg pure (List.append_nil t)
  have htoken (a : Token) : Prepare.render id token [.token a] = token a := by
    rw [Prepare.render_token_cons, Prepare.render_nil]
    simp
  cases x with
  | run t =>
    rw [segment, hplain]
    exact Prepare.swaps_pure (.run t) rfl
  | token n =>
    rw [segment, hplain]
    exact Prepare.swaps_pure (.token n) rfl
  | directive span =>
    rw [segment, htoken, hpasses.directive]
    exact Prepare.swaps_pure (.directive span) rfl
  | markup m =>
    rw [segment, htoken, hpasses.markup]
    exact Prepare.swaps_pure (.markup m) rfl
  | call c =>
    rw [segment, htoken]
    rcases hpasses.call c with ⟨hq, hstep⟩ | ⟨entry, hstep⟩
    · rw [hstep]
      exact Prepare.swaps_pure (.call hq) rfl
    · intro n ctx hctx
      have hctx' : Context.Open options bound n (ctx.record .macroCall (entry ctx)).2 :=
        (hctx.record fun hfamily => absurd rfl hfamily).2
      exact ⟨.token (ctx.record .macroCall (entry ctx)).1, _, .replace c _, hstep ctx, hctx'⟩
  | tag name lead fields =>
    rw [segment, htoken, hpasses.startTag, Prepare.mapTag, Prepare.render_prepend,
      Prepare.render_join, Prepare.render_plain_cons]
    have hfields : Prepare.Swaps (Context.Open options bound) (Prepare.total Field.weight)
        Field.textAll (List.Forall₂ (Field.Becomes bound q)) fields
        (Prepare.render id inline (Field.pieces fields)) :=
      Prepare.swaps_render fun x hx' =>
        Field.swaps_render fun i hi => hinline i (hi ▸ (hx.each x hx').1)
    intro n ctx hctx
    obtain ⟨fields', ctx', hfields', hrun, hctx'⟩ := hfields n ctx hctx
    refine ⟨_, ctx', .tag name lead hfields', ?_, hctx'⟩
    rw [StateT.run_map, StateT.run_map, hrun]
    rfl

/-- A pass over a layout. -/
theorem swaps_segments (hpasses : Prepare.Passes q inline token) {xs : List Stretch}
    (hfits : ∀ x ∈ xs, x.Fits bound)
    (hinline : ∀ i, (Field.inline i).Fits bound → Prepare.Holds q i (inline i)) :
    Prepare.Swaps (Context.Open options bound) (Prepare.total weight) textAll
      (List.Forall₂ (Becomes bound q)) xs
      (Prepare.render id token (Piece.join (xs.map segment))) := by
  rw [Prepare.render_join, List.map_eq_flatMap]
  exact Prepare.swaps_render fun x hx => swaps_segment hpasses (hfits x hx) hinline

end Stretch

end Pass

/-! ## What a pass leaves -/

/-- `Forall₂` has a partner for each member. -/
theorem Prepare.exists_of_forall₂ {α : Type} {R : α → α → Prop} {xs ys : List α} {y : α}
    (h : List.Forall₂ R xs ys) (hy : y ∈ ys) : ∃ x ∈ xs, R x y := by
  induction h with
  | nil => cases hy
  | @cons x z xs ys hx hxs ih =>
    rcases List.mem_cons.1 hy with rfl | hmem
    · exact ⟨x, List.mem_cons_self, hx⟩
    · obtain ⟨w, hw, hR⟩ := ih hmem
      exact ⟨w, List.mem_cons_of_mem x hw, hR⟩

/-- `areOrderly` holds of what fields become. -/
theorem Field.areOrderly_of_becomes {bound : Nat} {q : Inline → Prop} {settles : Text → Bool}
    {t : Text} {fields fields' : List (Field × Text)}
    (h : List.Forall₂ (Field.Becomes bound q) fields fields')
    (horderly : areOrderly settles t fields = true) : areOrderly settles t fields' = true := by
  induction h generalizing settles t with
  | nil => exact horderly
  | @cons x y fields fields' hx hfields ih =>
    obtain ⟨f, u⟩ := x
    obtain ⟨hcalm, hheld, hrest⟩ := areOrderly_cons_iff.1 horderly
    cases hx with
    | keep _ hq => exact areOrderly_cons_iff.2 ⟨hcalm, hheld, ih hrest⟩
    | hold i family _ hn => exact areOrderly_cons_iff.2 ⟨hcalm, rfl, ih hrest⟩

namespace Stretch

variable {bound : Nat} {q p : Inline → Prop} {x y : Stretch} {xs ys : List Stretch}

namespace Becomes

theorem flow (h : Becomes bound q x y) : y.flow = x.flow := by
  cases h <;> rfl

theorem isRun (h : Becomes bound q x y) : y.isRun = x.isRun := by
  cases h <;> rfl

/-- `Becomes` keeps `Fits`. -/
theorem fits (h : Becomes bound q x y) (hx : x.Fits bound) : y.Fits bound := by
  cases h with
  | tag name lead hfields =>
    refine ⟨hx.named, hx.ends, Field.areOrderly_of_becomes hfields hx.orderly, hx.free, ?_⟩
    intro y hy
    obtain ⟨x, hmem, hbecomes⟩ := Prepare.exists_of_forall₂ hfields hy
    have hfits := hx.each x hmem
    cases hbecomes with
    | keep t hq => exact hfits
    | hold i f t hn => exact ⟨hn, hfits.2⟩
  | replace c n => trivial
  | run | directive | call | token | markup => exact hx

/-- What is left satisfies what the pass has left it for. -/
theorem leaves (h : Becomes bound q x y) : y.Leaves q := by
  cases h with
  | tag name lead hfields =>
    intro y hy i hi
    obtain ⟨x, -, hbecomes⟩ := Prepare.exists_of_forall₂ hfields hy
    cases hbecomes with
    | keep t hq => exact hq i hi
    | hold j f t hn => cases hi
  | call hq => exact hq
  | run | directive | replace | token | markup => trivial

/-- `Becomes` keeps `Leaves`. -/
theorem leaves_of_leaves (h : Becomes bound q x y) (hx : x.Leaves p) : y.Leaves p := by
  cases h with
  | tag name lead hfields =>
    intro y hy i hi
    obtain ⟨x, hmem, hbecomes⟩ := Prepare.exists_of_forall₂ hfields hy
    cases hbecomes with
    | keep t hq => exact hx _ hmem i hi
    | hold j f t hn => cases hi
  | call hq => exact hx
  | run | directive | replace | token | markup => trivial

end Becomes

/-- A pass leaves a stage where it finds one. -/
theorem Stage.of_becomes (h : Stage bound xs) (hys : List.Forall₂ (Becomes bound q) xs ys) :
    Stage bound ys := by
  have hflow : xs.map flow = ys.map flow := by
    rw [← List.forall₂_eq_eq_eq, List.forall₂_map_left_iff, List.forall₂_map_right_iff]
    exact hys.imp fun _ _ hy => hy.flow.symm
  have hisRun : xs.map isRun = ys.map isRun := by
    rw [← List.forall₂_eq_eq_eq, List.forall₂_map_left_iff, List.forall₂_map_right_iff]
    exact hys.imp fun _ _ hy => hy.isRun.symm
  refine ⟨fun y hy => ?_, hflow ▸ h.flowing, hisRun ▸ h.apart⟩
  obtain ⟨x, hx, hbecomes⟩ := Prepare.exists_of_forall₂ hys hy
  exact hbecomes.fits (h.fits x hx)

end Stretch

/-! ## The passes that record -/

namespace Prepare

variable {bound : Nat} {xs : List Stretch}

/-- The directive is none that `select` picks. -/
def Unpicked (select : Text → Option (Family × Text)) (i : Inline) : Prop :=
  ∀ span, i = .directive span → select span = none

/-- `substituteCalls` replaces all calls of a template. -/
theorem swaps_substituteCalls (options : Options) {source : Text}
    (hfits : ∀ x ∈ Stretch.ofSource source, x.Fits bound) :
    Swaps (Context.Open options bound) (total Stretch.weight) Stretch.textAll
      (List.Forall₂ (Stretch.Becomes bound fun i => ∃ span, i = .directive span))
      (Stretch.ofSource source) (substituteCalls source) := by
  have hsegments : segments source = Piece.join ((Stretch.ofSource source).map Stretch.segment) := by
    rw [Stretch.map_segment_ofSource, segments, Piece.join_scan]
  rw [substituteCalls, hsegments]
  refine Stretch.swaps_segments ⟨fun _ => rfl, fun _ => rfl, fun _ => rfl, fun c => ?_⟩ hfits ?_
  · exact .inr ⟨fun ctx => ctx.renderCall c, fun _ => rfl⟩
  · intro i _
    cases i with
    | directive span => exact .inl ⟨⟨span, rfl⟩, rfl⟩
    | call c =>
      exact .inr ⟨.macroCall, fun ctx => ctx.renderCall c, fun h => absurd rfl h, fun _ => rfl⟩

/-- `mapTags` replaces the directives that `select` picks in the tags of a layout without calls. -/
theorem swaps_mapTags (options : Options) {select : Text → Option (Family × Text)}
    (h : Stretch.Stage bound xs) (hcalls : ∀ x ∈ xs, x.Leaves fun i => ∃ span, i = .directive span)
    (hselect : ∀ span family entry, select span = some (family, entry) →
      Text.Free strayMarks span → Text.Free strayMarks entry) :
    Swaps (Context.Open options bound) (total Stretch.weight) Stretch.textAll
      (List.Forall₂ (Stretch.Becomes bound (Unpicked select))) xs
      (mapTags (holding select) (Stretch.textAll xs)) := by
  rw [mapTags, h.segments_textAll hcalls]
  refine Stretch.swaps_segments ⟨fun _ => rfl, fun _ => rfl, fun _ => rfl, fun c => ?_⟩ h.fits ?_
  · exact .inl ⟨fun span hspan => (by cases hspan), rfl⟩
  · intro i hi
    cases i with
    | call c => exact .inl ⟨fun span hspan => (by cases hspan), rfl⟩
    | directive span =>
      cases hpick : select span with
      | none =>
        refine .inl ⟨fun u hu => Inline.directive.inj hu ▸ hpick, ?_⟩
        rw [holding, hpick]
        rfl
      | some found =>
        obtain ⟨family, entry⟩ := found
        refine .inr ⟨family, fun _ => entry, fun _ _ => hselect span family entry hpick hi.1, ?_⟩
        intro ctx
        rw [holding, hpick]

end Prepare

namespace AttributeDirective

variable {span entry : Text} {family : Family}

/-- The entry that `pickCondition` picks holds no mark. -/
theorem free_of_pickCondition (h : pickCondition span = some (family, entry))
    (hspan : Text.Free strayMarks span) : Text.Free strayMarks entry := by
  unfold pickCondition at h
  split at h
  · next condition hclassify =>
    obtain ⟨-, rfl⟩ := Prod.mk.inj (Option.some.inj h)
    exact hspan.of_infix (infix_of_mem_captures hclassify List.mem_cons_self)
  · cases h

/-- The entry that `pickValue` picks holds no mark. -/
theorem free_of_pickValue (h : pickValue span = some (family, entry))
    (hspan : Text.Free strayMarks span) : Text.Free strayMarks entry := by
  simp only [pickValue, Option.bind_eq_some_iff, Option.map_eq_some_iff, Prod.mk.injEq] at h
  obtain ⟨d, hclassify, f, -, value, hvalue, -, rfl⟩ := h
  exact free_value? Document.apart_strayMarks hvalue fun e he =>
    hspan.of_infix (infix_of_mem_captures hclassify he)

/-- A directive that neither pass picks is none in attribute position. -/
theorem classify?_eq_none_of_unpicked (hcondition : pickCondition span = none)
    (hvalue : pickValue span = none) : classify? span = none := by
  cases h : classify? span with
  | none => rfl
  | some d => cases d <;> simp [pickCondition, pickValue, h, family?, value?] at hcondition hvalue

end AttributeDirective

/-! ## The wrapper -/

namespace Stretch

/-- The start tag of the wrapper. -/
def wrapper : Stretch := tag Inheritance.wrapperName ['>'] []

/-- The end tag of the wrapper. -/
def closing : Stretch := markup Inheritance.closeTag

theorem fits_wrapper (bound : Nat) : wrapper.Fits bound :=
  ⟨⟨'t', "wig-use".toList, rfl, rfl, List.all_eq_true.1 rfl⟩,
    fun _ hd => Option.some.inj hd ▸ rfl, rfl, by decide, by simp⟩

theorem fits_closing (bound : Nat) : closing.Fits bound := by
  have hclosed : Token.IsClosed ("</twig-use".toList ++ ['>']) :=
    .other rfl (by decide) (by decide) (.inl ⟨'t', "wig-use".toList, rfl, rfl⟩)
  exact ⟨hclosed, by decide, by decide⟩

variable {bound n : Nat} {options : Options} {ctx : Context} {x y : Stretch}
  {front back xs : List Stretch}

/-- One stretch of a stage is replaced by another. -/
theorem Stage.replace (h : Stage bound (front ++ x :: back)) (hy : y.Fits bound)
    (hrun : y.isRun = x.isRun) (hflowing : Flow.Flowing strayMarks ((front ++ y :: back).map flow)) :
    Stage bound (front ++ y :: back) := by
  refine ⟨fun z hz => ?_, hflowing, ?_⟩
  · rcases List.mem_append.1 hz with hz | hz
    · exact h.fits z (List.mem_append_left _ hz)
    · rcases List.mem_cons.1 hz with rfl | hz
      · exact hy
      · exact h.fits z (List.mem_append_right _ (List.mem_cons_of_mem x hz))
  · have hmap : (front ++ y :: back).map isRun = (front ++ x :: back).map isRun := by
      simp [hrun]
    rw [hmap]
    exact h.apart

/-- A `::use …::` may turn into the start tag of the wrapper. -/
theorem Stage.wrap {span parent : Text} (h : Stage bound (front ++ directive span :: back))
    (hspan : Directive.classify span = .inherit parent) : Stage bound (front ++ wrapper :: back) := by
  refine h.replace (fits_wrapper bound) rfl ?_
  have hflow : (directive span).flow = .directive false := by
    rw [flow, hspan]
    rfl
  have hflowing := h.flowing
  rw [List.map_append, List.map_cons, hflow] at hflowing
  rw [List.map_append, List.map_cons]
  exact hflowing.stop_of_directive

/-- An `::end::` may turn into the end tag of the wrapper. -/
theorem Stage.unwrap {span : Text} (h : Stage bound (front ++ directive span :: back))
    (hspan : Directive.classify span = .endBlock) : Stage bound (front ++ closing :: back) := by
  refine h.replace (fits_closing bound) rfl ?_
  have hflow : (directive span).flow = .directive true := by
    rw [flow, hspan]
    rfl
  have hflowing := h.flowing
  rw [List.map_append, List.map_cons, hflow] at hflowing
  rw [List.map_append, List.map_cons]
  exact hflowing.gap_of_end

/-- The end tag of the wrapper may stand at the end. -/
theorem Stage.concat_closing (h : Stage bound xs) : Stage bound (xs ++ [closing]) := by
  refine ⟨fun z hz => ?_, ?_, ?_⟩
  · rcases List.mem_append.1 hz with hz | hz
    · exact h.fits z hz
    · rw [List.mem_singleton.1 hz]
      exact fits_closing bound
  · rw [List.map_append]
    exact h.flowing.concat_gap Document.nil_not_mem_strayMarks
  · rw [List.map_append, List.map_singleton, List.isChain_append]
    refine ⟨h.apart, .singleton _, fun a _ b hb _ => ?_⟩
    rw [← Option.some.inj hb]
    rfl

/-- A directive among the joined segments of a layout is one of its stretches. -/
theorem exists_of_join_segment {span : Text} {before after : List Segment}
    (h : Piece.join (xs.map segment) = before ++ .token (.inline (.directive span)) :: after) :
    ∃ front back, xs = front ++ directive span :: back ∧
      Piece.join (front.map segment) = before ∧ Piece.join (back.map segment) = after := by
  obtain ⟨ps, qs, hmap, hbefore⟩ := Piece.exists_of_join_eq h
  rw [hmap, Piece.join_append_token, hbefore] at h
  obtain ⟨front, more, rfl, rfl, hmore⟩ := List.map_eq_append_iff.1 hmap
  obtain ⟨x, back, rfl, hx, rfl⟩ := List.map_eq_cons_iff.1 hmore
  have hback := (List.cons.inj (List.append_cancel_left h)).2
  -- Of all stretches only a directive is seen as one.
  cases x with
  | directive u =>
    obtain rfl : u = span := by
      injection hx with hx
      injection hx with hx
      exact Inline.directive.inj hx
    exact ⟨front, back, rfl, hbefore, hback⟩
  | call c => injection hx with hx; injection hx with hx; cases hx
  | run t | token i | tag name lead fields | markup m => cases hx

/-- What `substituteInheritance` makes of a layout: it leaves it as it is, or turns a `::use …::`
    into the start tag of the wrapper and puts the end tag in the place of an `::end::` or at the
    end. -/
theorem substituteInheritance_cases
    (hsegments : segments (textAll xs) = Piece.join (xs.map segment)) (ctx : Context) :
    (substituteInheritance (textAll xs)).run ctx = (textAll xs, ctx) ∨
    ∃ front span parent back, xs = front ++ directive span :: back ∧
      Directive.classify span = .inherit parent ∧
      let path := TemplatePath.swapExtension parent ctx.options.sourceExtension
        ctx.options.targetExtension
      (substituteInheritance (textAll xs)).run ctx =
          (textAll (front ++ wrapper :: back ++ [closing]),
            { ctx with parent := some path }.warn .unclosedInheritance) ∨
        ∃ content u rest, back = content ++ directive u :: rest ∧
          Directive.classify u = .endBlock ∧
          (substituteInheritance (textAll xs)).run ctx =
            (textAll (front ++ wrapper :: content ++ closing :: rest),
              { ctx with parent := some path }) := by
  have htext (zs : List Stretch) :
      Piece.renderAll Token.source (Piece.join (zs.map segment)) = textAll zs := by
    rw [Piece.renderAll_join, renderAll_segment]
  have hwrapper : wrapper.text = Inheritance.openTag := rfl
  have hclosing : closing.text = Inheritance.closeTag := rfl
  rw [substituteInheritance, hsegments]
  cases hfirst : Inheritance.first? (Piece.join (xs.map segment)) with
  | none => exact .inl rfl
  | some found =>
    obtain ⟨before, parent, after⟩ := found
    obtain ⟨span, hspan, hbefore⟩ := Inheritance.exists_of_first? hfirst
    obtain ⟨front, back, rfl, rfl, rfl⟩ := exists_of_join_segment hbefore
    refine .inr ⟨front, span, parent, back, rfl, hspan, ?_⟩
    cases hlast : Inheritance.lastEnd? (Piece.join (back.map segment)) with
    | none =>
      refine .inl ?_
      have hout : textAll (front ++ wrapper :: back ++ [closing]) =
          Piece.renderAll Token.source (Piece.join (front.map segment)) ++ Inheritance.openTag ++
            Piece.renderAll Token.source (Piece.join (back.map segment)) ++ Inheritance.closeTag := by
        rw [htext, htext]
        simp [hwrapper, hclosing]
      rw [hout]
      dsimp only
      rw [hlast]
      rfl
    | some found =>
      obtain ⟨middle, last⟩ := found
      obtain ⟨u, hu, hmiddle⟩ := Inheritance.exists_of_lastEnd? hlast
      obtain ⟨content, rest, rfl, rfl, rfl⟩ := exists_of_join_segment hmiddle
      refine .inr ⟨content, u, rest, rfl, hu, ?_⟩
      have hout : textAll (front ++ wrapper :: content ++ closing :: rest) =
          Piece.renderAll Token.source (Piece.join (front.map segment)) ++ Inheritance.openTag ++
            Piece.renderAll Token.source (Piece.join (content.map segment)) ++
            Inheritance.closeTag ++ Piece.renderAll Token.source (Piece.join (rest.map segment)) := by
        rw [htext, htext, htext]
        simp [hwrapper, hclosing]
      rw [hout]
      dsimp only
      rw [hlast]
      rfl

/-- `substituteInheritance` leaves a stage with the constructs that it has found. -/
theorem Stage.exists_substituteInheritance (h : Stage bound xs)
    (hcalls : ∀ x ∈ xs, x.Leaves fun i => ∃ span, i = .directive span)
    (hctx : Context.Open options bound (n + Prepare.total weight xs) ctx)
    (htarget : Text.Free strayMarks options.targetExtension) :
    ∃ ys ctx', Stage bound ys ∧ (∀ y ∈ ys, y ∈ xs ∨ ∀ p, y.Leaves p) ∧
      (substituteInheritance (textAll xs)).run ctx = (textAll ys, ctx') ∧
      Context.Open options bound (n + Prepare.total weight ys) ctx' := by
  rcases substituteInheritance_cases (h.segments_textAll hcalls) ctx with
    hrun | ⟨front, span, parent, back, rfl, hspan, hrun⟩
  · exact ⟨xs, ctx, h, fun y hy => .inl hy, hrun, hctx⟩
  · have hpath : Text.Free strayMarks (TemplatePath.swapExtension parent ctx.options.sourceExtension
        ctx.options.targetExtension) := by
      have hfree : Text.Free strayMarks span := (h.fits (directive span) (by simp)).1
      have hparent : parent ∈ (Directive.classify span).captures := by simp [hspan, Directive.captures]
      rw [hctx.options]
      exact TemplatePath.free_swapExtension Document.apart_strayMarks
        (hfree.of_infix (Directive.infix_of_mem_captures hparent)) htarget
    have hopen := hctx.inherit hpath
    have hwrapper (p : Inline → Prop) : wrapper.Leaves p := fun x hx => (by cases hx)
    have hclosing (p : Inline → Prop) : closing.Leaves p := trivial
    rcases hrun with hrun | ⟨content, u, rest, rfl, hu, hrun⟩
    · -- Without an end the wrapper ends where the template does.
      refine ⟨_, _, (h.wrap hspan).concat_closing, fun y hy => ?_, hrun, ?_⟩
      · simp only [List.mem_append, List.mem_cons, List.not_mem_nil, or_false] at hy ⊢
        rcases hy with (hy | rfl | hy) | rfl
        · exact .inl (.inl hy)
        · exact .inr hwrapper
        · exact .inl (.inr (.inr hy))
        · exact .inr hclosing
      · refine (hopen.warn _).mono ?_
        simp [Prepare.total_append, Prepare.total, weight, wrapper, closing]
    · have hwrapped := h.wrap hspan
      rw [← List.cons_append, ← List.append_assoc] at hwrapped
      refine ⟨_, _, hwrapped.unwrap hu, fun y hy => ?_, hrun, ?_⟩
      · simp only [List.mem_append, List.mem_cons] at hy ⊢
        rcases hy with (hy | rfl | hy) | rfl | hy
        · exact .inl (.inl hy)
        · exact .inr hwrapper
        · exact .inl (.inr (.inr (.inl hy)))
        · exact .inr hclosing
        · exact .inl (.inr (.inr (.inr (.inr hy))))
      · refine hopen.mono ?_
        simp [Prepare.total_append, Prepare.total, weight, wrapper, closing]

end Stretch

end TemploTwig
