import Mathlib.Data.List.Forall2
import TemploTwig.Proofs.Markup.Drafts

/-!
# Drafts whose directives are held

The passes that replace directives run one after the other, and each numbers what it records.
Between the passes the template is the markup of the draft, with some of its directives held by
placeholders whose entries are in the tables.  Entries are only added, so a placeholder keeps its
meaning through all later passes.
-/

namespace TemploTwig

variable {slots : List Slot} {s : Slot} {a : Attribute} {ctx : Context}

/-! ## What is recorded for a directive -/

namespace Insertion

/-- Is the directive a condition? -/
def isCond : Insertion → Bool
  | cond _ => true
  | _ => false

/-- The family of the directive's placeholder. -/
def family : Insertion → Family
  | cond _ => .condition
  | className _ _ => .className
  | checked _ => .checked
  | selected _ => .selected

/-- What is recorded for the directive. -/
def entry : Insertion → Text
  | cond e => e.text
  | className c v => Twig.printSpaced (c.text ++ " ? \"".toList ++ v.text ++ "\" : \"\"".toList)
  | checked c => Twig.printSpaced c.text
  | selected c => Twig.printSpaced c.text

theorem isSlot_slot (d : Insertion) : d.slot.IsSlot :=
  ⟨rfl, _, (d.keyword.pair d.argument).isClearBody.toIsBody, rfl⟩

/-- `select` picks the directives for which `p` holds. -/
def PickedBy (select : Text → Option (Family × Text)) (p : Insertion → Bool) : Prop :=
  ∀ d : Insertion, select d.source = if p d then some (d.family, d.entry) else none

theorem pickedBy_pickCondition : PickedBy AttributeDirective.pickCondition isCond := by
  intro d
  rw [AttributeDirective.pickCondition, d.classify?_source]
  cases d <;> rfl

theorem pickedBy_pickValue : PickedBy AttributeDirective.pickValue (fun d => !d.isCond) := by
  intro d
  rw [AttributeDirective.pickValue, d.classify?_source]
  cases d <;> rfl

end Insertion

namespace Tables

/-- Record directives, in their order. -/
def recordAll (ds : List Insertion) (t : Tables) : Tables :=
  ds.foldl (fun t d => t.record d.family d.entry) t

theorem recordAll_append (ds es : List Insertion) (t : Tables) :
    t.recordAll (ds ++ es) = (t.recordAll ds).recordAll es :=
  List.foldl_append

/-- `record` adds an entry at the end. -/
theorem entries_prefix_record (t : Tables) (f g : Family) (entry : Text) :
    t.entries g <+: (t.record f entry).entries g := by
  by_cases h : g = f
  · subst h
    rw [entries_record_self]
    exact List.prefix_append _ _
  · exact ⟨[], by rw [List.append_nil, entries_record_of_ne h]⟩

/-- `recordAll` adds entries at the end. -/
theorem entries_prefix_recordAll (ds : List Insertion) (t : Tables) (f : Family) :
    t.entries f <+: (t.recordAll ds).entries f := by
  induction ds generalizing t with
  | nil => exact List.prefix_rfl
  | cons d ds ih => exact (t.entries_prefix_record d.family f d.entry).trans (ih _)

/-- `record` adds at most one entry to a family. -/
theorem length_entries_record_le (t : Tables) (f g : Family) (entry : Text) :
    ((t.record f entry).entries g).length ≤ (t.entries g).length + 1 := by
  by_cases h : g = f
  · subst h
    have hlength := congrArg List.length (t.entries_record_self g entry)
    rw [List.length_append, List.length_singleton] at hlength
    omega
  · rw [entries_record_of_ne h]
    exact Nat.le_succ _

/-- `recordAll` adds at most one entry for each directive. -/
theorem length_entries_recordAll_le (ds : List Insertion) (t : Tables) (f : Family) :
    ((t.recordAll ds).entries f).length ≤ (t.entries f).length + ds.length := by
  induction ds generalizing t with
  | nil => exact Nat.le_refl _
  | cons d ds ih =>
    have hrest := ih (t.record d.family d.entry)
    have hfirst := t.length_entries_record_le d.family f d.entry
    have hcons : t.recordAll (d :: ds) = (t.record d.family d.entry).recordAll ds := rfl
    rw [hcons, List.length_cons]
    omega

end Tables

/-- Record directives in the state. -/
def Context.recordAll (ds : List Insertion) (ctx : Context) : Context :=
  { ctx with tables := ctx.tables.recordAll ds }

theorem Context.recordAll_append (ds es : List Insertion) (ctx : Context) :
    ctx.recordAll (ds ++ es) = (ctx.recordAll ds).recordAll es := by
  simp only [recordAll, Tables.recordAll_append]

/-! ## Trees that show a draft -/

namespace Slot

/-- If an attribute stands in the slot, `A` holds of it. -/
def Holds (A : Attribute → Prop) : Slot → Prop
  | .plain a => A a
  | .directive _ => True

/-- `Holds` slot by slot. -/
theorem forall_holds {A : Attribute → Prop} (h : ∀ a ∈ slots.filterMap attribute?, A a) :
    ∀ s ∈ slots, s.Holds A := by
  intro s hs
  cases s with
  | plain a => exact h a (List.mem_filterMap.2 ⟨_, hs, rfl⟩)
  | directive d => trivial

/-- What stands in the slot once the directives in `held` are held by placeholders. -/
def Shows (held : Insertion → Bool) (tables : Tables) : Slot → Attribute → Prop
  | .plain a, b => b = a
  | .directive d, b =>
    if held d then
      ∃ index, (tables.entries d.family)[index]? = some d.entry ∧ b = d.family.holderAttribute index
    else b = d.slot

end Slot

namespace Draft

mutual

/-- The node is that of the draft, with the directives in `held` held by placeholders. -/
def Shows (held : Insertion → Bool) (tables : Tables) : Draft → Node → Prop
  | .text content, n => n = .text content
  | .raw source, n => n = .raw source
  | .element name slots form children, n =>
    ∃ attributes nodes, n = .element ⟨name, attributes, form⟩ nodes ∧
      List.Forall₂ (Slot.Shows held tables) slots attributes ∧ ShowsAll held tables children nodes

/-- The nodes are those of the drafts, with the directives in `held` held by placeholders. -/
def ShowsAll (held : Insertion → Bool) (tables : Tables) : List Draft → List Node → Prop
  | [], ns => ns = []
  | d :: ds, ns => ∃ m ms, ns = m :: ms ∧ Shows held tables d m ∧ ShowsAll held tables ds ms

end

variable {held : Insertion → Bool} {tables : Tables}

mutual

/-- A draft `Shows` as it is written as long as nothing is held. -/
theorem shows_written : (d : Draft) → d.Shows (fun _ => false) tables d.written
  | .text _ => rfl
  | .raw _ => rfl
  | .element name slots form children => by
    refine ⟨slots.map Slot.written, writtenAll children, rfl, ?_, showsAll_writtenAll children⟩
    rw [List.forall₂_map_right_iff, List.forall₂_same]
    intro s _
    cases s with
    | plain a => rfl
    | directive d => rfl

/-- Drafts `ShowsAll` as they are written as long as nothing is held. -/
theorem showsAll_writtenAll :
    (ds : List Draft) → ShowsAll (fun _ => false) tables ds (writtenAll ds)
  | [] => rfl
  | d :: ds => ⟨written d, writtenAll ds, rfl, shows_written d, showsAll_writtenAll ds⟩

end

end Draft

/-! ## Later entries change nothing -/

/-- No entry is lost, and none gets another index. -/
def Tables.Extends (t t' : Tables) : Prop := ∀ f, t.entries f <+: t'.entries f

/-- `Extends` keeps every entry at its index. -/
theorem Tables.Extends.getElem?_entries {t t' : Tables} (h : t.Extends t') {f : Family}
    {index : Nat} {entry : Text} (hentry : (t.entries f)[index]? = some entry) :
    (t'.entries f)[index]? = some entry := by
  obtain ⟨hlt, rfl⟩ := List.getElem?_eq_some_iff.1 hentry
  exact List.prefix_iff_getElem?.1 (h f) index hlt

theorem Context.extends_recordAll (ds : List Insertion) (ctx : Context) :
    ctx.tables.Extends (ctx.recordAll ds).tables :=
  ctx.tables.entries_prefix_recordAll ds

section Extension

variable {held : Insertion → Bool} {t t' : Tables}

/-- What a slot `Shows` stays so with more entries. -/
theorem Slot.Shows.mono (ht : t.Extends t') (h : s.Shows held t a) : s.Shows held t' a := by
  cases s with
  | plain b => exact h
  | directive d =>
    rw [Slot.Shows] at h ⊢
    split at h
    · next hheld =>
      obtain ⟨index, hentry, rfl⟩ := h
      rw [if_pos hheld]
      exact ⟨index, ht.getElem?_entries hentry, rfl⟩
    · next hheld =>
      rw [if_neg hheld]
      exact h

namespace Draft

mutual

/-- What a draft `Shows` stays so with more entries. -/
theorem Shows.mono (ht : t.Extends t') :
    (d : Draft) → {n : Node} → d.Shows held t n → d.Shows held t' n
  | .text _, _, h => h
  | .raw _, _, h => h
  | .element _ _ _ children, _, ⟨attributes, nodes, hn, hslots, hchildren⟩ =>
    ⟨attributes, nodes, hn, hslots.imp fun _ _ => Slot.Shows.mono ht,
      ShowsAll.mono ht children hchildren⟩

theorem ShowsAll.mono (ht : t.Extends t') :
    (ds : List Draft) → {ns : List Node} → ShowsAll held t ds ns → ShowsAll held t' ds ns
  | [], _, h => h
  | d :: ds, _, ⟨m, ms, hns, hm, hms⟩ => ⟨m, ms, hns, Shows.mono ht d hm, ShowsAll.mono ht ds hms⟩

end

end Draft

end Extension

/-! ## One pass -/

theorem Prepare.run_bind_of_run {α β : Type} {x : Prepare α} {ctx' : Context} {a : α}
    (h : x.run ctx = (a, ctx')) (f : α → Prepare β) : (x >>= f).run ctx = (f a).run ctx' := by
  rw [StateT.run_bind, h]
  rfl

section Pass

variable {select : Text → Option (Family × Text)} {held p : Insertion → Bool}

/-- `hold` leaves the attributes of a start tag, and holds the directives that `select` picks. -/
theorem Slot.run_hold (hpick : Insertion.PickedBy select p)
    (hnew : ∀ d, held d = true → p d = false) (hs : s.Holds Attribute.IsCanonical)
    (h : s.Shows held ctx.tables a) :
    ∃ b, (Prepare.hold select a).run ctx = (b, ctx.recordAll (s.insertions.filter p)) ∧
      s.Shows (fun d => held d || p d) (ctx.recordAll (s.insertions.filter p)).tables b := by
  cases s with
  | plain a' =>
    obtain rfl : a = a' := h
    exact ⟨a, by rw [Prepare.hold_of_isCanonical hs]; rfl, rfl⟩
  | directive d =>
    simp only [Slot.Shows, Slot.insertions, List.filter_cons, List.filter_nil] at h ⊢
    cases hheld : held d with
    | true =>
      -- What an earlier pass holds is an attribute for this one.
      rw [hheld, if_pos rfl] at h
      obtain ⟨index, hentry, rfl⟩ := h
      have hcanonical := d.family.isCanonical_holderAttribute index
      rw [hnew d hheld]
      exact ⟨_, by rw [Prepare.hold_of_isCanonical hcanonical]; rfl, index, hentry, rfl⟩
    | false =>
      rw [hheld, if_neg (by simp)] at h
      obtain rfl := h
      have hselect : select d.slot.name = if p d then some (d.family, d.entry) else none := hpick d
      rw [Prepare.hold, d.isSlot_slot.isDirective_eq, if_pos rfl, hselect]
      cases p d with
      | true =>
        -- The index is the number of entries before, and there the new entry stands.
        refine ⟨d.family.holderAttribute (ctx.tables.entries d.family).length, rfl, _, ?_, rfl⟩
        show ((ctx.tables.record d.family d.entry).entries d.family)[_]? = _
        rw [Tables.entries_record_self, List.getElem?_concat_length]
      | false => exact ⟨d.slot, rfl, rfl⟩

/-- `hold` over all slots of a tag. -/
theorem Slot.run_mapM_hold (hpick : Insertion.PickedBy select p)
    (hnew : ∀ d, held d = true → p d = false) (hslots : ∀ s ∈ slots, s.Holds Attribute.IsCanonical)
    {attributes : List Attribute} (h : List.Forall₂ (Slot.Shows held ctx.tables) slots attributes) :
    ∃ bs, (attributes.mapM (Prepare.hold select)).run ctx =
        (bs, ctx.recordAll ((slots.flatMap insertions).filter p)) ∧
      List.Forall₂ (Slot.Shows (fun d => held d || p d)
        (ctx.recordAll ((slots.flatMap insertions).filter p)).tables) slots bs := by
  induction slots generalizing attributes ctx with
  | nil =>
    obtain rfl := List.forall₂_nil_left_iff.1 h
    exact ⟨[], rfl, .nil⟩
  | cons s slots ih =>
    obtain ⟨a, as, ha, has, rfl⟩ := List.forall₂_cons_left_iff.1 h
    obtain ⟨b, hb, hshows⟩ := Slot.run_hold hpick hnew (hslots s List.mem_cons_self) ha
    -- The other slots show the same in the tables that the first one leaves.
    obtain ⟨bs, hbs, hrest⟩ := ih (fun s hs => hslots s (List.mem_cons_of_mem _ hs))
      (has.imp fun _ _ => Slot.Shows.mono (ctx.extends_recordAll (s.insertions.filter p)))
    rw [List.flatMap_cons, List.filter_append, Context.recordAll_append]
    refine ⟨b :: bs, ?_, .cons (hshows.mono (Context.extends_recordAll _ _)) hrest⟩
    rw [List.mapM_cons, Prepare.run_bind_of_run hb, Prepare.run_bind_of_run hbs]
    rfl

namespace Draft

mutual

/-- `mapAttributes` of `hold` records the directives of a draft, which then `Shows` them held. -/
theorem run_mapAttributes (hpick : Insertion.PickedBy select p)
    (hnew : ∀ d, held d = true → p d = false) :
    (d : Draft) → {owner after : Text} → d.plain.Canonical Attribute.IsCanonical owner after →
      {n : Node} → {ctx : Context} → d.Shows held ctx.tables n →
      ∃ m, (n.mapAttributes (Prepare.hold select)).run ctx =
          (m, ctx.recordAll (d.insertions.filter p)) ∧
        d.Shows (fun d => held d || p d) (ctx.recordAll (d.insertions.filter p)).tables m
  | .text content, _, _, _, _, _, h => by
    obtain rfl := h
    exact ⟨.text content, rfl, rfl⟩
  | .raw source, _, _, _, _, _, h => by
    obtain rfl := h
    exact ⟨.raw source, rfl, rfl⟩
  | .element name slots form children, _, _, hd, _, ctx, h => by
    obtain ⟨htag, -, hcanonical⟩ := hd
    obtain ⟨attributes, nodes, rfl, hslots, hchildren⟩ := h
    obtain ⟨bs, hbs, hshows⟩ :=
      Slot.run_mapM_hold hpick hnew (Slot.forall_holds htag.attributes) hslots
    -- The children come behind the tag, so they show the same in the tables that it leaves, and
    -- the tag shows the same in those that they leave.
    have hearlier := ctx.extends_recordAll ((slots.flatMap Slot.insertions).filter p)
    obtain ⟨ms, hms, hrest⟩ := run_mapAttributesAll hpick hnew children hcanonical
      (ShowsAll.mono hearlier children hchildren)
    rw [insertions, List.filter_append, Context.recordAll_append]
    refine ⟨.element ⟨name, bs, form⟩ ms, ?_, bs, ms, rfl,
      hshows.imp fun _ _ => Slot.Shows.mono (Context.extends_recordAll _ _), hrest⟩
    rw [Node.mapAttributes, Prepare.run_bind_of_run hbs, Prepare.run_bind_of_run hms]
    rfl

/-- `mapAttributesAll` of `hold` records directives in document order, and the drafts then
    `ShowsAll` of them held. -/
theorem run_mapAttributesAll (hpick : Insertion.PickedBy select p)
    (hnew : ∀ d, held d = true → p d = false) :
    (ds : List Draft) → {owner after : Text} →
      Node.CanonicalAll Attribute.IsCanonical owner after (plainAll ds) →
      {ns : List Node} → {ctx : Context} → ShowsAll held ctx.tables ds ns →
      ∃ ms, (Node.mapAttributesAll (Prepare.hold select) ns).run ctx =
          (ms, ctx.recordAll ((insertionsAll ds).filter p)) ∧
        ShowsAll (fun d => held d || p d)
          (ctx.recordAll ((insertionsAll ds).filter p)).tables ds ms
  | [], _, _, _, _, _, h => by
    obtain rfl := h
    exact ⟨[], rfl, rfl⟩
  | d :: ds, _, _, hds, _, ctx, h => by
    obtain ⟨n, ns, rfl, hn, hns⟩ := h
    obtain ⟨m, hm, hshows⟩ := run_mapAttributes hpick hnew d hds.1 hn
    -- What is recorded later keeps the indices of what is there.
    have hearlier := ctx.extends_recordAll (d.insertions.filter p)
    obtain ⟨ms, hms, hrest⟩ := run_mapAttributesAll hpick hnew ds hds.2.2.2
      (ShowsAll.mono hearlier ds hns)
    rw [insertionsAll, List.filter_append, Context.recordAll_append]
    refine ⟨m :: ms, ?_, m, ms, rfl, Shows.mono (Context.extends_recordAll _ _) d hshows, hrest⟩
    rw [Node.mapAttributesAll, Prepare.run_bind_of_run hm, Prepare.run_bind_of_run hms]
    rfl

end

end Draft

end Pass

/-! ## Still in one reading -/

/-- Text without two colons in a row `IsCanonicalText` in front of any markup. -/
theorem IsCanonicalText.of_no_delimiter {content after : Text} (h : IsCanonicalText content after)
    (hdelimiter : ¬Span.delimiter <:+: content) {qs : List Segment} (hqs : BeginsMarkup qs) :
    IsCanonicalText content (Piece.renderAll Token.source qs) := by
  have hhead : (Piece.renderAll Token.source qs).head? ≠ some ':' := fun hcolon =>
    absurd (hqs.head?_renderAll hcolon) (by decide)
  refine ⟨h.ne_nil, h.no_dollar, h.no_stand_in, h.no_markup, h.no_inherit, ?_⟩
  rw [Span.scan_of_no_delimiter hdelimiter h.ne_nil]
  exact ⟨Span.declines_of_no_delimiter hdelimiter hhead, trivial⟩

section Canonical

variable {held : Insertion → Bool} {tables : Tables} {A : Attribute → Prop}

/-- What a slot `Shows` is canonical, unless it is a directive that is not held yet. -/
theorem Slot.Shows.isCanonical_or (hs : s.Holds Attribute.IsCanonical) (h : s.Shows held tables a) :
    a.IsCanonical ∨ ∃ d, held d = false ∧ a = d.slot := by
  cases s with
  | plain b =>
    obtain rfl : a = b := h
    exact .inl hs
  | directive d =>
    rw [Slot.Shows] at h
    split at h
    · obtain ⟨index, -, rfl⟩ := h
      exact .inl (d.family.isCanonical_holderAttribute index)
    · next hheld => exact .inr ⟨d, by simpa using hheld, h⟩

theorem Slot.Shows.isCanonical_or_isSlot (hs : s.Holds Attribute.IsCanonical)
    (h : s.Shows held tables a) : a.IsCanonical ∨ a.IsSlot := by
  rcases h.isCanonical_or hs with hcanonical | ⟨d, -, rfl⟩
  · exact .inl hcanonical
  · exact .inr d.isSlot_slot

theorem Slot.Shows.isCanonical (hs : s.Holds Attribute.IsCanonical)
    (h : s.Shows (fun _ => true) tables a) : a.IsCanonical := by
  rcases h.isCanonical_or hs with hcanonical | ⟨d, hheld, -⟩
  · exact hcanonical
  · cases hheld

/-- What slots `Shows`, one by one. -/
theorem Slot.forall_of_shows
    (hA : ∀ {s : Slot} {a : Attribute}, s.Holds Attribute.IsCanonical →
      s.Shows held tables a → A a) {attributes : List Attribute}
    (hslots : ∀ s ∈ slots, s.Holds Attribute.IsCanonical)
    (h : List.Forall₂ (Slot.Shows held tables) slots attributes) : ∀ a ∈ attributes, A a := by
  induction h with
  | nil => intro a ha; cases ha
  | cons hs _ ih =>
    intro a ha
    rcases List.mem_cons.1 ha with rfl | ha
    · exact hA (hslots _ List.mem_cons_self) hs
    · exact ih (fun s hs => hslots s (List.mem_cons_of_mem _ hs)) a ha

namespace Draft

/-- A draft and what it `Shows` are alike text. -/
theorem Shows.isText_eq {d : Draft} {n : Node} (h : d.Shows held tables n) :
    n.isText = d.plain.isText := by
  cases d with
  | text content => rw [h]; rfl
  | raw source => rw [h]; rfl
  | element name slots form children =>
    obtain ⟨attributes, nodes, rfl, -⟩ := h
    rfl

/-- A draft and what it `Shows` are alike unclosed. -/
theorem Shows.isUnclosed_eq {d : Draft} {n : Node} (h : d.Shows held tables n) :
    n.isUnclosed = d.plain.isUnclosed := by
  cases d with
  | text content => rw [h]; rfl
  | raw source => rw [h]; rfl
  | element name slots form children =>
    obtain ⟨attributes, nodes, rfl, -⟩ := h
    rfl

theorem ShowsAll.eq_nil_of_plainAll {ds : List Draft} {ns : List Node}
    (h : ShowsAll held tables ds ns) (hds : plainAll ds = []) : ns = [] := by
  cases ds with
  | nil => exact h
  | cons d ds => cases hds

/-- Drafts and what they show alike start with text. -/
theorem ShowsAll.startsWithText_eq {ds : List Draft} {ns : List Node}
    (h : ShowsAll held tables ds ns) :
    Node.startsWithText ns = Node.startsWithText (plainAll ds) := by
  cases ds with
  | nil => rw [h]; rfl
  | cons d ds =>
    obtain ⟨n, ns, rfl, hn, -⟩ := h
    exact hn.isText_eq

mutual

/-- What a canonical draft `Shows` is canonical. -/
theorem canonical_of_shows
    (hA : ∀ {s : Slot} {a : Attribute}, s.Holds Attribute.IsCanonical →
      s.Shows held tables a → A a) :
    (d : Draft) → {owner after : Text} → d.plain.Canonical Attribute.IsCanonical owner after →
      d.Unmarked → {n : Node} → d.Shows held tables n → {qs : List Segment} →
      (n.isText = true ∨ n.isUnclosed = true → BeginsMarkup qs) →
      n.Canonical A owner (Piece.renderAll Token.source qs)
  | .text content, _, _, hd, hmarks, _, h, _, hqs => by
    obtain rfl := h
    exact hd.of_no_delimiter (Text.contains_eq_false_iff.1 hmarks.1) (hqs (.inl rfl))
  | .raw source, _, _, hd, _, _, h, _, _ => by
    obtain rfl := h
    exact hd
  | .element name slots form children, owner, _, hd, hmarks, _, h, qs, hqs => by
    obtain ⟨htag, hform, hchildren⟩ := hd
    obtain ⟨attributes, nodes, rfl, hslots, hnodes⟩ := h
    have hattributes : ∀ a ∈ attributes, A a :=
      Slot.forall_of_shows hA (Slot.forall_holds htag.attributes) hslots
    have hempty : form = .void ∨ form = .selfClosing → nodes = [] := fun hchildless =>
      hnodes.eq_nil_of_plainAll (htag.children hchildless)
    refine ⟨⟨htag.name, hattributes, htag.of_isVoid, htag.of_not_isVoid, hempty⟩, hform, ?_⟩
    have hend := Tag.renderAll_endSegments ⟨name, attributes, form⟩
    -- Void and self-closing elements have no children to look at.
    cases hshows : Tag.showsChildren ⟨name, attributes, form⟩ with
    | false =>
      rw [hempty (Tag.childless_of_showsChildren _ hshows)]
      trivial
    | true =>
      rw [← hend, ← Piece.renderAll_append]
      refine canonicalAll_of_showsAll hA children hchildren hmarks.2 hnodes ?_
      refine Tag.beginsMarkup_endSegments _ fun hne => hqs (.inr ?_)
      simpa [Node.isUnclosed, Tag.showsChildren, hne] using hshows

/-- What drafts of a canonical tree show is canonical, whatever is held. -/
theorem canonicalAll_of_showsAll
    (hA : ∀ {s : Slot} {a : Attribute}, s.Holds Attribute.IsCanonical →
      s.Shows held tables a → A a) :
    (ds : List Draft) → {owner after : Text} →
      Node.CanonicalAll Attribute.IsCanonical owner after (plainAll ds) → UnmarkedAll ds →
      {ns : List Node} → ShowsAll held tables ds ns → {qs : List Segment} → BeginsMarkup qs →
      Node.CanonicalAll A owner (Piece.renderAll Token.source qs) ns
  | [], _, _, _, _, _, h, _, _ => by
    rw [h]
    trivial
  | d :: ds, _, _, hds, hmarks, _, h, qs, hqs => by
    obtain ⟨hd, htext, hunclosed, hds⟩ := hds
    obtain ⟨n, ns, rfl, hn, hns⟩ := h
    -- What follows a text is markup, whichever attributes it holds.
    have hrest := canonicalAll_of_showsAll hA ds hds hmarks.2 hns hqs
    have htext : n.isText = true → Node.startsWithText ns = false := by
      rw [hn.isText_eq, hns.startsWithText_eq]
      exact htext
    have hunclosed : n.isUnclosed = true → ns = [] := by
      rw [hn.isUnclosed_eq]
      exact fun h => hns.eq_nil_of_plainAll (hunclosed h)
    refine ⟨?_, htext, hunclosed, hrest⟩
    rw [← Node.renderAll_segmentsAll, ← Piece.renderAll_append]
    refine canonical_of_shows hA d hd hmarks.1 hn ?_
    rintro (h | h)
    · exact Node.beginsMarkup_segmentsAll hrest (htext h) hqs
    · rw [hunclosed h]
      exact hqs

end

end Draft

end Canonical

end TemploTwig
