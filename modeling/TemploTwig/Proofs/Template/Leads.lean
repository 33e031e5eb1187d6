import TemploTwig.Proofs.Markup.Transcript
import TemploTwig.Proofs.Template.Assembled
import TemploTwig.Proofs.Template.Calls

/-!
# What stands in front of a place in a tree

On the way to an element, in document order, a tree shows the start tags of the elements around it
and whole nodes beside them: the *leads* to the element.  They can be printed and converted on their
own, and say which part of a document is written before the content of the element.
-/

namespace TemploTwig

/-- A part of what stands in front of a place in a tree. -/
inductive Lead where
  /-- The start tag of an element around the place. -/
  | start (tag : Tag)
  /-- A node that ends before the place. -/
  | node (n : Node)

namespace Lead

/-- The markup of a lead. -/
def text : Lead → Text
  | start tag => tag.startText
  | node n => n.source

/-- The markup of leads. -/
def textAll (ls : List Lead) : Text := ls.flatMap text

theorem textAll_cons (l : Lead) (ls : List Lead) : textAll (l :: ls) = l.text ++ textAll ls :=
  List.flatMap_cons

/-- Does the lead hold a call? -/
def calls : Lead → Bool
  | start tag => tag.attributes.any Attribute.isCall
  | node n => n.calls

/-- The text stands where the lead is printed. -/
def Mentions (t : Text) : Lead → Prop
  | start tag => ∃ a ∈ tag.attributes, t <:+: a.text
  | node n => n.Mentions t

/-- The innermost element that the leads go into. -/
def owner? : List Lead → Option Tag
  | [] => none
  | start tag :: ls => (owner? ls).or (some tag)
  | node _ :: ls => owner? ls

/-- `owner?` passes over nodes. -/
theorem owner?_append_nodes (ns : List Node) (ls : List Lead) :
    owner? (ns.map node ++ ls) = owner? ls := by
  induction ns with
  | nil => rfl
  | cons n ns ih => exact ih

end Lead

namespace Node

mutual

/-- The leads to the first element of a node, itself included, whose tag passes the test. -/
def leads? (test : Tag → Bool) : Node → Option (List Lead)
  | element tag children =>
    if test tag then some [.start tag] else (leadsIn? test children).map (.start tag :: ·)
  | text _ => none
  | raw _ => none

/-- The leads to the first element in a list of nodes whose tag passes the test. -/
def leadsIn? (test : Tag → Bool) : List Node → Option (List Lead)
  | [] => none
  | n :: ns => (leads? test n).or ((leadsIn? test ns).map (.node n :: ·))

end

theorem leadsIn?_append (test : Tag → Bool) (ns ms : List Node) :
    leadsIn? test (ns ++ ms) =
      (leadsIn? test ns).or ((leadsIn? test ms).map (ns.map .node ++ ·)) := by
  induction ns with
  | nil => simp [leadsIn?]
  | cons n ns ih =>
    rw [List.cons_append, leadsIn?, leadsIn?, ih, Option.map_or, Option.or_assoc, Option.map_map]
    rfl

theorem mentionsIn_iff {t : Text} {ns : List Node} :
    MentionsIn t ns ↔ ∃ n ∈ ns, n.Mentions t := by
  induction ns with
  | nil => simp [MentionsIn]
  | cons n ns ih => simp [MentionsIn, ih]

mutual

/-- `leads?` holds parts of the node only. -/
theorem forall_mem_leads? {test : Tag → Bool} {P : Node → Prop} {Q : Tag → Prop}
    (h : ∀ {tag children}, P (.element tag children) → Q tag ∧ ∀ n ∈ children, P n) :
    (n : Node) → P n → ∀ {ls : List Lead}, leads? test n = some ls →
      (∀ n, .node n ∈ ls → P n) ∧ ∀ tag, .start tag ∈ ls → Q tag
  | .element tag children, hn, ls, hls => by
    obtain ⟨htag, hchildren⟩ := h hn
    rw [leads?] at hls
    split at hls
    · obtain rfl := Option.some.inj hls
      simpa using htag
    · obtain ⟨ls', hls', rfl⟩ := Option.map_eq_some_iff.1 hls
      obtain ⟨hnodes, htags⟩ := forall_mem_leadsIn? h children hchildren hls'
      refine ⟨fun n hmem => hnodes n (by simpa using hmem), fun tag' hmem => ?_⟩
      rcases List.mem_cons.1 hmem with heq | hmem
      · rw [Lead.start.inj heq]
        exact htag
      · exact htags tag' hmem
  | .text _, _, _, hls => by cases hls
  | .raw _, _, _, hls => by cases hls

/-- What holds of the nodes of a tree and of their children holds of the leads. -/
theorem forall_mem_leadsIn? {test : Tag → Bool} {P : Node → Prop} {Q : Tag → Prop}
    (h : ∀ {tag children}, P (.element tag children) → Q tag ∧ ∀ n ∈ children, P n) :
    (ns : List Node) → (∀ n ∈ ns, P n) → ∀ {ls : List Lead}, leadsIn? test ns = some ls →
      (∀ n, .node n ∈ ls → P n) ∧ ∀ tag, .start tag ∈ ls → Q tag
  | [], _, _, hls => by cases hls
  | n :: ns, hns, ls, hls => by
    obtain ⟨hn, hns⟩ := List.forall_mem_cons.1 hns
    rw [leadsIn?] at hls
    rcases Option.or_eq_some_iff.1 hls with hls | ⟨-, hls⟩
    · exact forall_mem_leads? h n hn hls
    · obtain ⟨ls', hls', rfl⟩ := Option.map_eq_some_iff.1 hls
      obtain ⟨hnodes, htags⟩ := forall_mem_leadsIn? h ns hns hls'
      refine ⟨fun n' hmem => ?_, fun tag hmem => htags tag (by simpa using hmem)⟩
      rcases List.mem_cons.1 hmem with heq | hmem
      · rw [Lead.node.inj heq]
        exact hn
      · exact hnodes n' hmem

end

mutual

/-- `leads?` go into the element that `find?` finds. -/
theorem find?_of_leads? (test : Tag → Bool) : (n : Node) →
    (leads? test n = none → find? test n = none) ∧ ∀ ls, leads? test n = some ls →
      ∃ e, find? test n = some e ∧ test e.tag = true ∧ Lead.owner? ls = some e.tag
  | .element tag children => by
    obtain ⟨hnone, hsome⟩ := findIn?_of_leadsIn? test children
    rw [leads?, find?]
    cases htag : test tag with
    | true => exact ⟨fun h => (by cases h), fun ls h => ⟨_, rfl, htag, (Option.some.inj h) ▸ rfl⟩⟩
    | false =>
      refine ⟨fun h => hnone (Option.map_eq_none_iff.1 h), fun ls h => ?_⟩
      obtain ⟨ls', hls', rfl⟩ := Option.map_eq_some_iff.1 h
      obtain ⟨e, he, htest, howner⟩ := hsome ls' hls'
      exact ⟨e, he, htest, by rw [Lead.owner?, howner, Option.some_or]⟩
  | .text _ | .raw _ => ⟨fun _ => rfl, fun _ h => (by cases h)⟩

/-- `leadsIn?` go into the element that `findIn?` finds. -/
theorem findIn?_of_leadsIn? (test : Tag → Bool) : (ns : List Node) →
    (leadsIn? test ns = none → findIn? test ns = none) ∧ ∀ ls, leadsIn? test ns = some ls →
      ∃ e, findIn? test ns = some e ∧ test e.tag = true ∧ Lead.owner? ls = some e.tag
  | [] => ⟨fun _ => rfl, fun _ h => (by cases h)⟩
  | n :: ns => by
    obtain ⟨hnone, hsome⟩ := find?_of_leads? test n
    obtain ⟨hnone', hsome'⟩ := findIn?_of_leadsIn? test ns
    rw [leadsIn?, findIn?]
    cases hn : leads? test n with
    | some ls =>
      obtain ⟨e, he, hfound⟩ := hsome ls hn
      rw [he]
      exact ⟨fun h => (by cases h), fun ls' h => ⟨e, rfl, Option.some.inj h ▸ hfound⟩⟩
    | none =>
      rw [hnone hn, Option.none_or, Option.none_or]
      refine ⟨fun h => hnone' (Option.map_eq_none_iff.1 h), fun ls h => ?_⟩
      obtain ⟨ls', hls', rfl⟩ := Option.map_eq_some_iff.1 h
      exact hsome' ls' hls'

end

/-- `firstElement?` finds the first element in document order. -/
theorem firstElement?_eq_findIn? (ns : List Node) :
    firstElement? ns = findIn? (fun _ => true) ns := by
  induction ns with
  | nil => rfl
  | cons n ns ih =>
    cases n with
    | element tag children => rfl
    | text _ | raw _ => exact ih

/-! ## What replacing an element keeps -/

section Replace

variable {test : Tag → Bool} {new : Element → List Node} {ns ms : List Node}

theorem replaceFirstIn?_cons_eq_none_iff {n : Node} :
    replaceFirstIn? test new (n :: ns) = none ↔
      replaceFirst? test new n = none ∧ replaceFirstIn? test new ns = none := by
  rw [replaceFirstIn?]
  cases replaceFirst? test new n with
  | none => simp
  | some front => simp

theorem replaceFirst?_element_eq_none_iff {tag : Tag} {children : List Node} :
    replaceFirst? test new (.element tag children) = none ↔
      test tag = false ∧ replaceFirstIn? test new children = none := by
  rw [replaceFirst?]
  cases test tag with
  | true => simp
  | false => simp

/-- A tree that is shown as a whole still is when an element is replaced. -/
theorem ShownIn.replaced (h : ShownIn ns)
    (hnew : ∀ {tag children}, ShownIn children → ShownIn (new ⟨tag, children⟩))
    (hms : Replaced test new ns ms) : ShownIn ms := by
  induction hms with
  | here _ children ns =>
    rw [ShownIn, Shown] at h
    exact shownIn_append_iff.2 ⟨hnew h.1.2, h.2⟩
  | inside _ hin ns ih =>
    rw [ShownIn, Shown] at h ⊢
    refine ⟨⟨fun hhides => ?_, ih h.1.2⟩, h.2⟩
    -- An element that hides its children has none, so nothing is replaced in it.
    rw [h.1.1 hhides] at hin
    cases hin
  | later _ _ ih => exact ⟨h.1, ih h.2⟩

variable {t : Text}

/-- What a tree mentions is still mentioned when an element is replaced, if what it is replaced by
    mentions what the element did. -/
theorem MentionsIn.replaced {keeps : Tag → Prop} (h : MentionsIn t ns)
    (hkeeps : EveryIn (fun _ => True) (fun _ => True) keeps ns)
    (hnew : ∀ {tag children}, keeps tag → test tag = true → Mentions t (.element tag children) →
      MentionsIn t (new ⟨tag, children⟩))
    (hms : Replaced test new ns ms) : MentionsIn t ms := by
  induction hms with
  | here htag children ns =>
    rw [everyIn_cons_iff, every_element_iff] at hkeeps
    exact mentionsIn_append_iff.2 (h.imp_left (hnew hkeeps.1.1 htag))
  | inside _ _ ns ih =>
    rw [everyIn_cons_iff, every_element_iff] at hkeeps
    rw [MentionsIn, Mentions] at h ⊢
    exact h.imp_left (Or.imp_right fun hin => ⟨hin.1, ih hin.2 hkeeps.1.2⟩)
  | later _ _ ih =>
    rw [everyIn_cons_iff] at hkeeps
    rw [MentionsIn] at h ⊢
    exact h.imp_right fun hns => ih hns hkeeps.2

/-- In a tree that is shown as a whole, what an element is replaced by is shown. -/
theorem mentionsIn_of_replaced (hshown : ShownIn ns) (hnew : ∀ e, MentionsIn t (new e))
    (hms : Replaced test new ns ms) : MentionsIn t ms := by
  induction hms with
  | here _ children ns => exact mentionsIn_append_iff.2 (.inl (hnew _))
  | @inside tag _ _ _ hin ns ih =>
    rw [ShownIn, Shown] at hshown
    refine .inl (.inr ⟨?_, ih hshown.1.2⟩)
    cases hshows : tag.showsChildren with
    | true => rfl
    | false =>
      rw [hshown.1.1 hshows] at hin
      cases hin
  | later _ _ ih => exact .inr (ih hshown.2)

end Replace

/-! ## Putting a text behind leads -/

/-- The second list is the first one with a text put in behind the leads. -/
inductive GainsAt (t : Text) : List Lead → List Node → List Node → Prop
  | here (ns : List Node) : GainsAt t [] ns (.text t :: ns)
  | later (n : Node) {ls : List Lead} {ns ms : List Node} (h : GainsAt t ls ns ms) :
    GainsAt t (.node n :: ls) (n :: ns) (n :: ms)
  | inside (tag : Tag) (ns : List Node) {ls : List Lead} {cs ds : List Node}
    (h : GainsAt t ls cs ds) :
    GainsAt t (.start tag :: ls) (.element tag cs :: ns) (.element tag ds :: ns)

namespace GainsAt

variable {t : Text} {ls : List Lead} {ns ms : List Node}

theorem append_left (h : GainsAt t ls ns ms) (front : List Node) :
    GainsAt t (front.map .node ++ ls) (front ++ ns) (front ++ ms) := by
  induction front with
  | nil => exact h
  | cons n front ih => exact ih.later n

theorem append_right (h : GainsAt t ls ns ms) (back : List Node) :
    GainsAt t ls (ns ++ back) (ms ++ back) := by
  induction h with
  | here ns => exact .here (ns ++ back)
  | later n _ ih => exact ih.later n
  | inside tag ns h _ => exact h.inside tag (ns ++ back)

/-- The text is printed right behind the leads, unless its owner does not write its children. -/
theorem exists_sourceAll (h : GainsAt t ls ns ms) (hshown : ShownIn ns) :
    if (Lead.owner? ls).all Tag.showsChildren then
      ∃ back, sourceAll ns = Lead.textAll ls ++ back ∧
        sourceAll ms = Lead.textAll ls ++ (t ++ back)
    else sourceAll ms = sourceAll ns := by
  induction h with
  | here ns => exact ⟨sourceAll ns, rfl, rfl⟩
  | later n h ih =>
    have ih := ih hshown.2
    rw [Lead.owner?]
    split at ih
    · next hall =>
      obtain ⟨back, hns, hms⟩ := ih
      rw [if_pos hall]
      refine ⟨back, ?_, ?_⟩
      · rw [sourceAll, hns, Lead.textAll_cons, List.append_assoc]; rfl
      · rw [sourceAll, hms, Lead.textAll_cons, List.append_assoc]; rfl
    · next hall => rw [if_neg hall, sourceAll, sourceAll, ih]
  | @inside tag ns ls cs ds h ih =>
    have hchildren := hshown.1
    rw [Shown] at hchildren
    cases hshows : tag.showsChildren with
    | true =>
      have howner : (Lead.owner? (.start tag :: ls)).all Tag.showsChildren =
          (Lead.owner? ls).all Tag.showsChildren := by
        rw [Lead.owner?]
        cases Lead.owner? ls with
        | none => exact hshows
        | some _ => rfl
      have ih := ih hchildren.2
      rw [howner]
      split at ih
      · next hall =>
        obtain ⟨back, hcs, hds⟩ := ih
        rw [if_pos hall]
        refine ⟨back ++ tag.endText ++ sourceAll ns, ?_, ?_⟩
        · rw [sourceAll, source, if_pos hshows, hcs, Lead.textAll_cons, Lead.text]
          simp only [List.append_assoc]
        · rw [sourceAll, source, if_pos hshows, hds, Lead.textAll_cons, Lead.text]
          simp only [List.append_assoc]
      · next hall =>
        rw [if_neg hall]
        simp [sourceAll, source, ih]
    | false =>
      -- The element has no children, so it is the owner itself.
      rw [hchildren.1 hshows] at h
      cases h with
      | here => simp [Lead.owner?, sourceAll, source, hshows]

/-- If no placeholder is left with the text, none is left without it. -/
theorem nodesPlaceholder?_eq_none (h : GainsAt t ls ns ms) (hms : nodesPlaceholder? ms = none) :
    nodesPlaceholder? ns = none := by
  induction h with
  | here ns =>
    rw [nodesPlaceholder?, Option.or_eq_none_iff] at hms
    exact hms.2
  | later n h ih =>
    rw [nodesPlaceholder?, Option.or_eq_none_iff] at hms ⊢
    exact ⟨hms.1, ih hms.2⟩
  | inside tag ns h ih =>
    rw [nodesPlaceholder?, Option.or_eq_none_iff, nodePlaceholder?, Option.or_eq_none_iff] at hms ⊢
    exact ⟨⟨hms.1.1, ih hms.1.2⟩, hms.2⟩

/-- Nothing that the tree mentions is lost. -/
theorem mentionsIn (h : GainsAt t ls ns ms) {s : Text} (hns : MentionsIn s ns) :
    MentionsIn s ms := by
  induction h with
  | here ns => exact .inr hns
  | later n h ih =>
    rw [MentionsIn] at hns ⊢
    exact hns.imp_right ih
  | inside tag ns h ih =>
    rw [MentionsIn, Mentions] at hns ⊢
    exact hns.imp_left (Or.imp_right fun hchildren => ⟨hchildren.1, ih hchildren.2⟩)

end GainsAt

section Placing

variable {test : Tag → Bool} {new : Element → List Node}

mutual

theorem replaceFirst?_eq_none_iff : (n : Node) →
    (replaceFirst? test new n = none ↔ leads? test n = none)
  | .element tag children => by
    rw [replaceFirst?_element_eq_none_iff, replaceFirstIn?_eq_none_iff children, leads?]
    cases test tag <;> simp
  | .text _ | .raw _ => by simp [replaceFirst?, leads?]

/-- An element is replaced where there are leads to one. -/
theorem replaceFirstIn?_eq_none_iff : (ns : List Node) →
    (replaceFirstIn? test new ns = none ↔ leadsIn? test ns = none)
  | [] => by simp [replaceFirstIn?, leadsIn?]
  | n :: ns => by
    rw [replaceFirstIn?_cons_eq_none_iff, replaceFirst?_eq_none_iff n,
      replaceFirstIn?_eq_none_iff ns, leadsIn?]
    simp

end

variable {t : Text}

mutual

/-- `replaceFirst?` puts the text behind its leads. -/
theorem gainsAt_replaceFirst? : (n : Node) → ∀ {ls : List Lead}, leads? test n = some ls → ∃ ms,
    replaceFirst? test (fun e => [(e.prependChild (.text t)).toNode]) n = some ms ∧
      GainsAt t ls [n] ms
  | .element tag children, ls, hls => by
    rw [leads?] at hls
    rw [replaceFirst?]
    split at hls
    · next htag =>
      obtain rfl := Option.some.inj hls
      exact ⟨_, if_pos htag, .inside tag [] (.here children)⟩
    · next htag =>
      obtain ⟨ls', hls', rfl⟩ := Option.map_eq_some_iff.1 hls
      obtain ⟨children', hchildren, hgains⟩ := gainsAt_replaceFirstIn? children hls'
      rw [if_neg htag, hchildren]
      exact ⟨_, rfl, hgains.inside tag []⟩
  | .text _, _, h => by cases h
  | .raw _, _, h => by cases h

/-- A text that is put into the first element that passes a test stands behind the leads to it. -/
theorem gainsAt_replaceFirstIn? : (ns : List Node) → ∀ {ls : List Lead},
    leadsIn? test ns = some ls → ∃ ms,
      replaceFirstIn? test (fun e => [(e.prependChild (.text t)).toNode]) ns = some ms ∧
        GainsAt t ls ns ms
  | [], _, h => by cases h
  | n :: ns, ls, hls => by
    rw [leadsIn?] at hls
    rw [replaceFirstIn?]
    cases hleads : leads? test n with
    | some ls' =>
      obtain ⟨front, hfront, hgains⟩ := gainsAt_replaceFirst? n hleads
      rw [hleads, Option.some_or] at hls
      rw [hfront, ← Option.some.inj hls]
      exact ⟨_, rfl, hgains.append_right ns⟩
    | none =>
      rw [hleads, Option.none_or] at hls
      obtain ⟨ls', hls', rfl⟩ := Option.map_eq_some_iff.1 hls
      obtain ⟨ms, hms, hgains⟩ := gainsAt_replaceFirstIn? ns hls'
      rw [(replaceFirst?_eq_none_iff n).2 hleads, hms]
      exact ⟨_, rfl, hgains.later n⟩

end

/-- The first element of a list is the first one in document order. -/
theorem modifyFirstElement?_eq_replaceFirstIn? (f : Element → Element) (ns : List Node) :
    modifyFirstElement? f ns = replaceFirstIn? (fun _ => true) (fun e => [(f e).toNode]) ns := by
  induction ns with
  | nil => rfl
  | cons n ns ih =>
    cases n with
    | element tag children => rfl
    | text _ | raw _ => exact congrArg (Option.map _) ih

end Placing

/-! ## Replacing an element by what is around and in it -/

/-- Leads with the first element that passes the test replaced: by `opening` where the leads go into
    it. -/
def replaceLeads? (test : Tag → Bool) (new : Element → List Node) (opening : List Node) :
    List Lead → Option (List Lead)
  | [] => none
  | .start tag :: ls =>
    if test tag then some (opening.map .node ++ ls)
    else (replaceLeads? test new opening ls).map (.start tag :: ·)
  | .node n :: ls =>
    match replaceFirst? test new n with
    | some ns => some (ns.map .node ++ ls)
    | none => (replaceLeads? test new opening ls).map (.node n :: ·)

namespace GainsAt

variable {t : Text} {ls : List Lead} {ns ms : List Node} {test : Tag → Bool}
  {new : Element → List Node} {opening closing : List Node}

/-- `replaceLeads?` finds nothing where the nodes have nothing. -/
theorem replaceLeads?_eq_none (h : GainsAt t ls ns ms) (opening : List Node)
    (hns : replaceFirstIn? test new ns = none) :
    replaceLeads? test new opening ls = none ∧ replaceFirstIn? test new ms = none := by
  induction h with
  | here ns => exact ⟨rfl, replaceFirstIn?_cons_eq_none_iff.2 ⟨rfl, hns⟩⟩
  | later n h ih =>
    rw [replaceFirstIn?_cons_eq_none_iff] at hns ⊢
    obtain ⟨hls, hms⟩ := ih hns.2
    exact ⟨by simp [replaceLeads?, hns.1, hls], hns.1, hms⟩
  | inside tag ns h ih =>
    rw [replaceFirstIn?_cons_eq_none_iff, replaceFirst?_element_eq_none_iff] at hns ⊢
    obtain ⟨hls, hms⟩ := ih hns.1.2
    exact ⟨by simp [replaceLeads?, hns.1.1, hls], ⟨hns.1.1, hms⟩, hns.2⟩

/-- Where no element passes the test, the owner does not pass it either. -/
theorem test_owner? (h : GainsAt t ls ns ms) (hns : replaceFirstIn? test new ns = none) :
    ∀ tag ∈ Lead.owner? ls, test tag = false := by
  induction h with
  | here ns => intro tag htag; cases htag
  | later n h ih => exact ih (replaceFirstIn?_cons_eq_none_iff.1 hns).2
  | @inside tag ns ls cs ds h ih =>
    rw [replaceFirstIn?_cons_eq_none_iff, replaceFirst?_element_eq_none_iff] at hns
    intro tag' htag'
    rw [Lead.owner?] at htag'
    cases howner : Lead.owner? ls with
    | none =>
      rw [howner] at htag'
      rw [← Option.some.inj htag']
      exact hns.1.1
    | some o =>
      rw [howner] at htag'
      exact ih hns.1.2 tag' (howner.trans htag')

/-- An element is replaced alike with the text and without it.  If it stands behind the text, the
    leads stay as they are. -/
theorem exists_replaceFirstIn? (h : GainsAt t ls ns ms)
    (hnew : ∀ e, new e = opening ++ (e.children ++ closing)) {ns' : List Node}
    (hns : replaceFirstIn? test new ns = some ns') :
    ∃ ms', replaceFirstIn? test new ms = some ms' ∧
      GainsAt t ((replaceLeads? test new opening ls).getD ls) ns' ms' := by
  induction h generalizing ns' with
  -- The text is no element, so the search goes over it.
  | here ns =>
    refine ⟨.text t :: ns', ?_, .here ns'⟩
    rw [replaceFirstIn?, replaceFirst?, hns]
    rfl
  | @later n ls ns ms h ih =>
    rw [replaceFirstIn?] at hns ⊢
    rw [replaceLeads?]
    cases hn : replaceFirst? test new n with
    | some front =>
      simp only [hn, Option.some.injEq] at hns
      exact ⟨front ++ ms, rfl, hns ▸ h.append_left front⟩
    | none =>
      simp only [hn, Option.map_eq_some_iff] at hns
      obtain ⟨rest, hrest, rfl⟩ := hns
      obtain ⟨rest', hrest', hgains⟩ := ih hrest
      refine ⟨n :: rest', by simp only [hrest', Option.map_some], ?_⟩
      have hlater := hgains.later n
      cases hls : replaceLeads? test new opening ls with
      | none | some ls' => rwa [hls] at hlater
  | @inside tag ns ls cs ds h ih =>
    rw [replaceFirstIn?, replaceFirst?] at hns ⊢
    rw [replaceLeads?]
    cases htag : test tag with
    -- The leads go into the element that is replaced, and from there on into its children.
    | true =>
      simp only [htag, if_true, Option.some.injEq, hnew] at hns ⊢
      refine ⟨_, rfl, hns ▸ ?_⟩
      exact ((h.append_right closing).append_left opening).append_right ns
    | false =>
      simp only [htag, Bool.false_eq_true, if_false] at hns ⊢
      cases hcs : replaceFirstIn? test new cs with
      | some cs' =>
        obtain ⟨ds', hds', hgains⟩ := ih hcs
        simp only [hcs, Option.map_some, Option.some.injEq] at hns
        rw [hds', ← hns]
        refine ⟨_, rfl, ?_⟩
        have hinside := hgains.inside tag ns
        cases hls : replaceLeads? test new opening ls with
        | none | some ls' => rwa [hls] at hinside
      | none =>
        simp only [hcs, Option.map_none, Option.map_eq_some_iff] at hns
        obtain ⟨rest, hrest, rfl⟩ := hns
        -- The element stands behind the text, so nothing in front of the text changes.
        obtain ⟨hls, hds⟩ := h.replaceLeads?_eq_none opening hcs
        rw [hls, hds, hrest]
        exact ⟨_, rfl, h.inside tag rest⟩

end GainsAt

/-- `replaceLeads?` keeps the owner, unless the owner is replaced. -/
theorem owner?_replaceLeads? {ls : List Lead} {test : Tag → Bool} {new : Element → List Node}
    {opening : List Node} (h : ∀ tag ∈ Lead.owner? ls, test tag = false) :
    Lead.owner? ((replaceLeads? test new opening ls).getD ls) = Lead.owner? ls := by
  induction ls with
  | nil => rfl
  | cons l ls ih =>
    have hgetD (found : Option (List Lead)) :
        (found.map (l :: ·)).getD (l :: ls) = l :: found.getD ls := by cases found <;> rfl
    cases l with
    | start tag =>
      rw [replaceLeads?]
      split
      · next htag =>
        rw [Option.getD_some, Lead.owner?_append_nodes, Lead.owner?]
        cases howner : Lead.owner? ls with
        | none =>
          have hfails := h tag (by rw [Lead.owner?, howner]; rfl)
          rw [htag] at hfails
          cases hfails
        | some o => rfl
      · have hinner (tag' : Tag) (htag' : tag' ∈ Lead.owner? ls) : test tag' = false :=
          h tag' (by rw [Lead.owner?, Option.mem_def.1 htag']; rfl)
        rw [hgetD, Lead.owner?, Lead.owner?, ih hinner]
    | node n =>
      rw [replaceLeads?]
      split
      · rw [Option.getD_some, Lead.owner?_append_nodes]
        rfl
      · rw [hgetD]
        exact ih h

/-- Where the first element is replaced, nothing is left around the text. -/
theorem owner?_replaceLeads?_first {ns : List Node} {ls : List Lead} {test : Tag → Bool}
    {new : Element → List Node} {opening : List Node}
    (hls : leadsIn? (fun _ => true) ns = some ls) (h : ∀ tag ∈ Lead.owner? ls, test tag = true) :
    Lead.owner? ((replaceLeads? test new opening ls).getD ls) = none := by
  induction ns generalizing ls with
  | nil => cases hls
  | cons n ns ih =>
    cases n with
    | element tag children =>
      obtain rfl : [.start tag] = ls := Option.some.inj hls
      rw [replaceLeads?, if_pos (h tag rfl), Option.getD_some, Lead.owner?_append_nodes]
      rfl
    | text _ | raw _ =>
      obtain ⟨ls', hls', rfl⟩ := Option.map_eq_some_iff.1 hls
      have hnone := ih hls' h
      rw [replaceLeads?, replaceFirst?]
      cases hfound : replaceLeads? test new opening ls' with
      | none | some ls => rwa [hfound] at hnone

end Node

/-! ## Converting leads -/

/-- The leads to an element inside of the statements for its conditions. -/
def guardLeads (conditions : List Text) : List Lead :=
  match conditions with
  | [] => []
  | _ => [.node (.text ((Twig.Statement.ifThen
      (conditions.intersperse " and ".toList).flatten).text ++ ['\n']))]

theorem Node.leadsIn?_wrapConditions (test : Tag → Bool) (conditions : List Text) (n : Node) :
    leadsIn? test (wrapConditions conditions n) =
      (leads? test n).map (guardLeads conditions ++ ·) := by
  cases conditions with
  | nil => simp [wrapConditions, guardLeads, leadsIn?]
  | cons c cs => simp [wrapConditions, guardLeads, leadsIn?, leads?]

/-- Convert a lead.  The statements for the conditions of an element begin in front of it. -/
def convertLead : Lead → Convert (List Lead)
  | .node n => do return (← convertNode n).map .node
  | .start tag => do
    let converted ← tag.attributes.mapM convertAttribute
    return guardLeads (Converted.conditions converted) ++
      [.start { tag with attributes := Converted.attributes converted }]

/-- Convert leads. -/
def convertLeads (ls : List Lead) : Convert (List Lead) := do
  return (← ls.mapM convertLead).flatten

namespace Convert

theorem run_convertLeads_nil (ctx : Context) :
    (convertLeads []).run.run ctx = (.ok [], ctx) := rfl

/-- `convertLeads` goes lead by lead. -/
theorem run_convertLeads_cons {l : Lead} {ls front back : List Lead} {ctx ctx₁ ctx₂ : Context}
    (hfront : (convertLead l).run.run ctx = (.ok front, ctx₁))
    (hback : (convertLeads ls).run.run ctx₁ = (.ok back, ctx₂)) :
    (convertLeads (l :: ls)).run.run ctx = (.ok (front ++ back), ctx₂) := by
  obtain ⟨backs, ctx₃, hbacks, hpure⟩ := exists_of_run_bind hback
  obtain ⟨hflatten, rfl⟩ := Prod.mk.inj hpure
  have hboth : ((l :: ls).mapM convertLead).run.run ctx = (.ok (front :: backs), ctx₃) := by
    rw [List.mapM_cons, run_bind_ok hfront, run_bind_ok hbacks]
    rfl
  rw [convertLeads, run_bind_ok hboth, ← Except.ok.inj hflatten]
  rfl

variable (test : Tag → Bool)

mutual

/-- `convertNode` converts the leads of a node. -/
theorem run_convertLeads_of_run_node
    (hname : ∀ {tag tag' : Tag}, tag'.name = tag.name → test tag' = test tag) :
    (n : Node) → ∀ {nodes : List Node} {ctx ctx' : Context},
      (convertNode n).run.run ctx = (.ok nodes, ctx') →
      (Node.leads? test n = none → Node.leadsIn? test nodes = none) ∧
      ∀ ls, Node.leads? test n = some ls → ∃ ls' ctx₁,
        (convertLeads ls).run.run ctx = (.ok ls', ctx₁) ∧ Node.leadsIn? test nodes = some ls'
  | .text content, nodes, ctx, ctx', hrun => by
    rw [convertNode] at hrun
    obtain ⟨out, ctx₁, -, hrun⟩ := exists_of_run_bind hrun
    rw [← Except.ok.inj (Prod.mk.inj hrun).1]
    exact ⟨fun _ => rfl, fun _ h => (by cases h)⟩
  | .raw source, nodes, ctx, ctx', hrun => by
    rw [convertNode] at hrun
    rw [← Except.ok.inj (Prod.mk.inj hrun).1]
    exact ⟨fun _ => rfl, fun _ h => (by cases h)⟩
  | .element tag children, nodes, ctx, ctx', hrun => by
    rw [convertNode] at hrun
    obtain ⟨converted, ctx₁, hattributes, hrun⟩ := exists_of_run_bind hrun
    obtain ⟨children', ctx₂, hchildren, hrun⟩ := exists_of_run_bind hrun
    obtain ⟨hnone, hsome⟩ := run_convertLeads_of_run hname children hchildren
    have hstart : (convertLead (.start tag)).run.run ctx =
        (.ok (guardLeads (Converted.conditions converted) ++
          [.start { tag with attributes := Converted.attributes converted }]), ctx₁) := by
      rw [convertLead, run_bind_ok hattributes]
      rfl
    -- Converting keeps the name of a tag, and the test looks at nothing else.
    have htest : test { tag with attributes := Converted.attributes converted } = test tag :=
      hname rfl
    rw [← Except.ok.inj (Prod.mk.inj hrun).1, Node.leadsIn?_wrapConditions, Node.leads?,
      Node.leads?, htest]
    cases htag : test tag with
    -- The leads end with the start tag, so the children are not converted with them.
    | true =>
      refine ⟨fun h => (by cases h), fun ls hls => ?_⟩
      obtain rfl := Option.some.inj hls
      refine ⟨_, ctx₁, run_convertLeads_cons hstart (run_convertLeads_nil ctx₁), ?_⟩
      rw [List.append_nil]
      rfl
    | false =>
      simp only [Bool.false_eq_true, if_false, Option.map_map, Option.map_eq_none_iff,
        Option.map_eq_some_iff]
      refine ⟨hnone, ?_⟩
      rintro _ ⟨ls, hls, rfl⟩
      obtain ⟨ls', ctx₃, hrun', hleads⟩ := hsome ls hls
      refine ⟨_, ctx₃, run_convertLeads_cons hstart hrun', ls', hleads, ?_⟩
      rw [List.append_assoc]
      rfl

/-- The leads of a converted tree are the converted leads, for a test that looks at names only. -/
theorem run_convertLeads_of_run
    (hname : ∀ {tag tag' : Tag}, tag'.name = tag.name → test tag' = test tag) :
    (ns : List Node) → ∀ {nodes : List Node} {ctx ctx' : Context},
      (convertNodes ns).run.run ctx = (.ok nodes, ctx') →
      (Node.leadsIn? test ns = none → Node.leadsIn? test nodes = none) ∧
      ∀ ls, Node.leadsIn? test ns = some ls → ∃ ls' ctx₁,
        (convertLeads ls).run.run ctx = (.ok ls', ctx₁) ∧ Node.leadsIn? test nodes = some ls'
  | [], nodes, ctx, ctx', hrun => by
    rw [convertNodes] at hrun
    rw [← Except.ok.inj (Prod.mk.inj hrun).1]
    exact ⟨fun _ => rfl, fun _ h => (by cases h)⟩
  | n :: ns, nodes, ctx, ctx', hrun => by
    rw [convertNodes] at hrun
    obtain ⟨front, ctx₁, hfront, hrun⟩ := exists_of_run_bind hrun
    obtain ⟨back, ctx₂, hback, hrun⟩ := exists_of_run_bind hrun
    obtain ⟨hnone, hsome⟩ := run_convertLeads_of_run_node hname n hfront
    obtain ⟨hnone', hsome'⟩ := run_convertLeads_of_run hname ns hback
    rw [← Except.ok.inj (Prod.mk.inj hrun).1, Node.leadsIn?_append, Node.leadsIn?]
    cases hleads : Node.leads? test n with
    | some ls =>
      obtain ⟨ls', ctx₃, hrun', hls'⟩ := hsome ls hleads
      rw [hls', Option.some_or, Option.some_or]
      refine ⟨fun h => (by cases h), fun ls₀ hls => ⟨ls', ctx₃, ?_, rfl⟩⟩
      rwa [← Option.some.inj hls]
    -- The first node does not hold the element, so all of it leads there.
    | none =>
      simp only [hnone hleads, Option.none_or, Option.map_eq_none_iff, Option.map_eq_some_iff]
      refine ⟨hnone', ?_⟩
      rintro _ ⟨ls, hls, rfl⟩
      obtain ⟨ls', ctx₃, hrun', hls'⟩ := hsome' ls hls
      have hnode : (convertLead (.node n)).run.run ctx = (.ok (front.map .node), ctx₁) := by
        rw [convertLead, run_bind_ok hfront]
        rfl
      exact ⟨_, ctx₃, run_convertLeads_cons hnode hrun', ls', hls', rfl⟩

end

/-! ## Calls in leads -/

section Calls

variable {filled : Prop}

/-- Converting leads notes a call exactly if they hold one.  If they do, and their texts open no
    token in vain, a call that was recorded stands where the converted leads are printed. -/
theorem putsCalls_convertLeads {ls : List Lead}
    (h : ∀ n, .node n ∈ ls → n.Shown ∧
      (filled → Node.Every Text.OpensTokens (fun _ => True) (fun _ => True) n)) :
    PutsCalls filled (ls.any Lead.calls) (fun call ls' => ∃ l ∈ ls', l.Mentions call)
      (convertLeads ls) := by
  have hlead : ∀ l ∈ ls, PutsCalls filled l.calls (fun call ls' => ∃ l ∈ ls', l.Mentions call)
      (convertLead l) := by
    intro l hl
    cases l with
    | node n =>
      refine (putsCalls_convertNode n (h n hl).1 (h n hl).2).map ?_
      intro call ns hmentions
      obtain ⟨n', hmem, hn'⟩ := Node.mentionsIn_iff.1 hmentions
      exact ⟨.node n', List.mem_map_of_mem hmem, hn'⟩
    -- Of an element that the leads go into, only the attributes count.
    | start tag =>
      have hattributes : PutsCalls filled (tag.attributes.any Attribute.isCall) _
          (tag.attributes.mapM convertAttribute) :=
        putsCalls_mapM fun a _ => putsCalls_convertAttribute a
      refine hattributes.map ?_
      rintro call converted ⟨_, hmem, kept, rfl, hcall⟩
      refine ⟨_, List.mem_append_right _ List.mem_cons_self, ?_⟩
      exact ⟨kept, mem_attributes_of_kept_mem hmem, hcall⟩
  refine (putsCalls_mapM hlead).map ?_
  rintro call fronts ⟨front, hfront, l, hl, hmentions⟩
  exact ⟨l, List.mem_flatten_of_mem hfront hl, hmentions⟩

end Calls

end Convert

theorem Lead.infix_text_of_mentions {t : Text} : {l : Lead} → l.Mentions t → t <:+: l.text
  | .start _, ⟨_, ha, ht⟩ => Node.infix_startText ha ht
  | .node n, h => Node.infix_source_of_mentions n h

theorem Lead.infix_textAll_of_mentions {t : Text} {ls : List Lead} (h : ∃ l ∈ ls, l.Mentions t) :
    t <:+: textAll ls := by
  obtain ⟨l, hl, hmentions⟩ := h
  obtain ⟨front, back, rfl⟩ := List.append_of_mem hl
  refine (infix_text_of_mentions hmentions).trans ?_
  rw [textAll, List.flatMap_append, List.flatMap_cons]
  exact ⟨_, _, List.append_assoc ..⟩

/-- What leads mention is still mentioned when an element is replaced, if what it is replaced by
    mentions what the element did and the start tag of the element mentions nothing. -/
theorem Node.mentions_replaceLeads? {t : Text} {test : Tag → Bool} {new : Element → List Node}
    {opening : List Node} {keeps : Tag → Prop}
    (hkeeps : ∀ {tag : Tag}, keeps tag → test tag = true → tag.attributes = [])
    (hnew : ∀ {tag children}, keeps tag → test tag = true → Mentions t (.element tag children) →
      MentionsIn t (new ⟨tag, children⟩)) {ls ls' : List Lead}
    (hnodes : ∀ n, .node n ∈ ls → Every (fun _ => True) (fun _ => True) keeps n)
    (htags : ∀ tag, .start tag ∈ ls → keeps tag) (h : ∃ l ∈ ls, l.Mentions t)
    (hls : replaceLeads? test new opening ls = some ls') : ∃ l ∈ ls', l.Mentions t := by
  induction ls generalizing ls' with
  | nil => cases hls
  | cons l ls ih =>
    -- The lead is replaced, or one behind it is.
    have hlater {rest : List Lead} (hrest : ∃ l' ∈ ls, l'.Mentions t)
        (hls : replaceLeads? test new opening ls = some rest) :
        ∃ l' ∈ l :: rest, l'.Mentions t := by
      obtain ⟨l', hl', hmentions⟩ := ih (fun n hn => hnodes n (List.mem_cons_of_mem _ hn))
        (fun tag htag => htags tag (List.mem_cons_of_mem _ htag)) hrest hls
      exact ⟨l', List.mem_cons_of_mem _ hl', hmentions⟩
    rw [List.exists_mem_cons_iff] at h
    cases l with
    | start tag =>
      rw [replaceLeads?] at hls
      split at hls
      · next htag =>
        obtain rfl := Option.some.inj hls
        rcases h with ⟨a, ha, -⟩ | ⟨l', hl', hmentions⟩
        · rw [hkeeps (htags tag List.mem_cons_self) htag] at ha
          cases ha
        · exact ⟨l', List.mem_append_right _ hl', hmentions⟩
      · obtain ⟨rest, hrest, rfl⟩ := Option.map_eq_some_iff.1 hls
        exact h.elim (fun htag => ⟨_, List.mem_cons_self, htag⟩) (hlater · hrest)
    | node n =>
      rw [replaceLeads?] at hls
      split at hls
      · next ns hns =>
        obtain rfl := Option.some.inj hls
        rcases h with hn | ⟨l', hl', hmentions⟩
        · have hreplaced := replaced_of_head n hns []
          rw [List.append_nil] at hreplaced
          obtain ⟨n', hn', hmentions⟩ := mentionsIn_iff.1 ((mentionsIn_singleton_iff.2 hn).replaced
            (everyIn_singleton_iff.2 (hnodes n List.mem_cons_self)) hnew hreplaced)
          exact ⟨.node n', List.mem_append_left _ (List.mem_map_of_mem hn'), hmentions⟩
        · exact ⟨l', List.mem_append_right _ hl', hmentions⟩
      · obtain ⟨rest, hrest, rfl⟩ := Option.map_eq_some_iff.1 hls
        exact h.elim (fun hn => ⟨_, List.mem_cons_self, hn⟩) (hlater · hrest)

end TemploTwig
