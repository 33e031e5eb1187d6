import TemploTwig.Conversion.Assembly
import TemploTwig.Proofs.Markup.Holders
import TemploTwig.Proofs.Placeholders.Pieces
import TemploTwig.Proofs.Placeholders.Spelling

/-!
# What a conversion promises

A promise about a step names what holds of every context on the way, of the result, and of the
error if there is one.  Promises about the parts of a conversion make one about the whole, so what
the output holds comes down to what the texts and attributes of the tree hold.

Key results: `Convert.Ensures`, `Convert.ensures_renderDirective`, `Convert.ensures_convertText`,
`Convert.ensures_convertNodes`, `Convert.ensures_completeTree`, `Convert.ensures_assemble`.
-/

namespace TemploTwig

variable {n : Node} {ns ms : List Node} {root : Element}

namespace Convert

variable {α β : Type} {inv : Context → Prop} {fails : ConvertError → Prop} {post : α → Prop}

/-- Started where `inv` holds, the step ends where it holds; a result satisfies `post` and an
    error satisfies `fails`. -/
def Ensures (inv : Context → Prop) (fails : ConvertError → Prop) (post : α → Prop)
    (x : Convert α) : Prop :=
  ∀ ctx, inv ctx → inv (x.run.run ctx).2 ∧
    (∀ a, (x.run.run ctx).1 = .ok a → post a) ∧ ∀ e, (x.run.run ctx).1 = .error e → fails e

theorem Ensures.mono {post' : α → Prop} {x : Convert α} (h : Ensures inv fails post x)
    (hpost : ∀ a, post a → post' a) : Ensures inv fails post' x := by
  intro ctx hctx
  obtain ⟨hinv, hok, herror⟩ := h ctx hctx
  exact ⟨hinv, fun a ha => hpost a (hok a ha), herror⟩

/-- What a step promises in any case comes on top. -/
theorem Ensures.and {post' : α → Prop} {x : Convert α} (h : Ensures inv fails post x)
    (h' : Ensures (fun _ => True) (fun _ => True) post' x) :
    Ensures inv fails (fun a => post a ∧ post' a) x := by
  intro ctx hctx
  obtain ⟨hinv, hok, herror⟩ := h ctx hctx
  exact ⟨hinv, fun a ha => ⟨hok a ha, (h' ctx trivial).2.1 a ha⟩, herror⟩

/-- `pure` ensures what holds of its value. -/
theorem ensures_pure {a : α} (h : post a) : Ensures inv fails post (pure a) := by
  intro ctx hctx
  refine ⟨hctx, ?_, ?_⟩
  · rintro b hb
    obtain rfl : a = b := Except.ok.inj hb
    exact h
  · intro e he
    cases he

/-- `throw` ensures what holds of its error. -/
theorem ensures_throw {e : ConvertError} (h : fails e) :
    Ensures inv fails post (throw e : Convert α) := by
  intro ctx hctx
  refine ⟨hctx, ?_, ?_⟩
  · intro a ha
    cases ha
  · intro e' he
    obtain rfl : e = e' := Except.error.inj he
    exact h

/-- `Ensures` goes through a bind. -/
theorem ensures_bind {x : Convert α} {f : α → Convert β} {post' : β → Prop}
    (hx : Ensures inv fails post x) (hf : ∀ a, post a → Ensures inv fails post' (f a)) :
    Ensures inv fails post' (x >>= f) := by
  intro ctx hctx
  obtain ⟨hinv, hok, herror⟩ := hx ctx hctx
  rcases hrun : x.run.run ctx with ⟨result, ctx'⟩
  rw [hrun] at hinv hok herror
  cases result with
  | ok a =>
    rw [run_bind_ok hrun]
    exact hf a (hok a rfl) ctx' hinv
  | error e =>
    rw [run_bind_error hrun]
    refine ⟨hinv, ?_, ?_⟩
    · intro b hb
      cases hb
    · intro e' he
      obtain rfl : e = e' := Except.error.inj he
      exact herror e rfl

/-- `Ensures` goes through `mapM`, member by member. -/
theorem ensures_mapM {γ : Type} {f : γ → Convert α} {cs : List γ} {post : γ → α → Prop}
    (h : ∀ c ∈ cs, Ensures inv fails (post c) (f c)) :
    Ensures inv fails (fun as => List.Forall₂ post cs as) (cs.mapM f) := by
  induction cs with
  | nil => exact ensures_pure .nil
  | cons c cs ih =>
    rw [List.mapM_cons]
    refine ensures_bind (h c List.mem_cons_self) fun a ha => ?_
    refine ensures_bind (ih fun c hc => h c (List.mem_cons_of_mem _ hc)) fun as has => ?_
    exact ensures_pure (.cons ha has)

theorem ensures_modify {f : Context → Context} (h : ∀ ctx, inv ctx → inv (f ctx)) :
    Ensures inv fails (fun _ => True) (modify f : Convert Unit) := by
  intro ctx hctx
  rw [run_modify]
  exact ⟨h ctx hctx, fun _ _ => trivial, fun e he => (by cases he)⟩

/-- `nesting` ensures what its change of the state does. -/
theorem ensures_nesting {f : Context → Except NestingError α × Context}
    (hinv : ∀ ctx, inv ctx → inv (f ctx).2)
    (hok : ∀ ctx a, inv ctx → (f ctx).1 = .ok a → post a)
    (hfails : ∀ e, fails (.malformedNesting e)) : Ensures inv fails post (nesting f) := by
  intro ctx hctx
  have hctx' := hinv ctx hctx
  rcases hf : f ctx with ⟨result, ctx'⟩
  rw [hf] at hctx'
  cases result with
  | ok a =>
    rw [run_nesting_ok hf]
    refine ⟨hctx', ?_, fun e he => (by cases he)⟩
    intro b hb
    obtain rfl : a = b := Except.ok.inj hb
    exact hok ctx a hctx (by rw [hf])
  | error e =>
    rw [run_nesting_error hf]
    refine ⟨hctx', fun a ha => (by cases ha), ?_⟩
    intro e' he
    rw [← Except.error.inj he]
    exact hfails e

/-- Looking up a placeholder gives its entry or fails. -/
theorem ensures_resolve {family : Family} {index : Nat} {post : Text → Prop}
    (hsome : ∀ ctx entry, inv ctx → (ctx.tables.entries family)[index]? = some entry → post entry)
    (hnone : ∀ ctx, inv ctx → (ctx.tables.entries family)[index]? = none →
      fails (.unresolvedPlaceholder family index)) :
    Ensures inv fails post (resolve family index) := by
  intro ctx hctx
  cases hentry : (ctx.tables.entries family)[index]? with
  | none =>
    rw [run_resolve_of_none hentry]
    refine ⟨hctx, fun a ha => (by cases ha), ?_⟩
    intro e he
    rw [← Except.error.inj he]
    exact hnone ctx hctx hentry
  | some entry =>
    rw [run_resolve hentry]
    refine ⟨hctx, ?_, fun e he => (by cases he)⟩
    intro a ha
    rw [← Except.ok.inj ha]
    exact hsome ctx entry hctx hentry

end Convert

/-- The context has the tables, the options and the parent of `base`, and no open switch is about
    an expression with a mark. -/
structure Context.Keeps (marks : List Text) (base ctx : Context) : Prop where
  tables : ctx.tables = base.tables
  options : ctx.options = base.options
  parent : ctx.parent = base.parent
  subjects : ∀ frame ∈ ctx.switches, Text.Free marks frame.subject

namespace Context.Keeps

variable {marks : List Text} {base ctx : Context}

theorem warn (h : Keeps marks base ctx) (w : Warning) : Keeps marks base (ctx.warn w) :=
  ⟨h.tables, h.options, h.parent, h.subjects⟩

theorem markCall (h : Keeps marks base ctx) : Keeps marks base ctx.markCall :=
  ⟨h.tables, h.options, h.parent, h.subjects⟩

theorem openBlock (h : Keeps marks base ctx) (kind : BlockKind) :
    Keeps marks base (ctx.openBlock kind) :=
  ⟨h.tables, h.options, h.parent, h.subjects⟩

theorem openSwitch (h : Keeps marks base ctx) {subject : Text} (hsubject : Text.Free marks subject) :
    Keeps marks base (ctx.openSwitch subject) := by
  refine ⟨h.tables, h.options, h.parent, ?_⟩
  intro frame hframe
  rcases List.mem_cons.1 hframe with rfl | hframe
  · exact hsubject
  · exact h.subjects frame hframe

theorem closeBlock (h : Keeps marks base ctx) : Keeps marks base ctx.closeBlock.2 := by
  unfold Context.closeBlock
  split
  · refine ⟨h.tables, h.options, h.parent, ?_⟩
    intro frame hframe
    exact h.subjects frame ((List.dropWhile_suffix _).mem hframe)
  · exact ⟨h.tables, h.options, h.parent, h.subjects⟩

/-- `Keeps` goes on at a case. -/
theorem nextCase (h : Keeps marks base ctx) : Keeps marks base ctx.nextCase.2 := by
  unfold Context.nextCase
  split
  · exact h
  · next frame frames hswitches =>
    refine ⟨h.tables, h.options, h.parent, ?_⟩
    intro f hf
    rcases List.mem_cons.1 hf with rfl | hf
    · exact h.subjects frame (by rw [hswitches]; exact List.mem_cons_self)
    · exact h.subjects f (by rw [hswitches]; exact List.mem_cons_of_mem _ hf)

/-- The statement for a case holds no mark. -/
theorem isBordered_nextCase (h : Keeps marks base ctx) (hmarks : Text.Apart marks)
    {statement : Twig.Statement} (hrun : ctx.nextCase.1 = .ok statement) :
    Substitutes.IsBordered marks statement.text := by
  unfold Context.nextCase at hrun
  split at hrun
  · cases hrun
  · next frame frames hswitches =>
    have hsubject := h.subjects frame (by rw [hswitches]; exact List.mem_cons_self)
    have hdigits : (decimal frame.cases).all Twig.isOwn = true := by
      apply List.all_eq_true.2
      intro c hc
      simp [Twig.isOwn, Twig.isBorder, isDigit_of_mem_decimal hc]
    have hcondition : Text.Free marks
        (frame.subject ++ ".index == ".toList ++ decimal frame.cases) :=
      hmarks.free_between ".index == ".toList rfl rfl rfl hsubject (hmarks.free_own hdigits)
    obtain rfl := Except.ok.inj hrun
    apply Twig.Statement.isBordered_text hmarks
    intro e he
    split at he
    · rwa [List.mem_singleton.1 he]
    · rwa [List.mem_singleton.1 he]

end Context.Keeps

namespace Convert

/-! ## Texts -/

section Texts

variable {marks : List Text} {base : Context} {fails : ConvertError → Prop}

/-- Opening a block gives the statement that opens it. -/
theorem ensures_openWith (hmarks : Text.Apart marks) (kind : BlockKind) {statement : Twig.Statement}
    (hparts : ∀ e ∈ statement.parts, Text.Free marks e) :
    Ensures (Context.Keeps marks base) fails (Substitutes.IsBordered marks)
      (openWith kind statement) := by
  refine ensures_bind (ensures_modify fun ctx h => h.openBlock kind) fun _ _ => ?_
  exact ensures_pure (statement.isBordered_text hmarks hparts)

/-- A directive without a mark gives Twig without a mark, or nothing. -/
theorem ensures_renderDirective (hmarks : Text.Apart marks)
    (hfails : ∀ e, fails (.malformedNesting e)) {span : Text}
    (hspan : Substitutes.IsBordered marks span) :
    Ensures (Context.Keeps marks base) fails
      (fun out => Substitutes.IsBordered marks out ∨ out = []) (renderDirective span) := by
  have hcaptures : ∀ e ∈ (Directive.classify span).captures, Text.Free marks e :=
    fun e he => hspan.free.of_infix (Directive.infix_of_mem_captures he)
  have hbordered {x : Convert Text}
      (h : Ensures (Context.Keeps marks base) fails (Substitutes.IsBordered marks) x) :
      Ensures (Context.Keeps marks base) fails
        (fun out => Substitutes.IsBordered marks out ∨ out = []) x := h.mono fun _ => .inl
  have hstatement (s : Twig.Statement) (h : ∀ e ∈ s.parts, Text.Free marks e) :
      Ensures (Context.Keeps marks base) fails
        (fun out => Substitutes.IsBordered marks out ∨ out = []) (pure s.text) :=
    ensures_pure (.inl (s.isBordered_text hmarks h))
  rw [renderDirective]
  generalize Directive.classify span = d at hcaptures
  cases d with
  | switch subject =>
    -- A switch prints nothing, but its subject comes back with every case.
    refine ensures_bind (ensures_modify fun ctx h => h.openSwitch ?_) fun _ _ => ?_
    · exact hcaptures subject List.mem_cons_self
    · exact ensures_pure (.inr rfl)
  | nextCase =>
    refine ensures_bind (ensures_nesting (fun ctx h => h.nextCase) ?_ hfails) fun s hs =>
      ensures_pure (.inl hs)
    intro ctx s hctx hrun
    exact hctx.isBordered_nextCase hmarks hrun
  | ifThen condition =>
    refine hbordered (ensures_openWith hmarks _ fun e he => ?_)
    rw [List.mem_singleton.1 he]
    exact Condition.free_toTwig hmarks (hcaptures condition List.mem_cons_self)
  | elseIf condition =>
    refine hstatement (.elseIf _) fun e he => ?_
    rw [List.mem_singleton.1 he]
    exact Condition.free_toTwig hmarks (hcaptures condition List.mem_cons_self)
  | otherwise => exact hstatement .otherwise fun e he => by cases he
  | endBlock =>
    refine ensures_bind (ensures_nesting (fun ctx h => h.closeBlock) (fun _ _ _ _ => trivial) hfails)
      fun kind _ => ?_
    exact hstatement (.close kind) fun e he => by cases he
  | foreach _ _ | fill _ | assign _ => exact hbordered (ensures_openWith hmarks _ hcaptures)
  | contentBlock => exact ensures_pure (.inl (hmarks.isBordered _ rfl rfl rfl))
  | raw expression =>
    refine ensures_pure (.inl (Twig.isBordered_printSpaced hmarks ?_))
    exact hmarks.free_behind "|raw".toList rfl rfl (hcaptures expression List.mem_cons_self)
  | inherit path =>
    exact ensures_bind (ensures_modify fun ctx h => h.warn _) fun _ _ => ensures_pure (.inl hspan)
  | print body =>
    refine ensures_pure (.inl (Twig.isBordered_print hmarks ?_))
    exact hcaptures body List.mem_cons_self

/-- What converting a piece of a text promises. -/
def EnsuresPiece (marks : List Text) (inv : Context → Prop) (fails : ConvertError → Prop)
    (p : Piece Text) : Prop :=
  Ensures inv fails (Piece.Turns id marks [':'] [':'] p) (convertPiece p)

variable {inv : Context → Prop}

/-- A seamless text is converted without a mark when each piece is. -/
theorem ensures_convertText (hmarks : Text.Apart marks) {content : Text}
    (hseam : Text.Seamless marks [':'] [':'] content)
    (hpieces : ∀ p ∈ conversionPieces content, EnsuresPiece marks inv fails p) :
    Ensures inv fails (Text.Free marks) (convertText content) := by
  rw [convertText_eq_mapM]
  refine ensures_bind (ensures_mapM hpieces) fun outs houts => ensures_pure ?_
  rw [← renderAll_conversionPieces content] at hseam
  exact Piece.free_flatten hmarks.nil_not_mem (hmarks.bars ':' rfl) hseam
    (isChain_conversionPieces content) houts

end Texts

end Convert

/-! ## Trees -/

namespace Node

variable (text raw : Text → Prop) (tag : Tag → Prop)

mutual

/-- Every text, every raw source and every tag of the node satisfies its predicate. -/
def Every : Node → Prop
  | .element t children => tag t ∧ EveryIn children
  | .text content => text content
  | .raw source => raw source

/-- Every text, every raw source and every tag of the nodes satisfies its predicate. -/
def EveryIn : List Node → Prop
  | [] => True
  | n :: ns => Every n ∧ EveryIn ns

end

variable {text raw tag}

mutual

/-- Whether every part of a node satisfies its predicate is decided node by node. -/
def decEvery [DecidablePred text] [DecidablePred raw] [DecidablePred tag] :
    (n : Node) → Decidable (Every text raw tag n)
  | .element t children =>
    have := decEveryIn children
    decidable_of_iff (tag t ∧ EveryIn text raw tag children) (by rw [Every])
  | .text content => decidable_of_iff (text content) (by rw [Every])
  | .raw source => decidable_of_iff (raw source) (by rw [Every])

/-- Whether every part of the nodes satisfies its predicate is decided node by node. -/
def decEveryIn [DecidablePred text] [DecidablePred raw] [DecidablePred tag] :
    (ns : List Node) → Decidable (EveryIn text raw tag ns)
  | [] => isTrue (by rw [EveryIn]; trivial)
  | n :: ns =>
    have := decEvery n
    have := decEveryIn ns
    decidable_of_iff (Every text raw tag n ∧ EveryIn text raw tag ns) (by rw [EveryIn])

end

instance [DecidablePred text] [DecidablePred raw] [DecidablePred tag] (ns : List Node) :
    Decidable (EveryIn text raw tag ns) := decEveryIn ns

theorem everyIn_nil : EveryIn text raw tag [] := by
  rw [EveryIn]
  trivial

theorem everyIn_cons_iff :
    EveryIn text raw tag (n :: ns) ↔ Every text raw tag n ∧ EveryIn text raw tag ns := by
  rw [EveryIn]

theorem every_element_iff {t : Tag} {children : List Node} :
    Every text raw tag (.element t children) ↔ tag t ∧ EveryIn text raw tag children := by
  rw [Every]

theorem every_text_iff {content : Text} : Every text raw tag (.text content) ↔ text content := by
  rw [Every]

theorem every_raw_iff {source : Text} : Every text raw tag (.raw source) ↔ raw source := by
  rw [Every]

theorem everyIn_append_iff :
    EveryIn text raw tag (ns ++ ms) ↔ EveryIn text raw tag ns ∧ EveryIn text raw tag ms := by
  induction ns with
  | nil => simp [everyIn_nil]
  | cons n ns ih => rw [List.cons_append, everyIn_cons_iff, everyIn_cons_iff, ih, and_assoc]

theorem everyIn_singleton_iff : EveryIn text raw tag [n] ↔ Every text raw tag n := by
  rw [everyIn_cons_iff]
  simp [everyIn_nil]

mutual

theorem every_of_forall (htext : ∀ t, text t) (hraw : ∀ t, raw t) (htag : ∀ t, tag t) :
    (n : Node) → Every text raw tag n
  | .element t children =>
    every_element_iff.2 ⟨htag t, everyIn_of_forall htext hraw htag children⟩
  | .text content => every_text_iff.2 (htext content)
  | .raw source => every_raw_iff.2 (hraw source)

/-- What holds of everything holds of every node. -/
theorem everyIn_of_forall (htext : ∀ t, text t) (hraw : ∀ t, raw t) (htag : ∀ t, tag t) :
    (ns : List Node) → EveryIn text raw tag ns
  | [] => everyIn_nil
  | n :: ns => everyIn_cons_iff.2
    ⟨every_of_forall htext hraw htag n, everyIn_of_forall htext hraw htag ns⟩

end

section Combining

variable {text' text'' raw' raw'' : Text → Prop} {tag' tag'' : Tag → Prop}

mutual

/-- `Every` holds of what follows from two of it. -/
theorem Every.map₂ (htext : ∀ t, text t → text' t → text'' t)
    (hraw : ∀ t, raw t → raw' t → raw'' t) (htag : ∀ t, tag t → tag' t → tag'' t) :
    (n : Node) → Every text raw tag n → Every text' raw' tag' n → Every text'' raw'' tag'' n
  | .element t children, h, h' => by
    rw [every_element_iff] at h h' ⊢
    exact ⟨htag t h.1 h'.1, EveryIn.map₂ htext hraw htag children h.2 h'.2⟩
  | .text content, h, h' =>
    every_text_iff.2 (htext content (every_text_iff.1 h) (every_text_iff.1 h'))
  | .raw source, h, h' => every_raw_iff.2 (hraw source (every_raw_iff.1 h) (every_raw_iff.1 h'))

/-- What follows from two things that every node satisfies. -/
theorem EveryIn.map₂ (htext : ∀ t, text t → text' t → text'' t)
    (hraw : ∀ t, raw t → raw' t → raw'' t) (htag : ∀ t, tag t → tag' t → tag'' t) :
    (ns : List Node) → EveryIn text raw tag ns → EveryIn text' raw' tag' ns →
      EveryIn text'' raw'' tag'' ns
  | [], _, _ => everyIn_nil
  | n :: ns, h, h' => by
    rw [everyIn_cons_iff] at h h' ⊢
    exact ⟨Every.map₂ htext hraw htag n h.1 h'.1, EveryIn.map₂ htext hraw htag ns h.2 h'.2⟩

end

end Combining

/-- The second list is the first one with `new` in place of the first element that passes `test`. -/
inductive Replaced (test : Tag → Bool) (new : Element → List Node) : List Node → List Node → Prop
  | here {t : Tag} (ht : test t = true) (children ns : List Node) :
    Replaced test new (.element t children :: ns) (new ⟨t, children⟩ ++ ns)
  | inside {t : Tag} (ht : test t = false) {cs ds : List Node} (h : Replaced test new cs ds)
    (ns : List Node) : Replaced test new (.element t cs :: ns) (.element t ds :: ns)
  | later {n : Node} (hn : replaceFirst? test new n = none) {ns ms : List Node}
    (h : Replaced test new ns ms) : Replaced test new (n :: ns) (n :: ms)

section Replacing

variable {test : Tag → Bool} {new : Element → List Node}

mutual

/-- `replaceFirst?` makes a list `Replaced` at its head. -/
theorem replaced_of_head : (n : Node) → ∀ {front : List Node},
    replaceFirst? test new n = some front → ∀ ns, Replaced test new (n :: ns) (front ++ ns)
  | .element t children, front, h, ns => by
    rw [replaceFirst?] at h
    split at h
    · next ht =>
      rw [← Option.some.inj h]
      exact .here ht children ns
    · next ht =>
      obtain ⟨cs, hcs, rfl⟩ := Option.map_eq_some_iff.1 h
      exact .inside (Bool.eq_false_iff.2 ht) (replaced_of_eq children hcs) ns
  | .text _, _, h, _ => by cases h
  | .raw _, _, h, _ => by cases h

/-- `replaceFirstIn?` gives a list that is `Replaced`. -/
theorem replaced_of_eq : (ns : List Node) → ∀ {ms : List Node},
    replaceFirstIn? test new ns = some ms → Replaced test new ns ms
  | [], _, h => by cases h
  | n :: ns, ms, h => by
    rw [replaceFirstIn?] at h
    split at h
    · next front hfront =>
      rw [← Option.some.inj h]
      exact replaced_of_head n hfront ns
    · next hn =>
      obtain ⟨rest, hrest, rfl⟩ := Option.map_eq_some_iff.1 h
      exact .later hn (replaced_of_eq ns hrest)

end

/-- Replacing an element keeps `EveryIn`. -/
theorem EveryIn.replaced (h : EveryIn text raw tag ns)
    (hnew : ∀ t children, tag t → EveryIn text raw tag children →
      EveryIn text raw tag (new ⟨t, children⟩)) (hms : Replaced test new ns ms) :
    EveryIn text raw tag ms := by
  induction hms with
  | here _ children ns =>
    rw [everyIn_cons_iff, every_element_iff] at h
    exact everyIn_append_iff.2 ⟨hnew _ children h.1.1 h.1.2, h.2⟩
  | inside _ _ ns ih =>
    rw [everyIn_cons_iff, every_element_iff] at h ⊢
    exact ⟨⟨h.1.1, ih h.1.2⟩, h.2⟩
  | later _ _ ih =>
    rw [everyIn_cons_iff] at h ⊢
    exact ⟨h.1, ih h.2⟩

end Replacing

/-- `modifyFirstElement?` keeps `EveryIn` if the change keeps `Every`. -/
theorem EveryIn.modifyFirstElement? {f : Element → Element}
    (hf : ∀ t children, tag t → EveryIn text raw tag children →
      Every text raw tag (f ⟨t, children⟩).toNode) (h : EveryIn text raw tag ns)
    (hms : Node.modifyFirstElement? f ns = some ms) : EveryIn text raw tag ms := by
  fun_induction Node.modifyFirstElement? f ns generalizing ms with
  | case1 => cases hms
  | case2 t children ns =>
    rw [everyIn_cons_iff, every_element_iff] at h
    rw [← Option.some.inj hms, everyIn_cons_iff]
    exact ⟨hf t children h.1.1 h.1.2, h.2⟩
  | case3 n ns _ ih =>
    obtain ⟨rest, hrest, rfl⟩ := Option.map_eq_some_iff.1 hms
    rw [everyIn_cons_iff] at h ⊢
    exact ⟨h.1, ih h.2 hrest⟩

end Node

namespace Convert

section Trees

variable {marks : List Text} {inv : Context → Prop} {fails : ConvertError → Prop}
  {text raw : Text → Prop} {tag tag' : Tag → Prop}

/-- The conditions around an element hold no mark. -/
theorem everyIn_wrapConditions (hmarks : Text.Apart marks) {conditions : List Text}
    (hconditions : ∀ c ∈ conditions, Text.Free marks c)
    (hn : Node.Every (Text.Free marks) raw tag n) :
    Node.EveryIn (Text.Free marks) raw tag (wrapConditions conditions n) := by
  -- A word with blanks around it keeps two conditions apart.
  have hjoined : Text.Free marks (conditions.intersperse " and ".toList).flatten := by
    induction conditions with
    | nil => exact Text.free_nil hmarks.nil_not_mem
    | cons c cs ih =>
      have hc := hconditions c List.mem_cons_self
      have hcs := ih fun d hd => hconditions d (List.mem_cons_of_mem c hd)
      cases cs with
      | nil => simpa using hc
      | cons d cs =>
        rw [List.intersperse_cons_cons, List.flatten_cons, List.flatten_cons, ← List.append_assoc]
        exact hmarks.free_between " and ".toList rfl rfl rfl hc hcs
  unfold wrapConditions
  split
  · exact Node.everyIn_singleton_iff.2 hn
  · rw [Node.everyIn_cons_iff, Node.everyIn_cons_iff, Node.everyIn_singleton_iff,
      Node.every_text_iff, Node.every_text_iff]
    refine ⟨hmarks.free_behind ['\n'] rfl rfl ?_, hn, ?_⟩
    · refine (Twig.Statement.isBordered_text hmarks _ ?_).free
      intro e he
      rw [List.mem_singleton.1 he]
      exact hjoined
    · exact hmarks.free_own rfl

/-- What converting the attributes of a tag promises. -/
def EnsuresTag (marks : List Text) (inv : Context → Prop) (fails : ConvertError → Prop)
    (tag' : Tag → Prop) (t : Tag) : Prop :=
  Ensures inv fails (fun cs => tag' { t with attributes := Converted.attributes cs } ∧
    ∀ c ∈ Converted.conditions cs, Text.Free marks c) (t.attributes.mapM convertAttribute)

mutual

/-- `convertNode` ensures what its texts and tags do. -/
theorem ensures_convertNode (hmarks : Text.Apart marks)
    (htext : ∀ content, text content → Ensures inv fails (Text.Free marks) (convertText content))
    (htag : ∀ t, tag t → EnsuresTag marks inv fails tag' t) :
    (n : Node) → Node.Every text raw tag n →
      Ensures inv fails (Node.EveryIn (Text.Free marks) raw tag') (convertNode n)
  | .text content, h => by
    rw [convertNode]
    refine ensures_bind (htext content (Node.every_text_iff.1 h)) fun out hout => ensures_pure ?_
    exact Node.everyIn_singleton_iff.2 (Node.every_text_iff.2 hout)
  | .raw source, h => by
    rw [convertNode]
    refine ensures_pure (Node.everyIn_singleton_iff.2 ?_)
    exact Node.every_raw_iff.2 (Node.every_raw_iff.1 h)
  | .element t children, h => by
    rw [Node.every_element_iff] at h
    rw [convertNode]
    refine ensures_bind (htag t h.1) fun converted hconverted => ?_
    refine ensures_bind (ensures_convertNodes hmarks htext htag children h.2) fun ns hns => ?_
    apply ensures_pure
    exact everyIn_wrapConditions hmarks hconverted.2 (Node.every_element_iff.2 ⟨hconverted.1, hns⟩)

/-- A list of nodes is converted without a mark when its texts and its tags are. -/
theorem ensures_convertNodes (hmarks : Text.Apart marks)
    (htext : ∀ content, text content → Ensures inv fails (Text.Free marks) (convertText content))
    (htag : ∀ t, tag t → EnsuresTag marks inv fails tag' t) :
    (ns : List Node) → Node.EveryIn text raw tag ns →
      Ensures inv fails (Node.EveryIn (Text.Free marks) raw tag') (convertNodes ns)
  | [], _ => by
    rw [convertNodes]
    exact ensures_pure Node.everyIn_nil
  | n :: ns, h => by
    rw [Node.everyIn_cons_iff] at h
    rw [convertNodes]
    refine ensures_bind (ensures_convertNode hmarks htext htag n h.1) fun front hfront => ?_
    refine ensures_bind (ensures_convertNodes hmarks htext htag ns h.2) fun back hback => ?_
    exact ensures_pure (Node.everyIn_append_iff.2 ⟨hfront, hback⟩)

end

/-- The root keeps its tag. -/
theorem ensures_convertTree (hmarks : Text.Apart marks)
    (htext : ∀ content, text content → Ensures inv fails (Text.Free marks) (convertText content))
    (htag : ∀ t, tag t → EnsuresTag marks inv fails tag' t)
    (h : Node.EveryIn text raw tag root.children) :
    Ensures inv fails (fun root' => root'.tag = root.tag ∧
      Node.EveryIn (Text.Free marks) raw tag' root'.children) (convertTree root) := by
  rw [convertTree]
  refine ensures_bind (ensures_convertNodes hmarks htext htag root.children h) fun ns hns => ?_
  exact ensures_pure ⟨rfl, hns⟩

/-! ## The finished tree -/

/-- The import of the macros brings in no mark. -/
theorem everyIn_placeImport (hmarks : Text.Apart marks) {library : Text}
    (hlibrary : Text.Free marks library) (h : Node.EveryIn (Text.Free marks) raw tag root.children)
    :
    Node.EveryIn (Text.Free marks) raw tag (placeImport library root).children := by
  have himport : Node.Every (Text.Free marks) raw tag (importNode library) := by
    refine Node.every_text_iff.2 (hmarks.free_before ['\n'] rfl rfl ?_)
    refine (Twig.Statement.isBordered_text hmarks _ ?_).free
    intro e he
    rw [List.mem_singleton.1 he]
    exact hlibrary
  -- Whichever element takes the import, its other children stay.
  have hinsert (t : Tag) (children : List Node) (ht : tag t)
      (hchildren : Node.EveryIn (Text.Free marks) raw tag children) :
      Node.Every (Text.Free marks) raw tag
        (Element.prependChild (importNode library) ⟨t, children⟩).toNode :=
    Node.every_element_iff.2 ⟨ht, Node.everyIn_cons_iff.2 ⟨himport, hchildren⟩⟩
  simp only [placeImport]
  split
  · next children hchildren =>
    refine h.replaced ?_ (Node.replaced_of_eq _ hchildren)
    intro t cs ht hcs
    exact Node.everyIn_singleton_iff.2 (hinsert t cs ht hcs)
  · split
    · next children hchildren => exact h.modifyFirstElement? hinsert hchildren
    · exact Node.everyIn_cons_iff.2 ⟨himport, h⟩

/-- The block for the parent brings in no mark. -/
theorem everyIn_inheritanceBlock (hmarks : Text.Apart marks) {parent : Text}
    (hparent : Text.Free marks parent) {content : List Node}
    (h : Node.EveryIn (Text.Free marks) raw tag content) :
    Node.EveryIn (Text.Free marks) raw tag (inheritanceBlock parent content) := by
  have hheader : Text.Free marks (inheritanceHeader parent) := by
    refine hmarks.free_behind _ rfl rfl (Twig.Statement.isBordered_text hmarks _ ?_).free
    intro e he
    rw [List.mem_singleton.1 he]
    exact hparent
  rw [inheritanceBlock, List.cons_append, Node.everyIn_cons_iff, Node.everyIn_append_iff,
    Node.everyIn_singleton_iff, Node.every_text_iff, Node.every_text_iff]
  exact ⟨hheader, h, hmarks.free_own rfl⟩

/-- `completeInheritance` keeps a tree free of marks. -/
theorem ensures_completeInheritance (hmarks : Text.Apart marks)
    (hwarn : ∀ ctx w, inv ctx → inv (ctx.warn w)) {parent : Text} (hparent : Text.Free marks parent)
    (h : Node.EveryIn (Text.Free marks) raw tag root.children) :
    Ensures inv fails (fun root' => root'.tag = root.tag ∧
      Node.EveryIn (Text.Free marks) raw tag root'.children) (completeInheritance parent root) := by
  unfold completeInheritance
  dsimp only
  split
  · next children hchildren =>
    refine ensures_pure ⟨rfl, h.replaced ?_ (Node.replaced_of_eq _ hchildren)⟩
    intro t cs _ hcs
    exact everyIn_inheritanceBlock hmarks hparent hcs
  · refine ensures_bind (ensures_modify fun ctx hctx => hwarn ctx _ hctx) fun _ _ => ?_
    exact ensures_pure ⟨rfl, everyIn_inheritanceBlock hmarks hparent h⟩

theorem placeImport_tag (library : Text) (root : Element) :
    (placeImport library root).tag = root.tag := by
  simp only [placeImport]
  split
  · rfl
  · split <;> rfl

end Trees

/-- The tree that is printed in the end: with the import of the macros and the block for the
    parent. -/
def completeTree (root : Element) : Convert Element := do
  Convert.ensureClosed
  let ctx ← get
  match ctx.parent with
  | some parent => completeInheritance parent (insertImport ctx root)
  | none => pure (insertImport ctx root)

/-- `assemble` completes the tree, checks it and then looks for leftovers. -/
theorem assemble_eq (root : Element) : assemble root = (do
    let root ← completeTree root
    match checkPlaceholders root with
    | .error e => throw e
    | .ok () =>
      let output := Node.sourceAll root.children
      let leftover := spanCount output
      if 0 < leftover then Convert.warn (.leftoverSpans leftover)
      return output) := by
  rw [assemble, completeTree]
  simp only [bind_assoc]
  congr 1
  funext _
  congr 1
  funext ctx
  cases ctx.parent with
  | none => exact (pure_bind _ _).trans (pure_bind _ _).symm
  | some parent => rfl

/-- Completing a tree brings in no mark. -/
theorem ensures_completeTree {marks : List Text} {base : Context} {fails : ConvertError → Prop}
    {raw : Text → Prop} {tag : Tag → Prop} (hmarks : Text.Apart marks)
    (hlibrary : Text.Free marks base.options.macroLibrary)
    (hparent : ∀ parent, base.parent = some parent → Text.Free marks parent)
    (hnesting : ∀ e, fails (.malformedNesting e))
    (h : Node.EveryIn (Text.Free marks) raw tag root.children) :
    Ensures (Context.Keeps marks base) fails (fun root' => root'.tag = root.tag ∧
      Node.EveryIn (Text.Free marks) raw tag root'.children) (completeTree root) := by
  unfold completeTree
  refine ensures_bind (ensures_nesting (fun _ hctx => hctx) (fun _ _ _ _ => trivial) hnesting)
    fun _ _ => ?_
  intro ctx hctx
  rw [run_bind_ok (run_get ctx)]
  -- The library and the parent are those that the passes left in the state.
  have hinsert : (insertImport ctx root).tag = root.tag ∧
      Node.EveryIn (Text.Free marks) raw tag (insertImport ctx root).children := by
    unfold insertImport
    split
    · refine ⟨placeImport_tag _ root, everyIn_placeImport hmarks ?_ h⟩
      rw [hctx.options]
      exact hlibrary
    · exact ⟨rfl, h⟩
  suffices hrest : Ensures (Context.Keeps marks base) fails (fun root' => root'.tag = root.tag ∧
      Node.EveryIn (Text.Free marks) raw tag root'.children) (match ctx.parent with
        | some parent => completeInheritance parent (insertImport ctx root)
        | none => pure (insertImport ctx root)) from hrest ctx hctx
  split
  · next parent hp =>
    have hfree := hparent parent (by rw [← hctx.parent, hp])
    exact Ensures.mono (ensures_completeInheritance hmarks (fun _ w h => h.warn w) hfree hinsert.2)
      fun r hr => ⟨hr.1.trans hinsert.1, hr.2⟩
  · exact ensures_pure hinsert

/-- A tree is printed when the check passes. -/
theorem ensures_assemble {inv : Context → Prop} {fails : ConvertError → Prop}
    {tree : Element → Prop} {post : Text → Prop} (hwarn : ∀ ctx w, inv ctx → inv (ctx.warn w))
    (h : Ensures inv fails tree (completeTree root))
    (hcheck : ∀ r, tree r → ∀ e, checkPlaceholders r = .error e → fails e)
    (hpost : ∀ r, tree r → post (Node.sourceAll r.children)) :
    Ensures inv fails post (assemble root) := by
  rw [assemble_eq]
  refine ensures_bind h fun r hr => ?_
  split
  · next e he => exact ensures_throw (hcheck r hr e he)
  · have houtput := hpost r hr
    dsimp only
    split
    · exact ensures_bind (ensures_modify fun ctx hctx => hwarn ctx _ hctx) fun _ _ =>
        ensures_pure houtput
    · exact ensures_pure houtput

end Convert

end TemploTwig
