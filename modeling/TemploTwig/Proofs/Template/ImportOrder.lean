import TemploTwig.Proofs.Template.Imports

/-!
# The import and the calls around it

The import is put in front of the content of the first body, or else of the first element, or else
of the document, wherever the calls are.  So the calls in the leads to that content come before the
import, and all other calls come behind it.
-/

namespace TemploTwig

variable {ctx : Context} {ns nodes : List Node}

/-! ## The leads to the import -/

namespace Convert

/-- The leads to the import are converted like the tree that they belong to. -/
theorem exists_run_convertLeads_importLeads {ctx' : Context}
    (hrun : (convertNodes ns).run.run ctx = (.ok nodes, ctx')) :
    ∃ ctx₁, (convertLeads (importLeads ns)).run.run ctx = (.ok (importLeads nodes), ctx₁) := by
  have hbody := run_convertLeads_of_run Tag.isBody
    (fun hname => by rw [Tag.isBody, Tag.isBody, hname]) ns hrun
  have hfirst := run_convertLeads_of_run (fun _ => true) (fun _ => rfl) ns hrun
  unfold importLeads
  cases hleads : Node.leadsIn? Tag.isBody ns with
  | some ls =>
    obtain ⟨ls', ctx₁, hrun', hls'⟩ := hbody.2 ls hleads
    exact ⟨ctx₁, by rw [hls']; exact hrun'⟩
  | none =>
    rw [hbody.1 hleads]
    cases hleads' : Node.leadsIn? (fun _ => true) ns with
    | some ls =>
      obtain ⟨ls', ctx₁, hrun', hls'⟩ := hfirst.2 ls hleads'
      exact ⟨ctx₁, by rw [hls']; exact hrun'⟩
    | none => exact ⟨ctx, by rw [hfirst.1 hleads']; rfl⟩

/-- `convertNodes` keeps a wrapper. -/
theorem isSome_leadsIn?_isWrapper {ctx' : Context}
    (hrun : (convertNodes ns).run.run ctx = (.ok nodes, ctx')) :
    (Node.leadsIn? Tag.isWrapper nodes).isSome = (Node.leadsIn? Tag.isWrapper ns).isSome := by
  have hwrapper := run_convertLeads_of_run Tag.isWrapper
    (fun hname => by rw [Tag.isWrapper, Tag.isWrapper, hname]) ns hrun
  cases hleads : Node.leadsIn? Tag.isWrapper ns with
  | none => rw [hwrapper.1 hleads]
  | some ls =>
    obtain ⟨ls', ctx₁, -, hls'⟩ := hwrapper.2 ls hleads
    rw [hls']
    rfl

end Convert

/-! ## What the leads show -/

namespace Node

theorem shownIn_iff : ShownIn ns ↔ ∀ n ∈ ns, n.Shown := by
  induction ns with
  | nil => simp [ShownIn]
  | cons n ns ih => simp [ShownIn, ih]

theorem everyIn_iff {text raw : Text → Prop} {tag : Tag → Prop} :
    EveryIn text raw tag ns ↔ ∀ n ∈ ns, Every text raw tag n := by
  induction ns with
  | nil => simp [EveryIn]
  | cons n ns ih => simp [EveryIn, ih]

end Node

/-- `importLeads` holds parts of the nodes only. -/
theorem forall_mem_importLeads {P : Node → Prop} {Q : Tag → Prop}
    (h : ∀ {tag children}, P (.element tag children) → Q tag ∧ ∀ n ∈ children, P n)
    (hns : ∀ n ∈ ns, P n) :
    (∀ n, .node n ∈ importLeads ns → P n) ∧ ∀ tag, .start tag ∈ importLeads ns → Q tag := by
  unfold importLeads
  cases hleads : (Node.leadsIn? Tag.isBody ns).or (Node.leadsIn? (fun _ => true) ns) with
  | none => simp
  | some ls =>
    rcases Option.or_eq_some_iff.1 hleads with hls | ⟨-, hls⟩
    · exact Node.forall_mem_leadsIn? h ns hns hls
    · exact Node.forall_mem_leadsIn? h ns hns hls

theorem importLeads_legible {filled : Prop} (hshown : Node.ShownIn ns)
    (hopens : filled → Node.EveryIn Text.OpensTokens (fun _ => True) (fun _ => True) ns) :
    ∀ n, .node n ∈ importLeads ns → n.Shown ∧
      (filled → Node.Every Text.OpensTokens (fun _ => True) (fun _ => True) n) := by
  refine (forall_mem_importLeads (Q := fun _ => True) ?_ fun n hn => ?_).1
  · rintro tag children ⟨hshown, hopens⟩
    rw [Node.Shown] at hshown
    refine ⟨trivial, fun n hn => ⟨Node.shownIn_iff.1 hshown.2 n hn, fun hfilled => ?_⟩⟩
    exact Node.everyIn_iff.1 (Node.every_element_iff.1 (hopens hfilled)).2 n hn
  · exact ⟨Node.shownIn_iff.1 hshown n hn, fun hfilled => Node.everyIn_iff.1 (hopens hfilled) n hn⟩

theorem importLeads_bareWrapper
    (h : Node.EveryIn (fun _ => True) (fun _ => True) Tag.BareWrapper ns) :
    (∀ n, .node n ∈ importLeads ns →
      Node.Every (fun _ => True) (fun _ => True) Tag.BareWrapper n) ∧
    ∀ tag, .start tag ∈ importLeads ns → tag.BareWrapper := by
  refine forall_mem_importLeads ?_ (Node.everyIn_iff.1 h)
  intro tag children hbare
  rw [Node.every_element_iff] at hbare
  exact ⟨hbare.1, Node.everyIn_iff.1 hbare.2⟩

/-- What the leads mention is mentioned by the finished ones, unless it stands in an attribute of
    the element that the block replaces. -/
theorem mentions_finishLeads (ns : List Node) {ls : List Lead} {t : Text}
    (hbare : ctx.parent.isSome = true →
      (∀ n, .node n ∈ ls → Node.Every (fun _ => True) (fun _ => True) Tag.BareWrapper n) ∧
        ∀ tag, .start tag ∈ ls → tag.BareWrapper) (h : ∃ l ∈ ls, l.Mentions t) :
    ∃ l ∈ ctx.finishLeads ns ls, l.Mentions t := by
  unfold Context.finishLeads
  cases hparent : ctx.parent with
  | none => exact h
  | some parent =>
    obtain ⟨hnodes, htags⟩ := hbare (by rw [hparent]; rfl)
    dsimp only
    split
    · cases hls : Node.replaceLeads? Tag.isWrapper
          (fun wrapper => inheritanceBlock parent wrapper.children)
          [.text (inheritanceHeader parent)] ls with
      | none => exact h
      | some ls' =>
        -- The element that is replaced has no attributes: only its children can mention the text.
        refine Node.mentions_replaceLeads? (fun hkeeps htest => hkeeps htest) ?_ hnodes htags h hls
        intro tag children hkeeps hwraps hmentions
        rw [Node.Mentions, hkeeps hwraps] at hmentions
        rcases hmentions with ⟨a, ha, -⟩ | ⟨-, hin⟩
        · cases ha
        · exact Node.mentionsIn_append_iff.2 (.inl (.inr hin))
    · obtain ⟨l, hl, hmentions⟩ := h
      exact ⟨l, List.mem_cons_of_mem _ hl, hmentions⟩

/-! ## The order of the import and the calls -/

/-- How a rendered call begins. -/
def callMark : Text := "\x7b\x7b macros.".toList

/-- The first text occurs, and before every occurrence of the mark. -/
def Text.Precedes (s mark t : Text) : Prop :=
  ∃ f, f ++ s <+: t ∧ ∀ g, g ++ mark <+: t → f.length < g.length

theorem not_isPrefix_callMark (library rest : Text) :
    ¬callMark <+: (Twig.Statement.importMacros library).text ++ rest := by
  intro hcall
  have himport := (isPrefix_importMark library).trans (List.prefix_append _ rest)
  have hlength : importMark.length ≤ callMark.length := by decide +kernel
  have hboth := List.prefix_of_prefix_length_le himport hcall hlength
  exact absurd hboth (by decide +kernel)

/-- `Precedes` holds if no call stands in front. -/
theorem precedes_of_not_infix {front library back : Text} (h : ¬callMark <:+: front) :
    Text.Precedes (Twig.Statement.importMacros library).text callMark
      (front ++ (importLine library ++ back)) := by
  have hbreak : '\n' ∉ callMark := by decide +kernel
  refine ⟨front ++ ['\n'], ⟨back, ?_⟩, fun g hg => ?_⟩
  · rw [importLine]
    simp only [List.append_assoc, List.cons_append, List.nil_append]
  · obtain ⟨g', rfl, hg'⟩ := Text.exists_of_occurs h hbreak hg
    cases g' with
    | nil => exact absurd hg' (not_isPrefix_callMark library back)
    | cons c g' =>
      simp only [List.length_append, List.length_cons, List.length_nil]
      omega

/-- `Precedes` fails if a call stands in front. -/
theorem not_precedes_of_infix {front library back : Text} (h : callMark <:+: front)
    (hplain : ¬importMark <:+: front ++ back) (hlibrary : ¬importMark <:+: library) :
    ¬Text.Precedes (Twig.Statement.importMacros library).text callMark
      (front ++ (importLine library ++ back)) := by
  rintro ⟨f, hf, hfirst⟩
  obtain ⟨place, hplace, hunique⟩ := existsUnique_import hplain hlibrary
  rw [← List.append_assoc] at hf hfirst
  have hline : (front ++ ['\n']) ++ (Twig.Statement.importMacros library).text <+:
      front ++ importLine library ++ back := ⟨back, by rw [importLine]; simp⟩
  obtain rfl : f = front ++ ['\n'] := (hunique f hf).trans (hunique _ hline).symm
  -- The call in the front begins before the import.
  obtain ⟨s, r, rfl⟩ := h
  have hlt := hfirst s ⟨r ++ importLine library ++ back, by simp only [List.append_assoc]⟩
  simp only [List.length_append, List.length_cons, List.length_nil] at hlt
  omega

/-- `renderCall` begins with the mark of a call. -/
theorem isPrefix_renderCall (h : ctx.kind = .document) (call : MacroCall) :
    callMark <+: ctx.renderCall call := by
  have hmark : callMark = "\x7b\x7b".toList ++ ' ' :: ("macros".toList ++ ['.']) := by
    decide +kernel
  have hprint (expression : Text) : Twig.printSpaced expression =
      "\x7b\x7b".toList ++ (' ' :: expression ++ [' ']) ++ "\x7d\x7d".toList := rfl
  have hspace : TemplateKind.document.macroNamespace = "macros".toList := rfl
  rw [Context.renderCall, h, hprint, hspace, hmark]
  simp only [List.append_assoc, List.cons_append, List.nil_append]
  exact ⟨_, by simp only [List.append_assoc, List.cons_append, List.nil_append]; rfl⟩

/-- Every call that the passes record is rendered with the mark. -/
theorem Prepare.isPrefix_callMark (options : Options) (source : Text) :
    ∀ call ∈ ((prepare source).run { options, kind := .document }).2.tables.macroCalls,
      callMark <+: call := by
  let inv := fun (ctx : Context) => ctx.kind = .document ∧
    ∀ call ∈ ctx.tables.entries .macroCall, callMark <+: call
  have hcarries : CarriesAt (fun ctx => inv ctx ∧ ctx.tables.macroCalls.length ≤ source.length)
      source (prepare source) { options, kind := .document } := by
    -- Calls are recorded as they are rendered, and entries of other families do not count.
    refine carries_prepare ?_ ?_ ?_ (fun _ _ h => h) (fun _ _ h => h)
      ⟨rfl, fun call hcall => by cases hcall⟩ rfl
    · intro call _ ctx hctx
      refine ⟨hctx.1, fun entry hentry => ?_⟩
      rw [Context.record, Tables.entries_record_self] at hentry
      rcases List.mem_append.1 hentry with hentry | hentry
      · exact hctx.2 entry hentry
      · rw [List.mem_singleton.1 hentry]
        exact isPrefix_renderCall hctx.1 call
    · intro ctx entry hctx
      exact hctx
    · intro ctx family entry hfamily _ hctx
      refine ⟨hctx.1, fun call hcall => hctx.2 call ?_⟩
      rwa [Context.record, Tables.entries_record_of_ne (Ne.symm hfamily)] at hcall
  exact hcarries.holds.1.2

namespace Document

/-- The conversion of what stands in front of the import, on its own. -/
def convertFront (ns : List Node) : Convert Text := do
  let leads ← convertLeads (importLeads ns)
  return Lead.textAll ((← get).finishLeads ns leads)

/-- `convertFront` notes what the leads do. -/
theorem run_convertFront {base ctx₁ : Context}
    (hconvert : (convertNodes ns).run.run base = (.ok nodes, ctx))
    (hleads : (convertLeads (importLeads ns)).run.run base = (.ok (importLeads nodes), ctx₁))
    (hparent : ctx₁.parent = ctx.parent) :
    (convertFront ns).run.run base =
      (.ok (Lead.textAll (ctx.finishLeads nodes (importLeads nodes))), ctx₁) := by
  have hfinish : ctx₁.finishLeads ns (importLeads nodes) =
      ctx.finishLeads nodes (importLeads nodes) := by
    rw [Context.finishLeads, Context.finishLeads, hparent,
      Convert.isSome_leadsIn?_isWrapper hconvert]
  rw [convertFront, Convert.run_bind_ok hleads, Convert.run_bind_ok (Convert.run_get ctx₁), hfinish]
  rfl

/-- Let a document be converted that holds a call and whose import is seen.  What stands in front of
    the content that gets the import can be converted on its own, and this notes a call exactly if
    one stands there.  The output begins with the conversion of that front, followed by the import
    and by the rest.

    So the import comes before the first rendered call if the front shows none.  If the front shows
    one, and no import is spelled otherwise, it does not.  And the front does show one if a call
    stands there, provided that the document spells no token itself and the wrapper has no
    attributes to lose. -/
theorem import_precedes_calls {options : Options} {source out : Text}
    (hresult : (convertTemplate options (some .document) source).result = .ok out) :
    let prepared := (prepare source).run { options, kind := .document }
    let statement := (Twig.Statement.importMacros options.macroLibrary).text
    ∃ ns plain, parse? prepared.1 = some (root ns) ∧
      ((convertWithoutImport source).run.run { options, kind := .document }).1 = .ok plain ∧
      ((Node.callsAll ns && prepared.2.showsImport ns) = true → ∃ front back ctx,
        (convertFront ns).run.run prepared.2 = (.ok front, ctx) ∧
        ctx.callsMacros = (importLeads ns).any Lead.calls ∧
        plain = front ++ back ∧ out = front ++ ('\n' :: statement ++ back) ∧
        (¬callMark <:+: front → Text.Precedes statement callMark out) ∧
        (callMark <:+: front → ¬importMark <:+: plain → ¬importMark <:+: options.macroLibrary →
          ¬Text.Precedes statement callMark out) ∧
        ((importLeads ns).any Lead.calls = true → ¬Attribute.tokenMark <:+: source →
          Text.EverFree [MacroToken.opening] openChars closeChars source →
          (prepared.2.parent.isSome = true →
            Node.EveryIn (fun _ => True) (fun _ => True) Tag.BareWrapper ns) →
          callMark <:+: front)) := by
  intro prepared statement
  have hprepare : (prepare source).run { options, kind := .document } =
      (prepared.1, prepared.2) := rfl
  obtain ⟨ns, nodes, ctx, hparse, hconvert, hclosed, hprint⟩ := exists_of_result_ok hprepare hresult
  have hshown : Node.ShownIn ns := shownIn_parse? hparse
  have hshape : Node.SameShape ns nodes :=
    (Convert.ensures_sameShape_convertNodes ns prepared.2 trivial).2.1 nodes (by rw [hconvert])
  have hopens : ¬Attribute.tokenMark <:+: source ∧
      Text.EverFree [MacroToken.opening] openChars closeChars source →
        Node.EveryIn Text.OpensTokens (fun _ => True) (fun _ => True) ns :=
    fun hspells => everyIn_opensTokens_parse? hspells.1 hspells.2 hparse
  obtain ⟨hfixes, hflag, -⟩ :=
    Convert.putsCalls_convertNodes ns hshown hopens prepared.2 nodes ctx hconvert
  obtain ⟨hoptions, hstart⟩ := Prepare.callsMacros_prepare options .document source
  have hlibrary : ctx.options.macroLibrary = options.macroLibrary := by
    rw [hfixes.options, hoptions]
  obtain ⟨plain, hplain, hline⟩ := exists_printTree_complete (hshape.shown hshown) hprint
  refine ⟨ns, plain, hparse, ?_, fun hseen => ?_⟩
  · rw [result_convertWithoutImport hprepare hparse hconvert hclosed, hplain]
  have hseen' : (ctx.callsMacros && ctx.showsImport nodes) = true := by
    rw [hflag, hstart, Bool.false_or, hshape.showsImport, ← hseen, Context.showsImport,
      Context.showsImport, hfixes.parent]
  rw [if_pos hseen', hlibrary] at hline
  obtain ⟨back, hfront, hout⟩ := hline
  -- The front is converted on its own.
  obtain ⟨ctx₁, hleads⟩ := Convert.exists_run_convertLeads_importLeads hconvert
  obtain ⟨hfixes₁, hflag₁, hcall⟩ :=
    Convert.putsCalls_convertLeads (importLeads_legible hshown hopens) prepared.2 _ ctx₁ hleads
  have hparent : ctx₁.parent = ctx.parent := by rw [hfixes₁.parent, hfixes.parent]
  refine ⟨_, back, ctx₁, run_convertFront hconvert hleads hparent, ?_, hfront, hout, ?_, ?_, ?_⟩
  · rw [hflag₁, hstart, Bool.false_or]
  · intro hnone
    rw [hout]
    exact precedes_of_not_infix hnone
  · intro hsome hmark hname
    rw [hfront] at hmark
    rw [hout]
    exact not_precedes_of_infix hsome hmark hname
  · intro hsome hmark hfree hbare
    obtain ⟨call, hmem, hmentions⟩ := hcall ⟨hmark, hfree⟩ hsome
    refine (Prepare.isPrefix_callMark options source call hmem).isInfix.trans
      (Lead.infix_textAll_of_mentions (mentions_finishLeads nodes (fun hparent => ?_) hmentions))
    rw [hfixes.parent] at hparent
    exact importLeads_bareWrapper (hshape.bare (hbare hparent))

/-- A page with directives in front of a conditional body, and with calls in it. -/
def page : Text :=
  "<html><head>::title::</head><body ::cond user::><p $$x()>$$greet(user)</p></body></html>".toList

/-- The page imports the macros before it calls them. -/
theorem import_precedes_calls_page :
    let statement := (Twig.Statement.importMacros ({} : Options).macroLibrary).text
    ∃ out, (convertTemplate {} (some .document) page).result = .ok out ∧ callMark <:+: out ∧
      Text.Precedes statement callMark out := by
  intro statement
  have hok : (convertTemplate {} (some .document) page).result.toOption.any
      (fun out => decide (callMark <:+: out)) = true := by decide +kernel
  cases hresult : (convertTemplate {} (some .document) page).result with
  | error e => rw [hresult] at hok; cases hok
  | ok out =>
    rw [hresult] at hok
    obtain ⟨ns, plain, hparse, -, himport⟩ := import_precedes_calls hresult
    let prepared := (prepare page).run { options := {}, kind := .document }
    have htree : (parse? prepared.1).all (fun tree =>
        (Node.callsAll tree.children && prepared.2.showsImport tree.children) &&
          ((convertFront tree.children).run.run prepared.2).1.toOption.all
            (fun front => decide (¬callMark <:+: front))) = true := by decide +kernel
    rw [show parse? prepared.1 = _ from hparse, Option.all_some, Bool.and_eq_true] at htree
    obtain ⟨front, back, ctx, hfront, -, -, -, hprecedes, -⟩ := himport htree.1
    have hnone := htree.2
    rw [show (convertFront (root ns).children).run.run prepared.2 = _ from hfront] at hnone
    exact ⟨out, rfl, of_decide_eq_true hok, hprecedes (of_decide_eq_true hnone)⟩

/-- A call in front of the first element comes before the import. -/
theorem call_precedes_import :
    let source := "$$a()<p></p>".toList
    let statement := (Twig.Statement.importMacros ({} : Options).macroLibrary).text
    (¬Attribute.tokenMark <:+: source ∧ ¬"\x7b%".toList <:+: source ∧
      ¬"\x7b\x7b".toList <:+: source) ∧
    ∃ out, (convertTemplate {} (some .document) source).result = .ok out ∧ callMark <:+: out ∧
      statement <:+: out ∧ ¬Text.Precedes statement callMark out := by
  intro source statement
  let out := "\x7b\x7b macros.a() \x7d\x7d<p>\n".toList ++ statement ++ "</p>".toList
  have hout : (convertTemplate {} (some .document) source).result = .ok out := by decide +kernel
  have hcall : callMark <+: out := by decide +kernel
  refine ⟨⟨by decide +kernel, by decide +kernel, by decide +kernel⟩, out, hout, hcall.isInfix,
    ⟨_, _, rfl⟩, ?_⟩
  rintro ⟨f, -, hfirst⟩
  exact absurd (hfirst [] hcall) (Nat.not_lt_zero _)

end Document

end TemploTwig
