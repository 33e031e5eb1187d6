import TemploTwig.Proofs.Nesting.Definitions
import TemploTwig.Proofs.Nesting.SwitchTags
import TemploTwig.Proofs.Placeholders.Spelling
import TemploTwig.Proofs.Template.Cuts

/-!
# The block tags of converted text

The blocks of an accepted text are matched.  Here is when the tags that are printed for them are
matched as well, read off the output, without knowing what printed it.
-/

namespace TemploTwig

variable {t s : Text} {d : Directive} {ps : List (Piece Text)}

/-! ## Reading tags -/

namespace Twig

/-- How a tag begins. -/
def tagMark : Text := ['\x7b', '%']

/-- The tag of a block at the front of a text. -/
def blockTagAt? (t : Text) : Option (Bracket BlockKind) :=
  [BlockKind.conditional, .loop, .assignment].findSome? fun kind =>
    if t.startsWith ("\x7b% ".toList ++ kind.keyword) then some (.opening kind)
    else if t.startsWith (Statement.close kind).text then some (.closing kind)
    else none

/-- The tags of blocks in a text, wherever they occur. -/
def blockTags : Text → List (Bracket BlockKind)
  | [] => []
  | c :: cs => (blockTagAt? (c :: cs)).toList ++ blockTags cs

/-- No tag begins in the text. -/
abbrev NoTag (t : Text) : Prop := Text.Free [tagMark] t

/-- `tagMark` begins with a brace before a `%`. -/
theorem tagMark_prefix_cons_iff {c : Char} :
    tagMark <+: c :: t ↔ c = '\x7b' ∧ t.head? = some '%' := by
  rw [tagMark, List.cons_prefix_cons]
  cases t with
  | nil => simp
  | cons d t => simp [List.cons_prefix_cons, eq_comm]

theorem noTag_cons_iff {c : Char} :
    NoTag (c :: t) ↔ ¬(c = '\x7b' ∧ t.head? = some '%') ∧ NoTag t := by
  simp only [NoTag, Text.Free, List.mem_singleton, forall_eq, List.infix_cons_iff,
    tagMark_prefix_cons_iff, not_or]

theorem noTag_nil : NoTag [] := Text.free_nil (by simp [tagMark])

/-- Without a brace there is no tag. -/
theorem NoTag.append_left (hs : '\x7b' ∉ s) (ht : NoTag t) : NoTag (s ++ t) := by
  induction s with
  | nil => exact ht
  | cons c s ih =>
    rw [List.cons_append, noTag_cons_iff]
    refine ⟨fun h => hs ?_, ih fun h => hs (List.mem_cons_of_mem _ h)⟩
    rw [h.1]
    exact List.mem_cons_self

theorem noTag_of_not_mem (h : '\x7b' ∉ t) : NoTag t := by
  have := NoTag.append_left h noTag_nil
  rwa [List.append_nil] at this

/-- `NoTag` of two texts holds for both together if no tag forms at the seam. -/
theorem NoTag.append (hs : NoTag s) (ht : NoTag t)
    (hseam : s.getLast? = some '\x7b' → t.head? ≠ some '%') : NoTag (s ++ t) := by
  induction s with
  | nil => exact ht
  | cons c s ih =>
    rw [noTag_cons_iff] at hs
    rw [List.cons_append, noTag_cons_iff]
    cases s with
    | nil =>
      refine ⟨?_, ht⟩
      rintro ⟨rfl, hhead⟩
      exact hseam rfl hhead
    | cons d s =>
      refine ⟨hs.1, ih hs.2 fun hlast => hseam ?_⟩
      rw [List.getLast?_cons_cons, hlast]

/-- Two texts without a tag do not come together to one. -/
theorem NoTag.seam (h : NoTag (s ++ t)) (hlast : s.getLast? = some '\x7b') :
    t.head? ≠ some '%' := by
  obtain ⟨front, rfl⟩ := List.getLast?_eq_some_iff.1 hlast
  rw [List.append_assoc] at h
  have hborder : NoTag ('\x7b' :: t) := h.of_infix (List.suffix_append _ _).isInfix
  intro hhead
  exact (noTag_cons_iff.1 hborder).1 ⟨rfl, hhead⟩

/-- `Condition.toTwig` makes no tag. -/
theorem noTag_toTwig {condition : Text} (h : NoTag condition) :
    NoTag (Condition.toTwig condition) := by
  have hword (word : Text) (hhead : ∃ c cs, word = c :: cs ∧ c ∉ tagMark)
      (hlast : ∃ cs c, word = cs ++ [c] ∧ c ∉ tagMark) (hfree : NoTag word) :
      Substitutes.IsBordered [tagMark] word := by
    obtain ⟨c, cs, hcons, hc⟩ := hhead
    obtain ⟨cs', c', hconcat, hc'⟩ := hlast
    refine ⟨⟨c, cs, hcons, ?_⟩, ⟨cs', c', hconcat, ?_⟩, hfree⟩ <;> simpa [Text.Bars]
  apply Condition.free_toTwig_of_isBordered _ _ _ h
  · exact hword _ ⟨'n', _, rfl, by decide⟩ ⟨"not".toList, ' ', rfl, by decide⟩
      (noTag_of_not_mem (by decide))
  · exact hword _ ⟨' ', _, rfl, by decide⟩ ⟨" and".toList, ' ', rfl, by decide⟩
      (noTag_of_not_mem (by decide))
  · exact hword _ ⟨' ', _, rfl, by decide⟩ ⟨" or".toList, ' ', rfl, by decide⟩
      (noTag_of_not_mem (by decide))

/-- `blockTagAt?` finds nothing where no tag begins. -/
theorem blockTagAt?_eq_none (h : ¬tagMark <+: t) : blockTagAt? t = none := by
  have hmarker (marker : Text) (hmarker : tagMark <+: marker) : ¬t.startsWith marker = true := by
    intro hstarts
    obtain ⟨rest, hrest⟩ := Option.isSome_iff_exists.1 hstarts
    rw [(Text.stripStart?_eq_some_iff).1 hrest] at h
    exact h (hmarker.trans (List.prefix_append _ _))
  rw [blockTagAt?, List.findSome?_eq_none_iff]
  intro kind _
  have hopening : tagMark <+: "\x7b% ".toList ++ kind.keyword := ⟨' ' :: kind.keyword, rfl⟩
  have hclosing : tagMark <+: (Statement.close kind).text :=
    ⟨' ' :: ((Statement.close kind).content ++ " %\x7d".toList), rfl⟩
  rw [if_neg (hmarker _ hopening), if_neg (hmarker _ hclosing)]

/-- `blockTags` skips text in which no tag begins. -/
theorem blockTags_append {rest : Text} (hs : NoTag s)
    (hseam : s.getLast? = some '\x7b' → rest.head? ≠ some '%') :
    blockTags (s ++ rest) = blockTags rest := by
  induction s with
  | nil => rfl
  | cons c s ih =>
    rw [noTag_cons_iff] at hs
    have hnone : blockTagAt? (c :: (s ++ rest)) = none := by
      refine blockTagAt?_eq_none ?_
      rw [tagMark_prefix_cons_iff]
      cases s with
      | nil =>
        rintro ⟨rfl, hhead⟩
        exact hseam rfl hhead
      | cons d s => exact hs.1
    rw [List.cons_append, blockTags, hnone]
    refine ih hs.2 ?_
    cases s with
    | nil => intro h; cases h
    | cons d s => rwa [List.getLast?_cons_cons] at hseam

/-- A tag counts by how it begins. -/
theorem blockTags_tag {content : Text} (h : NoTag content) (rest : Text) :
    blockTags (tag content ++ rest) =
      (blockTagAt? (tag content ++ rest)).toList ++ blockTags rest := by
  have hinner : NoTag ("% ".toList ++ (content ++ " %\x7d".toList)) := by
    refine NoTag.append_left (by decide) (h.append (noTag_of_not_mem (by decide)) ?_)
    intro _
    decide
  have hlast : ("% ".toList ++ (content ++ " %\x7d".toList)).getLast? = some '\x7d' := by
    rw [← List.append_assoc, List.getLast?_append]
    rfl
  have hrest : blockTags ("% ".toList ++ (content ++ " %\x7d".toList) ++ rest) = blockTags rest :=
    blockTags_append hinner (by rw [hlast]; simp)
  have htag : tag content ++ rest =
      '\x7b' :: ("% ".toList ++ (content ++ " %\x7d".toList) ++ rest) := by
    simp [tag]
  rw [htag, blockTags, hrest]

/-- A print tag is no tag of a block. -/
theorem blockTags_print {content : Text} (h : NoTag content) (hhead : content.head? ≠ some '%')
    (rest : Text) : blockTags (print content ++ rest) = blockTags rest := by
  refine blockTags_append ?_ ?_
  · have hbody : NoTag (content ++ "\x7d\x7d".toList) :=
      h.append (noTag_of_not_mem (by decide)) fun _ => by decide
    have hfirst : (content ++ "\x7d\x7d".toList).head? ≠ some '%' := by
      cases content with
      | nil => decide
      | cons c content => exact hhead
    rw [print, List.append_assoc]
    show NoTag ('\x7b' :: '\x7b' :: (content ++ "\x7d\x7d".toList))
    rw [noTag_cons_iff, noTag_cons_iff]
    exact ⟨fun h => absurd h.2 (by simp), fun h => hfirst h.2, hbody⟩
  · have hlast : (print content).getLast? = some '\x7d' := by
      rw [print, List.getLast?_append]
      rfl
    rw [hlast]
    simp

/-- `blockTags` finds the opening tag of a block. -/
theorem blockTags_opening (kind : BlockKind) {argument : Text} (h : NoTag argument) (rest : Text) :
    blockTags (tag (kind.keyword ++ ' ' :: argument) ++ rest) = .opening kind :: blockTags rest := by
  have hcontent : NoTag (kind.keyword ++ ' ' :: argument) := by
    rw [List.append_cons]
    refine NoTag.append_left ?_ h
    cases kind <;> decide
  have hfront : blockTagAt? (tag (kind.keyword ++ ' ' :: argument) ++ rest) =
      some (.opening kind) := by
    cases kind <;> rfl
  rw [blockTags_tag hcontent, hfront]
  rfl

/-- `blockTags` finds the closing tag of a block. -/
theorem blockTags_close (kind : BlockKind) (rest : Text) :
    blockTags ((Statement.close kind).text ++ rest) = .closing kind :: blockTags rest := by
  have hcontent : NoTag (Statement.close kind).content := by
    apply noTag_of_not_mem
    cases kind <;> decide
  have hfront : blockTagAt? ((Statement.close kind).text ++ rest) = some (.closing kind) := by
    cases kind <;> rfl
  rw [Statement.text] at hfront ⊢
  rw [blockTags_tag hcontent, hfront]
  rfl

/-- Between the tags of a conditional no block begins or ends. -/
theorem blockTags_elseIf {condition : Text} (h : NoTag condition) (rest : Text) :
    blockTags ((Statement.elseIf condition).text ++ rest) = blockTags rest := by
  have hcontent : NoTag (Statement.elseIf condition).content := NoTag.append_left (by decide) h
  have hfront : blockTagAt? ((Statement.elseIf condition).text ++ rest) = none := rfl
  rw [Statement.text] at hfront ⊢
  rw [blockTags_tag hcontent, hfront]
  rfl

theorem blockTags_otherwise (rest : Text) :
    blockTags (Statement.otherwise.text ++ rest) = blockTags rest := rfl

/-- The condition for one case of a switch holds no tag if the subject holds none. -/
theorem noTag_caseCondition {subject : Text} (h : NoTag subject) (n : Nat) :
    NoTag (subject ++ ".index == ".toList ++ decimal n) := by
  have hnumber : '\x7b' ∉ decimal n := not_mem_decimal rfl n
  have hindex : NoTag (".index == ".toList ++ decimal n) :=
    .append_left (by decide) (noTag_of_not_mem hnumber)
  rw [List.append_assoc]
  exact h.append hindex fun _ => by simp

/-- `blockTags` skips a raw print tag. -/
theorem blockTags_printRaw {expression : Text} (h : NoTag expression) (rest : Text) :
    blockTags (printSpaced (expression ++ "|raw".toList) ++ rest) = blockTags rest := by
  have hcontent : NoTag (' ' :: (expression ++ "|raw".toList) ++ [' ']) := by
    rw [List.cons_append, List.append_assoc]
    refine .append_left (s := [' ']) (by decide) (h.append ?_ fun _ => by decide)
    exact noTag_of_not_mem (by decide)
  rw [printSpaced, blockTags_print hcontent (by simp)]

theorem blockTags_contentBlock (rest : Text) :
    blockTags ((Statement.block Directive.contentName).text ++ Statement.endBlock.text ++ rest) =
      blockTags rest := rfl

end Twig

/-! ## The tags that directives print -/

/-- `openTag` has the kind of its opener. -/
theorem OpenBlock.kind_openTag {b : OpenBlock} {kind : BlockKind}
    (h : b.opener.blockKind? = some kind) : b.openTag.kind = kind := by
  cases hswitch : b.switch? with
  | none =>
    rw [openTag_of_no_switch hswitch, h]
    rfl
  | some s =>
    obtain rfl := switch?_eq_some_iff.1 hswitch
    exact Option.some.inj h

namespace Context.Tracks

variable {ds : List Directive} {ctx ctx' : Context} {span : Text} {es : List Emitted}

/-- A case prints its statement. -/
theorem exists_of_emit_nextCase (h : ctx.Tracks ds)
    (hrun : (emitClassified span .nextCase).run.run ctx = (.ok es, ctx')) :
    ∃ before subject inside, ds = before ++ .switch subject :: inside ∧
      OpenTag.awaitsCase (openTags ds) = (ownCases inside = 0 : Bool) ∧
      es = [emitCase (caseStatement subject (ownCases inside))] := by
  rw [emitClassified, Convert.run_nesting_bind_pure] at hrun
  cases hframes : ctx.switches with
  | nil =>
    simp only [Context.nextCase, hframes] at hrun
    cases hrun
  | cons frame frames =>
    obtain ⟨before, inside, hds, hunclosed, hnone, hcases⟩ := h.exists_of_switches_eq_cons hframes
    refine ⟨before, frame.subject, inside, hds, ?_, ?_⟩
    · obtain ⟨rest, hrest⟩ := exists_openTags_eq before frame.subject hunclosed
      rw [hds, hrest, OpenTag.awaitsCase_append (isBlock_of_noSwitchOpen hnone)]
      simp
    · simp only [Context.nextCase, hframes] at hrun
      rw [← hcases, caseStatement]
      exact (Except.ok.inj (Prod.mk.inj hrun).1).symm

/-- An end prints the closing tag of the innermost block. -/
theorem exists_of_emit_endBlock (h : ctx.Tracks ds)
    (hrun : (emitClassified span .endBlock).run.run ctx = (.ok es, ctx')) :
    ∃ l ls, openTags ds = l :: ls ∧ es = [.closing (.block l.kind)] := by
  rw [emitClassified, Convert.run_nesting_bind_pure] at hrun
  have hkinds := h.openedBy.kinds
  cases hblocks : ctx.blocks.kinds with
  | nil =>
    simp only [Context.closeBlock, BlockStack.pop, hblocks] at hrun
    cases hrun
  | cons kind kinds =>
    rw [hblocks, List.map_map, List.map_cons] at hkinds
    obtain ⟨b, bs, hopen, hkind, -⟩ := List.map_eq_cons_iff.1 hkinds
    refine ⟨b.openTag, bs.map OpenBlock.openTag, by rw [openTags, hopen, List.map_cons], ?_⟩
    simp only [Context.closeBlock, BlockStack.pop, hblocks] at hrun
    rw [OpenBlock.kind_openTag hkind]
    exact (Except.ok.inj (Prod.mk.inj hrun).1).symm

/-- The tags among the output for a directive. -/
theorem brackets_emitClassified (h : ctx.Tracks ds)
    (hrun : (emitClassified span d).run.run ctx = (.ok es, ctx')) :
    Emitted.brackets es = (OpenTag.tags (openTags ds) d).map (.map .block) := by
  cases d with
  | nextCase =>
    obtain ⟨before, subject, inside, -, hawaits, rfl⟩ := h.exists_of_emit_nextCase hrun
    rw [OpenTag.tags, hawaits, caseStatement]
    by_cases hcases : ownCases inside = 0 <;> simp [hcases, emitCase, Bracket.map]
  | endBlock =>
    obtain ⟨l, ls, htags, rfl⟩ := h.exists_of_emit_endBlock hrun
    rw [OpenTag.tags, htags]
    rfl
  | switch _ | ifThen _ | foreach _ _ | fill _ | assign _ | elseIf _ | otherwise | contentBlock
  | raw _ | inherit _ | print _ =>
    rw [← Except.ok.inj (Prod.mk.inj hrun).1]
    rfl

/-- `emitPiece` prints the tags of its directive. -/
theorem brackets_emitPiece {p : Piece Text} (h : ctx.Tracks ds)
    (hrun : (emitPiece p).run.run ctx = (.ok es, ctx')) :
    Emitted.brackets es = (OpenTag.tagsAll (openTags ds) (p.onToken Directive.classify)).map
      (.map .block) ∧ ctx'.Tracks (ds ++ p.onToken Directive.classify) := by
  constructor
  · cases p with
    | token span =>
      rw [Piece.onToken, OpenTag.tagsAll, OpenTag.tagsAll, List.append_nil]
      exact h.brackets_emitClassified hrun
    | plain t =>
      obtain ⟨u, ctx₁, -, hpure⟩ := Convert.exists_of_run_bind hrun
      rw [← Except.ok.inj (Prod.mk.inj hpure).1]
      rfl
  · have hpiece := h.convertPiece p
    rw [convertPiece_eq_emitPiece, map_eq_pure_bind, Convert.run_bind_ok hrun] at hpiece
    exact hpiece

/-- The tags among the output for pieces of a text. -/
theorem brackets_mapM_emitPiece {ess : List (List Emitted)} (h : ctx.Tracks ds)
    (hrun : (ps.mapM emitPiece).run.run ctx = (.ok ess, ctx')) :
    Emitted.brackets ess.flatten =
      (OpenTag.tagsAll (openTags ds) (ps.flatMap (Piece.onToken Directive.classify))).map
        (.map .block) ∧
      ctx'.Tracks (ds ++ ps.flatMap (Piece.onToken Directive.classify)) := by
  -- The state behind a piece tracks its directive, too, so the open tags move along.
  induction ps generalizing ds ctx ess with
  | nil =>
    obtain ⟨hess, rfl⟩ := Prod.mk.inj hrun
    rw [← Except.ok.inj hess, List.flatMap_nil, List.append_nil]
    exact ⟨rfl, h⟩
  | cons p ps ih =>
    rw [List.mapM_cons] at hrun
    obtain ⟨es, ctx₁, hpiece, hrun⟩ := Convert.exists_of_run_bind hrun
    obtain ⟨rest, ctx₂, hrest, hrun⟩ := Convert.exists_of_run_bind hrun
    obtain ⟨hess, rfl⟩ := Prod.mk.inj hrun
    obtain ⟨hbrackets, htracks⟩ := h.brackets_emitPiece hpiece
    obtain ⟨hbrackets', htracks'⟩ := ih htracks hrest
    rw [← Except.ok.inj hess, List.flatMap_cons, ← List.append_assoc]
    refine ⟨?_, htracks'⟩
    rw [List.flatten_cons, Emitted.brackets_append, hbrackets, hbrackets', OpenTag.tagsAll_append,
      List.map_append, after_openTags]

/-- `blockTags` finds the opening tag that is emitted. -/
theorem blockTags_sourceAll_opening (kind : BlockKind) {argument : Text}
    (h : Twig.NoTag argument) (rest : Text) :
    Twig.blockTags (Emitted.sourceAll [.opening (.block kind) argument] ++ rest) =
      .opening kind :: Twig.blockTags rest := by
  rw [Emitted.sourceAll_cons, Emitted.sourceAll_nil, List.append_nil]
  exact Twig.blockTags_opening kind h rest

/-- The first case of a switch opens a conditional, and each further one goes on with it. -/
theorem blockTags_emit_nextCase (h : ctx.Tracks ds)
    (hrun : (emitClassified span .nextCase).run.run ctx = (.ok es, ctx'))
    (hsubjects : ∀ subject, .switch subject ∈ ds → Twig.NoTag subject) (rest : Text) :
    Twig.blockTags (Emitted.sourceAll es ++ rest) =
      OpenTag.tags (openTags ds) .nextCase ++ Twig.blockTags rest := by
  obtain ⟨before, subject, inside, hds, hawaits, rfl⟩ := h.exists_of_emit_nextCase hrun
  have hcondition := Twig.noTag_caseCondition (hsubjects subject (by rw [hds]; simp))
  rw [OpenTag.tags, hawaits, caseStatement]
  by_cases hcases : ownCases inside = 0
  · rw [if_pos hcases, if_pos (decide_eq_true hcases)]
    exact blockTags_sourceAll_opening .conditional (hcondition _) rest
  · rw [if_neg hcases, if_neg (by simpa using hcases), emitCase, Emitted.sourceAll_text,
      Twig.blockTags_elseIf (hcondition _)]
    · rfl
    · simp

/-- The tags in the text of the output for a directive. -/
theorem blockTags_emitClassified (h : ctx.Tracks ds)
    (hrun : (emitClassified span d).run.run ctx = (.ok es, ctx'))
    (hsubjects : ∀ subject, .switch subject ∈ ds → Twig.NoTag subject)
    (hcaptures : ∀ e ∈ d.captures, Twig.NoTag e)
    (hprint : ∀ body, d = .print body → body.head? ≠ some '%') (hspan : Twig.NoTag span)
    (hlast : span.getLast? ≠ some '\x7b') (rest : Text) :
    Twig.blockTags (Emitted.sourceAll es ++ rest) =
      OpenTag.tags (openTags ds) d ++ Twig.blockTags rest := by
  cases d with
  | nextCase => exact h.blockTags_emit_nextCase hrun hsubjects rest
  | endBlock =>
    obtain ⟨l, ls, htags, rfl⟩ := h.exists_of_emit_endBlock hrun
    rw [OpenTag.tags, htags, Emitted.sourceAll_cons, Emitted.sourceAll_nil, List.append_nil]
    exact Twig.blockTags_close l.kind rest
  -- A switch prints nothing before its first case.
  | switch subject =>
    obtain rfl : [] = es := Except.ok.inj (Prod.mk.inj hrun).1
    rfl
  | ifThen condition =>
    obtain rfl : [.opening (.block .conditional) (Condition.toTwig condition)] = es :=
      Except.ok.inj (Prod.mk.inj hrun).1
    exact blockTags_sourceAll_opening .conditional
      (Twig.noTag_toTwig (hcaptures condition List.mem_cons_self)) rest
  | foreach item collection =>
    obtain rfl : [.opening (.block .loop) (item ++ (" in ".toList ++ collection))] = es :=
      Except.ok.inj (Prod.mk.inj hrun).1
    have hitem := hcaptures item List.mem_cons_self
    have hcollection := hcaptures collection (List.mem_cons_of_mem _ List.mem_cons_self)
    have hargument : Twig.NoTag (item ++ (" in ".toList ++ collection)) :=
      hitem.append (.append_left (by decide) hcollection) fun _ => by simp
    exact blockTags_sourceAll_opening .loop hargument rest
  | fill expression | assign expression =>
    obtain rfl : [.opening (.block .assignment) expression] = es :=
      Except.ok.inj (Prod.mk.inj hrun).1
    exact blockTags_sourceAll_opening .assignment (hcaptures expression List.mem_cons_self) rest
  | elseIf condition =>
    obtain rfl : [.text (Twig.Statement.elseIf (Condition.toTwig condition)).text] = es :=
      Except.ok.inj (Prod.mk.inj hrun).1
    have hcondition := Twig.noTag_toTwig (hcaptures condition List.mem_cons_self)
    rw [Emitted.sourceAll_text, Twig.blockTags_elseIf hcondition]
    rfl
  | otherwise =>
    obtain rfl : [.text Twig.Statement.otherwise.text] = es := Except.ok.inj (Prod.mk.inj hrun).1
    rw [Emitted.sourceAll_text, Twig.blockTags_otherwise]
    rfl
  | contentBlock =>
    obtain rfl : [.text ((Twig.Statement.block Directive.contentName).text ++
        Twig.Statement.endBlock.text)] = es := Except.ok.inj (Prod.mk.inj hrun).1
    rw [Emitted.sourceAll_text, Twig.blockTags_contentBlock]
    rfl
  | raw expression =>
    obtain rfl : [.text (Twig.printSpaced (expression ++ "|raw".toList))] = es :=
      Except.ok.inj (Prod.mk.inj hrun).1
    rw [Emitted.sourceAll_text, Twig.blockTags_printRaw (hcaptures expression List.mem_cons_self)]
    rfl
  -- What is printed is the span itself.
  | inherit _ =>
    obtain rfl : [.text span] = es := Except.ok.inj (Prod.mk.inj hrun).1
    rw [Emitted.sourceAll_text, Twig.blockTags_append hspan fun h => absurd h hlast]
    rfl
  | print body =>
    obtain rfl : [.text (Twig.print body)] = es := Except.ok.inj (Prod.mk.inj hrun).1
    have hbody := hcaptures body List.mem_cons_self
    rw [Emitted.sourceAll_text, Twig.blockTags_print hbody (hprint body rfl)]
    rfl

/-- What a directive other than a switch prints begins with a sign of its own. -/
theorem exists_head_emitClassified (h : ctx.Tracks ds)
    (hrun : (emitClassified span d).run.run ctx = (.ok es, ctx'))
    (hd : ∀ subject, d ≠ .switch subject) (hspan : span.head? = some ':') :
    ∃ c cs, Emitted.sourceAll es = c :: cs ∧ c ≠ '%' := by
  cases d with
  | nextCase =>
    obtain ⟨before, subject, inside, -, -, rfl⟩ := h.exists_of_emit_nextCase hrun
    rw [Emitted.sourceAll_cons, source_emitCase]
    exact ⟨'\x7b', _, rfl, by decide⟩
  | endBlock =>
    obtain ⟨l, ls, -, rfl⟩ := h.exists_of_emit_endBlock hrun
    exact ⟨'\x7b', _, rfl, by decide⟩
  | switch subject => exact absurd rfl (hd subject)
  | inherit _ =>
    obtain rfl : [.text span] = es := Except.ok.inj (Prod.mk.inj hrun).1
    obtain ⟨cs, rfl⟩ := List.head?_eq_some_iff.1 hspan
    exact ⟨':', _, rfl, by decide⟩
  | ifThen _ | foreach _ _ | fill _ | assign _ | elseIf _ | otherwise | contentBlock | raw _
  | print _ =>
    rw [← Except.ok.inj (Prod.mk.inj hrun).1]
    exact ⟨'\x7b', _, rfl, by decide⟩

end Context.Tracks

/-! ## Texts that spell no tag -/

namespace Directive

/-- `ofKeyword?` never comes to a print directive. -/
theorem ofKeyword?_ne_print (argument body : Text) (keyword : Keyword) :
    ofKeyword? argument keyword ≠ some (.print body) := by
  have hwith (make : Text → Directive) (a : Text) (hmake : ∀ a, make a ≠ .print body) :
      withArgument? make a ≠ some (.print body) := by
    unfold withArgument?
    split
    · simp
    · simpa using hmake a
  cases keyword with
  | foreach =>
    intro h
    obtain ⟨_, -, hmake⟩ := Option.bind_eq_some_iff.1 h
    exact hwith _ _ (by simp) hmake
  | raw =>
    rw [ofKeyword?]
    split
    · simp
    · exact hwith _ _ (by simp)
  | nextCase | otherwise | endBlock => simp [ofKeyword?, alone?]
  | switch | ifThen | elseIf | fill | assign | inherit => exact hwith _ _ (by simp)

/-- What is printed is the whole body of a span. -/
theorem eq_body_of_classify_eq_print {span body : Text} (h : classify span = .print body) :
    body = Span.body span := by
  rw [classify, ofBody_eq] at h
  cases hd : (Keyword.ofWord? (splitBody (Span.body span)).1).bind
      (ofKeyword? (splitBody (Span.body span)).2) with
  | none =>
    rw [hd, Option.getD_none] at h
    exact (Directive.print.inj h).symm
  | some d =>
    rw [hd, Option.getD_some] at h
    obtain ⟨keyword, -, hkeyword⟩ := Option.bind_eq_some_iff.1 hd
    exact absurd (h ▸ hkeyword) (ofKeyword?_ne_print _ _ _)

end Directive

/-- What is left of a span when switches are left out. -/
def Directive.unlessSwitch (span : Text) : Text :=
  match classify span with
  | switch _ => []
  | _ => span

/-- Pieces that bring no tag into the output, except by what their directives print. -/
structure Piece.SpellNoTag (ps : List (Piece Text)) : Prop where
  plain : ∀ t, .plain t ∈ ps → Twig.NoTag t ∧ t.contains MacroToken.opening = false
  token : ∀ span, .token span ∈ ps → Twig.NoTag span ∧ Text.Bounded [':'] [':'] span ∧
    (Span.body span).head? ≠ some '%'
  joined : Twig.NoTag (renderAll Directive.unlessSwitch ps)

/-- Neither the text nor what is left of it without its switches holds the beginning of a tag, no
    body of a directive goes on like a tag behind a brace, and no inline token stands for other
    text. -/
structure SpellsNoTag (t : Text) : Prop where
  source : Twig.NoTag t
  joined : Twig.NoTag (Piece.renderAll Directive.unlessSwitch (conversionPieces t))
  bodies : ∀ span ∈ Piece.tokens (conversionPieces t), (Span.body span).head? ≠ some '%'
  inline : t.contains MacroToken.opening = false

/-- `conversionPieces` of a text that spells no tag spell none. -/
theorem SpellsNoTag.pieces (h : SpellsNoTag t) : Piece.SpellNoTag (conversionPieces t) := by
  have hwithin (p : Piece Text) (hp : p ∈ conversionPieces t) : p.render id <:+: t := by
    have := Piece.render_infix_renderAll (f := id) hp
    rwa [renderAll_conversionPieces] at this
  constructor
  · intro u hu
    refine ⟨h.source.of_infix (hwithin _ hu), ?_⟩
    have hinline := h.inline
    rw [Text.contains_eq_false_iff] at hinline ⊢
    exact fun hmark => hinline (hmark.trans (hwithin _ hu))
  · intro span hspan
    refine ⟨h.source.of_infix (hwithin _ hspan), bounded_of_mem_conversionPieces hspan, ?_⟩
    exact h.bodies span (List.mem_filterMap.2 ⟨_, hspan, rfl⟩)
  · exact h.joined

theorem Piece.SpellNoTag.tail {p : Piece Text} (h : SpellNoTag (p :: ps)) : SpellNoTag ps where
  plain t ht := h.plain t (List.mem_cons_of_mem _ ht)
  token span hspan := h.token span (List.mem_cons_of_mem _ hspan)
  joined := h.joined.of_infix (List.suffix_append _ _).isInfix

/-- Pieces that spell no tag capture none. -/
theorem Piece.SpellNoTag.captures (h : SpellNoTag ps) {span : Text} (hspan : .token span ∈ ps) :
    ∀ e ∈ (Directive.classify span).captures, Twig.NoTag e := by
  intro e he
  obtain ⟨hsource, -⟩ := h.token span hspan
  exact hsource.of_infix (Directive.infix_of_mem_captures he)

namespace Context.Tracks

variable {ds : List Directive} {ctx ctx' : Context} {es : List Emitted} {span : Text}
  {ps : List (Piece Text)}

/-- The tags in the text of the output for a directive that spells no tag. -/
theorem blockTags_emitDirective (h : ctx.Tracks ds)
    (hrun : (emitDirective span).run.run ctx = (.ok es, ctx'))
    (hsubjects : ∀ subject, .switch subject ∈ ds → Twig.NoTag subject)
    (hps : Piece.SpellNoTag (.token span :: ps)) (rest : Text) :
    Twig.blockTags (Emitted.sourceAll es ++ rest) =
      OpenTag.tags (openTags ds) (Directive.classify span) ++ Twig.blockTags rest := by
  obtain ⟨hspan, ⟨-, ⟨cs, c, hconcat, hc⟩⟩, hbody⟩ := hps.token span List.mem_cons_self
  have hprint (body : Text) (hclassify : Directive.classify span = .print body) :
      body.head? ≠ some '%' := by
    rw [Directive.eq_body_of_classify_eq_print hclassify]
    exact hbody
  have hlast : span.getLast? ≠ some '\x7b' := by
    rw [hconcat, List.getLast?_concat, List.mem_singleton.1 hc]
    decide
  exact h.blockTags_emitClassified hrun hsubjects (hps.captures List.mem_cons_self) hprint hspan
    hlast rest

/-- The output for a directive and what follows goes on with `%` only where the source does: a
    switch prints nothing, and every other directive begins with a sign of its own. -/
theorem head_emitDirective (h : ctx.Tracks ds)
    (hrun : (emitDirective span).run.run ctx = (.ok es, ctx')) (hspan : span.head? = some ':')
    {out source : Text} (hout : out.head? = some '%' → source.head? = some '%')
    (hhead : (Emitted.sourceAll es ++ out).head? = some '%') :
    (Directive.unlessSwitch span ++ source).head? = some '%' := by
  by_cases hswitch : ∃ subject, Directive.classify span = .switch subject
  · obtain ⟨subject, hsubject⟩ := hswitch
    have hes : [] = es := by
      rw [emitDirective, hsubject] at hrun
      exact Except.ok.inj (Prod.mk.inj hrun).1
    rw [Directive.unlessSwitch, hsubject]
    rw [← hes] at hhead
    exact hout hhead
  · obtain ⟨c, cs, heq, hne⟩ := h.exists_head_emitClassified hrun
      (fun subject hsubject => hswitch ⟨subject, hsubject⟩) hspan
    rw [heq] at hhead
    exact absurd (Option.some.inj hhead) hne

/-- The tags in the output for pieces are those that the directives print, and the output goes on
    with a tag only where the pieces do. -/
theorem blockTags_mapM_emitPiece {ess : List (List Emitted)} (h : ctx.Tracks ds)
    (hrun : (ps.mapM emitPiece).run.run ctx = (.ok ess, ctx'))
    (hsubjects : ∀ subject, .switch subject ∈ ds → Twig.NoTag subject)
    (hps : Piece.SpellNoTag ps) :
    Twig.blockTags (Emitted.sourceAll ess.flatten) =
        OpenTag.tagsAll (openTags ds) (ps.flatMap (Piece.onToken Directive.classify)) ∧
      ((Emitted.sourceAll ess.flatten).head? = some '%' →
        (Piece.renderAll Directive.unlessSwitch ps).head? = some '%') := by
  induction ps generalizing ds ctx ess with
  | nil =>
    obtain ⟨hess, -⟩ := Prod.mk.inj hrun
    rw [← Except.ok.inj hess]
    exact ⟨rfl, by simp⟩
  | cons p ps ih =>
    rw [List.mapM_cons] at hrun
    obtain ⟨es, ctx₁, hpiece, hrun⟩ := Convert.exists_of_run_bind hrun
    obtain ⟨rest, ctx₂, hrest, hrun⟩ := Convert.exists_of_run_bind hrun
    obtain ⟨hess, rfl⟩ := Prod.mk.inj hrun
    have htracks := (h.brackets_emitPiece hpiece).2
    rw [← Except.ok.inj hess, List.flatten_cons, Emitted.sourceAll_append, List.flatMap_cons,
      OpenTag.tagsAll_append, after_openTags, Piece.renderAll_cons]
    cases p with
    | plain t =>
      obtain ⟨htext, hinline⟩ := hps.plain t List.mem_cons_self
      rw [Piece.onToken, List.append_nil] at htracks
      obtain ⟨htags, hhead⟩ := ih htracks hrest hsubjects hps.tail
      have hes : es = [.text t] := by
        rw [emitPiece, fillMacroTokens_of_no_opening hinline] at hpiece
        exact (Except.ok.inj (Prod.mk.inj hpiece).1).symm
      rw [hes, Emitted.sourceAll_text, Piece.onToken, List.append_nil]
      show Twig.blockTags (t ++ _) = OpenTag.tagsAll (openTags ds) _ ∧
        ((t ++ _).head? = _ → (t ++ _).head? = _)
      constructor
      · rw [Twig.blockTags_append htext, htags]
        -- A brace at the end of the run meets what comes next in the pieces, too.
        exact fun hlast hpercent => hps.joined.seam hlast (hhead hpercent)
      · cases t with
        | nil => exact hhead
        | cons c t => exact id
    | token span =>
      -- The subject of a switch stays in use by the cases behind it.
      have hsubjects' (subject : Text)
          (hmem : .switch subject ∈ ds ++ [Directive.classify span]) : Twig.NoTag subject := by
        rcases List.mem_append.1 hmem with hmem | hmem
        · exact hsubjects subject hmem
        · refine hps.captures List.mem_cons_self subject ?_
          rw [← List.mem_singleton.1 hmem]
          exact List.mem_cons_self
      obtain ⟨htags, hhead⟩ := ih htracks hrest hsubjects' hps.tail
      obtain ⟨-, ⟨⟨c, cs, hcons, hc⟩, -⟩, -⟩ := hps.token span List.mem_cons_self
      have hspan : span.head? = some ':' := by rw [hcons, List.mem_singleton.1 hc, List.head?_cons]
      refine ⟨?_, h.head_emitDirective hpiece hspan hhead⟩
      rw [h.blockTags_emitDirective hpiece hsubjects hps, htags, Piece.onToken, OpenTag.tagsAll,
        OpenTag.tagsAll, List.append_nil]

end Context.Tracks

/-! ## Accepted text -/

/-- Brackets of distinct scopes nest as the scopes do. -/
theorem Bracket.run_map {α β : Type} [DecidableEq α] [DecidableEq β] {f : α → β}
    (hf : Function.Injective f) (scopes : List α) (bs : List (Bracket α)) :
    run (scopes.map f) (bs.map (map f)) = (run scopes bs).map (List.map f) := by
  fun_induction run scopes bs with
  | case1 scopes => rfl
  | case2 scopes a bs ih => exact ih
  | case3 a scopes bs ih => rw [List.map_cons, List.map_cons, map, run, if_pos rfl, ih]
  | case4 a scopes b bs hne =>
    rw [List.map_cons, List.map_cons, map, run, if_neg fun h => hne (hf h)]
    rfl
  | case5 b bs => rfl

/-- `WellNested` brackets stay so under an injective change of their scopes, and come from such. -/
theorem wellNested_map_iff {α β : Type} [DecidableEq α] [DecidableEq β] {f : α → β}
    (hf : Function.Injective f) {bs : List (Bracket α)} :
    WellNested (bs.map (.map f)) ↔ WellNested bs := by
  have hrun := Bracket.run_map hf [] bs
  rw [List.map_nil] at hrun
  rw [wellNested_iff_run, wellNested_iff_run, hrun]
  simp

/-- The blocks of an accepted text are closed. -/
theorem Context.Tracks.openTags_eq_nil {ds : List Directive} {ctx : Context} (h : ctx.Tracks ds)
    (hkinds : ctx.blocks.kinds = []) : openTags ds = [] := by
  have hopened := h.openedBy.kinds
  rw [hkinds, List.map_map, List.map_nil, List.map_eq_nil_iff] at hopened
  rw [openTags, hopened, List.map_nil]

/-- The tags that an accepted text prints nest exactly when each of its switches begins in its
    place.  They can be read off the output if the text spells no tag itself. -/
theorem convertClosedText_wellNested_iff {options : Options} {kind : TemplateKind} {t out : Text}
    (hout : ((convertClosedText t).run.run { options, kind }).1 = .ok out) :
    let ds := (Piece.tokens (conversionPieces t)).map Directive.classify
    (∃ es, ((emitText t).run.run { options, kind }).1 = .ok es ∧ Emitted.sourceAll es = out ∧
      (WellNested (Emitted.brackets es) ↔ BeginsSwitches ds)) ∧
    (SpellsNoTag t → (WellNested (Twig.blockTags out) ↔ BeginsSwitches ds)) := by
  intro ds
  have hfresh : Context.Tracks [] { options, kind } := Context.tracks_nil rfl rfl
  rcases hrun : (convertClosedText t).run.run { options, kind } with ⟨result, ctx⟩
  rw [hrun] at hout
  obtain rfl : result = .ok out := hout
  obtain ⟨output, ctx₁, htext, hrun⟩ := Convert.exists_of_run_bind hrun
  obtain ⟨u, ctx₂, hclosed, hrun⟩ := Convert.exists_of_run_bind hrun
  obtain rfl : output = out := Except.ok.inj (Prod.mk.inj hrun).1
  -- What is emitted spells the output.
  rw [convertText_eq_emitText, map_eq_pure_bind] at htext
  obtain ⟨es, ctx₃, hemit, hpure⟩ := Convert.exists_of_run_bind htext
  obtain ⟨hsource, rfl⟩ := Prod.mk.inj hpure
  have hsource : Emitted.sourceAll es = output := Except.ok.inj hsource
  obtain ⟨ess, ctx₄, hpieces, hpure⟩ := Convert.exists_of_run_bind hemit
  obtain ⟨hflatten, rfl⟩ := Prod.mk.inj hpure
  have hflatten : ess.flatten = es := Except.ok.inj hflatten
  obtain ⟨hbrackets, htracks⟩ := hfresh.brackets_mapM_emitPiece hpieces
  have hds : (conversionPieces t).flatMap (Piece.onToken Directive.classify) = ds :=
    (Piece.map_tokens _ _).symm
  rw [hds] at hbrackets htracks
  -- The text was accepted, so no tag is open at its end.
  have hnil : OpenTag.after [] ds = [] := by
    rw [after_nil]
    exact htracks.openTags_eq_nil (Convert.kinds_of_run_ensureClosed hclosed).1
  have hiff : WellNested (OpenTag.tagsAll [] ds) ↔ BeginsSwitches ds := by
    rw [OpenTag.wellNested_tagsAll_iff hnil, beginsSwitches_iff]
  constructor
  · refine ⟨es, by rw [hemit], hsource, ?_⟩
    rw [← hflatten, hbrackets, wellNested_map_iff fun _ _ => Scope.block.inj]
    exact hiff
  · intro hspells
    obtain ⟨htags, -⟩ := hfresh.blockTags_mapM_emitPiece hpieces (by simp) hspells.pieces
    rw [← hsource, ← hflatten, htags, hds]
    exact hiff

/-- The tags nest also when the first case of a switch stands in a conditional. -/
theorem convertClosedText_wellNested_nested :
    let t := "::switch s::::if y::::case::::end::::end::".toList
    let out := ("\x7b% if y %\x7d\x7b% if s.index == 0 %\x7d" ++
      "\x7b% endif %\x7d\x7b% endif %\x7d").toList
    ((convertClosedText t).run.run { options := {}, kind := .document }).1 = .ok out ∧
      WellNested (Twig.blockTags out) := by
  intro t out
  have hout : ((convertClosedText t).run.run { options := {}, kind := .document }).1 = .ok out := by
    decide +kernel
  have hspells : SpellsNoTag t :=
    ⟨by decide +kernel, by decide +kernel, by decide +kernel, by decide +kernel⟩
  exact ⟨hout, ((convertClosedText_wellNested_iff hout).2 hspells).2 (by decide +kernel)⟩

/-- A switch without a case prints the closing tag alone, and a first case inside a loop prints its
    opening tag there. -/
theorem convertClosedText_not_wellNested :
    let bare := "::switch s::::end::".toList
    let crossed := "::switch s::::foreach i c::::case::::end::::end::".toList
    SpellsNoTag bare ∧ SpellsNoTag crossed ∧
    (∃ out, ((convertClosedText bare).run.run { options := {}, kind := .document }).1 = .ok out ∧
      out = "\x7b% endif %\x7d".toList ∧ ¬WellNested (Twig.blockTags out)) ∧
    ∃ out, ((convertClosedText crossed).run.run { options := {}, kind := .document }).1 = .ok out ∧
      out = ("\x7b% for i in c %\x7d\x7b% if s.index == 0 %\x7d\x7b% endfor %\x7d" ++
        "\x7b% endif %\x7d").toList ∧ ¬WellNested (Twig.blockTags out) := by
  intro bare crossed
  refine ⟨⟨?_, ?_, ?_, ?_⟩, ⟨?_, ?_, ?_, ?_⟩, ⟨_, ?_, rfl, ?_⟩, ⟨_, ?_, rfl, ?_⟩⟩ <;> decide +kernel

end TemploTwig
