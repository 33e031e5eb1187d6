import TemploTwig.Directive.Attribute
import TemploTwig.Directive.Basic
import TemploTwig.Proofs.Placeholders.Marks
import TemploTwig.Source.Condition
import TemploTwig.Source.TemplatePath
import TemploTwig.Twig.Statement

/-!
# Marks and the spelling of Twig

Twig statements are written in small letters and signs.  Marks that have a character of their own
and touch no sign are *apart*: a statement holds such a mark only where one of its parts does.
-/

namespace TemploTwig

variable {marks : List Text} {t argument e : Text} {d : Directive}

namespace Twig

/-- The characters with which fixed text begins or ends where it meets a part of the template.
    The `n` is the one of `not`. -/
def isBorder (c : Char) : Bool :=
  c == 'n' || c.isDigit || " \n\x7b\x7d%.'\"|=:<>/?!&;()".toList.contains c

/-- The characters of fixed text. -/
def isOwn (c : Char) : Bool := isBorder c || c.isLower || c == '_'

/-- The parts of a statement that come from the template. -/
def Statement.parts : Statement → List Text
  | ifThen c | elseIf c => [c]
  | forIn item collection => [item, collection]
  | assign e => [e]
  | block name => [name]
  | inherit path => [path]
  | importMacros library => [library]
  | defineMacro signature => [signature]
  | otherwise | close _ | endBlock | endMacro => []

end Twig

namespace Text

/-- Marks that the fixed text of Twig cannot hold and cannot complete. -/
structure Apart (marks : List Text) : Prop where
  bars : ∀ c, Twig.isBorder c = true → Bars marks c
  foreign : ∀ m ∈ marks, ∃ c ∈ m, Twig.isOwn c = false

/-- Whether marks are apart can be seen from their characters. -/
theorem apart_of_all
    (h : marks.all (fun m =>
    m.all (fun c => !Twig.isBorder c) && m.any (fun c => !Twig.isOwn c)) = true) : Apart marks := by
  have hmark (m : Text) (hm : m ∈ marks) := List.all_eq_true.1 h m hm
  simp only [Bool.and_eq_true, List.all_eq_true, List.any_eq_true, Bool.not_eq_true'] at hmark
  constructor
  · intro c hc m hm hmem
    rw [(hmark m hm).1 c hmem] at hc
    cases hc
  · exact fun m hm => (hmark m hm).2

namespace Apart

variable {marks : List Text} {t : Text}

theorem exists_concat {fixed : Text} (h : fixed.getLast?.any Twig.isBorder = true) :
    ∃ front c, fixed = front ++ [c] ∧ Twig.isBorder c = true := by
  obtain ⟨c, hlast, hc⟩ := (Option.any_eq_true _ _).1 h
  obtain ⟨front, rfl⟩ := List.getLast?_eq_some_iff.1 hlast
  exact ⟨front, c, rfl, hc⟩

theorem nil_not_mem (h : Apart marks) : [] ∉ marks := by
  intro hnil
  obtain ⟨c, hc, -⟩ := h.foreign [] hnil
  cases hc

theorem free_own (h : Apart marks) (ht : t.all Twig.isOwn = true) : Free marks t := by
  intro m hm hwithin
  obtain ⟨c, hc, hown⟩ := h.foreign m hm
  have := List.all_eq_true.1 ht c (hwithin.mem hc)
  rw [hown] at this
  cases this

/-- Fixed text in front of a part. -/
theorem free_before (h : Apart marks) (fixed : Text) (hown : fixed.all Twig.isOwn = true)
    (hlast : fixed.getLast?.any Twig.isBorder = true) (ht : Free marks t) :
    Free marks (fixed ++ t) := by
  obtain ⟨front, c, rfl, hc⟩ := exists_concat hlast
  exact free_append (h.free_own hown) ht (not_across_of_last (h.bars c hc) front t)

/-- Fixed text behind a part. -/
theorem free_behind (h : Apart marks) (fixed : Text) (hown : fixed.all Twig.isOwn = true)
    (hhead : fixed.head?.any Twig.isBorder = true) (ht : Free marks t) :
    Free marks (t ++ fixed) := by
  cases fixed with
  | nil => cases hhead
  | cons c fixed =>
    exact free_append ht (h.free_own hown) ((firm_cons (h.bars c hhead) fixed).not_across t)

/-- Fixed text between two parts. -/
theorem free_between (h : Apart marks) (fixed : Text) {s : Text} (hown : fixed.all Twig.isOwn = true)
    (hhead : fixed.head?.any Twig.isBorder = true) (hlast : fixed.getLast?.any Twig.isBorder = true)
    (hs : Free marks s) (ht : Free marks t) : Free marks (s ++ fixed ++ t) := by
  cases fixed with
  | nil => cases hhead
  | cons c fixed =>
    rw [List.append_assoc]
    exact free_append hs (h.free_before _ hown hlast ht)
      ((firm_cons (h.bars c hhead) _).not_across s)

/-- A text of own characters between borders `IsBordered`. -/
theorem isBordered (h : Apart marks) (fixed : Text) (hown : fixed.all Twig.isOwn = true)
    (hhead : fixed.head?.any Twig.isBorder = true) (hlast : fixed.getLast?.any Twig.isBorder = true) :
    Substitutes.IsBordered marks fixed where
  head := by
    cases fixed with
    | nil => cases hhead
    | cons c fixed => exact ⟨c, fixed, rfl, h.bars c hhead⟩
  last := by
    obtain ⟨front, c, hfixed, hc⟩ := exists_concat hlast
    exact ⟨front, c, hfixed, h.bars c hc⟩
  free := h.free_own hown

end Apart

end Text

/-! ## Statements -/

namespace Twig

variable {marks : List Text}

theorem free_tag (h : Text.Apart marks) {content : Text} (hcontent : Text.Free marks content) :
    Text.Free marks (tag content) :=
  h.free_behind " %\x7d".toList rfl rfl
    (h.free_before "\x7b% ".toList rfl rfl hcontent)

theorem free_print (h : Text.Apart marks) {content : Text} (hcontent : Text.Free marks content) :
    Text.Free marks (print content) :=
  h.free_behind "\x7d\x7d".toList rfl rfl
    (h.free_before "\x7b\x7b".toList rfl rfl hcontent)

theorem isBordered_tag (h : Text.Apart marks) {content : Text} (hcontent : Text.Free marks content) :
    Substitutes.IsBordered marks (tag content) where
  head := ⟨'\x7b', _, rfl, h.bars _ rfl⟩
  last := ⟨"\x7b% ".toList ++ content ++ " %".toList, '\x7d', by simp [tag], h.bars _ rfl⟩
  free := free_tag h hcontent

theorem isBordered_print (h : Text.Apart marks) {content : Text}
    (hcontent : Text.Free marks content) : Substitutes.IsBordered marks (print content) where
  head := ⟨'\x7b', _, rfl, h.bars _ rfl⟩
  last := ⟨"\x7b\x7b".toList ++ content ++ ['\x7d'], '\x7d', by simp [print], h.bars _ rfl⟩
  free := free_print h hcontent

theorem isBordered_printSpaced (h : Text.Apart marks) {expression : Text}
    (hexpression : Text.Free marks expression) :
    Substitutes.IsBordered marks (printSpaced expression) :=
  isBordered_print h (h.free_behind [' '] rfl rfl (h.free_before [' '] rfl rfl hexpression))

/-- A statement holds no mark if its parts do not. -/
theorem Statement.isBordered_text (h : Text.Apart marks) (s : Statement)
    (hparts : ∀ e ∈ s.parts, Text.Free marks e) : Substitutes.IsBordered marks s.text := by
  refine isBordered_tag h ?_
  cases s with
  | ifThen c => exact h.free_before "if ".toList rfl rfl (hparts c (by simp [parts]))
  | elseIf c => exact h.free_before "elseif ".toList rfl rfl (hparts c (by simp [parts]))
  | otherwise => exact h.free_own rfl
  | forIn item collection =>
    exact h.free_between " in ".toList rfl rfl rfl
      (h.free_before "for ".toList rfl rfl (hparts item (by simp [parts])))
      (hparts collection (by simp [parts]))
  | assign e => exact h.free_before "set ".toList rfl rfl (hparts e (by simp [parts]))
  | close kind => cases kind <;> exact h.free_own rfl
  | block name => exact h.free_before "block ".toList rfl rfl (hparts name (by simp [parts]))
  | endBlock => exact h.free_own rfl
  | inherit path =>
    exact h.free_before "extends ".toList rfl rfl (hparts path (by simp [parts]))
  | importMacros library =>
    exact h.free_behind "' as macros".toList rfl rfl
      (h.free_before "import '".toList rfl rfl (hparts library (by simp [parts])))
  | defineMacro signature =>
    exact h.free_before "macro ".toList rfl rfl (hparts signature (by simp [parts]))
  | endMacro => exact h.free_own rfl

end Twig

/-! ## Conditions -/

namespace Condition

variable {marks : List Text}

/-- `spellNot` makes no mark. -/
theorem free_spellNot (hword : Substitutes.IsBordered marks "not ".toList) (ht : Text.Free marks t)
    :
    Text.Free marks (spellNot t) := by
  have hsub : Substitutes (fun _ new => new = "not ".toList) t (spellNot t) := by
    refine Substitutes.renderAll_scan ?_ t
    intro t bang rest hnext
    change takeBang? t = some (bang, rest) at hnext
    unfold takeBang? at hnext
    split at hnext
    · next cs =>
      simp only [Option.some.injEq, Prod.mk.injEq] at hnext
      obtain ⟨rfl, rfl⟩ := hnext
      refine ⟨'!' :: cs.takeWhile isBlank, ?_, ?_⟩
      · rw [List.cons_append, List.takeWhile_append_dropWhile]
      · rw [Bang.toTwig]
        split
        · exact Substitutes.single rfl
        · exact Substitutes.refl _
    · cases hnext
  refine hsub.free ?_ ht
  rintro old new rfl
  exact hword

/-- `spellOperator` makes no mark. -/
theorem free_spellOperator {mark : Char} {word : Text} (hword : Substitutes.IsBordered marks word)
    (ht : Text.Free marks t) : Text.Free marks (spellOperator mark word t) := by
  have hsub : Substitutes (fun _ new => new = word) t (spellOperator mark word t) := by
    refine Substitutes.renderAll_scan ?_ t
    intro t _ rest hnext
    -- An operator takes its blanks with it, on both sides.
    have hsuffix : rest <:+ t := by
      change takeOperator? mark t = some ((), rest) at hnext
      unfold takeOperator? at hnext
      split at hnext
      · next a b r heq =>
        split at hnext
        · simp only [Option.some.injEq, Prod.mk.injEq, true_and] at hnext
          rw [← hnext]
          have hr : r <:+ t.dropWhile isBlank := by
            rw [heq]
            exact (List.suffix_cons b r).trans (List.suffix_cons a _)
          exact ((List.dropWhile_suffix _).trans hr).trans (List.dropWhile_suffix _)
        · cases hnext
      · cases hnext
    obtain ⟨old, hold⟩ := hsuffix
    exact ⟨old, hold.symm, Substitutes.single rfl⟩
  refine hsub.free ?_ ht
  rintro old new rfl
  exact hword

/-- Respelling a condition brings in no mark that the words of Twig cannot be part of. -/
theorem free_toTwig_of_isBordered (hnot : Substitutes.IsBordered marks "not ".toList)
    (hand : Substitutes.IsBordered marks " and ".toList)
    (hor : Substitutes.IsBordered marks " or ".toList) {condition : Text}
    (hfree : Text.Free marks condition) : Text.Free marks (toTwig condition) :=
  free_spellOperator hor (free_spellOperator hand (free_spellNot hnot hfree))

theorem free_toTwig (h : Text.Apart marks) {condition : Text} (hfree : Text.Free marks condition) :
    Text.Free marks (toTwig condition) :=
  free_toTwig_of_isBordered (h.isBordered _ rfl rfl rfl) (h.isBordered _ rfl rfl rfl)
    (h.isBordered _ rfl rfl rfl) hfree

end Condition

/-! ## Directives -/

theorem Text.trim_infix (t : Text) : t.trim <:+: t := by
  have hend : t.trim <+: t.trimStart := by
    rw [Text.trim, Text.trimEnd, ← List.reverse_suffix, List.reverse_reverse]
    exact List.dropWhile_suffix _
  exact hend.isInfix.trans (List.dropWhile_suffix _).isInfix

theorem Text.stripBoth?_infix {marker inner : Text} (h : Text.stripBoth? marker t = some inner) :
    inner <:+: t := by
  simp only [Text.stripBoth?, Option.bind_eq_some_iff, Text.stripStart?_eq_some_iff,
    Text.stripEnd?_eq_some_iff] at h
  obtain ⟨rest, rfl, rfl⟩ := h
  exact ⟨marker, marker, by simp⟩

theorem Span.body_infix (span : Text) : Span.body span <:+: span := by
  rw [Span.body]
  cases h : Text.stripBoth? Span.delimiter span with
  | none => exact List.infix_refl span
  | some inner => exact Text.stripBoth?_infix h

namespace Directive

theorem captures_of_withArgument? {make : Text → Directive} (hmake : ∀ a, (make a).captures = [a])
    (h : withArgument? make argument = some d) : d.captures = [argument] := by
  unfold withArgument? at h
  split at h
  · cases h
  · rw [← Option.some.inj h, hmake]

theorem captures_of_alone? {d' : Directive} (hd : d.captures = []) (h : alone? d argument = some d')
    :
    d'.captures = [] := by
  unfold alone? at h
  split at h
  · rw [← Option.some.inj h, hd]
  · cases h

/-- `foreach?` captures parts of its argument. -/
theorem infix_of_mem_captures_foreach? (h : foreach? argument = some d) (he : e ∈ d.captures) :
    e <:+: argument := by
  simp only [foreach?, Option.bind_eq_some_iff, Prod.exists] at h
  obtain ⟨item, rest, hcut, hmake⟩ := h
  unfold Text.cutAtBlank? at hcut
  split at hcut
  · cases hcut
  · next c r hdrop =>
    obtain ⟨rfl, rfl⟩ := Prod.mk.inj (Option.some.inj hcut)
    unfold withArgument? at hmake
    split at hmake
    · cases hmake
    · rw [← Option.some.inj hmake] at he
      rcases List.mem_cons.1 he with rfl | he
      · exact (List.takeWhile_prefix _).isInfix
      · rw [List.mem_singleton.1 he]
        have hr : r <:+ argument := (List.suffix_cons c r).trans (hdrop ▸ List.dropWhile_suffix _)
        exact (Text.trim_infix r).trans hr.isInfix

/-- The parts of a directive that a keyword makes stand in its argument. -/
theorem infix_of_mem_captures_ofKeyword? {keyword : Keyword}
    (h : ofKeyword? argument keyword = some d) (he : e ∈ d.captures) : e <:+: argument := by
  -- A directive captures its whole argument, or none of it.
  have hone {make : Text → Directive} (hmake : ∀ a, (make a).captures = [a])
      (h : withArgument? make argument = some d) : e <:+: argument := by
    rw [captures_of_withArgument? hmake h, List.mem_singleton] at he
    exact he ▸ List.infix_refl argument
  have hnone {d' : Directive} (hd : d'.captures = []) (h : alone? d' argument = some d) :
      e <:+: argument := by
    rw [captures_of_alone? hd h] at he
    cases he
  cases keyword with
  | switch => exact hone (fun _ => rfl) h
  | nextCase => exact hnone rfl h
  | ifThen | elseIf => exact hone (fun _ => rfl) h
  | otherwise | endBlock => exact hnone rfl h
  | foreach => exact infix_of_mem_captures_foreach? h he
  | raw =>
    rw [ofKeyword?] at h
    split at h
    · rw [← Option.some.inj h] at he
      cases he
    · exact hone (fun _ => rfl) h
  | fill | assign | inherit => exact hone (fun _ => rfl) h

/-- `splitBody` leaves a part of the body. -/
theorem infix_of_splitBody (body : Text) : (splitBody body).2 <:+: body := by
  unfold splitBody Text.cutAtBlank?
  split
  · next word rest hcut =>
    split at hcut
    · cases hcut
    · next c r hdrop =>
      obtain ⟨-, rfl⟩ := Prod.mk.inj (Option.some.inj hcut)
      have hr : r <:+ body := (List.suffix_cons c r).trans (hdrop ▸ List.dropWhile_suffix _)
      exact (Text.trim_infix r).trans hr.isInfix
  · exact List.nil_infix

theorem ofBody_eq (body : Text) :
    ofBody body = ((Keyword.ofWord? (splitBody body).1).bind
      (ofKeyword? (splitBody body).2)).getD (print body) := rfl

/-- `ofBody` captures parts of the body. -/
theorem infix_of_mem_captures_ofBody {body : Text} (he : e ∈ (ofBody body).captures) :
    e <:+: body := by
  rw [ofBody_eq] at he
  cases hd : (Keyword.ofWord? (splitBody body).1).bind (ofKeyword? (splitBody body).2) with
  | none =>
    rw [hd, Option.getD_none] at he
    exact List.mem_singleton.1 he ▸ List.infix_refl body
  | some d =>
    rw [hd, Option.getD_some] at he
    obtain ⟨keyword, -, hkeyword⟩ := Option.bind_eq_some_iff.1 hd
    exact (infix_of_mem_captures_ofKeyword? hkeyword he).trans (infix_of_splitBody body)

/-- The parts of a directive stand in its span. -/
theorem infix_of_mem_captures {span : Text} (he : e ∈ (classify span).captures) : e <:+: span :=
  (infix_of_mem_captures_ofBody he).trans (Span.body_infix span)

end Directive

/-! ## Attribute directives -/

theorem Group.infix_of_take? {g : Group} (h : take? t = some g) :
    g.inner <:+: t ∧ g.rest <:+: t := by
  rw [take?_eq_append h, source]
  exact ⟨⟨['('], ')' :: g.rest, by simp⟩, (List.suffix_append _ _).isInfix⟩

/-- `enclosed?` gives a part of the text. -/
theorem Quote.infix_of_enclosed? {inner : Text} {q : Quote} (h : enclosed? t = some (q, inner)) :
    inner <:+: t := by
  unfold enclosed? at h
  split at h
  · next hdouble =>
    obtain ⟨-, rfl⟩ := Prod.mk.inj (Option.some.inj h)
    exact Text.stripBoth?_infix hdouble
  · obtain ⟨found, hsingle, heq⟩ := Option.map_eq_some_iff.1 h
    obtain ⟨-, rfl⟩ := Prod.mk.inj heq
    exact Text.stripBoth?_infix hsingle

theorem Quote.unquote_infix (t : Text) : unquote t <:+: t := by
  rw [unquote]
  cases h : enclosed? t with
  | none => exact List.infix_refl t
  | some found => exact infix_of_enclosed? h

namespace AttributeDirective

/-- `condition?` gives a part of its argument. -/
theorem infix_of_condition? {c : Text} (h : condition? argument = some c) : c <:+: argument := by
  simp only [condition?] at h
  split at h
  · cases h
  · rw [← Option.some.inj h]
    refine (Text.trim_infix _).trans (List.IsInfix.trans ?_ (Text.trim_infix argument))
    -- The condition is the inside of a group, or the whole argument.
    cases hgroup : Group.take? argument.trim with
    | none => exact List.infix_refl _
    | some g => exact (Group.infix_of_take? hgroup).1

/-- `className?` captures parts of its argument. -/
theorem infix_of_mem_captures_className? {d : AttributeDirective} (h : className? argument = some d)
    (he : e ∈ d.captures) : e <:+: argument := by
  obtain ⟨rest, hif, hgroup⟩ := Option.bind_eq_some_iff.1 h
  obtain ⟨g, htake, rfl⟩ := Option.map_eq_some_iff.1 hgroup
  have hrest : rest <:+: argument := by
    have hsuffix : rest <:+ argument.trimStart :=
      Text.stripStart?_eq_some_iff.1 hif ▸ List.suffix_append _ _
    exact (hsuffix.trans (List.dropWhile_suffix _)).isInfix
  have hstart : Text.trimStart rest <:+: argument := (List.dropWhile_suffix _).isInfix.trans hrest
  obtain ⟨hinner, hafter⟩ := Group.infix_of_take? htake
  rcases List.mem_cons.1 he with rfl | he
  · exact (Text.trim_infix _).trans (hinner.trans hstart)
  · rw [List.mem_singleton.1 he]
    exact (Quote.unquote_infix _).trans ((Text.trim_infix _).trans (hafter.trans hstart))

/-- `ofAttr?` captures parts of its argument. -/
theorem infix_of_mem_captures_ofAttr? {d : AttributeDirective} (h : ofAttr? argument = some d)
    (he : e ∈ d.captures) : e <:+: argument := by
  have hbehind {keyword rest : Text} (hstrip : Text.stripStart? keyword argument = some rest) :
      rest <:+: argument :=
    (Text.stripStart?_eq_some_iff.1 hstrip ▸ List.suffix_append _ _ : rest <:+ argument).isInfix
  unfold ofAttr? at h
  split at h
  · next rest hclass => exact (infix_of_mem_captures_className? h he).trans (hbehind hclass)
  · split at h
    · next rest hchecked =>
      obtain ⟨c, hc, rfl⟩ := Option.map_eq_some_iff.1 h
      rw [List.mem_singleton.1 he]
      exact (infix_of_condition? hc).trans (hbehind hchecked)
    · obtain ⟨rest, hselected, hcondition⟩ := Option.bind_eq_some_iff.1 h
      obtain ⟨c, hc, rfl⟩ := Option.map_eq_some_iff.1 hcondition
      rw [List.mem_singleton.1 he]
      exact (infix_of_condition? hc).trans (hbehind hselected)

/-- `afterKeyword?` gives a part of the body. -/
theorem infix_of_afterKeyword? {keyword body : Text}
    (h : afterKeyword? keyword body = some argument) : argument <:+: body := by
  unfold afterKeyword? at h
  split at h
  · next c cs hstrip =>
    split at h
    · rw [← Option.some.inj h]
      have hsuffix : c :: cs <:+ body :=
        Text.stripStart?_eq_some_iff.1 hstrip ▸ List.suffix_append _ _
      exact (Text.trim_infix _).trans hsuffix.isInfix
    · cases h
  · cases h

/-- The expressions in an `AttributeDirective` stand in the span that `classify?` reads. -/
theorem infix_of_mem_captures {span : Text} {d : AttributeDirective} (h : classify? span = some d)
    (he : e ∈ d.captures) : e <:+: span := by
  obtain ⟨body, hstrip, hbody⟩ := Option.bind_eq_some_iff.1 h
  refine List.IsInfix.trans ?_ ((Text.trim_infix body).trans (Text.stripBoth?_infix hstrip))
  unfold ofBody? at hbody
  split at hbody
  · next condition hcond =>
    split at hbody
    · cases hbody
    · rw [← Option.some.inj hbody] at he
      rw [List.mem_singleton.1 he]
      exact infix_of_afterKeyword? hcond
  · obtain ⟨argument, hattr, hd⟩ := Option.bind_eq_some_iff.1 hbody
    exact (infix_of_mem_captures_ofAttr? hd he).trans (infix_of_afterKeyword? hattr)

/-- The `value?` of an attribute directive holds no mark if its `captures` do not. -/
theorem free_value? (hmarks : Text.Apart marks) {d : AttributeDirective} {value : Text}
    (h : d.value? = some value) (hparts : ∀ e ∈ d.captures, Text.Free marks e) :
    Text.Free marks value := by
  cases d with
  | cond c => cases h
  | checked c | selected c =>
    rw [← Option.some.inj h]
    exact (Twig.isBordered_printSpaced hmarks (hparts c List.mem_cons_self)).free
  | className c v =>
    rw [← Option.some.inj h]
    refine (Twig.isBordered_printSpaced hmarks ?_).free
    refine hmarks.free_behind _ rfl rfl (hmarks.free_between _ rfl rfl rfl ?_ ?_)
    · exact hparts c List.mem_cons_self
    · exact hparts v (List.mem_cons_of_mem c List.mem_cons_self)

end AttributeDirective

/-- The name that `TemplatePath.swapExtension` gives holds no mark if the name and the new extension
    do not. -/
theorem TemplatePath.free_swapExtension (hmarks : Text.Apart marks) {name source target : Text}
    (hname : Text.Free marks name) (htarget : Text.Free marks target) :
    Text.Free marks (swapExtension name source target) := by
  have hswap {bare : Text} (hbare : Text.Free marks bare) :
      Text.Free marks (swapBare source target bare) := by
    rw [swapBare]
    cases hstem : stem? source bare with
    | none => exact hbare
    | some stem =>
      obtain ⟨front, hend, hdot⟩ := Option.bind_eq_some_iff.1 hstem
      rw [Text.stripEnd?_eq_some_iff] at hend hdot
      have hfront : Text.Free marks stem := by
        refine hbare.of_infix ?_
        rw [hend, hdot, List.append_assoc]
        exact (List.prefix_append _ _).isInfix
      have hjoined := hmarks.free_between ['.'] rfl rfl rfl hfront htarget
      rwa [List.append_assoc] at hjoined
  have henclose (q : Quote) {t : Text} (ht : Text.Free marks t) : Text.Free marks (q.enclose t) := by
    cases q with
    | double => exact hmarks.free_behind ['"'] rfl rfl (hmarks.free_before ['"'] rfl rfl ht)
    | single => exact hmarks.free_behind ['\''] rfl rfl (hmarks.free_before ['\''] rfl rfl ht)
  have htrim := hname.of_infix (Text.trim_infix name)
  rw [swapExtension]
  cases hquotes : Quote.enclosed? name.trim with
  | none => exact henclose .double (hswap htrim)
  | some found => exact henclose found.1 (hswap (htrim.of_infix (Quote.infix_of_enclosed? hquotes)))

end TemploTwig
