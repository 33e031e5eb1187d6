import TemploTwig.Proofs.Markup.Segments
import TemploTwig.Proofs.Markup.Building

/-!
# Markup that ends alike

The scanner of templates ends an end tag, a declaration and an instruction at the first `>`.  The
reader of markup looks at quotes, brackets and closing marks.  `Token.endsAlike` tells markup for
which both end at the same place.
-/

namespace TemploTwig

namespace Token

/-- Is the markup complete?  A comment has its `-->`, an instruction its `?>` and a CDATA section its
    `]]>`; in a tag and in a document type every quote is closed, and no internal subset begins. -/
def endsAlike (m : Text) : Bool :=
  if m.startsWith "<!--".toList then decide (Node.IsComment m)
  else if m.startsWith "<?".toList then (Text.stripEnd? "?>".toList (m.drop 2)).isSome
  else if m.startsWith "<![CDATA[".toList then (Text.stripEnd? "]]>".toList (m.drop 9)).isSome
  -- Quotes count in tags and document types, and a bracket opens an internal subset.
  else m.dropLast.foldl Event.quoteAfter none == none && decide ('[' ∉ m)

/-- A closed comment, or markup of another kind with one `>`, at its end. -/
inductive IsClosed (m : Text) : Prop
  | comment (h : Node.IsComment m)
  | other {front : Text} (heq : m = front ++ ['>']) (hgt : '>' ∉ front)
    (hcomment : ¬"<!--".toList <+: m)
    (hopens : (∃ c cs, front = '<' :: '/' :: c :: cs ∧ c.isAlpha = true) ∨
      ∃ c cs, front = '<' :: c :: cs ∧ (c = '!' ∨ c = '?'))

variable {m : Text}

theorem takeToClose?_of_not_mem {front : Text} (h : '>' ∉ front) (rest : Text) :
    takeToClose? (front ++ ['>'] ++ rest) = some (.markup (front ++ ['>']), rest) := by
  rw [takeToClose?, List.append_assoc, List.singleton_append, Text.cut?_char rest h]
  rfl

/-- The scanner finds closed markup in front of any text. -/
theorem take?_of_isClosed (h : IsClosed m) (rest : Text) :
    take? (m ++ rest) = some (.markup m, rest) := by
  cases h with
  | comment h => exact take?_comment h rest
  | @other front heq hgt hcomment hopens =>
    have hnone : Text.stripStart? "<!--".toList (m ++ rest) = none := by
      rw [Text.stripStart?_eq_none_iff]
      intro hprefix
      -- The opening of a comment has no `>`, so it would fit into the markup.
      rcases Text.prefix_append_cases hprefix with hprefix | ⟨back, -, -, hback⟩
      · exact hcomment hprefix
      · have hmem : '>' ∈ "<!--".toList := by rw [hback, heq]; simp
        revert hmem
        decide
    have hclose : takeToClose? (m ++ rest) = some (.markup m, rest) := by
      rw [heq]
      exact takeToClose?_of_not_mem hgt rest
    have htake : takeMarkup? (m ++ rest) = takeToClose? (m ++ rest) := by
      rw [takeMarkup?.eq_def, hnone]
      rcases hopens with ⟨c, cs, rfl, hc⟩ | ⟨c, cs, rfl, rfl | rfl⟩
      · rw [heq]
        exact if_pos hc
      · rw [heq]
        rfl
      · rw [heq]
        rfl
    rw [take?, htake, hclose]

/-- What the scanner takes for markup is closed, unless it is a comment without an end. -/
theorem isClosed_of_takeMarkup? {t rest : Text} (h : takeMarkup? t = some (.markup m, rest))
    (hends : endsAlike m = true) : IsClosed m := by
  rw [takeMarkup?.eq_def] at h
  cases hstrip : Text.stripStart? "<!--".toList t with
  | some body =>
    rw [hstrip] at h
    have hcomment : m.startsWith "<!--".toList = true := by
      have hm : takeComment body = (.markup m, rest) := Option.some.inj h
      rw [takeComment] at hm
      rw [Text.startsWith, Text.stripStart?_isSome_iff]
      split at hm
      · obtain ⟨hm, -⟩ := Prod.mk.inj hm
        rw [← Token.markup.inj hm, List.append_assoc]
        exact List.prefix_append _ _
      · obtain ⟨hm, -⟩ := Prod.mk.inj hm
        rw [← Token.markup.inj hm]
        exact List.prefix_append _ _
    rw [endsAlike, if_pos hcomment] at hends
    exact .comment (of_decide_eq_true hends)
  | none =>
    rw [hstrip] at h
    have hclose {u : Text} (hu : takeToClose? u = some (.markup m, rest)) :
        ∃ front, m = front ++ ['>'] ∧ '>' ∉ front ∧ u = m ++ rest := by
      obtain ⟨⟨front, after⟩, hcut, heq⟩ := Option.map_eq_some_iff.1 hu
      obtain ⟨hm, rfl⟩ := Prod.mk.inj heq
      refine ⟨front, (Token.markup.inj hm).symm, Text.not_mem_of_cut? hcut, ?_⟩
      rw [← Token.markup.inj hm]
      exact Text.cut?_eq_append hcut
    have hcomment (ht : t = m ++ rest) : ¬"<!--".toList <+: m := by
      intro hprefix
      apply Text.stripStart?_eq_none_iff.1 hstrip
      rw [ht]
      exact hprefix.trans (List.prefix_append m rest)
    -- The characters in front are those of the text, since the `>` comes later.
    have hfront {front cs : Text} (hm : m = front ++ ['>']) (heq : '<' :: cs = m ++ rest) :
        ∃ ds, front = '<' :: ds ∧ cs = ds ++ '>' :: rest := by
      cases front with
      | nil => rw [hm] at heq; cases (List.cons.inj heq).1
      | cons d ds =>
        rw [hm] at heq
        obtain ⟨rfl, hcs⟩ := List.cons.inj heq
        exact ⟨ds, rfl, by rw [hcs]; simp⟩
    simp only at h
    split at h
    · next c cs =>
      split at h
      · next hc =>
        obtain ⟨front, hm, hgt, heq⟩ := hclose h
        obtain ⟨ds, rfl, hds⟩ := hfront hm heq
        refine .other hm hgt (hcomment heq) (.inl ?_)
        rcases ds with - | ⟨d, - | ⟨e, es⟩⟩
        · cases hds
        · obtain ⟨-, htail⟩ := List.cons.inj hds
          obtain ⟨rfl, -⟩ := List.cons.inj htail
          cases hc
        · obtain ⟨rfl, htail⟩ := List.cons.inj hds
          obtain ⟨rfl, -⟩ := List.cons.inj htail
          exact ⟨c, es, rfl, hc⟩
      · cases h
    · next cs =>
      obtain ⟨front, hm, hgt, heq⟩ := hclose h
      obtain ⟨ds, rfl, hds⟩ := hfront hm heq
      refine .other hm hgt (hcomment heq) (.inr ?_)
      cases ds with
      | nil => cases hds
      | cons d ds =>
        obtain ⟨rfl, -⟩ := List.cons.inj hds
        exact ⟨'!', ds, rfl, .inl rfl⟩
    · next cs =>
      obtain ⟨front, hm, hgt, heq⟩ := hclose h
      obtain ⟨ds, rfl, hds⟩ := hfront hm heq
      refine .other hm hgt (hcomment heq) (.inr ?_)
      cases ds with
      | nil => cases hds
      | cons d ds =>
        obtain ⟨rfl, -⟩ := List.cons.inj hds
        exact ⟨'?', ds, rfl, .inr rfl⟩
    · obtain ⟨⟨tag, after⟩, -, heq⟩ := Option.map_eq_some_iff.1 h
      cases (Prod.mk.inj heq).1

end Token

/-! ## The reader of markup -/

namespace Event

variable {quote : Option Char} {u : Text}

/-- Where all quotes are closed, the first `>` ends a tag. -/
theorem closeTag?_of_foldl (hgt : '>' ∉ u) (h : u.foldl quoteAfter quote = none) (rest : Text) :
    closeTag? quote (u ++ '>' :: rest) = some (u, rest) := by
  induction u generalizing quote with
  | nil =>
    obtain rfl : quote = none := h
    rw [List.nil_append, closeTag?, if_pos ⟨rfl, rfl⟩]
  | cons c u ih =>
    obtain ⟨hc, hu⟩ := not_or.1 (List.mem_cons.not.1 hgt)
    rw [List.cons_append, closeTag?, if_neg (fun hend => hc hend.2.symm), ih hu h]
    rfl

/-- Where all quotes are closed and no subset is opened, the first `>` ends a document type. -/
theorem closeDoctype?_of_foldl (hgt : '>' ∉ u) (hbracket : '[' ∉ u)
    (h : u.foldl quoteAfter quote = none) (rest : Text) :
    closeDoctype? quote (u ++ '>' :: rest) = some (u, rest) := by
  induction u generalizing quote with
  | nil =>
    obtain rfl : quote = none := h
    rw [List.nil_append, closeDoctype?, if_pos ⟨rfl, rfl⟩]
  | cons c u ih =>
    obtain ⟨hc, hu⟩ := not_or.1 (List.mem_cons.not.1 hgt)
    obtain ⟨hd, hu'⟩ := not_or.1 (List.mem_cons.not.1 hbracket)
    rw [List.cons_append, closeDoctype?, if_neg (fun hend => hc hend.2.symm),
      if_neg (fun hend => hd hend.2.symm), ih hu hu' h]
    rfl

/-- A marker with one `>`, at its end, is found at the first `>`. -/
theorem cut?_of_gt (marker : Text) {before : Text} (hmarker : '>' ∈ marker)
    (hlast : '>' ∉ marker.dropLast) (hbefore : '>' ∉ before) (rest : Text) :
    Text.cut? marker (before ++ marker ++ rest) = some (before, rest) := by
  refine Text.cut?_append rest fun front back heq hne hprefix => ?_
  -- At an earlier place the marker's `>` would stand in front of its own.
  have hback : '>' ∉ back := fun hmem => hbefore (by rw [heq]; exact List.mem_append_right _ hmem)
  have hmne : marker ≠ [] := List.ne_nil_of_mem hmarker
  have hsplit : marker.dropLast ++ [marker.getLast hmne] = marker := List.dropLast_append_getLast hmne
  have hlength : marker.length = marker.dropLast.length + 1 := by
    rw [← hsplit, List.length_append]
    simp
  have hshort : marker <+: back ++ marker.dropLast := by
    have hlong : back ++ marker.dropLast <+: back ++ marker ++ rest := by
      rw [List.append_assoc]
      refine (List.prefix_append_right_inj back).2 ?_
      exact (List.dropLast_prefix marker).trans (List.prefix_append marker rest)
    refine List.prefix_of_prefix_length_le hprefix hlong ?_
    have := List.length_pos_iff.2 hne
    rw [List.length_append]
    omega
  rcases List.mem_append.1 (hshort.subset hmarker) with hmem | hmem
  · exact hback hmem
  · exact hlast hmem

theorem takeBang?_cdata (t : Text) : takeBang? ("[CDATA[".toList ++ t) =
    (Text.cut? "]]>".toList t).map fun (content, rest) => (cdata content, rest) := by
  have hstrip := Text.stripStart?_append "[CDATA[".toList t
  show (Text.stripStart? "[CDATA[".toList ("[CDATA[".toList ++ t)).bind (fun body =>
    (Text.cut? "]]>".toList body).map fun (content, rest) => (cdata content, rest)) = _
  rw [hstrip, Option.bind_some]

/-- A declaration without brackets, with its quotes closed, is a document type. -/
theorem exists_of_takeBang? {e : Event} {rest after : Text} (hgt : '>' ∉ u) (hbracket : '[' ∉ u)
    (hcomment : ¬"--".toList <+: u) (hquotes : u.foldl quoteAfter none = none)
    (h : takeBang? (u ++ '>' :: rest) = some (e, after)) :
    ∃ body, body <:+: u ∧ e = doctype body ∧ after = rest := by
  have hdoctype (h : takeDoctype? (u ++ '>' :: rest) = some (e, after)) :
      ∃ body, body <:+: u ∧ e = doctype body ∧ after = rest := by
    rw [takeDoctype?, closeDoctype?_of_foldl hgt hbracket hquotes, Option.bind_some] at h
    dsimp only at h
    split at h
    · split at h
      · cases h
      · obtain ⟨rfl, rfl⟩ := Prod.mk.inj (Option.some.inj h)
        exact ⟨_, ((List.dropWhile_suffix _).trans (List.drop_suffix _ u)).isInfix, rfl, rfl⟩
    · cases h
  unfold takeBang? at h
  split at h
  · exact hdoctype h
  · exact hdoctype h
  · next body heq =>
    -- Two dashes would open a comment.
    refine absurd ?_ hcomment
    rcases u with - | ⟨c, - | ⟨d, u⟩⟩
    · cases (List.cons.inj heq).1
    · cases (List.cons.inj (List.cons.inj heq).2).1
    · obtain ⟨rfl, htail⟩ := List.cons.inj heq
      obtain ⟨rfl, -⟩ := List.cons.inj htail
      exact ⟨u, rfl⟩
  · obtain ⟨body, hstrip, -⟩ := Option.bind_eq_some_iff.1 h
    have hprefix := Text.stripStart?_eq_some_iff.1 hstrip
    cases u with
    | nil => cases (List.cons.inj hprefix).1
    | cons c u =>
      obtain ⟨rfl, -⟩ := List.cons.inj hprefix
      exact absurd List.mem_cons_self hbracket

end Event

namespace Document

variable {m rest : Text} {b : Builder} {ns : List Node}

/-- An instruction without an earlier `>` is kept verbatim. -/
theorem readOn_instruction {body : Text} (h : '>' ∉ body) (b : Builder) (rest : Text) :
    readOn b ("<?".toList ++ body ++ "?>".toList ++ rest) =
      readOn (b.push (.raw ("<?".toList ++ body ++ "?>".toList))) rest := by
  have hbody : '>' ∉ '?' :: body := by simpa using h
  have hcut := Event.cut?_of_gt "?>".toList (by decide) (by decide) hbody rest
  have htake : Event.take? ("<?".toList ++ body ++ "?>".toList ++ rest) =
      some (.instruction body, rest) := by
    show Event.takeInstruction? ('?' :: body ++ "?>".toList ++ rest) = _
    rw [Event.takeInstruction?, hcut]
    rfl
  exact readOn_of_reading htake rfl

/-- A character section without an earlier `>` is kept verbatim. -/
theorem readOn_cdata {body : Text} (h : '>' ∉ body) (b : Builder) (rest : Text) :
    readOn b ("<![CDATA[".toList ++ body ++ "]]>".toList ++ rest) =
      readOn (b.push (.raw ("<![CDATA[".toList ++ body ++ "]]>".toList))) rest := by
  have hcut := Event.cut?_of_gt "]]>".toList (by decide) (by decide) h rest
  have htake : Event.take? ("<![CDATA[".toList ++ body ++ "]]>".toList ++ rest) =
      some (.cdata body, rest) := by
    show Event.takeBang? ("[CDATA[".toList ++ body ++ "]]>".toList ++ rest) = _
    rw [List.append_assoc, List.append_assoc, Event.takeBang?_cdata, ← List.append_assoc, hcut]
    rfl
  exact readOn_of_reading htake rfl

/-- The reader keeps markup that ends alike verbatim, with the keyword of a document type in
    capitals, or it takes it for an end tag. -/
theorem markup_of_readOn (hclosed : Token.IsClosed m) (hends : Token.endsAlike m = true)
    (hread : readOn b (m ++ rest) = some ns) :
    (∃ source, (source = m ∨ ∃ body, body <:+: m ∧ source = "<!DOCTYPE ".toList ++ body ++ ['>']) ∧
      readOn b (m ++ rest) = readOn (b.push (.raw source)) rest) ∨
    "</".toList <+: m ∧ ∃ name, Event.take? (m ++ rest) = some (.close name, rest) := by
  cases hclosed with
  | comment h => exact .inl ⟨m, .inl rfl, readOn_comment h b rest⟩
  | @other front heq hgt hcomment hopens =>
    have hstarts {p : Text} : m.startsWith p = true ↔ p <+: m := Text.stripStart?_isSome_iff
    rw [Token.endsAlike, if_neg (hstarts.not.2 hcomment)] at hends
    -- An instruction or a character section is closed by its own mark.
    have hmark (mark : Text) {opening : Text} (hopening : opening <+: m)
        (hstrip : (Text.stripEnd? (mark ++ ['>']) (m.drop opening.length)).isSome = true) :
        ∃ body, m = opening ++ body ++ (mark ++ ['>']) ∧ '>' ∉ body := by
      obtain ⟨after, rfl⟩ := hopening
      rw [List.drop_left] at hstrip
      obtain ⟨body, hbody⟩ := Option.isSome_iff_exists.1 hstrip
      have hafter := Text.stripEnd?_eq_some_iff.1 hbody
      refine ⟨body, by rw [hafter, List.append_assoc], fun hmem => hgt ?_⟩
      rw [hafter, ← List.append_assoc, ← List.append_assoc] at heq
      rw [← (List.append_inj' heq rfl).1]
      simp [hmem]
    by_cases hinstruction : "<?".toList <+: m
    · rw [if_pos (hstarts.2 hinstruction)] at hends
      obtain ⟨body, rfl, hbody⟩ := hmark ['?'] hinstruction hends
      exact .inl ⟨_, .inl rfl, readOn_instruction hbody b rest⟩
    rw [if_neg (hstarts.not.2 hinstruction)] at hends
    by_cases hcdata : "<![CDATA[".toList <+: m
    · rw [if_pos (hstarts.2 hcdata)] at hends
      obtain ⟨body, rfl, hbody⟩ := hmark "]]".toList hcdata hends
      exact .inl ⟨_, .inl rfl, readOn_cdata hbody b rest⟩
    rw [if_neg (hstarts.not.2 hcdata), Bool.and_eq_true, beq_iff_eq, heq, List.dropLast_concat,
      decide_eq_true_iff, List.mem_append, not_or] at hends
    obtain ⟨hfold, hbracket, -⟩ := hends
    rcases hopens with ⟨c, cs, rfl, -⟩ | ⟨c, cs, rfl, rfl | rfl⟩
    · -- An end tag.
      refine .inr ⟨⟨c :: cs ++ ['>'], heq.symm⟩, Event.closingName (c :: cs), ?_⟩
      have hgt' : '>' ∉ c :: cs := fun hmem => hgt (by simp [List.mem_cons.1 hmem])
      have hclose : Event.closeTag? none (c :: cs ++ '>' :: rest) = some (c :: cs, rest) :=
        Event.closeTag?_of_foldl hgt' hfold rest
      rw [heq, List.append_assoc, List.singleton_append]
      show Event.takeMarkup? ('/' :: (c :: cs ++ '>' :: rest)) = _
      rw [Event.takeMarkup?, if_neg (by decide), if_neg (by decide), if_pos rfl, hclose]
      rfl
    · -- A document type, since all else has been ruled out.
      rcases exists_of_readOn hread with ⟨hnil, -⟩ | ⟨e, after, htake, -⟩
      · rw [heq] at hnil
        cases hnil
      have hcs : '>' ∉ cs ∧ '[' ∉ cs := ⟨fun h => hgt (by simp [h]), fun h => hbracket (by simp [h])⟩
      have hdashes : ¬"--".toList <+: cs := by
        rintro ⟨body, rfl⟩
        exact hcomment ⟨body ++ ['>'], heq.symm⟩
      have hbang : Event.takeBang? (cs ++ '>' :: rest) = some (e, after) := by
        rw [heq, List.append_assoc, List.singleton_append] at htake
        exact htake
      obtain ⟨body, hbody, rfl, rfl⟩ := Event.exists_of_takeBang? hcs.1 hcs.2 hdashes hfold hbang
      refine .inl ⟨_, .inr ⟨Text.trimStart body, ?_, rfl⟩, readOn_of_reading htake rfl⟩
      have hwithin : cs <:+: m := by rw [heq]; exact ⟨['<', '!'], ['>'], rfl⟩
      exact ((List.dropWhile_suffix isBlank).isInfix.trans hbody).trans hwithin
    · exact absurd ⟨cs ++ ['>'], heq.symm⟩ hinstruction

end Document

end TemploTwig
