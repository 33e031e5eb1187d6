import TemploTwig.Directive.Basic
import TemploTwig.Proofs.SpanBody

/-!
# Expressions and the directives that hold them

An expression is what a directive says about the data of a template.  It carries the proofs that
it can stand in a directive: it is trimmed, stays on one line and keeps its colons apart from the
delimiters around it.  A directive that is spelled with such expressions is read back as itself.
-/

namespace TemploTwig

namespace Span

/-- No `delimiter` comes about where a text that ends with another character meets a colon. -/
theorem delimiter_infix_append_colon {t : Text} (hlast : t.getLast? ≠ some ':') :
    delimiter <:+: t ++ [':'] ↔ delimiter <:+: t := by
  have hcolon : ¬delimiter <:+: [':'] := fun h => absurd h.length_le (by decide)
  rw [delimiter_infix_append hlast, or_iff_left hcolon]

/-- An `IsBody` that keeps its colons apart from both delimiters. -/
structure IsClearBody (b : Text) : Prop extends IsBody b where
  head_ne : b.head? ≠ some ':'

end Span

/-- What a directive says about the data of a template. -/
structure Expression where
  text : Text
  trimmed : text.trim = text
  ne_nil : text ≠ []
  one_line : '\n' ∉ text
  no_delimiter : ¬Span.delimiter <:+: text
  head_ne : text.head? ≠ some ':'
  last_ne : text.getLast? ≠ some ':'

namespace Expression

/-- The expression with a given text. -/
def ofText (t : Text)
    (h : (t.trim = t ∧ t ≠ []) ∧ ('\n' ∉ t ∧ t.contains Span.delimiter = false) ∧
      t.head? ≠ some ':' ∧ t.getLast? ≠ some ':') : Expression where
  text := t
  trimmed := h.1.1
  ne_nil := h.1.2
  one_line := h.2.1.1
  no_delimiter := Text.contains_eq_false_iff.1 h.2.1.2
  head_ne := h.2.2.1
  last_ne := h.2.2.2

/-- The `text` of an `Expression` starts with no blank. -/
theorem head_not_blank (e : Expression) {c : Char} (h : e.text.head? = some c) :
    isBlank c = false :=
  (Text.trim_eq_self_iff.1 e.trimmed).1 c h

/-- The `text` of an `Expression` ends with no blank. -/
theorem last_not_blank (e : Expression) {c : Char} (h : e.text.getLast? = some c) :
    isBlank c = false :=
  (Text.trim_eq_self_iff.1 e.trimmed).2 c h

/-- An `Expression` is not empty, so the first character is its own. -/
theorem head?_append (e : Expression) (t : Text) : (e.text ++ t).head? = e.text.head? := by
  cases htext : e.text with
  | nil => exact absurd htext e.ne_nil
  | cons c cs => rfl

/-- The last character is that of the `Expression`. -/
theorem getLast?_append (t : Text) (e : Expression) : (t ++ e.text).getLast? = e.text.getLast? := by
  rw [List.getLast?_append, List.getLast?_eq_some_getLast e.ne_nil, Option.some_or]

/-- The `text` of an `Expression` can stand in a span. -/
theorem isClearBody (e : Expression) : Span.IsClearBody e.text where
  not_blank := by
    cases hhead : e.text.head? with
    | none => exact absurd (List.head?_eq_none_iff.1 hhead) e.ne_nil
    | some c =>
      have hmem := List.mem_of_head? hhead
      rw [Text.isBlankText, List.all_eq_false]
      exact ⟨c, hmem, by rw [e.head_not_blank hhead]; simp⟩
  one_line := e.one_line
  closed_last := by
    rw [Span.delimiter_infix_append_colon e.last_ne]
    exact e.no_delimiter
  head_ne := e.head_ne

/-- Two expressions with a blank between them. -/
def pair (e f : Expression) : Expression where
  text := e.text ++ ' ' :: f.text
  trimmed := Text.trim_append_space e.ne_nil (fun _ => e.head_not_blank) f.ne_nil f.trimmed
  ne_nil := by simp
  one_line := by simp [e.one_line, f.one_line]
  no_delimiter := by
    rw [Span.delimiter_infix_append_cons (by decide), not_or]
    exact ⟨e.no_delimiter, f.no_delimiter⟩
  head_ne := by
    rw [e.head?_append]
    exact e.head_ne
  last_ne := by
    rw [List.append_cons, f.getLast?_append]
    exact f.last_ne

end Expression

/-- An expression of one word. -/
structure Word extends Expression where
  no_blank : ∀ c ∈ text, isBlank c = false

/-- An expression that can be printed raw: it does not name the place of a child's content. -/
structure RawExpression extends Expression where
  ne_contentName : text ≠ Directive.contentName

/-- An expression that is printed: it is not read as any other directive. -/
structure PrintBody extends Expression where
  prints : Directive.ofBody text = .print text

namespace Directive

namespace Keyword

/-- `Keyword.ofWord?` finds every keyword by its `word`. -/
theorem ofWord?_word (k : Keyword) : ofWord? k.word = some k := by
  cases k <;> decide

/-- A `Keyword.word` has no blank. -/
theorem not_blank_of_mem_word {k : Keyword} : ∀ c ∈ k.word, isBlank c = false := by
  have hall : k.word.all (!isBlank ·) = true := by cases k <;> decide
  intro c hc
  simpa using List.all_eq_true.1 hall c hc

/-- A keyword, as an expression. -/
def expression (k : Keyword) : Expression := .ofText k.word (by cases k <;> decide)

/-- A keyword alone can stand in a span. -/
theorem isClearBody_word (k : Keyword) : Span.IsClearBody k.word := k.expression.isClearBody

/-- A keyword and its argument can stand in a span. -/
theorem isClearBody_word_append (k : Keyword) (e : Expression) :
    Span.IsClearBody (k.word ++ ' ' :: e.text) :=
  (k.expression.pair e).isClearBody

end Keyword

/-- The canonical spelling of `d` is a span that is read back as `d`. -/
structure ReadsBack (d : Directive) : Prop where
  body : Span.IsClearBody d.canonicalBody
  ofBody_eq : ofBody d.canonicalBody = d

/-- `classify` reads the `source` of a directive that `ReadsBack`. -/
theorem ReadsBack.classify_source {d : Directive} (h : ReadsBack d) : classify d.source = d := by
  rw [classify, source, Span.body_ofBody, h.ofBody_eq]

/-- `ofBody` finds the keyword and hands it the argument. -/
theorem ofBody_word_append (k : Keyword) (e : Expression) {d : Directive}
    (h : ofKeyword? e.text k = some d) : ofBody (k.word ++ ' ' :: e.text) = d := by
  have hsplit : splitBody (k.word ++ ' ' :: e.text) = (k.word, e.text) := by
    rw [splitBody, Text.cutAtBlank?_append _ Keyword.not_blank_of_mem_word]
    simp only [e.trimmed]
  simp only [ofBody, hsplit, Keyword.ofWord?_word, Option.bind_some, h, Option.getD_some]

/-- `ofBody` at a keyword alone. -/
theorem ofBody_word (k : Keyword) {d : Directive} (h : ofKeyword? [] k = some d) :
    ofBody k.word = d := by
  have hsplit : splitBody k.word = (k.word, []) := by
    rw [splitBody, Text.cutAtBlank?_of_no_blank Keyword.not_blank_of_mem_word]
  simp only [ofBody, hsplit, Keyword.ofWord?_word, Option.bind_some, h, Option.getD_some]

/-- `withArgument?` takes every `Expression`. -/
theorem withArgument?_text (make : Text → Directive) (e : Expression) :
    withArgument? make e.text = some (make e.text) := by
  rw [withArgument?, if_neg e.ne_nil]

/-- A keyword with its argument `ReadsBack`, if `ofKeyword?` makes the directive of it. -/
theorem ReadsBack.of_argument (k : Keyword) (e : Expression) {d : Directive}
    (hbody : d.canonicalBody = k.word ++ ' ' :: e.text) (h : ofKeyword? e.text k = some d) :
    ReadsBack d :=
  ⟨by rw [hbody]; exact k.isClearBody_word_append e, by rw [hbody]; exact ofBody_word_append k e h⟩

/-- A keyword that stands alone `ReadsBack`. -/
theorem ReadsBack.of_word (k : Keyword) {d : Directive} (hbody : d.canonicalBody = k.word)
    (h : ofKeyword? [] k = some d) : ReadsBack d :=
  ⟨by rw [hbody]; exact k.isClearBody_word, by rw [hbody]; exact ofBody_word k h⟩

/-- A `raw` directive `ReadsBack`. -/
theorem readsBack_raw (e : RawExpression) : ReadsBack (raw e.text) := by
  refine .of_argument .raw e.toExpression rfl ?_
  rw [ofKeyword?, if_neg e.ne_contentName]
  exact withArgument?_text raw e.toExpression

/-- A `foreach` directive `ReadsBack`. -/
theorem readsBack_foreach (item : Word) (collection : Expression) :
    ReadsBack (foreach item.text collection.text) := by
  refine .of_argument .foreach (item.toExpression.pair collection) (by simp [canonicalBody,
    Expression.pair]) ?_
  show foreach? (item.text ++ ' ' :: collection.text) = _
  rw [foreach?, Text.cutAtBlank?_append _ item.no_blank, Option.bind_some]
  simp only [collection.trimmed, withArgument?_text]

/-- A `print` directive `ReadsBack`. -/
theorem readsBack_print (e : PrintBody) : ReadsBack (print e.text) :=
  ⟨e.isClearBody, e.prints⟩

/-- The name of a child's content, as an expression. -/
def contentExpression : Expression := .ofText contentName (by decide)

/-- The `contentBlock` directive `ReadsBack`. -/
theorem readsBack_contentBlock : ReadsBack contentBlock :=
  .of_argument .raw contentExpression rfl rfl

end Directive

end TemploTwig
