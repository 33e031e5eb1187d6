import TemploTwig.Proofs.Placeholders.Resolution
import TemploTwig.Proofs.Placeholders.Spacing

/-!
# Marks in printed markup

The markup of a spaced tree holds a mark only where a text, a verbatim construct or a tag of the
tree does.
-/

namespace TemploTwig

variable {marks : List Text}

/-- Printing the directives of a text brings in no mark. -/
theorem free_printSpans (hmarks : Text.Apart marks) {v : Text} (h : Text.Free marks v) :
    Text.Free marks (printSpans v) := by
  have hrender : Piece.renderAll id (Span.scan v) = v :=
    Recogniser.renderAll_scan _ _ (fun h => Span.take?_eq_append h) v
  have hturns (ps : List (Piece Text)) (hps : ∀ p ∈ ps, Text.Free marks (p.render id)) :
      List.Forall₂ (Piece.Turns id marks [] []) ps
        (ps.map (Piece.render fun span => Twig.print (Span.body span))) := by
    induction ps with
    | nil => exact .nil
    | cons p ps ih =>
      have hp := hps p List.mem_cons_self
      refine .cons ?_ (ih fun q hq => hps q (List.mem_cons_of_mem p hq))
      cases p with
      | plain t => exact ⟨hp, .refl t⟩
      | token span =>
        exact .inl (Twig.isBordered_print hmarks (hp.of_infix (Span.body_infix span)))
  refine Piece.free_flatten hmarks.nil_not_mem (hmarks.bars ':' rfl) (Text.seamless_nil _)
    (Span.settled_scan v).isChain (hturns _ fun p hp => ?_)
  have hwithin := Piece.render_infix_renderAll (f := id) hp
  rw [hrender] at hwithin
  exact h.of_infix hwithin

/-! ## Tags -/

namespace Attribute

/-- Neither the name nor the value holds a mark. -/
def IsFree (marks : List Text) (a : Attribute) : Prop :=
  Text.Free marks a.name ∧ ∀ v ∈ a.value.text?, Text.Free marks v

instance (marks : List Text) (a : Attribute) : Decidable (a.IsFree marks) :=
  inferInstanceAs (Decidable (_ ∧ _))

/-- `Attribute.text` of a free attribute is free. -/
theorem IsFree.text (hmarks : Text.Apart marks) {a : Attribute} (h : a.IsFree marks) :
    Text.Free marks a.text := by
  obtain ⟨name, value⟩ := a
  have hname : Text.Free marks (' ' :: name) := hmarks.free_before [' '] rfl rfl h.1
  cases value with
  | bare => exact hname
  | unquoted v =>
    have hvalue := hmarks.free_between ['='] rfl rfl rfl hname (h.2 v rfl)
    simpa [Attribute.text] using hvalue
  | quoted v quote =>
    have hquote : Text.Free marks (' ' :: name ++ ['=', quote.char] ++ v ++ [quote.char]) := by
      cases quote <;>
        exact hmarks.free_behind _ rfl rfl (hmarks.free_between _ rfl rfl rfl hname (h.2 v rfl))
    simpa [Attribute.text, Quote.enclose] using hquote

/-- The attributes of a tag hold no mark, and where they begin none ends. -/
theorem free_textAll (hmarks : Text.Apart marks) {attributes : List Attribute}
    (h : ∀ a ∈ attributes, a.IsFree marks) :
    Text.Free marks (textAll attributes) ∧ Text.Firm marks (textAll attributes) := by
  have hbegins (a : Attribute) (rest : Text) : Text.Firm marks (a.text ++ rest) := by
    obtain ⟨cs, hcs⟩ : ∃ cs, a.text = ' ' :: cs := by
      unfold Attribute.text
      split <;> exact ⟨_, rfl⟩
    rw [hcs]
    exact Text.firm_cons (hmarks.bars _ rfl) _
  induction attributes with
  | nil => exact ⟨Text.free_nil hmarks.nil_not_mem, Text.firm_nil⟩
  | cons a attributes ih =>
    obtain ⟨hfree, hfirm⟩ := ih fun b hb => h b (List.mem_cons_of_mem a hb)
    rw [textAll, List.flatMap_cons]
    exact ⟨Text.free_append ((h a List.mem_cons_self).text hmarks) hfree (hfirm.not_across _),
      hbegins a _⟩

end Attribute

namespace Tag

/-- Neither the name nor an attribute holds a mark. -/
def IsFree (marks : List Text) (t : Tag) : Prop :=
  Text.Free marks t.name ∧ ∀ a ∈ t.attributes, a.IsFree marks

/-- `startText` ends with a character that bars. -/
theorem endsBarred_startText (hmarks : Text.Apart marks) (t : Tag) :
    Text.EndsBarred marks t.startText := by
  have hbracket : Text.Bars marks '>' := hmarks.bars _ rfl
  rw [Tag.startText]
  refine Text.EndsBarred.append ?_
  split
  · exact ⟨['/'], '>', rfl, hbracket⟩
  · exact ⟨[], '>', rfl, hbracket⟩

/-- `startText` of a free tag is free. -/
theorem IsFree.startText (hmarks : Text.Apart marks) {t : Tag} (h : t.IsFree marks) :
    Text.Free marks t.startText := by
  have hname : Text.Free marks ('<' :: t.name) := hmarks.free_before ['<'] rfl rfl h.1
  obtain ⟨hattributes, hfirm⟩ := Attribute.free_textAll hmarks h.2
  have hopen : Text.Free marks ('<' :: t.name ++ Attribute.textAll t.attributes) :=
    Text.free_append hname hattributes (hfirm.not_across _)
  rw [Tag.startText]
  split
  · exact hmarks.free_behind "/>".toList rfl rfl hopen
  · exact hmarks.free_behind ['>'] rfl rfl hopen

theorem IsFree.endText (hmarks : Text.Apart marks) {t : Tag} (h : t.IsFree marks) :
    Text.Free marks t.endText ∧ Text.Firm marks t.endText := by
  rw [Tag.endText]
  split
  · exact ⟨hmarks.free_behind ['>'] rfl rfl (hmarks.free_before "</".toList rfl rfl h.1),
      Text.firm_cons (hmarks.bars _ rfl) _⟩
  · exact ⟨Text.free_nil hmarks.nil_not_mem, Text.firm_nil⟩

end Tag

/-! ## Trees -/

namespace Node

variable {n : Node}

/-- A node that begins with a tag begins with a bracket. -/
theorem Starts.source (hmarks : Text.Apart marks)
    (hspaced : Spaced (Text.BeginsBarred marks) (Text.EndsBarred marks) n)
    (h : n.Starts (Text.BeginsBarred marks)) : Text.BeginsBarred marks (Node.source n) := by
  have hbracket : Text.Bars marks '<' := hmarks.bars _ rfl
  cases n with
  | element t children =>
    rw [Node.source]
    exact ⟨'<', _, rfl, hbracket⟩
  | text content =>
    rw [Node.source]
    exact h
  | raw content =>
    rw [Spaced] at hspaced
    obtain ⟨inner, rfl⟩ := hspaced
    rw [Node.source]
    exact ⟨'<', _, rfl, hbracket⟩

/-- A node that ends with a tag ends with a bracket. -/
theorem Ends.source (hmarks : Text.Apart marks)
    (hspaced : Spaced (Text.BeginsBarred marks) (Text.EndsBarred marks) n)
    (h : n.Ends (Text.EndsBarred marks)) : Text.EndsBarred marks (Node.source n) := by
  have hbracket : Text.Bars marks '>' := hmarks.bars _ rfl
  cases n with
  | element t children =>
    have hstart := t.endsBarred_startText hmarks
    rw [Node.source]
    obtain ⟨name, attributes, form⟩ := t
    cases form with
    | unclosed => exact absurd rfl h
    | normal => exact Text.EndsBarred.append ⟨"</".toList ++ name, '>', rfl, hbracket⟩
    | selfClosing | void =>
      -- Neither children nor an end tag are written.
      simpa [Tag.showsChildren, Tag.endText] using hstart
  | text content =>
    rw [Node.source]
    exact h
  | raw content =>
    rw [Spaced] at hspaced
    obtain ⟨inner, rfl⟩ := hspaced
    rw [Node.source]
    exact ⟨'<' :: inner, '>', rfl, hbracket⟩

mutual

/-- `source` of a free and spaced node is free. -/
theorem free_source (hmarks : Text.Apart marks) : (n : Node) →
    Every (Text.Free marks) (Text.Free marks) (Tag.IsFree marks) n →
    Spaced (Text.BeginsBarred marks) (Text.EndsBarred marks) n → Text.Free marks (source n)
  | .text content, h, _ => by
    rw [source]
    exact every_text_iff.1 h
  | .raw content, h, _ => by
    rw [source]
    exact every_raw_iff.1 h
  | .element t children, h, hspaced => by
    rw [every_element_iff] at h
    rw [Spaced] at hspaced
    have hstart := h.1.startText hmarks
    obtain ⟨cs, c, hlast, hc⟩ := t.endsBarred_startText hmarks
    obtain ⟨hend, hfirm⟩ := h.1.endText hmarks
    have hchildren : Text.Free marks (if t.showsChildren then sourceAll children else []) := by
      split
      · exact free_sourceAll hmarks children h.2 hspaced
      · exact Text.free_nil hmarks.nil_not_mem
    rw [source]
    -- A start tag ends in a character of no mark, and an end tag begins with such a character.
    refine Text.free_append (Text.free_append hstart hchildren ?_) hend (hfirm.not_across _)
    rw [hlast]
    exact Text.not_across_of_last hc cs _

/-- The markup of a spaced tree holds no mark if its parts do not. -/
theorem free_sourceAll (hmarks : Text.Apart marks) : (ns : List Node) →
    EveryIn (Text.Free marks) (Text.Free marks) (Tag.IsFree marks) ns →
    SpacedIn (Text.BeginsBarred marks) (Text.EndsBarred marks) ns → Text.Free marks (sourceAll ns)
  | [], _, _ => by
    rw [sourceAll]
    exact Text.free_nil hmarks.nil_not_mem
  | n :: ns, h, hspaced => by
    rw [everyIn_cons_iff] at h
    rw [spacedIn_cons_iff] at hspaced
    rw [sourceAll]
    refine Text.free_append (free_source hmarks n h.1 hspaced.1)
      (free_sourceAll hmarks ns h.2 hspaced.2.2) ?_
    -- One side of the border is harmless.
    cases ns with
    | nil =>
      rw [sourceAll]
      exact Text.firm_nil.not_across _
    | cons m ns =>
      rcases hspaced.2.1 m rfl with hend | hstart
      · obtain ⟨cs, c, hlast, hc⟩ := hend.source hmarks hspaced.1
        rw [hlast]
        exact Text.not_across_of_last hc cs _
      · obtain ⟨c, cs, hhead, hc⟩ := hstart.source hmarks (spacedIn_cons_iff.1 hspaced.2.2).1
        rw [sourceAll, hhead]
        exact (Text.firm_cons hc _).not_across _

end

end Node

end TemploTwig
