import TemploTwig.Proofs.Markup.Passes

/-!
# Preparing and reading canonical markup

The passes that make a template readable as markup have nothing to do on a canonical tree but to
hide the characters of its text that are no markup, and reading puts these back.
-/

namespace TemploTwig

namespace Document

/-- Preparing canonical markup only hides characters of its text. -/
theorem prepare_sourceAll {children : List Node} (h : IsCanonical children) :
    prepare (Node.sourceAll children) =
      pure (Node.sourceAllBy Literal.protectContent children) := by
  have hA : ∀ a : Attribute, a.IsCanonical → a.IsCanonical ∨ a.IsSlot := fun _ => .inl
  have hhold (select : Text → Option (Family × Text)) :
      Prepare.mapTags (Prepare.holding select) (Node.sourceAll children) =
        pure (Node.sourceAll children) := by
    rw [Node.mapTags_holding select hA h,
      Node.mapAttributesAll_of_pure (fun _ => Prepare.hold_of_isCanonical) children h, map_pure]
  rw [prepare, Node.substituteCalls_sourceAll hA h, pure_bind, substituteConditions_eq, hhold,
    pure_bind, Node.substituteInheritance_sourceAll hA h, pure_bind, substituteAttributes_eq,
    hhold, pure_bind, Node.protectLiterals_sourceAll h]

/-- A canonical tree comes back from its prepared markup, and preparing leaves no trace in the
    state. -/
theorem parse?_prepare {children : List Node} (h : IsCanonical children) (ctx : Context) :
    ∃ prepared, (prepare (Node.sourceAll children)).run ctx = (prepared, ctx) ∧
      parse? prepared = some (root children) := by
  refine ⟨Node.sourceAllBy Literal.protectContent children, ?_, parse?_sourceAllBy h⟩
  rw [prepare_sourceAll h]
  rfl

/-- Markup with most of what makes it hard to read: quotes and colons in values, text with stray
    characters, a reference and colons that open nothing, and elements that are left open. -/
def tangled : List Node := [
  .raw "<!-- a > b -- c -->".toList,
  .element ⟨"div".toList, [
      ⟨"class".toList, .quoted "x ::y:: z".toList .double⟩,
      ⟨"title".toList, .quoted "a > \"b\"".toList .single⟩,
      ⟨"data-n".toList, .unquoted "1=2".toList⟩,
      ⟨"hidden".toList, .bare⟩], .normal⟩ [
    .element ⟨"BR".toList, [], .void⟩ [],
    .element ⟨"img".toList, [⟨"src".toList, .quoted "/a.png".toList .double⟩], .selfClosing⟩ [],
    .text "1 < 2 &amp; 3 & 4 ::if a <b & c:: :: d\n::end::".toList,
    .element ⟨"p".toList, [], .unclosed⟩ [
      .text "left ".toList,
      .element ⟨"b".toList, [], .unclosed⟩ [.text "open:".toList]]],
  .text "<".toList]

/-- The tangled markup comes back. -/
theorem parse?_prepare_tangled :
    IsCanonical tangled ∧
      ∃ prepared, (prepare (Node.sourceAll tangled)).run { options := {}, kind := .document } =
          (prepared, { options := {}, kind := .document }) ∧
        parse? prepared = some (root tangled) :=
  have h : IsCanonical tangled := by decide +kernel
  ⟨h, parse?_prepare h { options := {}, kind := .document }⟩

end Document

end TemploTwig
