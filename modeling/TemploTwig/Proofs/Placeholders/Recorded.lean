import TemploTwig.Proofs.Placeholders.Prepared
import TemploTwig.Proofs.Placeholders.Spelling

/-!
# What the passes record

The passes put a construct into a table and its index into the text.  A call is recorded as Twig,
made of its name and its arguments without directive delimiters; the value of an attribute is
recorded as Twig in braces.
-/

namespace TemploTwig

/-! ## Calls -/

/-- Removing a pair of characters leaves parts out. -/
theorem Text.shortens_remove (a b : Char) (t : Text) :
    Text.Shortens [a] [b] t (Text.remove a b t) := by
  fun_induction Text.remove a b t with
  | case1 => exact .refl
  | case2 c => exact .refl
  | case3 c d r h ih =>
    obtain ⟨rfl, rfl⟩ := h
    have hpair : Text.Bounded [c] [d] [c, d] :=
      ⟨⟨c, [d], rfl, List.mem_cons_self⟩, ⟨[c], d, rfl, List.mem_cons_self⟩⟩
    exact (Text.Shortens.skip [] r hpair).trans ih
  | case4 c d r _ ih => simpa using ih.between [c] []

/-- The Twig for a call holds no mark if the call cannot spell one. -/
theorem Context.isBordered_renderCall {marks : List Text} (hmarks : Text.Apart marks) (ctx : Context)
    {call : MacroCall} (hcall : Text.EverFree marks openChars closeChars call.source) :
    Substitutes.IsBordered marks (ctx.renderCall call) := by
  have hname : Text.Free marks call.name :=
    hcall.free.of_infix ⟨"$$".toList, '(' :: call.arguments ++ [')'], by simp [MacroCall.source]⟩
  have harguments : Text.Free marks (Text.remove ':' ':' call.arguments) := by
    refine (hcall.of_within ⟨"$$".toList ++ call.name ++ ['('], [')'], ?_⟩) _
      ((Text.shortens_remove ':' ':' call.arguments).mono (by decide) (by decide))
    simp [MacroCall.source]
  have hfixed : Text.Free marks (ctx.kind.macroNamespace ++ ['.'] ++ call.name) := by
    cases ctx.kind <;> exact hmarks.free_before _ rfl rfl hname
  have hcallText := hmarks.free_behind [')'] rfl rfl
    (hmarks.free_between ['('] rfl rfl rfl hfixed harguments)
  refine Twig.isBordered_printSpaced hmarks ?_
  simpa using hcallText

/-! ## The tables -/

/-- `record` adds its entry to its family only. -/
theorem Tables.mem_entries_record {tables : Tables} {f g : Family} {x entry : Text}
    (h : x ∈ (tables.record f entry).entries g) : x ∈ tables.entries g ∨ g = f ∧ x = entry := by
  by_cases hfamily : g = f
  · subst hfamily
    rw [Tables.entries_record_self, List.mem_append, List.mem_singleton] at h
    exact h.imp_right fun heq => ⟨rfl, heq⟩
  · rw [Tables.entries_record_of_ne hfamily] at h
    exact .inl h

/-- The context of a template behind the passes, or on the way: recorded calls hold no mark and have
    harmless borders, recorded values begin with a brace. -/
structure Context.Recorded (marks : List Text) (options : Options) (ctx : Context) : Prop where
  options : ctx.options = options
  switches : ctx.switches = []
  calls : ∀ entry ∈ ctx.tables.entries .macroCall, Substitutes.IsBordered marks entry
  values : ∀ f, f ≠ .macroCall → f ≠ .condition →
    ∀ entry ∈ ctx.tables.entries f, entry.head? = some '\x7b'

namespace Context.Recorded

variable {marks : List Text} {options : Options} {ctx : Context}

theorem fresh (marks : List Text) (options : Options) (kind : TemplateKind) :
    Recorded marks options { options, kind } :=
  ⟨rfl, rfl, fun _ h => (by cases h), fun f _ _ _ h => by cases f <;> cases h⟩

/-- `record` keeps `Recorded` for an entry of its family. -/
theorem record {family : Family} {entry : Text} (h : Recorded marks options ctx)
    (hcall : family = .macroCall → Substitutes.IsBordered marks entry)
    (hvalue : family ≠ .macroCall → family ≠ .condition → entry.head? = some '\x7b') :
    Recorded marks options (ctx.record family entry).2 := by
  refine ⟨h.options, h.switches, ?_, ?_⟩
  · intro x hx
    rcases Tables.mem_entries_record hx with hx | ⟨hfamily, rfl⟩
    · exact h.calls x hx
    · exact hcall hfamily.symm
  · intro f hf hf' x hx
    rcases Tables.mem_entries_record hx with hx | ⟨rfl, rfl⟩
    · exact h.values f hf hf' x hx
    · exact hvalue hf hf'

end Context.Recorded

/-- Behind the passes the tables hold what they should. -/
theorem Prepare.recorded_prepare {marks : List Text} (hmarks : Text.Apart marks) {source : Text}
    (hsource : Text.EverFree marks openChars closeChars source) (options : Options)
    (kind : TemplateKind) :
    CarriesAt (fun ctx => ctx.Recorded marks options ∧
      ctx.tables.macroCalls.length ≤ source.length) source (prepare source) { options, kind } := by
  refine carries_prepare ?_ ?_ ?_ ?_ ?_ (Context.Recorded.fresh marks options kind) rfl
  · intro call hcall ctx hctx
    exact hctx.record (fun _ => ctx.isBordered_renderCall hmarks (hsource.of_within hcall))
      fun hfamily => absurd rfl hfamily
  · intro ctx entry hctx
    exact hctx.record (fun hfamily => (by cases hfamily)) fun _ hfamily => absurd rfl hfamily
  · intro ctx family entry hfamily hopens hctx
    exact hctx.record (fun h => absurd h hfamily) fun _ _ => hopens.head?
  · intro ctx parent hctx
    exact ⟨hctx.options, hctx.switches, hctx.calls, hctx.values⟩
  · intro ctx w hctx
    exact ⟨hctx.options, hctx.switches, hctx.calls, hctx.values⟩

end TemploTwig
