import SchemaContract.Proofs.Contract.Outcome
import SchemaContract.Proofs.Contract.Translator

/-!
Policies. Under the policy to abort, a program is refused exactly if one of its statements uses a
feature that contracts do not have, and the first use in source order is the one that is named.
Under the other policy a program is never refused: its statements leave what new translators make of
them, and a note where they are refused.
-/
namespace SchemaContract

/-- What is refused in a program, in the order of the statements, of the operations of each and of
the members of each. -/
def Program.refusals (p : Program) : List Refusal := p.statements.flatMap Statement.refusals

theorem Translator.result_statement (t : Translator) (s : Statement) :
    t.result (.statement s) = unlessRefused s.refusals s.contractText :=
  s.comesTo_draft t.buffer

/-- What a statement leaves where refusals are noted: the text that a new translator makes of it
alone, or the note of its refusal. -/
def Statement.noted (s : Statement) : String :=
  match (Translator.new .abort).result (.statement s) with
  | .ok text => text
  | .error r => "[Unsupported: " ++ r.feature ++ "]"

theorem Statement.noted_eq (s : Statement) :
    s.noted = (s.refusals.head?.map Refusal.note).getD s.contractText := by
  unfold noted
  rw [Translator.result_statement]
  cases s.refusals <;> rfl

theorem Statement.comesTo_fragments_abort (ss : List Statement) :
    (Statement.fragments .abort ss).ComesTo (ss.flatMap Statement.refusals)
      (ss.map Statement.contractText) := by
  induction ss with
  | nil => exact .pure []
  | cons s ss ih => exact s.comesTo_draft.bind ih.bind_pure

theorem Statement.comesTo_fragments_placeholder (ss : List Statement) :
    (Statement.fragments .placeholder ss).ComesTo [] (ss.map Statement.noted) := by
  induction ss with
  | nil => exact .pure []
  | cons s ss ih =>
    have h : (s.fragment .placeholder).ComesTo [] s.noted := by
      rw [noted_eq]
      exact s.comesTo_draft.tryCatch
    exact h.bind ih.bind_pure

theorem Translator.result_abort (p : Program) (b : ClauseBuffer) :
    (Translator.mk .abort b).result (.program p) =
      unlessRefused p.refusals (moduleText (p.statements.map Statement.contractText)) :=
  (Statement.comesTo_fragments_abort p.statements).bind_pure b

theorem Translator.result_placeholder (p : Program) (b : ClauseBuffer) :
    (Translator.mk .placeholder b).result (.program p) =
      .ok (moduleText (p.statements.map Statement.noted)) :=
  (Statement.comesTo_fragments_placeholder p.statements).bind_pure b

theorem Program.map_noted_of_refusals_eq_nil {p : Program} (h : p.refusals = []) :
    p.statements.map Statement.noted = p.statements.map Statement.contractText := by
  apply List.map_congr_left
  intro s hs
  rw [Statement.noted_eq, List.flatMap_eq_nil_iff.1 h s hs]
  rfl

theorem Program.exists_first_refused {p : Program} {r : Refusal} {rs : List Refusal}
    (h : p.refusals = r :: rs) :
    ∃ before s after, p.statements = before ++ s :: after ∧ (∀ x ∈ before, x.refusals = []) ∧
      s.refusals.head? = some r := by
  obtain ⟨ls, l, ls', hls, hbefore, -⟩ :=
    List.flatten_eq_cons_iff.1 ((List.flatMap_def).symm.trans h)
  obtain ⟨before, rest, hp, rfl, hrest⟩ := List.map_eq_append_iff.1 hls
  obtain ⟨s, after, rfl, hs, -⟩ := List.map_eq_cons_iff.1 hrest
  refine ⟨before, s, after, hp, fun x hx => ?_, ?_⟩
  · exact hbefore _ (List.mem_map_of_mem hx)
  · rw [hs]
    rfl

/-- Where refusals are noted a program always has a text. It is the text that the other policy
gives, if that gives one. Else it is the join of what the statements leave, where those before the
first refused one leave their texts, that one the note of the refusal that aborts, and those behind
it what new translators make of them alone. -/
theorem Program.policies_agree (p : Program) (b b' : ClauseBuffer) :
    ∃ text, (Translator.mk .placeholder b').result (.program p) = .ok text ∧
      match (Translator.mk .abort b).result (.program p) with
      | .ok text' => text = text'
      | .error r => ∃ before s after, p.statements = before ++ s :: after ∧
        (∀ x ∈ before, (Translator.new .abort).result (.statement x) = .ok x.noted) ∧
        (Translator.new .abort).result (.statement s) = .error r ∧
        text = "namespace Main;" ++ "\n\n" ++ "\n\n".intercalate
          ((before.map Statement.noted ++ ("[Unsupported: " ++ r.feature ++ "]") ::
            after.map Statement.noted).filter (· ≠ "")) := by
  refine ⟨_, Translator.result_placeholder p b', ?_⟩
  rw [Translator.result_abort]
  cases h : p.refusals with
  | nil =>
    change moduleText _ = moduleText _
    rw [p.map_noted_of_refusals_eq_nil h]
  | cons r rs =>
    obtain ⟨before, s, after, hp, hbefore, hs⟩ := p.exists_first_refused h
    have hr : (Translator.new .abort).result (.statement s) = .error r := by
      rw [Translator.result_statement, unlessRefused_eq_error_iff, hs]
    refine ⟨before, s, after, hp, fun x hx => ?_, hr, ?_⟩
    · rw [Translator.result_statement, Statement.noted_eq, hbefore x hx]
      rfl
    · have hnote : s.noted = "[Unsupported: " ++ r.feature ++ "]" := by
        rw [Statement.noted, hr]
      rw [hp, List.map_append, List.map_cons, hnote]
      rfl

end SchemaContract
