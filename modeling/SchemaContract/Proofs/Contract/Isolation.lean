import SchemaContract.Proofs.Contract.Run

/-!
Isolation of declarations. The text or the refusal of a declaration does not depend on the clauses
that the buffer holds before it, and a declaration that begins with an empty buffer leaves an empty
one, whether it is refused or not.
-/
namespace SchemaContract

/-- A draft that takes no clause over from what was drafted before and hands none on. -/
structure Draft.Isolated {α : Type} (d : Draft α) : Prop where
  result_eq : ∀ b, (d.from b).1 = (d.from .empty).1
  buffer_eq : (d.from .empty).2 = .empty

/-- A draft that has taken out all clauses by the time it succeeds. -/
def Draft.Drained {α : Type} (d : Draft α) : Prop :=
  ∀ b a b', d.from b = (.ok a, b') → b' = .empty

namespace Draft.Isolated

variable {α β : Type}

theorem pure (a : α) : (Pure.pure a : Draft α).Isolated := ⟨fun _ => rfl, rfl⟩

theorem ofExcept (work : Except Refusal α) : (liftM work : Draft α).Isolated :=
  ⟨fun b => by rw [from_ofExcept, from_ofExcept], by rw [from_ofExcept]⟩

theorem bind {d : Draft α} {f : α → Draft β} (hd : d.Isolated) (hf : ∀ a, (f a).Isolated) :
    (d >>= f).Isolated := by
  constructor
  · intro b
    have hr := hd.result_eq b
    rw [from_bind, from_bind]
    revert hr
    rcases d.from b with ⟨r | a, b₁⟩ <;> rcases d.from .empty with ⟨r' | a', b₂⟩ <;> intro hr
    · cases hr
      rfl
    · cases hr
    · cases hr
    · cases hr
      exact ((hf a).result_eq b₁).trans ((hf a).result_eq b₂).symm
  · have hb := hd.buffer_eq
    rw [from_bind]
    revert hb
    rcases d.from .empty with ⟨r | a, b⟩ <;> intro hb
    · exact hb
    · cases hb
      exact (hf a).buffer_eq

theorem tryCatch {d : Draft α} {handle : Refusal → Draft α} (hd : d.Isolated)
    (hh : ∀ r, (handle r).Isolated) : (tryCatch d handle).Isolated := by
  constructor
  · intro b
    have hr := hd.result_eq b
    rw [from_tryCatch, from_tryCatch]
    revert hr
    rcases d.from b with ⟨r | a, b₁⟩ <;> rcases d.from .empty with ⟨r' | a', b₂⟩ <;> intro hr
    · cases hr
      exact ((hh r).result_eq b₁).trans ((hh r).result_eq b₂).symm
    · cases hr
    · cases hr
    · exact hr
  · have hb := hd.buffer_eq
    rw [from_tryCatch]
    revert hb
    rcases d.from .empty with ⟨r | a, b⟩ <;> intro hb
    · cases hb
      exact (hh r).buffer_eq
    · exact hb

/-- Isolation is the reset on entry, the reset on refusal and the draining in between. -/
theorem separately {d : Draft α} (hd : d.Drained) : (separately d).Isolated := by
  constructor
  · intro b
    rw [from_separately, from_separately]
  · rw [from_separately]
    rcases h : d.from .empty with ⟨r | a, b⟩
    · rfl
    · exact hd _ _ _ h

end Draft.Isolated

/-- A name for a type leaves the buffer alone, since its target belongs to no place. -/
theorem Model.run_abbreviation (name : String) (target : Expression) (b : ClauseBuffer) :
    (Model.abbreviation name target).run b =
      (((Model.abbreviation name target).run .empty).1, b) := by
  unfold Model.abbreviation
  split
  · split <;> rfl
  · simp only [StateT.run_bind, Expression.run_typeText, Expression.slotClauses_none,
      ClauseBuffer.append_nil]
    rfl

theorem Model.drained_entity (m : Model) : m.entity.Drained := by
  intro b a b' h
  unfold Model.entity at h
  simp only [Draft.from_bind] at h
  revert h
  rcases (Member.draftList m.name Entity.field m.members).from b with ⟨r | entries, b₁⟩ <;>
    intro h
  · cases h
  · cases h
    rfl

theorem Operation.drained_entrypoint (o : Operation) : o.entrypoint.Drained := by
  intro b a b' h
  unfold Operation.entrypoint at h
  simp only [Draft.from_bind] at h
  revert h
  rcases (Member.draftList o.name Entrypoint.parameter o.parameters).from b with
    ⟨r | parameters, b₁⟩ <;> intro h
  · cases h
  · cases h
    rfl

theorem Model.isolated_draft (m : Model) : m.draft.Isolated := by
  unfold Model.draft
  split
  · refine .bind ⟨fun b => ?_, ?_⟩ fun _ => .pure _
    · rw [Draft.from_liftM, Draft.from_liftM, Model.run_abbreviation _ _ b]
    · rw [Draft.from_liftM, Model.run_abbreviation]
  · exact .bind (.separately m.drained_entity) fun _ => .pure _

theorem Enumeration.isolated_draft (e : Enumeration) : e.draft.Isolated :=
  .bind (.ofExcept e.caseBlock) fun _ => .pure _

theorem Operation.isolated_draft (o : Operation) : o.draft.Isolated :=
  .bind (.separately o.drained_entrypoint) fun _ => .pure _

theorem Operation.isolated_draftList (os : List Operation) :
    (Operation.draftList os).Isolated := by
  induction os with
  | nil => exact .pure _
  | cons o os ih => exact .bind o.isolated_draft fun _ => .bind ih fun _ => .pure _

theorem Interface.isolated_draft (i : Interface) : i.draft.Isolated :=
  .bind (Operation.isolated_draftList i.operations) fun _ => .pure _

theorem Statement.isolated_draft (s : Statement) : s.draft.Isolated := by
  cases s with
  | model m => exact m.isolated_draft
  | enumeration e => exact e.isolated_draft
  | interface i => exact i.isolated_draft
  | _ => exact .pure _

theorem Statement.isolated_fragment (policy : Policy) (s : Statement) :
    (s.fragment policy).Isolated := by
  cases policy with
  | abort => exact s.isolated_draft
  | placeholder => exact .tryCatch s.isolated_draft fun _ => .pure _

theorem Statement.isolated_fragments (policy : Policy) (ss : List Statement) :
    (Statement.fragments policy ss).Isolated := by
  induction ss with
  | nil => exact .pure _
  | cons s ss ih => exact .bind (s.isolated_fragment policy) fun _ => .bind ih fun _ => .pure _

theorem Program.isolated_draft (policy : Policy) (p : Program) : (p.draft policy).Isolated :=
  .bind (Statement.isolated_fragments policy p.statements) fun _ => .pure _

end SchemaContract
