import Mathlib.Data.List.Forall2
import SchemaContract.Proofs.Contract.Isolation

/-!
Translators: one policy and one buffer for all that is translated, declaration after declaration.
Whatever was translated before, and however it ended, a statement is translated as a new translator
would, and the buffer is empty between any two tasks.
-/
namespace SchemaContract

/-- What becomes of refusals, and the clauses that are collected so far. -/
structure Translator where
  policy : Policy
  buffer : ClauseBuffer

inductive Task where
  | program (p : Program)
  | statement (s : Statement)
  | model (m : Model)
  | enumeration (e : Enumeration)
  | interface (i : Interface)
  | operation (o : Operation)

def Task.draft (policy : Policy) : Task → Draft String
  | program p => p.draft policy
  | statement s => s.draft
  | model m => m.draft
  | enumeration e => e.draft
  | interface i => i.draft
  | operation o => o.draft

theorem Task.isolated_draft (policy : Policy) (task : Task) : (task.draft policy).Isolated := by
  cases task with
  | program p => exact p.isolated_draft policy
  | statement s => exact s.isolated_draft
  | model m => exact m.isolated_draft
  | enumeration e => exact e.isolated_draft
  | interface i => exact i.isolated_draft
  | operation o => exact o.isolated_draft

namespace Translator

def new (policy : Policy) : Translator := ⟨policy, .empty⟩

def result (t : Translator) (task : Task) : Except Refusal String :=
  ((task.draft t.policy).from t.buffer).1

/-- The translator that a task leaves behind, whether it is refused or not. -/
def perform (t : Translator) (task : Task) : Translator :=
  ⟨t.policy, ((task.draft t.policy).from t.buffer).2⟩

def after (t : Translator) (history : List Task) : Translator := history.foldl perform t

theorem policy_after (t : Translator) (history : List Task) :
    (t.after history).policy = t.policy := by
  induction history generalizing t with
  | nil => rfl
  | cons task history ih => exact ih (t.perform task)

theorem result_eq_new (t : Translator) (task : Task) :
    t.result task = (new t.policy).result task :=
  (task.isolated_draft t.policy).result_eq t.buffer

theorem buffer_perform {t : Translator} (ht : t.buffer = .empty) (task : Task) :
    (t.perform task).buffer = .empty := by
  unfold perform
  rw [ht]
  exact (task.isolated_draft t.policy).buffer_eq

theorem buffer_after {t : Translator} (ht : t.buffer = .empty) (history : List Task) :
    (t.after history).buffer = .empty := by
  induction history generalizing t with
  | nil => exact ht
  | cons task history ih => exact ih (buffer_perform ht task)

end Translator

/-- What a statement leaves in a program under a policy: the text that a new translator makes of it,
or the note of its refusal where the policy is to go on. -/
def Policy.Leaves (policy : Policy) (s : Statement) (fragment : String) : Prop :=
  match (Translator.new policy).result (.statement s) with
  | .ok text => fragment = text
  | .error r => policy = .placeholder ∧ fragment = "[Unsupported: " ++ r.feature ++ "]"

theorem Statement.fragment_eq_ok_iff (policy : Policy) (s : Statement) (fragment : String) :
    ((s.fragment policy).from .empty).1 = .ok fragment ↔ policy.Leaves s fragment := by
  unfold Policy.Leaves Translator.result Task.draft
  cases policy with
  | abort =>
    simp only [Statement.fragment, Translator.new]
    rcases s.draft.from .empty with ⟨r | text, b⟩
    · simp
    · simp [eq_comm]
  | placeholder =>
    simp only [Statement.fragment, Translator.new, Draft.from_tryCatch]
    rcases s.draft.from .empty with ⟨r | text, b⟩
    · simp [Refusal.note, eq_comm]
    · simp [eq_comm]

theorem Statement.fragments_eq_ok_iff (policy : Policy) (ss : List Statement)
    (fragments : List String) :
    ((Statement.fragments policy ss).from .empty).1 = .ok fragments ↔
      List.Forall₂ policy.Leaves ss fragments := by
  induction ss generalizing fragments with
  | nil => cases fragments <;> simp [Statement.fragments]
  | cons s ss ih =>
    have hb := (s.isolated_fragment policy).buffer_eq
    have hs := s.fragment_eq_ok_iff policy
    unfold Statement.fragments
    rw [Draft.from_bind]
    revert hb hs
    rcases (s.fragment policy).from .empty with ⟨r | first, b⟩ <;> intro hb hs
    · cases fragments <;> simp [← hs]
    · obtain rfl : b = .empty := hb
      simp only [Draft.from_bind]
      rcases h : (Statement.fragments policy ss).from .empty with ⟨r | others, b⟩
      · cases fragments <;> simp [← ih, h]
      · cases fragments <;> simp [← ih, ← hs, h]

/-- A statement is translated as a new translator would, whatever the buffer holds. So the result of
a program depends on nothing that was translated before it, and it is the join of what new
translators leave of its statements, each of them once and in order. -/
theorem Translator.result_isolated (t : Translator) (s : Statement) (history : List Task)
    (p : Program) (text : String) :
    t.result (.statement s) = (Translator.new t.policy).result (.statement s) ∧
      (t.after history).result (.program p) = (Translator.new t.policy).result (.program p) ∧
      ((t.after history).result (.program p) = .ok text ↔
        ∃ fragments, List.Forall₂ t.policy.Leaves p.statements fragments ∧
          text = "namespace Main;" ++ "\n\n" ++
            "\n\n".intercalate (fragments.filter (· ≠ ""))) := by
  have hp : (t.after history).result (.program p) =
      (Translator.new t.policy).result (.program p) := by
    rw [result_eq_new, policy_after]
  refine ⟨t.result_eq_new _, hp, ?_⟩
  rw [hp]
  unfold result Task.draft Program.draft
  simp only [Draft.from_bind, Translator.new, ← Statement.fragments_eq_ok_iff]
  rcases (Statement.fragments t.policy p.statements).from .empty with ⟨r | fragments, b⟩
  · simp
  · simp [moduleText, moduleHead, joinBlocks, eq_comm]

/-- However a new translator is used, it holds no clauses between two tasks. Nor does it hold any
behind the last fragment of a program, where it is required to be empty. -/
theorem Translator.buffer_always_empty (policy : Policy) (history : List Task) (p : Program) :
    ((Translator.new policy).after history).buffer = .empty ∧
      ((Statement.fragments policy p.statements).from
        ((Translator.new policy).after history).buffer).2.isEmpty = true := by
  have hb := buffer_after (t := Translator.new policy) rfl history
  refine ⟨hb, ?_⟩
  rw [hb, (Statement.isolated_fragments policy p.statements).buffer_eq]
  rfl

end SchemaContract
