import SchemaContract.Proofs.Contract.Run

/-!
What writing a type does to the clauses of a place. The text is that of the type wherever it stands.
Clauses are added behind those that are there, and only for the patterns of a place whose own type
is `string`: the parts of a type belong to no place.
-/
namespace SchemaContract

def Decorator.pattern? : Decorator → Option String
  | ⟨"pattern", .text pattern :: _⟩ => some pattern
  | _ => none

def Expression.isTextName : Expression → Bool
  | .reference name | .identifier name => name == "string"
  | _ => false

/-- The clauses that a type has at a place: one for each pattern of the place, in order. -/
def Expression.statedAt (slot? : Option Slot) (e : Expression) : List String :=
  match slot? with
  | some slot =>
    if e.isTextName then
      (slot.decorators.filterMap Decorator.pattern?).map fun pattern =>
        patternClause pattern slot.name
    else []
  | none => []

theorem Decorator.textArgument?_pattern :
    Decorator.textArgument? "pattern" = Decorator.pattern? := by
  funext ⟨target, arguments⟩
  unfold textArgument?
  dsimp only
  by_cases h : target = "pattern"
  · subst h
    rcases arguments with _ | ⟨argument, others⟩
    · rfl
    · cases argument <;> rfl
  · rw [if_neg h]
    unfold pattern?
    split
    · next he =>
      cases he
      exact absurd rfl h
    · rfl

theorem Expression.slotClauses_eq_statedAt (slot? : Option Slot) (e : Expression) :
    e.slotClauses slot? = e.statedAt slot? := by
  unfold statedAt
  cases slot? with
  | none => exact e.slotClauses_none
  | some slot =>
    cases e with
    | reference name | identifier name =>
      simp only [slotClauses, Primitive.target?_eq_text_iff, isTextName, beq_iff_eq,
        ← Decorator.textArgument?_pattern]
      rfl
    | _ => rfl

/-- Writing a type gives a text that is the same for every place and buffer, and adds to the buffer
the clauses of the place and no others. -/
theorem Expression.typeText_appends (e : Expression) :
    ∃ text : String, ∀ (slot? : Option Slot) (b : ClauseBuffer),
      (e.typeText slot?).run b = (text, ⟨b.clauses ++ e.statedAt slot?⟩) := by
  refine ⟨e.plainType, fun slot? b => ?_⟩
  rw [Expression.run_typeText, Expression.slotClauses_eq_statedAt]
  rfl

end SchemaContract
