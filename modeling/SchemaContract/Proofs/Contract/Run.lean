import SchemaContract.Contract.Program

/-!
How drafts run over the buffer of clauses. Writing a type only appends: the text does not depend on
the clauses that are there, and neither do the clauses that are added.
-/
namespace SchemaContract

namespace Draft

variable {α β : Type}

@[simp] theorem from_pure (a : α) (b : ClauseBuffer) : (pure a : Draft α).from b = (.ok a, b) := rfl

@[simp] theorem from_throw (r : Refusal) (b : ClauseBuffer) :
    (throw r : Draft α).from b = (.error r, b) := rfl

@[simp] theorem from_reset (b : ClauseBuffer) : reset.from b = (.ok (), .empty) := rfl

@[simp] theorem from_drain (b : ClauseBuffer) : drain.from b = (.ok b.clauses, .empty) := rfl

/-- Work that cannot refuse, as a part of a draft. -/
@[simp] theorem from_liftM (work : StateM ClauseBuffer α) (b : ClauseBuffer) :
    (liftM work : Draft α).from b = (.ok (work.run b).1, (work.run b).2) := rfl

/-- Work that leaves the buffer alone, as a part of a draft. -/
@[simp] theorem from_ofExcept (work : Except Refusal α) (b : ClauseBuffer) :
    (liftM work : Draft α).from b = (work, b) := by
  cases work <;> rfl

theorem from_bind (d : Draft α) (f : α → Draft β) (b : ClauseBuffer) :
    (d >>= f).from b =
      match d.from b with
      | (.ok a, b') => (f a).from b'
      | (.error r, b') => (.error r, b') := by
  unfold Draft.from
  rw [ExceptT.run_bind, StateT.run_bind]
  rcases d.run.run b with ⟨_ | _, _⟩ <;> rfl

theorem from_tryCatch (d : Draft α) (handle : Refusal → Draft α) (b : ClauseBuffer) :
    (tryCatch d handle).from b =
      match d.from b with
      | (.ok a, b') => (.ok a, b')
      | (.error r, b') => (handle r).from b' := by
  unfold Draft.from
  rw [ExceptT.run_tryCatch, StateT.run_bind]
  rcases d.run.run b with ⟨_ | _, _⟩ <;> rfl

/-- What a separate draft begins with is lost, and so is what it leaves when it refuses. -/
theorem from_separately (d : Draft α) (b : ClauseBuffer) :
    (separately d).from b =
      match d.from .empty with
      | (.ok a, b') => (.ok a, b')
      | (.error r, _) => (.error r, .empty) := by
  unfold separately
  rw [from_bind, from_reset]
  simp only [from_tryCatch]
  rcases d.from .empty with ⟨_ | _, _⟩ <;> rfl

end Draft

/-- Adds clauses behind those that are there. -/
def ClauseBuffer.append (b : ClauseBuffer) (clauses : List String) : ClauseBuffer :=
  ⟨b.clauses ++ clauses⟩

@[simp] theorem ClauseBuffer.append_nil (b : ClauseBuffer) : b.append [] = b := by
  simp [append]

theorem ClauseBuffer.run_pushAll (clauses : List String) (b : ClauseBuffer) :
    (clauses.forM fun clause => modify (·.push clause) : StateM ClauseBuffer Unit).run b =
      ((), b.append clauses) := by
  induction clauses generalizing b with
  | nil =>
    rw [append_nil]
    rfl
  | cons clause clauses ih =>
    change (clauses.forM _ : StateM ClauseBuffer Unit).run (b.push clause) = _
    rw [ih]
    simp [append]

/-- The clauses that a type adds which is given to a place. -/
def Expression.slotClauses (slot? : Option Slot) : Expression → List String
  | .reference name | .identifier name =>
    if Primitive.target? name = some Primitive.text then
      (slot?.map Slot.patternClauses).getD []
    else []
  | _ => []

@[simp] theorem Expression.slotClauses_none (e : Expression) : e.slotClauses none = [] := by
  cases e <;> simp [slotClauses]

theorem Slot.run_typeOfName (slot? : Option Slot) (name : String) (b : ClauseBuffer) :
    (Slot.typeOfName slot? name).run b =
      (Primitive.typeName name, b.append ((Expression.reference name).slotClauses slot?)) := by
  unfold Slot.typeOfName Expression.slotClauses
  by_cases h : Primitive.target? name = some Primitive.text
  · cases slot? with
    | none =>
      simp [h]
      rfl
    | some slot =>
      simp only [h, if_true, StateT.run_bind, ClauseBuffer.run_pushAll]
      rfl
  · simp [h]
    rfl

/-- The text of a type that is given to no place. -/
def Expression.plainType (e : Expression) : String := ((e.typeText none).run .empty).1

def Expression.plainTypes (es : List Expression) : List String :=
  ((Expression.typeTexts es).run .empty).1

mutual

/-- Writing a type adds the clauses of its place to the buffer and does nothing else to it. -/
theorem Expression.run_typeText (slot? : Option Slot) (b : ClauseBuffer) :
    (e : Expression) → (e.typeText slot?).run b = (e.plainType, b.append (e.slotClauses slot?))
  | .array element => by
    unfold plainType
    simp only [Expression.typeText, StateT.run_bind, Expression.run_typeText none _ element,
      slotClauses_none, ClauseBuffer.append_nil]
    simp only [slotClauses, ClauseBuffer.append_nil]
    rfl
  | .tuple elements => by
    unfold plainType
    simp only [Expression.typeText, StateT.run_bind, Expression.run_typeTexts _ elements,
      ClauseBuffer.append_nil, slotClauses]
    rfl
  | .union options => by
    unfold plainType
    simp only [Expression.typeText, StateT.run_bind, Expression.run_typeTexts _ options,
      ClauseBuffer.append_nil, slotClauses]
    rfl
  | .intersection options => by
    unfold plainType
    simp only [Expression.typeText, StateT.run_bind, Expression.run_typeTexts _ options,
      ClauseBuffer.append_nil, slotClauses]
    rfl
  | .reference name => by
    unfold plainType
    simp only [Expression.typeText, Slot.run_typeOfName]
  | .identifier name => by
    unfold plainType
    simp only [Expression.typeText, Slot.run_typeOfName, slotClauses]
  | .unknown | .model _ | .member .. | .text _ | .number _ | .boolean _ | .void | .never => by
    unfold plainType
    simp only [Expression.typeText, slotClauses, ClauseBuffer.append_nil]
    rfl

theorem Expression.run_typeTexts (b : ClauseBuffer) :
    (es : List Expression) → (Expression.typeTexts es).run b = (Expression.plainTypes es, b)
  | [] => rfl
  | e :: es => by
    unfold plainTypes
    simp only [Expression.typeTexts, StateT.run_bind, Expression.run_typeText none _ e,
      Expression.run_typeTexts _ es, slotClauses_none, ClauseBuffer.append_nil]
    rfl

end

end SchemaContract
