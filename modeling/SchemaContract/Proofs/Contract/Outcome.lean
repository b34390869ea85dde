import SchemaContract.Proofs.Contract.Run

/-!
Outcomes of declarations. A declaration comes to its text unless something in it is refused, and
then to the first refusal in source order. Which of the two it is, and which text or refusal,
depends on the declaration alone and not on the clauses that are collected before it.
-/
namespace SchemaContract

/-- A value, or the first of the refusals where there are any. -/
def unlessRefused {α : Type} (refusals : List Refusal) (a : α) : Except Refusal α :=
  match refusals with
  | [] => .ok a
  | r :: _ => .error r

theorem unlessRefused_eq_ok_iff {α : Type} {refusals : List Refusal} {a c : α} :
    unlessRefused refusals a = .ok c ↔ refusals = [] ∧ a = c := by
  cases refusals <;> simp [unlessRefused]

theorem unlessRefused_eq_error_iff {α : Type} {refusals : List Refusal} {a : α} {r : Refusal} :
    unlessRefused refusals a = .error r ↔ refusals.head? = some r := by
  cases refusals <;> simp [unlessRefused]

namespace Draft

variable {α β : Type} {d : Draft α} {f : α → Draft β} {refusals refusals' : List Refusal}
  {a a' : α} {c : β} {clauses clauses' : List String}

/-- A draft that comes to a value unless something is refused, whatever the buffer holds. -/
def ComesTo (d : Draft α) (refusals : List Refusal) (a : α) : Prop :=
  ∀ b, (d.from b).1 = unlessRefused refusals a

/-- A draft that does so and adds clauses to the buffer. -/
structure Collects (d : Draft α) (refusals : List Refusal) (a : α) (clauses : List String) :
    Prop where
  comesTo : d.ComesTo refusals a
  buffer_eq : refusals = [] → ∀ b, (d.from b).2 = b.append clauses

theorem from_bind_of_ok {b : ClauseBuffer} (h : (d.from b).1 = .ok a) :
    (d >>= f).from b = (f a).from (d.from b).2 := by
  rw [from_bind]
  revert h
  rcases d.from b with ⟨_ | _, _⟩ <;> intro h <;> cases h
  rfl

theorem from_bind_of_error {b : ClauseBuffer} {r : Refusal} (h : (d.from b).1 = .error r) :
    (d >>= f).from b = (.error r, (d.from b).2) := by
  rw [from_bind]
  revert h
  rcases d.from b with ⟨_ | _, _⟩ <;> intro h <;> cases h
  rfl

theorem ComesTo.of_ok {b : ClauseBuffer} (hd : d.ComesTo refusals a)
    (h : (d.from b).1 = .ok a') : refusals = [] ∧ a = a' :=
  unlessRefused_eq_ok_iff.1 ((hd b).symm.trans h)

theorem ComesTo.pure (a : α) : (Pure.pure a : Draft α).ComesTo [] a := fun _ => rfl

theorem ComesTo.ofExcept {work : Except Refusal α} (h : work = unlessRefused refusals a) :
    (liftM work : Draft α).ComesTo refusals a := by
  intro b
  rw [from_ofExcept, h]

/-- What the first part refuses comes before what the second part does. -/
theorem ComesTo.bind (hd : d.ComesTo refusals a) (hf : (f a).ComesTo refusals' c) :
    (d >>= f).ComesTo (refusals ++ refusals') c := by
  intro b
  cases refusals with
  | nil =>
    rw [from_bind_of_ok (hd b)]
    exact hf _
  | cons r refusals =>
    rw [from_bind_of_error (hd b)]
    rfl

theorem ComesTo.bind_pure {g : α → β} (hd : d.ComesTo refusals a) :
    (d >>= fun x => Pure.pure (g x)).ComesTo refusals (g a) := by
  have h := hd.bind (f := fun x => Pure.pure (g x)) (.pure (g a))
  rwa [List.append_nil] at h

theorem ComesTo.tryCatch {handle : Refusal → α} (hd : d.ComesTo refusals a) :
    (tryCatch d fun r => Pure.pure (handle r)).ComesTo []
      ((refusals.head?.map handle).getD a) := by
  intro b
  have h := hd b
  rw [from_tryCatch]
  revert h
  rcases d.from b with ⟨_ | _, _⟩ <;> cases refusals <;> intro h <;> cases h <;> rfl

theorem Collects.pure (a : α) : (Pure.pure a : Draft α).Collects [] a [] :=
  ⟨.pure a, fun _ b => b.append_nil.symm⟩

theorem Collects.bind (hd : d.Collects refusals a clauses)
    (hf : (f a).Collects refusals' c clauses') :
    (d >>= f).Collects (refusals ++ refusals') c (clauses ++ clauses') := by
  refine ⟨hd.comesTo.bind hf.comesTo, fun hnone b => ?_⟩
  obtain ⟨rfl, rfl⟩ := List.append_eq_nil_iff.1 hnone
  rw [from_bind_of_ok (hd.comesTo b), hf.buffer_eq rfl, hd.buffer_eq rfl]
  simp [ClauseBuffer.append]

theorem Collects.bind_pure {g : α → β} (hd : d.Collects refusals a clauses) :
    (d >>= fun x => Pure.pure (g x)).Collects refusals (g a) clauses := by
  have h := hd.bind (f := fun x => Pure.pure (g x)) (.pure (g a))
  rwa [List.append_nil, List.append_nil] at h

/-- The clauses that a separate draft takes out are those that it has collected itself. -/
theorem Collects.comesTo_separately {g : α → List String → Draft β}
    (hd : d.Collects refusals a clauses) (hg : (g a clauses).ComesTo [] c) :
    (separately (d >>= fun x => drain >>= g x)).ComesTo refusals c := by
  intro b
  rw [from_separately]
  cases refusals with
  | nil =>
    have h : ((g a clauses).from .empty).1 = .ok c := hg .empty
    rw [from_bind_of_ok (hd.comesTo .empty), hd.buffer_eq rfl, from_bind, from_drain]
    simp only [ClauseBuffer.append, ClauseBuffer.clauses_empty, List.nil_append]
    revert h
    rcases (g a clauses).from .empty with ⟨_ | _, _⟩ <;> intro h <;> cases h
    rfl
  | cons r refusals =>
    rw [from_bind_of_error (hd.comesTo .empty)]
    rfl

end Draft

-- The types of members are written in turn, and their patterns are collected.

/-- What is refused of a property. Of two reasons the first counts. -/
def Property.refusal? (owner : String) (p : Property) : Option Refusal :=
  if p.optional then some (.optionalProperty p.key.text owner)
  else if p.default?.isSome then some (.defaultValue p.key.text owner)
  else none

def Member.refusal? (owner : String) : Member → Option Refusal
  | .property p => p.refusal? owner
  | .spread _ => none

/-- The clauses that the patterns of a member state. -/
def Member.clauses : Member → List String
  | .property p => p.type.slotClauses (some ⟨p.decorators, p.key.text⟩)
  | .spread _ => []

/-- The text that is written for a member. -/
def Member.entry (write : String → String → String) : Member → String
  | .property p => write p.key.text p.type.plainType
  | .spread _ => spreadPlaceholder

/-- The reference or identifier `string`, the only type whose patterns are checked. -/
def Expression.isString : Expression → Bool
  | .reference name | .identifier name => name == "string"
  | _ => false

theorem Expression.slotClauses_some (slot : Slot) (e : Expression) :
    e.slotClauses (some slot) = if e.isString then slot.patternClauses else [] := by
  cases e <;> simp [slotClauses, isString, Primitive.target?_eq_text_iff]

theorem Property.refusal?_eq_none_iff {owner : String} {p : Property} :
    p.refusal? owner = none ↔ p.optional = false ∧ p.default? = none := by
  unfold refusal?
  cases p.optional <;> cases p.default? <;> simp

theorem Expression.collects_typeText (slot? : Option Slot) (e : Expression) :
    (liftM (e.typeText slot?) : Draft String).Collects [] e.plainType (e.slotClauses slot?) := by
  refine ⟨fun b => ?_, fun _ b => ?_⟩ <;> rw [Draft.from_liftM, run_typeText]
  rfl

theorem Property.collects_draft (owner : String) (p : Property) :
    (p.draft owner).Collects (p.refusal? owner).toList p.type.plainType
      (Member.property p).clauses := by
  unfold Property.draft Property.refusal?
  by_cases ho : p.optional = true
  · simp only [ho, if_true]
    exact ⟨fun _ => rfl, nofun⟩
  by_cases hd : p.default?.isSome = true
  · simp only [ho, hd, Bool.false_eq_true, if_true, if_false]
    exact ⟨fun _ => rfl, nofun⟩
  simp only [ho, hd, Bool.false_eq_true, if_false]
  exact p.type.collects_typeText _

theorem Member.collects_draftList (owner : String) (write : String → String → String)
    (members : List Member) :
    (Member.draftList owner write members).Collects (members.filterMap (Member.refusal? owner))
      (members.map (Member.entry write)) (members.flatMap Member.clauses) := by
  induction members with
  | nil => exact .pure []
  | cons m members ih =>
    cases m with
    | property p =>
      have h := (p.collects_draft owner).bind
        (f := fun type => Member.draftList owner write members >>= fun others =>
          pure (write p.key.text type :: others)) ih.bind_pure
      have hrefusals : ((Member.property p :: members).filterMap (Member.refusal? owner)) =
          (p.refusal? owner).toList ++ members.filterMap (Member.refusal? owner) := by
        rw [List.filterMap_cons, Member.refusal?]
        cases p.refusal? owner <;> rfl
      rw [hrefusals]
      exact h
    | spread target => exact ih.bind_pure

def Abbreviation.ofTarget (name : String) (target : Expression) : Abbreviation :=
  match target.path? with
  | some path =>
    match Primitive.target? path with
    | some primitive => .declared name primitive
    | none => .defined name path
  | none => .defined name target.plainType

theorem Abbreviation.run_eq_ofTarget (name : String) (target : Expression) (b : ClauseBuffer) :
    (Model.abbreviation name target).run b = (ofTarget name target, b) := by
  unfold Model.abbreviation ofTarget
  cases target.path? with
  | none =>
    simp only [StateT.run_bind, Expression.run_typeText, Expression.slotClauses_none,
      ClauseBuffer.append_nil]
    rfl
  | some path =>
    simp only
    cases Primitive.target? path <;> rfl

/-- The clauses of a model: its own invariants, and those of its members. -/
def Model.invariants (m : Model) : List String :=
  Decorator.clauses "invariant" m.decorators ++ m.members.flatMap Member.clauses

/-- A model that has a target is not looked into. -/
def Model.refusals (m : Model) : List Refusal :=
  match m.target? with
  | some _ => []
  | none => m.members.filterMap (Member.refusal? m.name)

def Model.contractText (m : Model) : String :=
  match m.target? with
  | some target => (Abbreviation.ofTarget m.name target).text
  | none => Entity.text ⟨m.name, m.members.map (Member.entry Entity.field), m.invariants⟩

theorem Model.refusals_of_some {m : Model} {target : Expression} (h : m.target? = some target) :
    m.refusals = [] := by
  rw [refusals, h]

theorem Model.refusals_of_none {m : Model} (h : m.target? = none) :
    m.refusals = m.members.filterMap (Member.refusal? m.name) := by
  rw [refusals, h]

theorem Model.comesTo_draft (m : Model) : m.draft.ComesTo m.refusals m.contractText := by
  unfold Model.draft Model.refusals Model.contractText
  cases m.target? with
  | some target =>
    have h : (liftM (Model.abbreviation m.name target) : Draft Abbreviation).ComesTo []
        (.ofTarget m.name target) := by
      intro b
      rw [Draft.from_liftM, Abbreviation.run_eq_ofTarget]
      rfl
    exact h.bind_pure
  | none =>
    have h : (Draft.separately m.entity).ComesTo
        (m.members.filterMap (Member.refusal? m.name))
        ⟨m.name, m.members.map (Member.entry Entity.field), m.invariants⟩ :=
      (Member.collects_draftList m.name Entity.field m.members).comesTo_separately fun _ => rfl
    exact h.bind_pure

def Case.refusal? (owner : String) : Case → Option Refusal
  | .plain key (some _) _ => some (.customValue key.text owner)
  | _ => none

/-- The text that is written for a case. -/
def Case.entry : Case → String
  | .plain key _ _ => key.text
  | .spread _ => placeholder "EnumSpreadMemberNode"

def Enumeration.refusals (e : Enumeration) : List Refusal :=
  e.cases.filterMap (Case.refusal? e.name)

def Enumeration.contractText (e : Enumeration) : String :=
  CaseBlock.text ⟨e.name, e.cases.map Case.entry⟩

theorem Case.draftList_eq (owner : String) (cs : List Case) :
    Case.draftList owner cs =
      unlessRefused (cs.filterMap (Case.refusal? owner)) (cs.map Case.entry) := by
  induction cs with
  | nil => rfl
  | cons c cs ih =>
    rw [Case.draftList, ih]
    match c with
    | .plain key (some value) ds => rfl
    | .plain key none ds | .spread target =>
      rw [List.filterMap_cons]
      cases cs.filterMap (Case.refusal? owner) <;> rfl

theorem Enumeration.comesTo_draft (e : Enumeration) :
    e.draft.ComesTo e.refusals e.contractText := by
  have h : e.caseBlock = unlessRefused e.refusals ⟨e.name, e.cases.map Case.entry⟩ := by
    unfold Enumeration.caseBlock Enumeration.refusals
    rw [Case.draftList_eq]
    cases e.cases.filterMap (Case.refusal? e.name) <;> rfl
  exact (Draft.ComesTo.ofExcept h).bind_pure

def Operation.preconditions (o : Operation) : List String :=
  Decorator.clauses "requires" o.decorators ++ o.parameters.flatMap Member.clauses

def Operation.postconditions (o : Operation) : List String :=
  Decorator.clauses "ensures" o.decorators ++ o.result.slotClauses (some ⟨o.decorators, "return"⟩)

def Operation.refusals (o : Operation) : List Refusal :=
  o.parameters.filterMap (Member.refusal? o.name)

/-- What becomes of an operation in which nothing is refused. -/
def Operation.stub (o : Operation) : Entrypoint :=
  ⟨o.name, o.parameters.map (Member.entry Entrypoint.parameter), o.result.plainType,
    o.preconditions, o.postconditions⟩

def Operation.contractText (o : Operation) : String := o.stub.text

theorem Operation.comesTo_draft (o : Operation) : o.draft.ComesTo o.refusals o.contractText := by
  have h : (Draft.separately o.entrypoint).ComesTo o.refusals o.stub := by
    refine (Member.collects_draftList o.name Entrypoint.parameter
      o.parameters).comesTo_separately fun b => ?_
    -- the buffer is reset once more, so what is drained last are the clauses of the result
    simp only [Draft.from_bind, Draft.from_reset, Draft.from_liftM, Draft.from_drain,
      Expression.run_typeText]
    rfl
  exact h.bind_pure

theorem Operation.comesTo_draftList (os : List Operation) :
    (Operation.draftList os).ComesTo (os.flatMap Operation.refusals)
      (os.map Operation.contractText) := by
  induction os with
  | nil => exact .pure []
  | cons o os ih => exact o.comesTo_draft.bind ih.bind_pure

def Interface.refusals (i : Interface) : List Refusal := i.operations.flatMap Operation.refusals

def Interface.contractText (i : Interface) : String :=
  joinBlocks (i.operations.map Operation.contractText)

theorem Interface.comesTo_draft (i : Interface) : i.draft.ComesTo i.refusals i.contractText :=
  (Operation.comesTo_draftList i.operations).bind_pure

/-- What is refused in a statement, in source order. Only three kinds of statements are looked
into. -/
def Statement.refusals : Statement → List Refusal
  | .model m => m.refusals
  | .enumeration e => e.refusals
  | .interface i => i.refusals
  | _ => []

/-- The text of a statement in which nothing is refused. -/
def Statement.contractText : Statement → String
  | .model m => m.contractText
  | .enumeration e => e.contractText
  | .interface i => i.contractText
  | s => placeholder s.kindName

theorem Statement.comesTo_draft (s : Statement) : s.draft.ComesTo s.refusals s.contractText := by
  cases s with
  | model m => exact m.comesTo_draft
  | enumeration e => exact e.comesTo_draft
  | interface i => exact i.comesTo_draft
  | _ => exact .pure _

end SchemaContract
