import SchemaContract.Proofs.Contract.Policies
import SchemaContract.Proofs.Contract.Readable

/-!
Stripped programs: programs without what contracts do not read. A stripped program has the same
contract, so two programs that are the same once they are stripped have the same contract or are
refused alike.
-/
namespace SchemaContract

mutual

/-- A type without the members of inline models and without the values of literals. -/
def Expression.stripped : Expression → Expression
  | .array element => .array element.stripped
  | .tuple elements => .tuple (Expression.strippedAll elements)
  | .union options => .union (Expression.strippedAll options)
  | .intersection options => .intersection (Expression.strippedAll options)
  | .reference name => .reference name
  | .identifier name => .identifier name
  | .model _ => .model []
  | .member base name => .member base.stripped name
  | .text _ => .text ""
  | .number _ => .number (.ofNat 0)
  | .boolean _ => .boolean false
  | .void => .void
  | .never => .never
  | .unknown => .unknown

def Expression.strippedAll : List Expression → List Expression
  | [] => []
  | e :: es => e.stripped :: Expression.strippedAll es

end

/-- A decorator with one of some targets, without what follows its first argument. It is dropped
where it has another target, or where its first argument is no text. -/
def Decorator.stripped? (targets : List String) (d : Decorator) : Option Decorator :=
  if d.target ∈ targets then
    match d.arguments with
    | .text text :: _ => some ⟨d.target, [.text text]⟩
    | _ => none
  else none

def Decorator.strippedAll (targets : List String) (ds : List Decorator) : List Decorator :=
  ds.filterMap (stripped? targets)

/-- Patterns of texts are all that is read of the decorators of a property, and of a default only
whether there is one. -/
def Property.stripped (p : Property) : Property where
  key := p.key
  type := p.type.stripped
  optional := p.optional
  default? := p.default?.map fun _ => .void
  decorators := if p.type.isString then Decorator.strippedAll ["pattern"] p.decorators else []

def Member.stripped : Member → Member
  | .property p => .property p.stripped
  | .spread _ => .spread .void

/-- A model with a target is stripped to its name and its target. -/
def Model.stripped (m : Model) : Model :=
  match m.target? with
  | some target => ⟨m.name, [], some target.stripped, []⟩
  | none =>
    ⟨m.name, Decorator.strippedAll ["invariant"] m.decorators, none,
      m.members.map Member.stripped⟩

/-- Of the value of a case only whether there is one is read. -/
def Case.stripped : Case → Case
  | .plain key value? _ => .plain key (value?.map fun _ => .void) []
  | .spread _ => .spread .void

def Enumeration.stripped (e : Enumeration) : Enumeration := ⟨e.name, [], e.cases.map Case.stripped⟩

/-- The targets that are read of the decorators of an operation. Its patterns count where it returns
a text. -/
def Operation.targets (o : Operation) : List String :=
  if o.result.isString then ["requires", "ensures", "pattern"] else ["requires", "ensures"]

def Operation.stripped (o : Operation) : Operation where
  name := o.name
  decorators := Decorator.strippedAll o.targets o.decorators
  parameters := o.parameters.map Member.stripped
  result := o.result.stripped

def Interface.stripped (i : Interface) : Interface :=
  ⟨i.name, [], i.operations.map Operation.stripped⟩

/-- Of the statements that contracts have nothing for only the kind is read. -/
def Statement.stripped : Statement → Statement
  | .model m => .model m.stripped
  | .enumeration e => .enumeration e.stripped
  | .interface i => .interface i.stripped
  | .operation _ => .operation ⟨"", [], [], .void⟩
  | .importPath _ => .importPath ""
  | .scope .. => .scope "" [] []
  | .union .. => .union "" [] []
  | .usingName _ => .usingName ""
  | .typeAlias .. => .typeAlias "" .void
  | .projection => .projection
  | .empty => .empty
  | .invalid => .invalid

def Program.stripped (p : Program) : Program := ⟨p.statements.map Statement.stripped⟩

theorem Expression.strippedAll_eq_map (es : List Expression) :
    Expression.strippedAll es = es.map Expression.stripped := by
  induction es with
  | nil => rfl
  | cons e es ih => rw [strippedAll, ih, List.map_cons]

@[simp] theorem Expression.isString_stripped (e : Expression) :
    e.stripped.isString = e.isString := by
  cases e <;> simp only [stripped, isString]

mutual

theorem Expression.letters_stripped : (e : Expression) → e.stripped.letters = e.letters
  | .array element => by
    rw [stripped, letters_array, letters_array, letters_stripped element]
  | .tuple elements => by
    rw [stripped, letters_tuple, letters_tuple, strippedAll_eq_map,
      lettersBetween_map_congr _ (letters_stripped_of_mem elements)]
  | .union options => by
    rw [stripped, letters_union, letters_union, strippedAll_eq_map,
      lettersBetween_map_congr _ (letters_stripped_of_mem options)]
  | .intersection options => by
    rw [stripped, letters_intersection, letters_intersection, strippedAll_eq_map,
      lettersBetween_map_congr _ (letters_stripped_of_mem options)]
  | .reference _ | .identifier _ | .void | .never | .unknown => by
    rw [stripped]
  | .model _ | .member .. | .text _ | .number _ | .boolean _ => by
    unfold letters plainType
    rw [stripped, typeText, typeText]
    rfl

theorem Expression.letters_stripped_of_mem :
    (es : List Expression) → ∀ e ∈ es, e.stripped.letters = e.letters
  | [] => nofun
  | e :: es => List.forall_mem_cons.2 ⟨letters_stripped e, letters_stripped_of_mem es⟩

end

@[simp] theorem Expression.plainType_stripped (e : Expression) :
    e.stripped.plainType = e.plainType :=
  String.toList_inj.1 e.letters_stripped

@[simp] theorem Expression.path?_stripped : (e : Expression) → e.stripped.path? = e.path?
  | .member base name => by
    rw [stripped, path?, path?, path?_stripped base]
  | .reference _ | .identifier _ | .void | .never | .unknown => by
    rw [stripped]
  | .array _ | .tuple _ | .union _ | .intersection _ | .model _ | .text _ | .number _
  | .boolean _ => by
    rw [stripped]
    rfl

theorem Decorator.textArgument?_stripped {target : String} {targets : List String}
    (h : target ∈ targets) (d : Decorator) :
    (d.stripped? targets).bind (textArgument? target) = d.textArgument? target := by
  obtain ⟨target', arguments⟩ := d
  unfold stripped? textArgument?
  by_cases htarget : target' = target
  · rw [htarget, if_pos h, if_pos rfl]
    match arguments with
    | [] => rfl
    | e :: _ => cases e <;> simp
  · rw [if_neg htarget]
    split
    · split
      · simp [htarget]
      · rfl
    · rfl

theorem Decorator.textArguments_strippedAll {target : String} {targets : List String}
    (h : target ∈ targets) (ds : List Decorator) :
    textArguments target (strippedAll targets ds) = textArguments target ds := by
  unfold textArguments strippedAll
  rw [List.filterMap_filterMap]
  apply List.filterMap_congr
  intro d _
  exact textArgument?_stripped h d

theorem Decorator.clauses_strippedAll {target : String} {targets : List String}
    (h : target ∈ targets) (ds : List Decorator) :
    clauses target (strippedAll targets ds) = clauses target ds := by
  unfold clauses
  rw [textArguments_strippedAll h]

@[simp] theorem Member.refusal?_stripped (owner : String) (m : Member) :
    m.stripped.refusal? owner = m.refusal? owner := by
  cases m with
  | property p => simp [stripped, refusal?, Property.refusal?, Property.stripped]
  | spread target => rfl

@[simp] theorem Member.entry_stripped (write : String → String → String) (m : Member) :
    m.stripped.entry write = m.entry write := by
  cases m with
  | property p => simp [stripped, entry, Property.stripped]
  | spread target => rfl

@[simp] theorem Member.clauses_stripped (m : Member) : m.stripped.clauses = m.clauses := by
  cases m with
  | property p =>
    simp only [stripped, clauses, Property.stripped, Expression.slotClauses_some,
      Expression.isString_stripped]
    cases p.type.isString with
    | true => simp [Slot.patternClauses, Decorator.textArguments_strippedAll]
    | false => rfl
  | spread target => rfl

theorem Model.stripped_of_some {m : Model} {target : Expression} (h : m.target? = some target) :
    m.stripped = ⟨m.name, [], some target.stripped, []⟩ := by
  rw [stripped, h]

theorem Model.stripped_of_none {m : Model} (h : m.target? = none) :
    m.stripped =
      ⟨m.name, Decorator.strippedAll ["invariant"] m.decorators, none,
        m.members.map Member.stripped⟩ := by
  rw [stripped, h]

@[simp] theorem Model.refusals_stripped (m : Model) : m.stripped.refusals = m.refusals := by
  cases h : m.target? with
  | some target => rw [stripped_of_some h, refusals_of_some h, refusals_of_some rfl]
  | none =>
    rw [stripped_of_none h, refusals_of_none h, refusals_of_none rfl]
    simp only [List.filterMap_map, Function.comp_def, Member.refusal?_stripped]

@[simp] theorem Model.contractText_stripped (m : Model) :
    m.stripped.contractText = m.contractText := by
  cases h : m.target? with
  | some target =>
    rw [stripped_of_some h]
    unfold contractText Abbreviation.ofTarget
    simp only [h, Expression.path?_stripped, Expression.plainType_stripped]
  | none =>
    rw [stripped_of_none h]
    unfold contractText invariants
    simp only [h, Decorator.clauses_strippedAll (List.mem_singleton_self _), List.map_map,
      List.flatMap_map, Function.comp_def, Member.entry_stripped, Member.clauses_stripped]

@[simp] theorem Case.refusal?_stripped (owner : String) (c : Case) :
    c.stripped.refusal? owner = c.refusal? owner := by
  match c with
  | .plain _ (some _) _ | .plain _ none _ | .spread _ => rfl

@[simp] theorem Case.entry_stripped (c : Case) : c.stripped.entry = c.entry := by
  cases c <;> rfl

@[simp] theorem Enumeration.refusals_stripped (e : Enumeration) :
    e.stripped.refusals = e.refusals := by
  simp only [stripped, refusals, List.filterMap_map, Function.comp_def, Case.refusal?_stripped]

@[simp] theorem Enumeration.contractText_stripped (e : Enumeration) :
    e.stripped.contractText = e.contractText := by
  simp only [stripped, contractText, List.map_map, Function.comp_def, Case.entry_stripped]

@[simp] theorem Operation.refusals_stripped (o : Operation) :
    o.stripped.refusals = o.refusals := by
  simp only [stripped, refusals, List.filterMap_map, Function.comp_def, Member.refusal?_stripped]

theorem Operation.preconditions_stripped (o : Operation) :
    o.stripped.preconditions = o.preconditions := by
  have hrequires : "requires" ∈ o.targets := by
    unfold targets
    split <;> simp
  unfold preconditions stripped
  simp only [Decorator.clauses_strippedAll hrequires, List.flatMap_map, Member.clauses_stripped]

theorem Operation.postconditions_stripped (o : Operation) :
    o.stripped.postconditions = o.postconditions := by
  have hensures : "ensures" ∈ o.targets := by
    unfold targets
    split <;> simp
  unfold postconditions stripped
  simp only [Decorator.clauses_strippedAll hensures, Expression.slotClauses_some,
    Expression.isString_stripped]
  split
  · next hstring =>
    have hpattern : "pattern" ∈ o.targets := by simp [targets, hstring]
    simp only [Slot.patternClauses, Decorator.textArguments_strippedAll hpattern]
  · rfl

@[simp] theorem Operation.contractText_stripped (o : Operation) :
    o.stripped.contractText = o.contractText := by
  unfold contractText stub
  rw [preconditions_stripped, postconditions_stripped]
  simp only [stripped, List.map_map, Function.comp_def, Member.entry_stripped,
    Expression.plainType_stripped]

@[simp] theorem Statement.refusals_stripped (s : Statement) :
    s.stripped.refusals = s.refusals := by
  cases s with
  | model m => exact m.refusals_stripped
  | enumeration e => exact e.refusals_stripped
  | interface i =>
    simp only [stripped, refusals, Interface.refusals, Interface.stripped, List.flatMap_map,
      Operation.refusals_stripped]
  | _ => rfl

@[simp] theorem Statement.contractText_stripped (s : Statement) :
    s.stripped.contractText = s.contractText := by
  cases s with
  | model m => exact m.contractText_stripped
  | enumeration e => exact e.contractText_stripped
  | interface i =>
    simp only [stripped, contractText, Interface.contractText, Interface.stripped, List.map_map,
      Function.comp_def, Operation.contractText_stripped]
  | _ => rfl

@[simp] theorem Program.refusals_stripped (p : Program) : p.stripped.refusals = p.refusals := by
  simp only [stripped, refusals, List.flatMap_map, Statement.refusals_stripped]

theorem Translator.result_stripped (t : Translator) (p : Program) :
    t.result (.program p.stripped) = t.result (.program p) := by
  have hnoted : (Statement.noted ∘ Statement.stripped) = Statement.noted := by
    funext s
    simp only [Function.comp_apply, Statement.noted_eq, Statement.refusals_stripped,
      Statement.contractText_stripped]
  have htexts : (Statement.contractText ∘ Statement.stripped) = Statement.contractText := by
    funext s
    exact s.contractText_stripped
  obtain ⟨policy, b⟩ := t
  cases policy with
  | abort =>
    rw [result_abort, result_abort, Program.refusals_stripped, Program.stripped, List.map_map,
      htexts]
  | placeholder =>
    rw [result_placeholder, result_placeholder, Program.stripped, List.map_map, hnoted]

/-- Programs that are the same once they are stripped are translated alike: to the same text, or
with the same refusal. -/
theorem Translator.result_eq_of_stripped_eq {p q : Program} (h : p.stripped = q.stripped)
    (t : Translator) : t.result (.program p) = t.result (.program q) := by
  rw [← t.result_stripped p, h, t.result_stripped q]

/-- The two programs differ in a decorator that is not read, in what stands behind the text of an
invariant, in the pattern of a list, in the members of an inline model, in what is spread, and in a
whole namespace. -/
theorem Translator.result_eq_of_stripped_eq_point :
    (Translator.mk .abort ⟨["/x/.accepts($old);"]⟩).result (.program ⟨[
        .model ⟨"Point", [⟨"doc", []⟩, ⟨"invariant", [.text "$x > 0", .void]⟩], none,
          [.property ⟨.identifier "x", .reference "int32", false, none, []⟩,
            .property ⟨.identifier "tags", .array (.model []), false, none,
              [⟨"pattern", [.text "/a/"]⟩]⟩,
            .spread (.reference "Base")]⟩,
        .scope "N" [] [.invalid]]⟩) =
      (Translator.mk .abort ⟨["/x/.accepts($old);"]⟩).result (.program ⟨[
        .model ⟨"Point", [⟨"invariant", [.text "$x > 0"]⟩, ⟨"invariant", []⟩], none,
          [.property ⟨.identifier "x", .reference "int32", false, none, []⟩,
            .property ⟨.identifier "tags", .array (.model [.spread .void]), false, none, []⟩,
            .spread (.reference "Other")]⟩,
        .scope "M" [] []]⟩) := by
  apply Translator.result_eq_of_stripped_eq
  rfl

end SchemaContract
