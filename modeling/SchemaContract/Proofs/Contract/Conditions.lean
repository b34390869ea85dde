import SchemaContract.Proofs.Contract.Outcome
import SchemaContract.Proofs.Contract.Translator

/-!
Conditions of operations. An operation whose parameters are always there states its conditions in a
fixed order: those that it requires, the patterns of its parameters, those that it ensures, and the
patterns of what it returns. Each of them comes from one decorator, and none is stated twice, lost
or moved to the other side of the call.
-/
namespace SchemaContract

/-- The line that a decorator adds: its text between two others, if it has this target and the text
is the first of its arguments. -/
def Decorator.line? (target start stop : String) : Decorator → Option String
  | ⟨word, .text text :: _⟩ => if word = target then some (start ++ text ++ stop) else none
  | _ => none

/-- The lines that the patterns of a member state, each behind the words it begins with. A member
that is no text, and a spread, state none. -/
def Member.patternLines (start : String) : Member → List String
  | .property p =>
    if p.type.isString then
      p.decorators.filterMap
        (Decorator.line? "pattern" start (".accepts($" ++ p.key.text ++ ");"))
    else []
  | .spread _ => []

/-- The lines that state the conditions before and after a call. -/
def Operation.conditionLines (o : Operation) : List String :=
  o.decorators.filterMap (Decorator.line? "requires" "    requires " ";") ++
    o.parameters.flatMap (Member.patternLines "    requires ") ++
    o.decorators.filterMap (Decorator.line? "ensures" "    ensures " ";") ++
    if o.result.isString then
      o.decorators.filterMap (Decorator.line? "pattern" "    ensures " ".accepts($return);")
    else []

def Operation.head (o : Operation) : String :=
  "entrypoint function " ++ o.name ++ "(" ++
    ", ".intercalate (o.parameters.map (Member.entry Entrypoint.parameter)) ++ "): " ++
    o.result.plainType

def Operation.body (o : Operation) : String :=
  "    return s_reshavoc<" ++ o.result.plainType ++ ">(\"" ++ o.name ++ "\");"

/-- The conditions stand on lines of their own, between the head and the body. -/
def Operation.lines (o : Operation) : List String :=
  if o.conditionLines = [] then [o.head ++ " \x7b", o.body, "\x7d"]
  else o.head :: o.conditionLines ++ ["\x7b", o.body, "\x7d"]

theorem indented_append (a b : String) : indented (a ++ b) = indented a ++ b :=
  (String.append_assoc ..).symm

theorem Decorator.map_textArguments (target start stop : String) (ds : List Decorator) :
    (textArguments target ds).map (fun text => start ++ text ++ stop) =
      ds.filterMap (line? target start stop) := by
  unfold textArguments
  rw [List.map_filterMap]
  apply List.filterMap_congr
  rintro ⟨word, arguments⟩ _
  unfold textArgument? line?
  dsimp only
  cases arguments with
  | nil => simp
  | cons argument more =>
    by_cases hword : word = target <;> cases argument <;> simp [hword]

theorem Decorator.map_indented_clauses (word target : String) (ds : List Decorator) :
    (clauses target ds).map (fun clause => indented (word ++ clause)) =
      ds.filterMap (line? target (indented word) ";") := by
  unfold clauses
  rw [← map_textArguments, List.map_map]
  apply List.map_congr_left
  intro text _
  simp only [Function.comp_apply, indented_append, ← String.append_assoc]

theorem Slot.map_indented_clauses (word : String) (slot : Slot) :
    slot.patternClauses.map (fun clause => indented (word ++ clause)) =
      slot.decorators.filterMap
        (Decorator.line? "pattern" (indented word) (".accepts($" ++ slot.name ++ ");")) := by
  unfold patternClauses
  rw [← Decorator.map_textArguments, List.map_map]
  apply List.map_congr_left
  intro pattern _
  simp only [Function.comp_apply, patternClause, indented_append, ← String.append_assoc]

theorem Member.map_indented_clauses (word : String) (m : Member) :
    m.clauses.map (fun clause => indented (word ++ clause)) = m.patternLines (indented word) := by
  cases m with
  | property p =>
    simp only [clauses, Expression.slotClauses_some, patternLines]
    split
    · exact Slot.map_indented_clauses word _
    · rfl
  | spread target => rfl

theorem Operation.map_indented_resultClauses (o : Operation) :
    (o.result.slotClauses (some ⟨o.decorators, "return"⟩)).map
        (fun clause => indented ("ensures " ++ clause)) =
      if o.result.isString then
        o.decorators.filterMap (Decorator.line? "pattern" "    ensures " ".accepts($return);")
      else [] := by
  rw [Expression.slotClauses_some]
  split
  · exact Slot.map_indented_clauses "ensures " _
  · rfl

theorem Operation.clauseLines_stub (o : Operation) : o.stub.clauseLines = o.conditionLines := by
  have hparameters : (o.parameters.flatMap Member.clauses).map
      (fun clause => indented ("requires " ++ clause)) =
        o.parameters.flatMap (Member.patternLines "    requires ") := by
    rw [List.map_flatMap]
    apply List.flatMap_congr
    intro m _
    exact m.map_indented_clauses "requires "
  unfold Entrypoint.clauseLines stub preconditions postconditions conditionLines
  rw [List.map_append, List.map_append, hparameters, map_indented_resultClauses,
    Decorator.map_indented_clauses, Decorator.map_indented_clauses]
  simp only [← List.append_assoc]
  rfl

theorem Operation.body_stub (o : Operation) : o.stub.body = o.body := by
  unfold Entrypoint.body
  simp only [indented_append]
  rfl

theorem Operation.contractText_eq (o : Operation) : o.contractText = joinLines o.lines := by
  have hhead : o.stub.head = o.head := rfl
  unfold contractText Entrypoint.text Entrypoint.lines lines
  rw [o.clauseLines_stub, o.body_stub, hhead]
  split
  · rfl
  · simp

/-- An operation whose parameters are always there and have no defaults is laid out with the lines
of its conditions and no others, whatever clauses were collected before. -/
theorem Translator.result_operation {o : Operation}
    (h : ∀ p, Member.property p ∈ o.parameters → p.optional = false ∧ p.default? = none)
    (t : Translator) : t.result (.operation o) = .ok (joinLines o.lines) := by
  have hrefusals : o.refusals = [] := by
    apply List.filterMap_eq_nil_iff.2
    intro m hm
    cases m with
    | property p => exact Property.refusal?_eq_none_iff.2 (h p hm)
    | spread target => rfl
  have hresult : t.result (.operation o) = unlessRefused o.refusals o.contractText :=
    o.comesTo_draft t.buffer
  rw [hresult, hrefusals, o.contractText_eq]
  rfl

/-- The parameter `code` is a text with two patterns, of which one is no literal. The parameter
`tags` holds texts but is none. The operation returns a text, so it has a pattern of its own. -/
theorem Translator.result_operation_lookup :
    (Translator.mk .abort ⟨["/x/.accepts($old);"]⟩).result (.operation ⟨"lookup",
        [⟨"ensures", [.text "$return != code"]⟩, ⟨"pattern", [.text "/c/"]⟩,
          ⟨"requires", [.text "code != tags"]⟩],
        [.property ⟨.identifier "code", .reference "string", false, none,
            [⟨"pattern", [.text "/a/"]⟩, ⟨"pattern", [.reference "P"]⟩]⟩,
          .property ⟨.identifier "tags", .array (.reference "string"), false, none,
            [⟨"pattern", [.text "/b/"]⟩]⟩,
          .spread (.reference "Page")],
        .reference "string"⟩) =
      .ok ("entrypoint function lookup(code: String, tags: List<String>, " ++
        "[ModelSpreadPropertyNode]): String\n    requires code != tags;\n" ++
        "    requires /a/.accepts($code);\n    ensures $return != code;\n" ++
        "    ensures /c/.accepts($return);\n\x7b\n" ++
        "    return s_reshavoc<String>(\"lookup\");\n\x7d") := by
  refine (Translator.result_operation ?_ _).trans (congrArg Except.ok (by decide +kernel))
  intro p hp
  simp only [List.mem_cons, List.not_mem_nil, or_false, Member.property.injEq, reduceCtorEq] at hp
  rcases hp with rfl | rfl <;> exact ⟨rfl, rfl⟩

end SchemaContract
