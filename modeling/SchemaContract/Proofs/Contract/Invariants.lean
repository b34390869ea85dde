import SchemaContract.Proofs.Contract.Conditions

/-!
Invariants of models. A model with members whose properties are always there becomes an entity with
one line for each member, in order. Its invariants follow: those that it states in full, and then
the patterns of its own texts, member by member.
-/
namespace SchemaContract

def Member.fieldLine : Member → String
  | .property p => "    field " ++ p.key.text ++ ": " ++ p.type.plainType ++ ";"
  | .spread _ => "    [ModelSpreadPropertyNode]"

/-- The lines that state the invariants. Patterns of the model itself are not among them. -/
def Model.invariantLines (m : Model) : List String :=
  m.decorators.filterMap (Decorator.line? "invariant" "    invariant " ";") ++
    m.members.flatMap (Member.patternLines "    invariant ")

def Model.lines (m : Model) : List String :=
  ("entity " ++ m.name ++ " \x7b") :: m.members.map Member.fieldLine ++
    (if m.members ≠ [] ∧ m.invariantLines ≠ [] then [""] else []) ++
    m.invariantLines ++ ["\x7d"]

theorem Member.indented_entry (m : Member) :
    indented (m.entry Entity.field) = m.fieldLine := by
  cases m with
  | property p =>
    simp only [entry, Entity.field, fieldLine, indented_append]
    rfl
  | spread target => rfl

theorem Model.map_indented_invariants (m : Model) :
    m.invariants.map (fun clause => indented ("invariant " ++ clause)) = m.invariantLines := by
  have hmembers : (m.members.flatMap Member.clauses).map
      (fun clause => indented ("invariant " ++ clause)) =
        m.members.flatMap (Member.patternLines "    invariant ") := by
    rw [List.map_flatMap]
    apply List.flatMap_congr
    intro member _
    exact member.map_indented_clauses "invariant "
  unfold invariants invariantLines
  rw [List.map_append, hmembers, Decorator.map_indented_clauses]
  rfl

theorem Model.contractText_eq {m : Model} (hm : m.target? = none) :
    m.contractText = joinLines m.lines := by
  have hfields : (m.members.map (Member.entry Entity.field)).map indented =
      m.members.map Member.fieldLine := by
    rw [List.map_map]
    apply List.map_congr_left
    intro member _
    exact member.indented_entry
  have hinvariants : m.invariants ≠ [] ↔ m.invariantLines ≠ [] := by
    rw [← m.map_indented_invariants, ne_eq, ne_eq, List.map_eq_nil_iff]
  unfold contractText
  rw [hm]
  unfold Entity.text Entity.lines lines
  dsimp only
  rw [hfields, m.map_indented_invariants]
  simp only [ne_eq, List.map_eq_nil_iff] at hinvariants ⊢
  simp only [hinvariants, List.cons_append, List.nil_append, List.append_assoc]

/-- A model with members whose properties are always there and have no defaults is laid out with the
lines of its members and of its invariants and no others, whatever clauses were collected before. -/
theorem Translator.result_model {m : Model} (hm : m.target? = none)
    (h : ∀ p, Member.property p ∈ m.members → p.optional = false ∧ p.default? = none)
    (t : Translator) : t.result (.model m) = .ok (joinLines m.lines) := by
  have hrefusals : m.refusals = [] := by
    rw [Model.refusals_of_none hm]
    apply List.filterMap_eq_nil_iff.2
    intro member hmember
    cases member with
    | property p => exact Property.refusal?_eq_none_iff.2 (h p hmember)
    | spread target => rfl
  have hresult : t.result (.model m) = unlessRefused m.refusals m.contractText :=
    m.comesTo_draft t.buffer
  rw [hresult, hrefusals, Model.contractText_eq hm]
  rfl

theorem Translator.result_model_item :
    (Translator.mk .abort ⟨["/x/.accepts($old);"]⟩).result (.model ⟨"Item",
        [⟨"pattern", [.text "/m/"]⟩, ⟨"invariant", [.text "$qty > 0", .text "no"]⟩,
          ⟨"invariant", [.number ⟨0⟩]⟩, ⟨"invariant", [.text "$qty < 9"]⟩], none,
        [.property ⟨.quoted "zip code", .identifier "string", false, none,
            [⟨"pattern", [.text "/a/"]⟩, ⟨"doc", [.text "no"]⟩, ⟨"pattern", [.text "/b/"]⟩]⟩,
          .spread (.reference "Base"),
          .property ⟨.identifier "tags", .array (.reference "string"), false, none,
            [⟨"pattern", [.text "/c/"]⟩]⟩]⟩) =
      .ok ("entity Item \x7b\n    field zip code: String;\n    [ModelSpreadPropertyNode]\n" ++
        "    field tags: List<String>;\n\n    invariant $qty > 0;\n    invariant $qty < 9;\n" ++
        "    invariant /a/.accepts($zip code);\n    invariant /b/.accepts($zip code);\n\x7d") := by
  refine (Translator.result_model rfl ?_ _).trans (congrArg Except.ok (by decide +kernel))
  intro p hp
  simp only [List.mem_cons, List.not_mem_nil, or_false, false_or, Member.property.injEq,
    reduceCtorEq] at hp
  rcases hp with rfl | rfl <;> exact ⟨rfl, rfl⟩

end SchemaContract
