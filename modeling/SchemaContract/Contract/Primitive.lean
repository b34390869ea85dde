/-!
The primitive types of schemas and the types that stand for them in contracts.
-/
namespace SchemaContract.Primitive

/-- The type that texts have, the only one that patterns are checked on. -/
def text : String := "String"

def any : String := "Any"

def table : List (String × String) := [
  ("string", text),
  ("boolean", "Bool"),
  ("int8", "Int"),
  ("int16", "Int"),
  ("int32", "Int"),
  ("int64", "Int"),
  ("safeint", "Int"),
  ("uint8", "Nat"),
  ("uint16", "Nat"),
  ("uint32", "Nat"),
  ("uint64", "Nat"),
  ("integer", "BigInt"),
  ("float", "Float"),
  ("float32", "Float"),
  ("float64", "Float"),
  ("numeric", "Float"),
  ("decimal", "Decimal"),
  ("decimal128", "Decimal"),
  ("bytes", "ByteBuffer"),
  ("plainDate", "DateTime"),
  ("plainTime", "DateTime"),
  ("utcDateTime", "DateTime"),
  ("zonedDateTime", "DateTime"),
  ("null", "None")]

def names : List String := table.map (·.1)

def target? (name : String) : Option String := table.lookup name

/-- The type that stands for a name: names that are not primitive stand for themselves. -/
def typeName (name : String) : String := (target? name).getD name

theorem target?_eq_text_iff (name : String) : target? name = some text ↔ name = "string" := by
  constructor
  · intro h
    obtain ⟨l₁, l₂, hl, -⟩ := List.lookup_eq_some_iff.1 h
    have hm : (name, text) ∈ table := hl ▸ List.mem_append_right _ List.mem_cons_self
    simpa [table, text] using hm
  · rintro rfl
    rfl

end SchemaContract.Primitive
