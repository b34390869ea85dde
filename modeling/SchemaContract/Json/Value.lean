import SchemaContract.Number.Binary64

/-!
JSON values. A record keeps its fields in the order in which they are written.
-/
namespace SchemaContract

mutual

inductive Json where
  | null
  | boolean (value : Bool)
  | integer (value : Int)
  | float (value : Binary64)
  | text (value : String)
  | list (items : List Json)
  | record (fields : List Field)

structure Field where
  key : String
  value : Json

end

end SchemaContract
