import ApiWorkflow.Double.Basic
import ApiWorkflow.Json.Fields

/-! # JSON values

Whole numbers and doubles are different numbers, so that `1` and `1.0` stay
apart. The fields of an object stand in the order of their names.
-/

namespace ApiWorkflow

/-- A JSON value. -/
inductive Json where
  | null
  | bool (b : Bool)
  | int (i : Int)
  | double (d : Double)
  | string (s : String)
  | array (items : List Json)
  | object (fields : List (String × Json))
  deriving Repr, Inhabited

namespace Json

/-- The text of a string value. -/
def text? : Json → Option String
  | .string s => some s
  | _ => none

/-- A double as a value; what is no finite number becomes null. -/
def ofDouble (d : Double) : Json :=
  if d.isFinite then .double d else .null

end Json

end ApiWorkflow
