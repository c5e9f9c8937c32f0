/-! # Named values in the order of their names

A list of named values that is kept in increasing order of the names, compared
character by character. Inserting a name a second time replaces its value.
-/

namespace ApiWorkflow

/-- Named values. -/
abbrev Fields (α : Type) := List (String × α)

namespace Fields

/-- Put a value under a name, at its place in the order. -/
def insert {α : Type} (name : String) (value : α) : Fields α → Fields α
  | [] => [(name, value)]
  | (n, v) :: rest =>
    if name = n then (name, value) :: rest
    else if name < n then (name, value) :: (n, v) :: rest
    else (n, v) :: insert name value rest

/-- The values of a list, a later one replacing an earlier one of the same name. -/
def ofList {α : Type} (entries : List (String × α)) : Fields α :=
  entries.foldl (fun fields (name, value) => fields.insert name value) []

/-- Take away the value under a name. -/
def erase {α : Type} (name : String) (fields : Fields α) : Fields α :=
  fields.filter fun (n, _) => n != name

/-- The value under a name. -/
def get? {α : Type} (name : String) (fields : Fields α) : Option α :=
  fields.lookup name

@[simp]
theorem get?_insert_self {α : Type} (name : String) (value : α) (fields : Fields α) :
    (fields.insert name value).get? name = some value := by
  fun_induction insert name value fields <;> grind [get?]

theorem get?_insert_of_ne {α : Type} {name other : String} (ne : other ≠ name) (value : α)
    (fields : Fields α) : (fields.insert name value).get? other = fields.get? other := by
  fun_induction insert name value fields <;> grind [get?]

@[simp]
theorem get?_erase_self {α : Type} (name : String) (fields : Fields α) :
    (fields.erase name).get? name = none := by
  induction fields <;> grind [get?, erase]

theorem get?_erase_of_ne {α : Type} {name other : String} (ne : other ≠ name)
    (fields : Fields α) : (fields.erase name).get? other = fields.get? other := by
  induction fields <;> grind [get?, erase]

end Fields

end ApiWorkflow
