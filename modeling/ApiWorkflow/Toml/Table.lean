import ApiWorkflow.Double.Basic

/-! # TOML values and tables

A table remembers how it was made, since that decides what may be added to it: a
table in braces is closed, a table that a header declares is declared once, and
dotted keys add only to tables that dotted keys have made.
-/

namespace ApiWorkflow.Toml

/-- How a table was made. -/
inductive Origin where
  /-- In braces. -/
  | inline
  /-- By a header of its own. -/
  | declared
  /-- By the header of a table inside. -/
  | implied
  /-- By a dotted key. -/
  | dotted
  deriving Repr, DecidableEq, Inhabited

/-- A TOML value. -/
inductive Value where
  | text (s : String)
  | int (i : Int)
  | double (d : Double)
  | bool (b : Bool)
  /-- A date or a time. -/
  | moment
  | list (items : List Value)
  | table (origin : Origin) (entries : List (String × Value))
  /-- Tables that headers in double brackets declare. -/
  | tables (items : List (List (String × Value)))
  deriving Repr, Inhabited

/-- The entries of a table. -/
abbrev Entries := List (String × Value)

/-- The longest dotted key, and how deeply values in brackets and braces may be
    nested. -/
def depthLimit : Nat := 79

namespace Entries

/-- Put a value under a key that is there. -/
def replace (key : String) (value : Value) : Entries → Entries
  | [] => []
  | (k, v) :: rest => if k = key then (k, value) :: rest else (k, v) :: replace key value rest

/-- Change the table that keys lead to. Missing tables are made on the way, by a
    dotted key if `dotted` holds. The last table of several is meant. -/
def change (dotted : Bool) (edit : Origin → Entries → Option Entries) :
    List String → Origin → Entries → Option Entries
  | [], origin, entries => edit origin entries
  | key :: keys, _, entries =>
    match entries.lookup key with
    | none =>
      let origin := if dotted then Origin.dotted else .implied
      (change dotted edit keys origin []).map fun inner => entries ++ [(key, .table origin inner)]
    | some (.table origin inner) =>
      if origin = .inline || (dotted && origin = .declared) then none
      else (change dotted edit keys origin inner).map fun inner =>
        entries.replace key (.table origin inner)
    | some (.tables items) =>
      match items.getLast? with
      | some last => (change dotted edit keys .declared last).map fun last =>
          entries.replace key (.tables (items.dropLast ++ [last]))
      | none => none
    | some _ => none

/-- Add an entry; a key comes once. -/
def add (key : String) (value : Value) (entries : Entries) : Option Entries :=
  if (entries.lookup key).isSome then none else some (entries ++ [(key, value)])

/-- Add an entry under a dotted key. -/
def addAt (path : List String) (key : String) (value : Value) (entries : Entries) : Option Entries :=
  change true
    (fun origin inner =>
      if !path.isEmpty && origin != .dotted then none else inner.add key value)
    path .declared entries

/-- Declare a table by a header. -/
def declare (path : List String) (key : String) (entries : Entries) : Option Entries :=
  change false
    (fun _ inner =>
      match inner.lookup key with
      | none => some (inner ++ [(key, .table .declared [])])
      | some (.table .implied content) => some (inner.replace key (.table .declared content))
      | some _ => none)
    path .declared entries

/-- Declare one more of several tables by a header. -/
def declareNext (path : List String) (key : String) (entries : Entries) : Option Entries :=
  change false
    (fun _ inner =>
      match inner.lookup key with
      | none => some (inner ++ [(key, .tables [[]])])
      | some (.tables items) => some (inner.replace key (.tables (items ++ [[]])))
      | some _ => none)
    path .declared entries

end Entries

end ApiWorkflow.Toml
