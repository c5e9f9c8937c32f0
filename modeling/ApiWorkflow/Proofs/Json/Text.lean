import ApiWorkflow.Proofs.Json.Leaf
import Mathlib.Data.List.DropRight

/-! # Reading the text of a value

`Json.node` is the tree that the text of a value is read as. Main statement:
`source_spread`, the spread text of a value is read as its tree, if each of its doubles
is read back from its own text.
-/

namespace ApiWorkflow.Json

open Source

/-- A double that its text stands for. Not every double does: the digits are the
    shortest ones, but the last bit can get lost when they are read. -/
def ReadsBack (x : Double) : Prop :=
  readLeaf (doubleLayout.write x).toList = some (.number (some (.double x)), [])

instance (x : Double) : Decidable (ReadsBack x) :=
  decidable_of_bool
    (match readLeaf (doubleLayout.write x).toList with
      | some (.number (some (.double y)), []) => decide (y = x)
      | _ => false)
    (by
      rw [ReadsBack]
      split <;> simp_all)

mutual

/-- The doubles in a value. -/
def doubles : Json → List Double
  | .double x => [x]
  | .array items => itemDoubles items
  | .object fields => fieldDoubles fields
  | _ => []

def itemDoubles : List Json → List Double
  | [] => []
  | item :: items => doubles item ++ itemDoubles items

def fieldDoubles : List (String × Json) → List Double
  | [] => []
  | (_, value) :: fields => doubles value ++ fieldDoubles fields

end

/-- All doubles of a value are read back. -/
def Exact (value : Json) : Prop :=
  ∀ x ∈ value.doubles, ReadsBack x

instance (value : Json) : Decidable (Exact value) :=
  inferInstanceAs (Decidable (∀ x ∈ value.doubles, ReadsBack x))

theorem exact_array {items : List Json} : Exact (.array items) ↔ ∀ item ∈ items, Exact item := by
  simp only [Exact, doubles]
  induction items with
  | nil => simp [itemDoubles]
  | cons item items ih => simp [itemDoubles, or_imp, forall_and, ih]

theorem exact_object {fields : List (String × Json)} :
    Exact (.object fields) ↔ ∀ entry ∈ fields, Exact entry.2 := by
  simp only [Exact, doubles]
  induction fields with
  | nil => simp [fieldDoubles]
  | cons entry fields ih =>
    obtain ⟨name, value⟩ := entry
    simp only [fieldDoubles, List.mem_append, or_imp, forall_and, ih, List.forall_mem_cons]

/-- What the text of a value without items is read as. -/
def leaf (value : Json) : Leaf :=
  match readLeaf (leafText value).toList with
  | some (leaf, _) => leaf
  | none => .nothing

mutual

/-- The tree that the text of a value is read as. -/
def node : Json → Node
  | .array items => .list none (itemNodes items)
  | .object fields => .dict none (entryNodes fields)
  | value => .leaf (leaf value)

def itemNodes : List Json → List Node
  | [] => []
  | item :: items => node item :: itemNodes items

def entryNodes : List (String × Json) → List (Node × Node)
  | [] => []
  | (name, value) :: fields => (.leaf (.string (some name)), node value) :: entryNodes fields

end

theorem itemNodes_eq (items : List Json) : itemNodes items = items.map node := by
  induction items with
  | nil => rfl
  | cons item items ih => rw [itemNodes, ih, List.map_cons]

theorem entryNodes_eq (fields : List (String × Json)) :
    entryNodes fields = fields.map fun (name, value) => (.leaf (.string (some name)), node value) := by
  induction fields with
  | nil => rfl
  | cons entry fields ih => rw [entryNodes, ih, List.map_cons]

/-! ## Leaves -/

/-- A value without items: neither an array nor an object. -/
inductive IsLeaf : Json → Prop where
  | null : IsLeaf .null
  | bool {b : Bool} : IsLeaf (.bool b)
  | int {i : Int} : IsLeaf (.int i)
  | double {x : Double} : IsLeaf (.double x)
  | string {s : String} : IsLeaf (.string s)

variable {rest : List Char}

theorem readLeaf_leafText {value : Json} (isLeaf : IsLeaf value) (exact : Exact value)
    (stops : Stops rest) : readLeaf ((leafText value).toList ++ rest) = some (leaf value, rest) := by
  have whole {found : Leaf} (alone : readLeaf (leafText value).toList = some (found, []))
      (before : readLeaf ((leafText value).toList ++ rest) = some (found, rest)) :
      readLeaf ((leafText value).toList ++ rest) = some (leaf value, rest) := by
    rw [before, leaf, alone]
  cases isLeaf with
  | null => rfl
  | bool => rename_i b; cases b <;> rfl
  | int =>
    rename_i i
    obtain ⟨number, read, -⟩ := readLeaf_int i
    exact whole read (readLeaf_append stops read)
  | double =>
    rename_i x
    have read : ReadsBack x := exact x (by simp [doubles])
    exact whole read (readLeaf_append stops read)
  | string =>
    rename_i s
    have read (rest : List Char) : readLeaf ((leafText (.string s)).toList ++ rest) =
        some (.string (some s), rest) := by
      rw [leafText, toList_quote, List.cons_append, readLeaf, List.append_assoc,
        List.singleton_append, readString_quote]
    have alone := read []
    rw [List.append_nil] at alone
    exact whole alone (read rest)

@[simp]
theorem node_string (s : String) : node (.string s) = .leaf (.string (some s)) := by
  have read := readString_quote s []
  rw [node, leaf, leafText, toList_quote, readLeaf, read] <;> simp

theorem node_int (i : Int) :
    ∃ value, node (.int i) = .leaf (.number value) ∧ (FitsWord i → value = some (.int i)) := by
  obtain ⟨value, read, whole⟩ := readLeaf_int i
  refine ⟨value, ?_, whole⟩
  rw [node, leaf, leafText, read] <;> simp

theorem node_double {x : Double} (back : ReadsBack x) :
    node (.double x) = .leaf (.number (some (.double x))) := by
  rw [ReadsBack] at back
  rw [node, leaf, leafText, back] <;> simp

/-- A character with which the text of a value starts. -/
structure Starts (c : Char) : Prop where
  noSpace : isSpace c = false
  noClose : c ≠ ']'

theorem starts_of_readLeaf {cs behind : List Char} {leaf : Leaf}
    (read : readLeaf cs = some (leaf, behind)) :
    ∃ c tail, cs = c :: tail ∧ Starts c ∧ c ≠ '[' ∧ c ≠ '\x7b' := by
  fun_cases readLeaf cs with
  | case1 => exact ⟨_, _, rfl, ⟨rfl, by decide⟩, by decide, by decide⟩
  | case2 => exact ⟨_, _, rfl, ⟨rfl, by decide⟩, by decide, by decide⟩
  | case3 => exact ⟨_, _, rfl, ⟨rfl, by decide⟩, by decide, by decide⟩
  | case4 => exact ⟨_, _, rfl, ⟨rfl, by decide⟩, by decide, by decide⟩
  | case5 => exact ⟨_, _, rfl, ⟨rfl, by decide⟩, by decide, by decide⟩
  | case6 =>
    have asNumber : readLeaf cs = readNumber false cs := by
      rw [readLeaf] <;> assumption
    rw [asNumber] at read
    obtain ⟨c, tail, rfl, digit⟩ := head_of_readNumber read
    have differs {d : Char} (noDigit : isDigit d = false) : c ≠ d := by
      rintro rfl
      exact Bool.noConfusion (noDigit.symm.trans digit)
    refine ⟨c, tail, rfl, ⟨?_, differs rfl⟩, differs rfl, differs rfl⟩
    simp [isSpace, differs (d := ' ') rfl, differs (d := '\n') rfl, differs (d := '\t') rfl,
      differs (d := '\r') rfl]

/-! ## White space -/

theorem skipSpace_append {blanks : List Char} (blank : ∀ c ∈ blanks, isSpace c = true)
    (cs : List Char) : skipSpace (blanks ++ cs) = skipSpace cs := by
  rw [skipSpace, List.dropWhile_append, List.dropWhile_eq_nil_iff.mpr blank]
  rfl

theorem skipSpace_cons {c : Char} (noSpace : isSpace c = false) (cs : List Char) :
    skipSpace (c :: cs) = c :: cs := by
  rw [skipSpace, List.dropWhile_cons, noSpace]
  rfl

theorem skipSpace_skipSpace (cs : List Char) : skipSpace (skipSpace cs) = skipSpace cs :=
  List.dropWhile_idempotent _ cs

theorem toList_newLine (level : Nat) :
    (newLine level).toList = '\n' :: List.replicate (2 * level) ' ' := by
  simp [newLine]

theorem isSpace_of_mem_newLine {level : Nat} {c : Char} (member : c ∈ (newLine level).toList) :
    isSpace c = true := by
  rw [toList_newLine] at member
  simp only [List.mem_cons, List.mem_replicate] at member
  rcases member with rfl | ⟨-, rfl⟩ <;> rfl

theorem skipSpace_newLine (level : Nat) (cs : List Char) :
    skipSpace ((newLine level).toList ++ cs) = skipSpace cs :=
  skipSpace_append (fun _ => isSpace_of_mem_newLine) cs

theorem readValue_skipSpace (bound : Nat) (cs : List Char) :
    readValue bound (skipSpace cs) = readValue bound cs := by
  cases bound with
  | zero => rw [readValue, readValue]
  | succ bound =>
    rw [readValue.eq_def, readValue.eq_def (bound + 1) cs]
    simp only [skipSpace_skipSpace]

theorem readItems_skipSpace (bound : Nat) (cs : List Char) :
    readItems bound (skipSpace cs) = readItems bound cs := by
  cases bound with
  | zero => rw [readItems, readItems]
  | succ bound =>
    rw [readItems.eq_def, readItems.eq_def (bound + 1) cs]
    simp only [readValue_skipSpace]

theorem readEntries_skipSpace (bound : Nat) (cs : List Char) :
    readEntries bound (skipSpace cs) = readEntries bound cs := by
  cases bound with
  | zero => rw [readEntries, readEntries]
  | succ bound =>
    rw [readEntries.eq_def, readEntries.eq_def (bound + 1) cs]
    simp only [skipSpace_skipSpace]

/-! ## One step of the reader -/

section Steps

variable {bound : Nat} {cs behind : List Char}

theorem readValue_emptyList :
    readValue (bound + 1) ('[' :: ']' :: rest) = (.list none [], some rest) := by
  rw [readValue.eq_def]
  simp only [skipSpace_cons (c := '[') rfl, skipSpace_cons (c := ']') rfl]

theorem readValue_emptyDict :
    readValue (bound + 1) ('\x7b' :: '\x7d' :: rest) = (.dict none [], some rest) := by
  rw [readValue.eq_def]
  simp only [skipSpace_cons (c := '\x7b') rfl, skipSpace_cons (c := '\x7d') rfl]

theorem readValue_leaf {leaf : Leaf} (read : readLeaf cs = some (leaf, rest)) :
    readValue (bound + 1) cs = (.leaf leaf, some rest) := by
  obtain ⟨c, tail, rfl, starts, noList, noDict⟩ := starts_of_readLeaf read
  rw [readValue.eq_def]
  simp only [skipSpace_cons starts.noSpace]
  split
  · rename_i same
    exact absurd (List.cons.inj same).1 noList
  · rename_i same
    exact absurd (List.cons.inj same).1 noDict
  · rw [read]

theorem readValue_list {c : Char} {tail : List Char} (first : skipSpace cs = c :: tail)
    (noClose : c ≠ ']') :
    readValue (bound + 1) ('[' :: cs) = (.list none (readItems bound cs).1, (readItems bound cs).2) := by
  rw [readValue.eq_def]
  simp only [skipSpace_cons (c := '[') rfl]
  split
  · rename_i same
    exact absurd (List.cons.inj (first.symm.trans same)).1 noClose
  · rw [readItems_skipSpace]

theorem readValue_dict {c : Char} {tail : List Char} (first : skipSpace cs = c :: tail)
    (noClose : c ≠ '\x7d') :
    readValue (bound + 1) ('\x7b' :: cs) =
      (.dict none (readEntries bound cs).1, (readEntries bound cs).2) := by
  rw [readValue.eq_def]
  simp only [skipSpace_cons (c := '\x7b') rfl]
  split
  · rename_i same
    exact absurd (List.cons.inj (first.symm.trans same)).1 noClose
  · rw [readEntries_skipSpace]

theorem readItems_last {item : Node} (read : readValue bound cs = (item, some behind))
    (close : skipSpace behind = ']' :: rest) : readItems (bound + 1) cs = ([item], some rest) := by
  rw [readItems.eq_def]
  simp only [read, close]

theorem readItems_more {item : Node} (read : readValue bound cs = (item, some behind))
    (comma : skipSpace behind = ',' :: rest) :
    readItems (bound + 1) cs = (item :: (readItems bound rest).1, (readItems bound rest).2) := by
  rw [readItems.eq_def]
  simp only [read, comma]

theorem readEntries_last {name : String} {value : Node}
    (written : skipSpace cs = (quote name).toList ++ ':' :: behind) {later : List Char}
    (read : readValue bound behind = (value, some later))
    (close : skipSpace later = '\x7d' :: rest) :
    readEntries (bound + 1) cs = ([(.leaf (.string (some name)), value)], some rest) := by
  rw [toList_quote, List.cons_append, List.append_assoc, List.singleton_append] at written
  rw [readEntries.eq_def]
  simp only [written, readString_quote, skipSpace_cons (c := ':') rfl, read, close]

theorem readEntries_more {name : String} {value : Node}
    (written : skipSpace cs = (quote name).toList ++ ':' :: behind) {later : List Char}
    (read : readValue bound behind = (value, some later))
    (comma : skipSpace later = ',' :: rest) :
    readEntries (bound + 1) cs = ((.leaf (.string (some name)), value) :: (readEntries bound rest).1,
      (readEntries bound rest).2) := by
  rw [toList_quote, List.cons_append, List.append_assoc, List.singleton_append] at written
  rw [readEntries.eq_def]
  simp only [written, readString_quote, skipSpace_cons (c := ':') rfl, read, comma]

end Steps

/-! ## Spread text -/

theorem spreadAt_leaf {value : Json} (isLeaf : IsLeaf value) (level : Nat) :
    spreadAt level value = leafText value := by
  cases isLeaf <;> rw [spreadAt] <;> simp

theorem toList_spreadAt_array (level : Nat) (item : Json) (items : List Json) :
    (spreadAt level (.array (item :: items))).toList =
      '[' :: ((spreadItems (level + 1) (item :: items)).toList ++ ((newLine level).toList ++ [']'])) := by
  rw [spreadAt] <;> simp

theorem toList_spreadAt_object (level : Nat) (entry : String × Json) (fields : List (String × Json)) :
    (spreadAt level (.object (entry :: fields))).toList =
      '\x7b' :: ((spreadFields (level + 1) (entry :: fields)).toList ++
        ((newLine level).toList ++ ['\x7d'])) := by
  rw [spreadAt] <;> simp

theorem toList_spreadItems_single (level : Nat) (item : Json) :
    (spreadItems level [item]).toList = (newLine level).toList ++ (spreadAt level item).toList := by
  simp [spreadItems]

theorem toList_spreadItems_cons (level : Nat) (item next : Json) (items : List Json) :
    (spreadItems level (item :: next :: items)).toList =
      (newLine level).toList ++ ((spreadAt level item).toList ++
        ',' :: (spreadItems level (next :: items)).toList) := by
  rw [spreadItems] <;> simp

theorem toList_spreadFields_single (level : Nat) (name : String) (value : Json) :
    (spreadFields level [(name, value)]).toList =
      (newLine level).toList ++ ((quote name).toList ++ ':' :: ' ' :: (spreadAt level value).toList) := by
  simp [spreadFields]

theorem toList_spreadFields_cons (level : Nat) (name : String) (value : Json)
    (next : String × Json) (fields : List (String × Json)) :
    (spreadFields level ((name, value) :: next :: fields)).toList =
      (newLine level).toList ++ ((quote name).toList ++ ':' :: ' ' :: ((spreadAt level value).toList ++
        ',' :: (spreadFields level (next :: fields)).toList)) := by
  rw [spreadFields] <;> simp

theorem starts_spreadAt {value : Json} (exact : Exact value) (level : Nat) :
    ∃ c tail, (spreadAt level value).toList = c :: tail ∧ Starts c := by
  have ofLeaf (isLeaf : IsLeaf value) : ∃ c tail, (spreadAt level value).toList = c :: tail ∧ Starts c := by
    have read : readLeaf ((leafText value).toList ++ []) = some (leaf value, []) :=
      readLeaf_leafText isLeaf exact (by simp [Stops])
    obtain ⟨c, tail, written, starts, -⟩ := starts_of_readLeaf read
    rw [List.append_nil] at written
    exact ⟨c, tail, by rw [spreadAt_leaf isLeaf, written], starts⟩
  cases value with
  | null => exact ofLeaf .null
  | bool b => exact ofLeaf .bool
  | int i => exact ofLeaf .int
  | double x => exact ofLeaf .double
  | string s => exact ofLeaf .string
  | array items =>
    cases items with
    | nil => exact ⟨'[', [']'], by simp [spreadAt], rfl, by decide⟩
    | cons item items => exact ⟨'[', _, toList_spreadAt_array level item items, rfl, by decide⟩
  | object fields =>
    cases fields with
    | nil => exact ⟨'\x7b', ['\x7d'], by simp [spreadAt], rfl, by decide⟩
    | cons entry fields => exact ⟨'\x7b', _, toList_spreadAt_object level entry fields, rfl, by decide⟩

theorem starts_spreadItems {items : List Json} (someItem : items ≠ [])
    (exact : ∀ item ∈ items, Exact item) (level : Nat) (cs : List Char) :
    ∃ c tail, skipSpace ((spreadItems level items).toList ++ cs) = c :: tail ∧ Starts c := by
  match items with
  | [item] =>
    obtain ⟨c, tail, written, starts⟩ := starts_spreadAt (exact item List.mem_cons_self) level
    rw [toList_spreadItems_single, List.append_assoc, skipSpace_newLine, written, List.cons_append,
      skipSpace_cons starts.noSpace]
    exact ⟨c, _, rfl, starts⟩
  | item :: next :: items =>
    obtain ⟨c, tail, written, starts⟩ := starts_spreadAt (exact item List.mem_cons_self) level
    rw [toList_spreadItems_cons, List.append_assoc, skipSpace_newLine, written, List.cons_append,
      List.cons_append, skipSpace_cons starts.noSpace]
    exact ⟨c, _, rfl, starts⟩

theorem skipSpace_quote (level : Nat) (name : String) (cs : List Char) :
    skipSpace ((newLine level).toList ++ ((quote name).toList ++ cs)) = (quote name).toList ++ cs := by
  rw [skipSpace_newLine, toList_quote, List.cons_append]
  exact skipSpace_cons rfl _

theorem starts_spreadFields {fields : List (String × Json)} (someField : fields ≠ [])
    (level : Nat) (cs : List Char) :
    ∃ tail, skipSpace ((spreadFields level fields).toList ++ cs) = '"' :: tail := by
  have quoted (name : String) (cs : List Char) :
      ∃ tail, skipSpace ((newLine level).toList ++ ((quote name).toList ++ cs)) = '"' :: tail := by
    rw [skipSpace_quote, toList_quote]
    exact ⟨_, rfl⟩
  match fields with
  | [(name, value)] =>
    rw [toList_spreadFields_single, List.append_assoc, List.append_assoc]
    exact quoted name _
  | (name, value) :: next :: fields =>
    rw [toList_spreadFields_cons, List.append_assoc, List.append_assoc]
    exact quoted name _

theorem readValue_newLine (bound level : Nat) (cs : List Char) :
    readValue bound ((newLine level).toList ++ cs) = readValue bound cs := by
  rw [← readValue_skipSpace, skipSpace_newLine, readValue_skipSpace]

theorem stops_newLine (level : Nat) (cs : List Char) : Stops ((newLine level).toList ++ cs) := by
  rw [toList_newLine]
  simp [Stops, isDigit]

theorem stops_comma (cs : List Char) : Stops (',' :: cs) := by
  simp [Stops, isDigit]

/-- The spread text of a value is read as its tree, whatever follows it. -/
def IsRead (value : Json) : Prop :=
  ∀ ⦃rest : List Char⦄, Stops rest → ∀ level bound,
    2 * (spreadAt level value).toList.length ≤ bound →
      readValue bound ((spreadAt level value).toList ++ rest) = (node value, some rest)

theorem readItems_spreadItems {items : List Json} (someItem : items ≠ [])
    (isRead : ∀ item ∈ items, IsRead item) {level bound : Nat}
    (enough : 2 * (spreadItems level items).toList.length ≤ bound) {closing : List Char}
    (stops : Stops closing) (close : skipSpace closing = ']' :: rest) :
    readItems bound ((spreadItems level items).toList ++ closing) = (itemNodes items, some rest) := by
  induction items generalizing bound with
  | nil => exact absurd rfl someItem
  | cons item items ih =>
    have isReadItem := isRead item List.mem_cons_self
    cases items with
    | nil =>
      rw [toList_spreadItems_single] at enough ⊢
      simp only [List.length_append, toList_newLine, List.length_cons] at enough
      obtain ⟨bound, rfl⟩ : ∃ less, bound = less + 1 := ⟨bound - 1, by omega⟩
      have read := isReadItem stops level bound (by omega)
      rw [← readValue_newLine bound level] at read
      rw [List.append_assoc, readItems_last read close, itemNodes, itemNodes]
    | cons next items =>
      rw [toList_spreadItems_cons] at enough ⊢
      simp only [List.length_append, toList_newLine, List.length_cons] at enough
      obtain ⟨bound, rfl⟩ : ∃ less, bound = less + 1 := ⟨bound - 1, by omega⟩
      have read := isReadItem (stops_comma ((spreadItems level (next :: items)).toList ++ closing))
        level bound (by omega)
      rw [← readValue_newLine bound level] at read
      rw [List.append_assoc, List.append_assoc, List.cons_append,
        readItems_more read (skipSpace_cons rfl _), ih (List.cons_ne_nil next items)
          (fun other member => isRead other (List.mem_cons_of_mem _ member)) (by omega)]
      rfl

theorem readValue_space (bound : Nat) (cs : List Char) :
    readValue bound (' ' :: cs) = readValue bound cs := by
  rw [← readValue_skipSpace, ← readValue_skipSpace bound cs]
  have blank : ∀ c ∈ [' '], isSpace c = true := by simp [isSpace]
  exact congrArg (readValue bound) (skipSpace_append blank cs)

theorem readEntries_spreadFields {fields : List (String × Json)} (someField : fields ≠ [])
    (isRead : ∀ entry ∈ fields, IsRead entry.2) {level bound : Nat}
    (enough : 2 * (spreadFields level fields).toList.length ≤ bound) {closing : List Char}
    (stops : Stops closing) (close : skipSpace closing = '\x7d' :: rest) :
    readEntries bound ((spreadFields level fields).toList ++ closing) =
      (entryNodes fields, some rest) := by
  induction fields generalizing bound with
  | nil => exact absurd rfl someField
  | cons entry fields ih =>
    obtain ⟨name, value⟩ := entry
    have isReadValue : IsRead value := isRead (name, value) List.mem_cons_self
    cases fields with
    | nil =>
      rw [toList_spreadFields_single] at enough ⊢
      simp only [List.length_append, toList_newLine, List.length_cons] at enough
      obtain ⟨bound, rfl⟩ : ∃ less, bound = less + 1 := ⟨bound - 1, by omega⟩
      have read := isReadValue stops level bound (by omega)
      rw [← readValue_space] at read
      rw [List.append_assoc, List.append_assoc, List.cons_append, List.cons_append,
        readEntries_last (skipSpace_quote level name _) read close]
      rfl
    | cons next fields =>
      rw [toList_spreadFields_cons] at enough ⊢
      simp only [List.length_append, toList_newLine, List.length_cons] at enough
      obtain ⟨bound, rfl⟩ : ∃ less, bound = less + 1 := ⟨bound - 1, by omega⟩
      have read := isReadValue
        (stops_comma ((spreadFields level (next :: fields)).toList ++ closing)) level bound (by omega)
      rw [← readValue_space] at read
      rw [List.append_assoc, List.append_assoc, List.cons_append, List.cons_append,
        List.append_assoc, List.cons_append,
        readEntries_more (skipSpace_quote level name _) read (skipSpace_cons rfl _),
        ih (List.cons_ne_nil next fields)
          (fun other member => isRead other (List.mem_cons_of_mem _ member)) (by omega)]
      rfl

theorem isRead_array {items : List Json} (exact : ∀ item ∈ items, Exact item)
    (isRead : ∀ item ∈ items, IsRead item) : IsRead (.array items) := by
  intro rest stops level bound enough
  cases items with
  | nil =>
    rw [spreadAt] at enough ⊢
    obtain ⟨bound, rfl⟩ : ∃ less, bound = less + 1 := ⟨bound - 1, by simp at enough; omega⟩
    exact readValue_emptyList
  | cons item items =>
    rw [toList_spreadAt_array] at enough ⊢
    simp only [List.length_append, toList_newLine, List.length_cons] at enough
    obtain ⟨bound, rfl⟩ : ∃ less, bound = less + 1 := ⟨bound - 1, by omega⟩
    have closed : skipSpace ((newLine level).toList ++ ([']'] ++ rest)) = ']' :: rest := by
      rw [skipSpace_newLine]
      exact skipSpace_cons rfl rest
    obtain ⟨c, tail, first, starts⟩ := starts_spreadItems (List.cons_ne_nil item items) exact
      (level + 1) ((newLine level).toList ++ ([']'] ++ rest))
    rw [List.cons_append, List.append_assoc, List.append_assoc, readValue_list first starts.noClose,
      readItems_spreadItems (List.cons_ne_nil item items) isRead (by omega) (stops_newLine level _)
        closed, node]

theorem isRead_object {fields : List (String × Json)} (isRead : ∀ entry ∈ fields, IsRead entry.2) :
    IsRead (.object fields) := by
  intro rest stops level bound enough
  cases fields with
  | nil =>
    rw [spreadAt] at enough ⊢
    obtain ⟨bound, rfl⟩ : ∃ less, bound = less + 1 := ⟨bound - 1, by simp at enough; omega⟩
    exact readValue_emptyDict
  | cons entry fields =>
    rw [toList_spreadAt_object] at enough ⊢
    simp only [List.length_append, toList_newLine, List.length_cons] at enough
    obtain ⟨bound, rfl⟩ : ∃ less, bound = less + 1 := ⟨bound - 1, by omega⟩
    have closed : skipSpace ((newLine level).toList ++ (['\x7d'] ++ rest)) = '\x7d' :: rest := by
      rw [skipSpace_newLine]
      exact skipSpace_cons rfl rest
    obtain ⟨tail, first⟩ := starts_spreadFields (List.cons_ne_nil entry fields)
      (level + 1) ((newLine level).toList ++ (['\x7d'] ++ rest))
    rw [List.cons_append, List.append_assoc, List.append_assoc, readValue_dict first (by decide),
      readEntries_spreadFields (List.cons_ne_nil entry fields) isRead (by omega)
        (stops_newLine level _) closed, node]

theorem isRead_leaf {value : Json} (isLeaf : IsLeaf value) (exact : Exact value)
    (same : node value = .leaf (leaf value)) : IsRead value := by
  intro rest stops level bound enough
  obtain ⟨c, tail, written, -⟩ := starts_spreadAt exact level
  obtain ⟨bound, rfl⟩ : ∃ less, bound = less + 1 := ⟨bound - 1, by simp [written] at enough; omega⟩
  rw [spreadAt_leaf isLeaf, same]
  exact readValue_leaf (readLeaf_leafText isLeaf exact stops)

theorem isRead_of_exact : (value : Json) → Exact value → IsRead value
  | .null, exact => isRead_leaf .null exact rfl
  | .bool _, exact => isRead_leaf .bool exact rfl
  | .int _, exact => isRead_leaf .int exact rfl
  | .double _, exact => isRead_leaf .double exact rfl
  | .string _, exact => isRead_leaf .string exact rfl
  | .array items, exact =>
    isRead_array (exact_array.mp exact) fun item member =>
      isRead_of_exact item (exact_array.mp exact item member)
  | .object fields, exact =>
    isRead_object fun entry member =>
      isRead_of_exact entry.2 (exact_object.mp exact entry member)
termination_by value => sizeOf value
decreasing_by
  · have := List.sizeOf_lt_of_mem member
    simp
    omega
  · have := List.sizeOf_lt_of_mem member
    obtain ⟨name, value⟩ := entry
    simp at this ⊢
    omega

/-- The spread text of a value, with the end of its last line, is read as its tree. -/
theorem source_spread {value : Json} (exact : Exact value) :
    source (value.spread.toList ++ ['\n']) =
      { root := node value, positional := true, depth := depthLimit, anchors := [],
        aliasLimit := 0, intact := true } := by
  have stops : Stops ['\n'] := by simp [Stops, isDigit]
  have read := isRead_of_exact value exact stops 0 (2 * (value.spread.toList ++ ['\n']).length + 2)
    (by simp [spread]; omega)
  rw [← spread] at read
  simp only [source, read]
  rfl

end ApiWorkflow.Json
