import ApiWorkflow.Proofs.Json.Number

/-! # Trees that are read from JSON text

Every leaf has its type, numbers are in range, and no node stands for another one.
-/

namespace ApiWorkflow

namespace Source

open Json

/-- A leaf with its type, whose number can be written again. -/
inductive Leaf.Typed : Leaf → Prop where
  | null : Leaf.Typed .null
  | bool {b : Bool} : Leaf.Typed (.bool b)
  | number {value : Option Json} (isNumber : ∀ v ∈ value, IsNumber v) : Leaf.Typed (.number value)
  | string {s : Option String} : Leaf.Typed (.string s)

/-- A tree in which every leaf has its type and no node stands for another. -/
inductive Node.Typed : Node → Prop where
  | leaf {leaf : Leaf} (typed : leaf.Typed) : Node.Typed (.leaf leaf)
  | list {tag : Option String} {items : List Node} (typed : ∀ item ∈ items, Node.Typed item) :
      Node.Typed (.list tag items)
  | dict {tag : Option String} {entries : List (Node × Node)}
      (keys : ∀ entry ∈ entries, Node.Typed entry.1)
      (values : ∀ entry ∈ entries, Node.Typed entry.2) : Node.Typed (.dict tag entries)
  | cut : Node.Typed .cut

end Source

namespace Json

open Source

theorem typed_readNumber {negative : Bool} {cs rest : List Char} {leaf : Leaf}
    (read : readNumber negative cs = some (leaf, rest)) : leaf.Typed := by
  rw [readNumber] at read
  dsimp only at read
  split at read
  · cases read
  · cases read
  · obtain ⟨fraction, -, read⟩ := Option.bind_eq_some_iff.mp read
    obtain ⟨exponent, -, read⟩ := Option.bind_eq_some_iff.mp read
    cases read
    exact .number fun value found => isNumber_of_value? found

theorem typed_readString {cs rest : List Char} {leaf : Leaf}
    (read : readString cs = some (leaf, rest)) : leaf.Typed := by
  obtain ⟨parts, -, made⟩ := Option.map_eq_some_iff.mp read
  cases made
  exact .string

theorem typed_readLeaf {cs rest : List Char} {leaf : Leaf}
    (read : readLeaf cs = some (leaf, rest)) : leaf.Typed := by
  rw [readLeaf.eq_def] at read
  split at read
  · cases read
    exact .null
  · cases read
    exact .bool
  · cases read
    exact .bool
  · exact typed_readString read
  · exact typed_readNumber read
  · exact typed_readNumber read

/-! ## One more level of nesting -/

section Step

variable {bound : Nat}

theorem typed_readValue_succ (items : ∀ cs, ∀ item ∈ (readItems bound cs).1, item.Typed)
    (entries : ∀ cs, ∀ entry ∈ (readEntries bound cs).1, entry.1.Typed ∧ entry.2.Typed)
    (cs : List Char) : (readValue (bound + 1) cs).1.Typed := by
  rw [readValue.eq_def]
  dsimp only
  split
  · split
    · exact .list (by simp)
    · exact .list (items _)
  · split
    · exact .dict (by simp) (by simp)
    · exact .dict (fun entry member => (entries _ entry member).1)
        fun entry member => (entries _ entry member).2
  · split
    · rename_i read
      exact .leaf (typed_readLeaf read)
    · exact .cut

theorem typed_readItems_succ (value : ∀ cs, (readValue bound cs).1.Typed)
    (items : ∀ cs, ∀ item ∈ (readItems bound cs).1, item.Typed) (cs : List Char) :
    ∀ item ∈ (readItems (bound + 1) cs).1, item.Typed := by
  have first := value cs
  rw [readItems.eq_def]
  dsimp only
  split
  · rename_i read
    rw [read] at first
    simpa using first
  · rename_i read
    rw [read] at first
    split
    · simpa using ⟨first, items _⟩
    · simpa using first
    · simpa using ⟨first, Node.Typed.cut⟩

theorem typed_readEntries_succ (value : ∀ cs, (readValue bound cs).1.Typed)
    (entries : ∀ cs, ∀ entry ∈ (readEntries bound cs).1, entry.1.Typed ∧ entry.2.Typed)
    (cs : List Char) :
    ∀ entry ∈ (readEntries (bound + 1) cs).1, entry.1.Typed ∧ entry.2.Typed := by
  rw [readEntries.eq_def]
  dsimp only
  split
  · split
    · simp [Node.Typed.cut]
    · rename_i key rest readKey
      have typedKey : Node.Typed (.leaf key) := .leaf (typed_readString readKey)
      split
      · rename_i behind _
        have first := value behind
        split
        · rename_i read
          rw [read] at first
          simpa using ⟨typedKey, first⟩
        · rename_i read
          rw [read] at first
          split
          · intro entry member
            rcases List.mem_cons.mp member with rfl | later
            · exact ⟨typedKey, first⟩
            · exact entries _ entry later
          · simpa using ⟨typedKey, first⟩
          · simpa using ⟨⟨typedKey, first⟩, Node.Typed.cut⟩
      · simpa using ⟨typedKey, Node.Typed.cut⟩
  · simp [Node.Typed.cut]

end Step

/-- Whatever the text, the reader gives typed trees. -/
theorem typed_read (bound : Nat) :
    (∀ cs, (readValue bound cs).1.Typed) ∧ (∀ cs, ∀ item ∈ (readItems bound cs).1, item.Typed) ∧
      ∀ cs, ∀ entry ∈ (readEntries bound cs).1, entry.1.Typed ∧ entry.2.Typed := by
  induction bound with
  | zero =>
    refine ⟨fun cs => ?_, fun cs => ?_, fun cs => ?_⟩
    · rw [readValue]
      exact .cut
    · rw [readItems]
      simp [Node.Typed.cut]
    · rw [readEntries]
      simp [Node.Typed.cut]
  | succ bound ih =>
    obtain ⟨value, items, entries⟩ := ih
    exact ⟨typed_readValue_succ items entries, typed_readItems_succ value items,
      typed_readEntries_succ value entries⟩

theorem typed_source (text : List Char) : (source text).root.Typed :=
  (typed_read (2 * text.length + 2)).1 text

end Json

end ApiWorkflow
