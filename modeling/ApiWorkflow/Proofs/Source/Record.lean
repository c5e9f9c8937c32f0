import ApiWorkflow.Proofs.Source.Codec
import Mathlib.Data.List.Pairwise

/-! # Records that are read once more

A record is restored if each of its fields is: whichever fields a text gives, in whatever
order, by name or by position, the record is written with all of them and read back.
-/

namespace ApiWorkflow.Source

open Json

variable {σ : Type}

/-- A field of a record together with how it is written. -/
structure Slot (σ : Type) where
  {Value : Type}
  name : String
  decoder : Decoder Value
  put : Value → σ → σ
  get : σ → Value
  encode : Value → Json

namespace Slot

def field (slot : Slot σ) : RecordField σ :=
  Source.field slot.name slot.decoder slot.put

@[simp]
theorem field_name (slot : Slot σ) : slot.field.name = slot.name :=
  rfl

def entry (slot : Slot σ) (record : σ) : String × Json :=
  (slot.name, slot.encode (slot.get record))

def StableIn (slot : Slot σ) (depth : Nat) (record : σ) : Prop :=
  Stable slot.decoder slot.encode depth (slot.get record)

/-- Two different fields: neither is changed with the other. -/
@[mk_iff]
structure Apart (slot other : Slot σ) : Prop where
  names : slot.name ≠ other.name
  put : ∀ value record, other.get (slot.put value record) = other.get record
  putOther : ∀ value record, slot.get (other.put value record) = slot.get record

instance : Std.Symm (Apart : Slot σ → Slot σ → Prop) :=
  ⟨fun _ _ apart => ⟨apart.names.symm, apart.putOther, apart.put⟩⟩

end Slot

/-- The fields of one record put into another. -/
def refill (slots : List (Slot σ)) (init record : σ) : σ :=
  slots.foldl (fun filled slot => slot.put (slot.get record) filled) init

/-- Fields that stand side by side in a record and can be restored. -/
structure Layout (slots : List (Slot σ)) (init : σ) (need : Nat) : Prop where
  apart : slots.Pairwise Slot.Apart
  get_put : ∀ slot ∈ slots, ∀ value record, slot.get (slot.put value record) = value
  refill_init : refill slots init init = init
  refill_put : ∀ slot ∈ slots, ∀ value record,
    refill slots init (slot.put value record) = slot.put value (refill slots init record)
  codec : ∀ slot ∈ slots, Codec slot.decoder slot.encode need (slot.get init)

/-- What holds of a record while it is read: every field comes out again, and the record
    has nothing but its fields. -/
structure Filled (slots : List (Slot σ)) (init : σ) (depth : Nat) (record : σ) : Prop where
  stable : ∀ slot ∈ slots, slot.StableIn depth record
  whole : refill slots init record = record

theorem recordEntries_extra {slots : List (Slot σ)} {depth : Nat} {extra : List (String × Json)}
    (unknown : ∀ entry ∈ extra, ∀ slot ∈ slots, slot.name ≠ entry.1) (seen : List String)
    (record : σ) :
    recordEntries (slots.map Slot.field) depth seen record (entryNodes extra) = pure record := by
  induction extra with
  | nil => rfl
  | cons entry extra ih =>
    obtain ⟨name, value⟩ := entry
    obtain ⟨first, unknown⟩ := List.forall_mem_cons.mp unknown
    have missing : (slots.map Slot.field).find? (·.name == name) = none := by
      rw [List.find?_eq_none]
      intro field member
      obtain ⟨slot, memberSlot, rfl⟩ := List.mem_map.mp member
      simpa using first slot memberSlot
    rw [entryNodes, recordEntries, text_string, pure_bind, missing]
    exact ih unknown

section Reading

variable {slots : List (Slot σ)} {init : σ} {need depth : Nat} (layout : Layout slots init need)
include layout

theorem Layout.filled_init (enough : need ≤ depth) : Filled slots init depth init where
  stable := fun slot member => (layout.codec slot member).initial depth enough
  whole := layout.refill_init

theorem Layout.filled_put {slot : Slot σ} (member : slot ∈ slots) {value : slot.Value} {record : σ}
    (stable : Stable slot.decoder slot.encode depth value)
    (filled : Filled slots init depth record) : Filled slots init depth (slot.put value record) where
  stable := by
    intro other memberOther
    by_cases same : slot = other
    · subst same
      rw [Slot.StableIn, layout.get_put slot member]
      exact stable
    · rw [Slot.StableIn, (layout.apart.forall member memberOther same).put]
      exact filled.stable other memberOther
  whole := by rw [layout.refill_put slot member, filled.whole]

theorem Layout.filled_field (enough : need ≤ depth) {slot : Slot σ} (member : slot ∈ slots)
    {node : Node} (typed : node.Typed) {change : σ → σ}
    (yields : Yields (slot.field.decoder depth node) change) {record : σ}
    (filled : Filled slots init depth record) : Filled slots init depth (change record) := by
  obtain ⟨value, read, rfl⟩ := yields_map yields
  exact layout.filled_put member ((layout.codec slot member).restores enough typed read) filled

theorem Layout.filled_entries (enough : need ≤ depth) {entries : List (Node × Node)}
    (typed : ∀ entry ∈ entries, entry.2.Typed) {seen : List String} {record result : σ}
    (yields : Yields (recordEntries (slots.map Slot.field) depth seen record entries) result)
    (filled : Filled slots init depth record) : Filled slots init depth result := by
  induction entries generalizing seen record with
  | nil => rwa [← yields_pure yields]
  | cons entry entries ih =>
    obtain ⟨typedFirst, typedRest⟩ := List.forall_mem_cons.mp typed
    rw [recordEntries] at yields
    obtain ⟨name, -, yields⟩ := yields_bind yields
    split at yields
    · exact ih typedRest yields filled
    · rename_i field found
      obtain ⟨slot, member, rfl⟩ := List.mem_map.mp (List.mem_of_find?_eq_some found)
      split at yields
      · exact (not_yields_malformed yields).elim
      · obtain ⟨change, read, yields⟩ := yields_bind yields
        exact ih typedRest yields (layout.filled_field enough member typedFirst read filled)

theorem Layout.filled_items (enough : need ≤ depth) {items : List Node}
    (typed : ∀ item ∈ items, item.Typed) {rest : List (Slot σ)} (among : ∀ slot ∈ rest, slot ∈ slots)
    {record result : σ} (yields : Yields (recordItems depth (rest.map Slot.field) record items) result)
    (filled : Filled slots init depth record) : Filled slots init depth result := by
  induction items generalizing rest record with
  | nil =>
    rw [recordItems] at yields
    rwa [← yields_pure yields]
  | cons item items ih =>
    obtain ⟨typedFirst, typedRest⟩ := List.forall_mem_cons.mp typed
    cases rest with
    | nil => exact (not_yields_malformed yields).elim
    | cons slot rest =>
      obtain ⟨member, among⟩ := List.forall_mem_cons.mp among
      rw [List.map_cons, recordItems] at yields
      obtain ⟨change, read, yields⟩ := yields_bind yields
      exact ih typedRest among yields (layout.filled_field enough member typedFirst read filled)

theorem Layout.filled_of_yields (enough : need + 1 ≤ depth) {node : Node} (typed : node.Typed)
    {result : σ} (yields : Yields (record (slots.map Slot.field) init depth node) result) :
    ∃ less, depth = less + 1 ∧ Filled slots init less result := by
  obtain ⟨less, rfl⟩ : ∃ less, depth = less + 1 := ⟨depth - 1, by omega⟩
  refine ⟨less, rfl, ?_⟩
  have enough : need ≤ less := by omega
  rw [record, resolve_typed typed, pure_bind] at yields
  cases typed with
  | leaf typed =>
    cases typed <;> exact (not_yields_malformed yields).elim
  | cut => exact (not_yields_malformed yields).elim
  | dict keys values => exact layout.filled_entries enough values yields (layout.filled_init enough)
  | list typed =>
    obtain ⟨source, -, yields⟩ := yields_bind yields
    split at yields
    · exact layout.filled_items enough typed (fun _ member => member) yields
        (layout.filled_init enough)
    · exact (not_yields_malformed yields).elim

theorem Layout.find?_field {slot : Slot σ} (member : slot ∈ slots) :
    (slots.map Slot.field).find? (·.name == slot.name) = some slot.field := by
  cases found : (slots.map Slot.field).find? (·.name == slot.name) with
  | none =>
    have missing := List.find?_eq_none.mp found slot.field (List.mem_map_of_mem member)
    exact absurd (beq_self_eq_true slot.name) missing
  | some field =>
    obtain ⟨other, memberOther, rfl⟩ := List.mem_map.mp (List.mem_of_find?_eq_some found)
    have sameName : other.name = slot.name := by simpa using List.find?_some found
    by_cases same : other = slot
    · rw [same]
    · exact absurd sameName (layout.apart.forall memberOther member same).names

theorem Layout.recordEntries_slots {record : σ} (stable : ∀ slot ∈ slots,
      slot.decoder depth (slot.encode (slot.get record)).node = pure (slot.get record))
    {extra : List (String × Json)} (unknown : ∀ entry ∈ extra, ∀ slot ∈ slots, slot.name ≠ entry.1)
    {rest : List (Slot σ)} (among : ∀ slot ∈ rest, slot ∈ slots) (apart : rest.Pairwise Slot.Apart)
    {seen : List String} (unseen : ∀ slot ∈ rest, slot.name ∉ seen) (filled : σ) :
    recordEntries (slots.map Slot.field) depth seen filled
        (entryNodes (rest.map (Slot.entry · record) ++ extra)) =
      pure (refill rest filled record) := by
  induction rest generalizing seen filled with
  | nil => exact recordEntries_extra unknown seen filled
  | cons slot rest ih =>
    obtain ⟨member, among⟩ := List.forall_mem_cons.mp among
    obtain ⟨first, apart⟩ := List.pairwise_cons.mp apart
    obtain ⟨new, unseen⟩ := List.forall_mem_cons.mp unseen
    have fresh : ¬seen.contains slot.name = true := by simpa using new
    have change : slot.field.decoder depth (slot.encode (slot.get record)).node =
        pure (slot.put (slot.get record)) := by
      change slot.put <$> slot.decoder depth _ = _
      rw [stable slot member, map_pure]
    rw [List.map_cons, List.cons_append, Slot.entry, entryNodes, recordEntries, text_string, pure_bind,
      layout.find?_field member]
    dsimp only
    rw [if_neg fresh, change, pure_bind, refill, List.foldl_cons]
    refine ih among apart ?_ _
    intro other memberOther
    rw [List.mem_cons, not_or]
    exact ⟨(first other memberOther).names.symm, unseen other memberOther⟩

/-- A record that is filled comes out again, whatever else is written behind its fields. -/
theorem Layout.stable {encode : σ → Json} {extra : σ → List (String × Json)}
    (written : ∀ record, encode record = .object (slots.map (Slot.entry · record) ++ extra record))
    (unknown : ∀ record, ∀ entry ∈ extra record, ∀ slot ∈ slots, slot.name ≠ entry.1) {result : σ}
    (filled : Filled slots init depth result) :
    Stable (record (slots.map Slot.field) init) encode (depth + 1) result := by
  intro exact
  rw [written] at exact ⊢
  have stable : ∀ slot ∈ slots,
      slot.decoder depth (slot.encode (slot.get result)).node = pure (slot.get result) := by
    intro slot member
    refine filled.stable slot member (exact_object.mp exact (slot.entry result) ?_)
    exact List.mem_append_left _ (List.mem_map_of_mem member)
  have unseen : ∀ slot ∈ slots, slot.name ∉ ([] : List String) := by simp
  have read := layout.recordEntries_slots stable (unknown result) (fun _ member => member)
    layout.apart unseen init
  rw [filled.whole] at read
  rw [Json.node]
  exact read

theorem Layout.codec_record {encode : σ → Json} {extra : σ → List (String × Json)}
    (written : ∀ record, encode record = .object (slots.map (Slot.entry · record) ++ extra record))
    (unknown : ∀ record, ∀ entry ∈ extra record, ∀ slot ∈ slots, slot.name ≠ entry.1) :
    Codec (record (slots.map Slot.field) init) encode (need + 1) init where
  restores := by
    intro depth node result enough typed yields
    obtain ⟨less, rfl, filled⟩ := layout.filled_of_yields enough typed yields
    exact layout.stable written unknown filled
  initial := by
    intro depth enough
    obtain ⟨less, rfl⟩ : ∃ less, depth = less + 1 := ⟨depth - 1, by omega⟩
    exact layout.stable written unknown (layout.filled_init (by omega))

end Reading

end ApiWorkflow.Source
