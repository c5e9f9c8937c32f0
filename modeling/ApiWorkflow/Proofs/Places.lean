import Mathlib.Data.List.Forall2

/-! # One entry for each place

A report goes over a text or a list and has one entry for each place where one is due.
It is built from the front: the places behind the first one are those of the rest, each
one further on.
-/

namespace ApiWorkflow

variable {β : Type} {place : Nat → Prop} {due : Nat → β → Prop} {entries : List β}

/-- There is one entry for each place and no other, in the order of the places, and it is
    one that is due there. -/
def OnePerPlace (place : Nat → Prop) (due : Nat → β → Prop) (entries : List β) : Prop :=
  ∃ places : List Nat, places.Pairwise (· < ·) ∧ (∀ i, i ∈ places ↔ place i) ∧
    List.Forall₂ due places entries

theorem onePerPlace_nil (nowhere : ∀ i, ¬place i) : OnePerPlace place due [] :=
  ⟨[], .nil, fun i => iff_of_false List.not_mem_nil (nowhere i), .nil⟩

theorem OnePerPlace.exists_shifted
    (later : OnePerPlace (fun i => place (i + 1)) (fun i => due (i + 1)) entries) :
    ∃ places : List Nat, places.Pairwise (· < ·) ∧
      (∀ i, i ∈ places ↔ 0 < i ∧ place i) ∧ List.Forall₂ due places entries := by
  obtain ⟨places, increasing, all, shown⟩ := later
  refine ⟨places.map (· + 1), ?_, ?_, List.forall₂_map_left_iff.mpr shown⟩
  · rw [List.pairwise_map]
    exact increasing.imp Nat.succ_lt_succ
  · intro i
    cases i with
    | zero => simp
    | succ i => simp [all]

theorem OnePerPlace.skip
    (later : OnePerPlace (fun i => place (i + 1)) (fun i => due (i + 1)) entries)
    (other : ¬place 0) : OnePerPlace place due entries := by
  obtain ⟨places, increasing, all, shown⟩ := later.exists_shifted
  refine ⟨places, increasing, ?_, shown⟩
  intro i
  rw [all, and_iff_right_iff_imp]
  intro here
  exact Nat.pos_of_ne_zero fun first => other (first ▸ here)

theorem OnePerPlace.cons
    (later : OnePerPlace (fun i => place (i + 1)) (fun i => due (i + 1)) entries)
    (here : place 0) {entry : β} (shown : due 0 entry) :
    OnePerPlace place due (entry :: entries) := by
  obtain ⟨places, increasing, all, rest⟩ := later.exists_shifted
  refine ⟨0 :: places, List.pairwise_cons.mpr ⟨fun i member => ((all i).mp member).1, increasing⟩,
    ?_, .cons shown rest⟩
  intro i
  rw [List.mem_cons, all]
  constructor
  · rintro (rfl | ⟨-, later⟩)
    · exact here
    · exact later
  · intro due
    rcases Nat.eq_zero_or_pos i with first | later
    · exact .inl first
    · exact .inr ⟨later, due⟩

end ApiWorkflow
