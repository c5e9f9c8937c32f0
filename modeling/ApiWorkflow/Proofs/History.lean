import Mathlib.Data.List.Induction

/-! # Since when something stands

A history is a list of events, the latest one last. What an event begins stands as long
as no later event ends it. One more event either begins something, or leaves what stands
as it is, or ends it: with this, what a store holds is compared with its history event by
event.
-/

namespace ApiWorkflow

variable {α : Type} {ends : α → Prop} {history before rest : List α} {first last : α}

/-- What began with the event behind some others has not ended in the rest of a history. -/
structure StandsSince (ends : α → Prop) (history before : List α) (first : α) (rest : List α) :
    Prop where
  split : history = before ++ first :: rest
  lasts : ∀ event ∈ rest, ¬ends event

theorem not_standsSince_nil : ¬StandsSince ends [] before first rest := by
  intro stands
  have empty := stands.split
  simp at empty

theorem standsSince_concat_iff :
    StandsSince ends (history ++ [last]) before first rest ↔
      (before = history ∧ first = last ∧ rest = []) ∨
        ∃ earlier, rest = earlier ++ [last] ∧ StandsSince ends history before first earlier ∧
          ¬ends last := by
  constructor
  · rintro ⟨split, lasts⟩
    induction rest using List.reverseRecOn with
    | nil =>
      obtain ⟨same, here⟩ := List.append_inj' split rfl
      simp only [List.cons.injEq, and_true] at here
      exact .inl ⟨same.symm, here.symm, rfl⟩
    | append_singleton earlier event _ =>
      rw [← List.cons_append, ← List.append_assoc] at split
      obtain ⟨same, here⟩ := List.append_inj' split rfl
      simp only [List.cons.injEq, and_true] at here
      subst here
      refine .inr ⟨earlier, rfl, ⟨same, ?_⟩, ?_⟩
      · exact fun other member => lasts other (List.mem_append_left _ member)
      · exact lasts last (List.mem_append_right _ (List.mem_singleton_self last))
  · rintro (⟨rfl, rfl, rfl⟩ | ⟨earlier, rfl, ⟨rfl, lasts⟩, goesOn⟩)
    · exact ⟨rfl, nofun⟩
    · refine ⟨by simp, ?_⟩
      intro event member
      rcases List.mem_append.mp member with inEarlier | isLast
      · exact lasts event inEarlier
      · rw [List.mem_singleton.mp isLast]
        exact goesOn

/-- What is begun by some events, goes on until others end it and counts some of those in
    between stands since the event that began it, and has counted the events since then. -/
theorem counts_iff_standsSince (holds : List α → Nat → Prop) {begins : List α → α → Prop}
    {counted : α → Bool} (nothing : ∀ n, ¬holds [] n) (history : List α)
    (next : ∀ before event, before ++ [event] <+: history → ∀ n, holds (before ++ [event]) n ↔
      (begins before event ∧ n = 0) ∨
        ∃ m, holds before m ∧ ¬ends event ∧ n = if counted event then m + 1 else m)
    (n : Nat) :
    holds history n ↔ ∃ before first rest, StandsSince ends history before first rest ∧
      begins before first ∧ n = rest.countP counted := by
  induction history using List.reverseRecOn generalizing n with
  | nil =>
    refine iff_of_false (nothing n) ?_
    rintro ⟨before, first, rest, stands, -⟩
    exact not_standsSince_nil stands
  | append_singleton history last ih =>
    have shorter := ih fun before event within =>
      next before event (within.trans (List.prefix_append history [last]))
    simp only [next history last (List.prefix_refl _), shorter, standsSince_concat_iff]
    constructor
    · rintro (⟨begun, rfl⟩ | ⟨m, ⟨before, first, rest, stands, begun, rfl⟩, goesOn, rfl⟩)
      · exact ⟨history, last, [], .inl ⟨rfl, rfl, rfl⟩, begun, rfl⟩
      · refine ⟨before, first, rest ++ [last], .inr ⟨rest, rfl, stands, goesOn⟩, begun, ?_⟩
        rw [List.countP_append, List.countP_singleton]
        split <;> rfl
    · rintro ⟨before, first, rest, ⟨rfl, rfl, rfl⟩ | ⟨earlier, rfl, stands, goesOn⟩, begun, rfl⟩
      · exact .inl ⟨begun, rfl⟩
      · refine .inr ⟨_, ⟨before, first, earlier, stands, begun, rfl⟩, goesOn, ?_⟩
        rw [List.countP_append, List.countP_singleton]
        split <;> rfl

theorem iff_standsSince {holds : List α → Prop} {begins : List α → α → Prop}
    (nothing : ¬holds [])
    (next : ∀ history event, holds (history ++ [event]) ↔
      begins history event ∨ holds history ∧ ¬ends event)
    (history : List α) :
    holds history ↔ ∃ before first rest, StandsSince ends history before first rest ∧
      begins before first := by
  have uncounted : ∀ n, holds history ∧ n = 0 ↔
      ∃ before first rest, StandsSince ends history before first rest ∧
        begins before first ∧ n = rest.countP fun _ => false := by
    apply counts_iff_standsSince fun history n => holds history ∧ n = 0
    · simp [nothing]
    · intro before event _ n
      simp only [next]
      grind
  simpa using uncounted 0

theorem StandsSince.take {middle later : List α}
    (stands : StandsSince ends history before first (middle ++ later)) :
    StandsSince ends (before ++ first :: middle) before first middle :=
  ⟨rfl, fun event member => stands.lasts event (List.mem_append_left _ member)⟩

end ApiWorkflow
