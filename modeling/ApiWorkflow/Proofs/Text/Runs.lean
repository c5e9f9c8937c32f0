import ApiWorkflow.Text.Blank
import ApiWorkflow.Text.Search
import Mathlib.Data.List.TakeWhile

/-! # Runs of characters and first occurrences

A run of a class of characters ends where the text stops or goes on with a character of
another class. This says what `takeWhile` and `dropWhile` leave, and so what trimming
does. `splitAtFirst` is read the same way: there is no way to cut the text further left.
-/

namespace ApiWorkflow.Text

variable {α : Type}

/-! ## Runs -/

theorem takeWhile_and_dropWhile_eq_iff {p : α → Bool} {l run rest : List α} :
    l.takeWhile p = run ∧ l.dropWhile p = rest ↔
      l = run ++ rest ∧ (∀ c ∈ run, p c = true) ∧ rest.head?.all (fun c => !p c) = true := by
  constructor
  · rintro ⟨rfl, rfl⟩
    refine ⟨List.takeWhile_append_dropWhile.symm, fun c => List.mem_takeWhile_imp, ?_⟩
    have stops := List.head?_dropWhile_not p l
    cases head : (l.dropWhile p).head? with
    | none => rfl
    | some c => simpa [head] using stops
  · rintro ⟨rfl, inRun, stops⟩
    rw [List.takeWhile_append_of_pos inRun, List.dropWhile_append_of_pos inRun]
    cases rest with
    | nil => simp
    | cons c rest =>
      have stop : p c = false := by simpa using stops
      simp [stop]

theorem takeWhile_eq_iff {p : α → Bool} {l run : List α} :
    l.takeWhile p = run ↔ ∃ rest, l = run ++ rest ∧ (∀ c ∈ run, p c = true) ∧
      rest.head?.all (fun c => !p c) = true := by
  simp only [← takeWhile_and_dropWhile_eq_iff, exists_and_left, exists_eq', and_true]

theorem dropWhile_eq_iff {p : α → Bool} {l rest : List α} :
    l.dropWhile p = rest ↔ ∃ run, l = run ++ rest ∧ (∀ c ∈ run, p c = true) ∧
      rest.head?.all (fun c => !p c) = true := by
  simp only [← takeWhile_and_dropWhile_eq_iff, exists_and_right, exists_eq', true_and]

theorem run_unique {p : α → Bool} {run rest other behind : List α}
    (same : run ++ rest = other ++ behind) (inRun : ∀ c ∈ run, p c = true)
    (stops : rest.head?.all (fun c => !p c) = true) (inOther : ∀ c ∈ other, p c = true)
    (stopsBehind : behind.head?.all (fun c => !p c) = true) : run = other ∧ rest = behind := by
  obtain ⟨taken, dropped⟩ := takeWhile_and_dropWhile_eq_iff.mpr ⟨rfl, inRun, stops⟩
  obtain ⟨takenToo, droppedToo⟩ := takeWhile_and_dropWhile_eq_iff.mpr ⟨same, inOther, stopsBehind⟩
  exact ⟨taken.symm.trans takenToo, dropped.symm.trans droppedToo⟩

theorem stops_append {p : α → Bool} {others rest : List α} (outside : ∀ c ∈ others, p c = false)
    (stops : rest.head?.all (fun c => !p c) = true) :
    (others ++ rest).head?.all (fun c => !p c) = true := by
  cases others with
  | nil => exact stops
  | cons c others => simp [outside c List.mem_cons_self]

theorem stops_of_ne_nil {p : α → Bool} {others rest : List α} (nonempty : others ≠ [])
    (outside : ∀ c ∈ others, p c = false) : (others ++ rest).head?.all (fun c => !p c) = true := by
  obtain ⟨c, others, rfl⟩ := List.exists_cons_of_ne_nil nonempty
  simp [outside c List.mem_cons_self]

/-! ## Trimming -/

theorem trimEnd_eq_iff {cs kept : List Char} :
    trimEnd cs = kept ↔ ∃ after, cs = kept ++ after ∧ (∀ c ∈ after, isBlank c = true) ∧
      kept.getLast?.all (fun c => !isBlank c) = true := by
  rw [trimEnd, List.reverse_eq_iff, dropWhile_eq_iff]
  constructor
  · rintro ⟨run, turned, blank, stops⟩
    refine ⟨run.reverse, ?_, by simpa using blank, by simpa using stops⟩
    rw [← List.reverse_inj, turned, List.reverse_append, List.reverse_reverse]
  · rintro ⟨after, rfl, blank, ends⟩
    exact ⟨after.reverse, List.reverse_append, by simpa using blank, by simpa using ends⟩

/-- Trimming leaves the text between the blanks on both sides. -/
theorem trim_eq_iff {cs kept : List Char} :
    trim cs = kept ↔ ∃ before after, cs = before ++ (kept ++ after) ∧
      (∀ c ∈ before, isBlank c = true) ∧ (∀ c ∈ after, isBlank c = true) ∧
      kept.head?.all (fun c => !isBlank c) = true ∧
      kept.getLast?.all (fun c => !isBlank c) = true := by
  rw [trim, trimEnd_eq_iff]
  constructor
  · rintro ⟨after, start, blankAfter, ends⟩
    obtain ⟨before, cut, blankBefore, stops⟩ := dropWhile_eq_iff.mp start
    refine ⟨before, after, cut, blankBefore, blankAfter, ?_, ends⟩
    cases kept with
    | nil => rfl
    | cons c kept => exact stops
  · rintro ⟨before, after, rfl, blankBefore, blankAfter, starts, ends⟩
    cases kept with
    | nil =>
      have all : ∀ c ∈ before ++ after, isBlank c = true :=
        List.forall_mem_append.mpr ⟨blankBefore, blankAfter⟩
      refine ⟨[], dropWhile_eq_iff.mpr ⟨before ++ after, ?_, all, rfl⟩, List.forall_mem_nil _, ends⟩
      rw [List.nil_append, List.append_nil, List.append_nil]
    | cons c kept =>
      exact ⟨after, dropWhile_eq_iff.mpr ⟨before, rfl, blankBefore, starts⟩, blankAfter, ends⟩

theorem trim_trim (cs : List Char) : trim (trim cs) = trim cs := by
  obtain ⟨-, -, -, -, -, starts, ends⟩ := trim_eq_iff.mp (rfl : trim cs = trim cs)
  exact trim_eq_iff.mpr ⟨[], [], (List.append_nil _).symm, List.forall_mem_nil _,
    List.forall_mem_nil _, starts, ends⟩

theorem isInfix_trim (cs : List Char) : trim cs <:+: cs := by
  obtain ⟨before, after, cut, -⟩ := trim_eq_iff.mp (rfl : trim cs = trim cs)
  exact ⟨before, after, by rw [List.append_assoc, ← cut]⟩

theorem trim_of_forall {cs : List Char} (solid : ∀ c ∈ cs, isBlank c = false) : trim cs = cs := by
  have member : ∀ c ∈ cs, (!isBlank c) = true := by simpa using solid
  refine trim_eq_iff.mpr ⟨[], [], (List.append_nil cs).symm, List.forall_mem_nil _,
    List.forall_mem_nil _, (Option.all_eq_true _ _).mpr ?_, (Option.all_eq_true _ _).mpr ?_⟩
  · exact fun c first => member c (List.mem_of_head? first)
  · exact fun c last => member c (List.mem_of_getLast? last)

theorem trimmed_trimmed (s : String) : trimmed (trimmed s) = trimmed s := by
  rw [trimmed, trimmed, String.toList_ofList, trim_trim]

theorem isBlankString_trimmed (s : String) : isBlankString (trimmed s) = isBlankString s := by
  rw [isBlankString, isBlankText, trimmed, String.toList_ofList, trim_trim, isBlankString,
    isBlankText]

/-! ## First occurrences -/

theorem splitAtFirst_eq_some_iff [DecidableEq α] {piece cs before rest : List α} :
    splitAtFirst piece cs = some (before, rest) ↔ cs = before ++ (piece ++ rest) ∧
      ∀ earlier later, cs = earlier ++ (piece ++ later) → before.length ≤ earlier.length := by
  induction cs generalizing before with
  | nil =>
    rw [splitAtFirst, Option.map_eq_some_iff]
    constructor
    · rintro ⟨behind, stripped, same⟩
      cases same
      have front := stripPiece_eq_some_iff.mp stripped
      exact ⟨front, fun _ _ _ => Nat.zero_le _⟩
    · rintro ⟨cut, -⟩
      obtain ⟨rfl, whole⟩ := List.append_eq_nil_iff.mp cut.symm
      exact ⟨rest, stripPiece_eq_some_iff.mpr whole.symm, rfl⟩
  | cons c cs ih =>
    rw [splitAtFirst]
    cases stripped : stripPiece piece (c :: cs) with
    | some behind =>
      have front := stripPiece_eq_some_iff.mp stripped
      constructor
      · intro same
        cases same
        exact ⟨front, fun _ _ _ => Nat.zero_le _⟩
      · rintro ⟨cut, first⟩
        have empty : before = [] := List.length_eq_zero_iff.mp (Nat.le_zero.mp (first [] behind front))
        subst empty
        rw [List.append_cancel_left (front.symm.trans cut)]
    | none =>
      -- The piece is not at the front, so every cut is one of the rest of the text.
      have further : ∀ {earlier later}, c :: cs = earlier ++ (piece ++ later) →
          ∃ inner, earlier = c :: inner ∧ cs = inner ++ (piece ++ later) := by
        intro earlier later cut
        cases earlier with
        | nil =>
          have front : c :: cs = piece ++ later := cut
          rw [stripPiece_eq_some_iff.mpr front] at stripped
          cases stripped
        | cons d inner =>
          obtain ⟨rfl, tail⟩ := List.cons.inj cut
          exact ⟨inner, rfl, tail⟩
      simp only [Option.map_eq_some_iff, Prod.exists, Prod.mk.injEq]
      constructor
      · rintro ⟨inner, behind, found, rfl, rfl⟩
        obtain ⟨cut, first⟩ := ih.mp found
        refine ⟨by rw [cut, List.cons_append], ?_⟩
        intro earlier later there
        obtain ⟨outer, rfl, tail⟩ := further there
        exact Nat.succ_le_succ (first outer later tail)
      · rintro ⟨cut, first⟩
        obtain ⟨inner, rfl, tail⟩ := further cut
        refine ⟨inner, rest, ih.mpr ⟨tail, ?_⟩, rfl, rfl⟩
        intro earlier later there
        have longer := first (c :: earlier) later (by rw [there, List.cons_append])
        exact Nat.le_of_succ_le_succ longer

/-! ## Occurrences -/

theorem prefix_append_cons_iff {mark : α} {piece left right : List α} (absent : mark ∉ piece) :
    piece <+: left ++ mark :: right ↔ piece <+: left := by
  constructor
  · intro front
    rcases List.prefix_or_prefix_of_prefix front (List.prefix_append left _) with
      inside | ⟨shared, rfl⟩
    · exact inside
    · rw [List.prefix_append_right_inj, List.prefix_cons_iff] at front
      rcases front with rfl | ⟨rest, rfl, -⟩
      · exact ⟨[], by simp⟩
      · exact absurd (List.mem_append_right left List.mem_cons_self) absent
  · intro inside
    exact inside.trans (List.prefix_append left _)

/-- No occurrence of a piece goes over a mark that the piece does not have. -/
theorem infix_append_cons_iff {mark : α} {piece left right : List α} (absent : mark ∉ piece) :
    piece <:+: left ++ mark :: right ↔ piece <:+: left ∨ piece <:+: right := by
  induction left with
  | nil =>
    have front : piece <+: [] ++ mark :: right ↔ piece <:+: [] := by
      rw [prefix_append_cons_iff absent, List.infix_nil, List.prefix_nil]
    rw [← front, List.nil_append, List.infix_cons_iff]
  | cons c left ih =>
    rw [List.cons_append, List.infix_cons_iff, ih, List.infix_cons_iff, or_assoc,
      ← List.cons_append, prefix_append_cons_iff absent]

theorem infix_dropWhile_iff {p : α → Bool} {piece cs : List α} (nonempty : piece ≠ [])
    (outside : ∀ c ∈ piece, p c = false) : piece <:+: cs.dropWhile p ↔ piece <:+: cs := by
  induction cs with
  | nil => rfl
  | cons c cs ih =>
    cases inRun : p c with
    | false => rw [List.dropWhile_cons_of_neg (by simp [inRun])]
    | true =>
      have absent : c ∉ piece := by
        intro member
        rw [outside c member] at inRun
        cases inRun
      have behind : piece <:+: [] ++ c :: cs ↔ piece <:+: cs := by
        rw [infix_append_cons_iff absent, List.infix_nil, or_iff_right nonempty]
      rw [List.dropWhile_cons_of_pos inRun, ih]
      exact behind.symm

theorem infix_trim_iff {piece cs : List Char} (nonempty : piece ≠ [])
    (solid : ∀ c ∈ piece, isBlank c = false) : piece <:+: trim cs ↔ piece <:+: cs := by
  have solidToo : ∀ c ∈ piece.reverse, isBlank c = false := by simpa using solid
  rw [trim, trimEnd, ← List.reverse_infix, List.reverse_reverse,
    infix_dropWhile_iff (by simpa using nonempty) solidToo, List.reverse_infix, trimStart,
    infix_dropWhile_iff nonempty solid]

theorem infix_map_iff {f : α → α} {piece cs : List α}
    (fixed : ∀ c, c ∈ piece ∨ f c ∈ piece → f c = c) : piece <:+: cs.map f ↔ piece <:+: cs := by
  constructor
  · rintro ⟨front, behind, same⟩
    obtain ⟨upTo, after, rfl, whole, -⟩ := List.map_eq_append_iff.mp same.symm
    obtain ⟨before, inner, rfl, -, spelled⟩ := List.map_eq_append_iff.mp whole
    have kept : inner.map f = inner := by
      refine (List.map_congr_left ?_).trans (List.map_id inner)
      intro c member
      refine fixed c (.inr ?_)
      rw [← spelled]
      exact List.mem_map_of_mem member
    rw [← spelled, kept]
    exact List.infix_append before inner after
  · intro stands
    have kept : piece.map f = piece :=
      (List.map_congr_left fun c member => fixed c (.inl member)).trans (List.map_id piece)
    rw [← kept]
    exact stands.map f

/-- A piece that ends with no shorter beginning of its own occurs first where the text in
    front of it has no occurrence. -/
theorem length_le_of_absent {piece before rest : List α}
    (unbordered : ∀ shared, shared <:+ piece → shared <+: piece → shared = [] ∨ shared = piece)
    (absent : ¬piece <:+: before) {earlier later : List α}
    (there : before ++ (piece ++ rest) = earlier ++ (piece ++ later)) :
    before.length ≤ earlier.length := by
  rcases List.append_eq_append_iff.mp there with ⟨gap, rfl, -⟩ | ⟨gap, rfl, overlaps⟩
  · rw [List.length_append]
    exact Nat.le_add_right _ _
  rcases List.append_eq_append_iff.mp overlaps.symm with
    ⟨shared, same, continues⟩ | ⟨further, rfl, -⟩
  · -- The earlier occurrence ends in this one, with a beginning of the piece.
    have shorter : shared.length ≤ piece.length := by
      rw [same, List.length_append]
      exact Nat.le_add_left _ _
    have begins : shared <+: piece :=
      List.prefix_of_prefix_length_le ⟨later, continues.symm⟩ (List.prefix_append piece rest)
        shorter
    have ends : shared <:+ piece := ⟨gap, same.symm⟩
    rcases unbordered shared ends begins with rfl | rfl
    · rw [List.append_nil] at same
      rw [same] at absent
      exact absurd (List.suffix_append earlier gap).isInfix absent
    · rw [List.self_eq_append_left] at same
      rw [same, List.append_nil]
  · exact absurd ⟨earlier, further, List.append_assoc _ _ _⟩ absent

end ApiWorkflow.Text
