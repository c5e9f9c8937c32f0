import ApiWorkflow.Proofs.Expression
import ApiWorkflow.Proofs.Places

/-! # Every expression of a text

Matches of the pattern of expressions may be sought one behind the other: each at the
first place where one can be read, the next one in the text behind it. Such a sweep skips
over the characters of a match. As none of them is a dollar sign, it still finds one
expression for each dollar sign with a keyword behind it, which is what the scan lists.
-/

namespace ApiWorkflow.Expression

/-! ## The expression at a place -/

/-- The reference right behind a keyword: the longest run of reference characters behind a
    dot, without the dots at its end. There is none where no dot follows. -/
inductive Refers : List Char → List Char → Prop where
  | nothing {rest : List Char} (noDot : rest.head? ≠ some '.') : Refers rest []
  | behindDot {reference dots after : List Char}
      (chars : ∀ c ∈ reference, isReferenceChar c = true) (allDots : ∀ c ∈ dots, c = '.')
      (ends : reference.getLast? ≠ some '.')
      (stops : after.head?.all (fun c => !isReferenceChar c) = true) :
      Refers ('.' :: (reference ++ dots ++ after)) reference

/-- A dollar sign stands at a place, and a keyword right behind it. -/
def OpensAt (text : List Char) (i : Nat) : Prop :=
  ∃ root : ExpressionRoot, '$' :: root.keyword <+: text.drop i

/-- An expression stands at a place. -/
def StandsAt (text : List Char) (i : Nat) (e : Expression) : Prop :=
  ∃ rest, text.drop i = '$' :: (e.root.keyword ++ rest) ∧ Refers rest e.reference

theorem referenceOf_of_noDot {rest : List Char} (noDot : rest.head? ≠ some '.') :
    referenceOf rest = [] := by
  unfold referenceOf
  split
  · exact absurd rfl noDot
  · rfl

theorem refers_iff {rest reference : List Char} :
    Refers rest reference ↔ referenceOf rest = reference := by
  constructor
  · rintro (⟨noDot⟩ | ⟨chars, allDots, ends, stops⟩)
    · exact referenceOf_of_noDot noDot
    · rename_i dots after
      have run : (reference ++ dots ++ after).takeWhile isReferenceChar = reference ++ dots := by
        refine Text.takeWhile_eq_iff.mpr ⟨after, rfl, ?_, stops⟩
        intro c member
        rcases List.mem_append.mp member with inReference | inDots
        · exact chars c inReference
        · rw [allDots c inDots]
          rfl
      rw [referenceOf, run]
      exact dropDots_eq_iff.mpr ⟨dots, rfl, allDots, ends⟩
  · rintro rfl
    by_cases dot : rest.head? = some '.'
    · obtain ⟨inner, rfl⟩ : ∃ inner, rest = '.' :: inner := by
        cases rest with
        | nil => cases dot
        | cons c inner => exact ⟨inner, by rw [Option.some.inj dot]⟩
      obtain ⟨after, whole, chars, stops⟩ :=
        Text.takeWhile_eq_iff.mp (rfl : inner.takeWhile isReferenceChar = _)
      obtain ⟨dots, parts, allDots, ends⟩ :=
        dropDots_eq_iff.mp (rfl : dropDots (inner.takeWhile isReferenceChar) = _)
      rw [parts] at whole chars
      have refers : Refers ('.' :: (dropDots (inner.takeWhile isReferenceChar) ++ dots ++ after)) _ :=
        .behindDot (fun c member => chars c (List.mem_append_left dots member)) allDots ends stops
      rwa [← whole] at refers
    · rw [referenceOf_of_noDot dot]
      exact .nothing dot

theorem standsAt_zero_iff {cs : List Char} {e : Expression} :
    StandsAt ('$' :: cs) 0 e ↔ behindDollar cs = some e := by
  rw [behindDollar_eq_some_iff]
  simp only [StandsAt, Starts, List.drop_zero, List.cons.injEq, true_and, refers_iff, eq_comm]

theorem opensAt_of_standsAt {text : List Char} {i : Nat} {e : Expression}
    (stands : StandsAt text i e) : OpensAt text i := by
  obtain ⟨rest, here, -⟩ := stands
  exact ⟨e.root, rest, by rw [here, List.cons_append]⟩

theorem exists_standsAt {text : List Char} {i : Nat} (opens : OpensAt text i) :
    ∃ e, StandsAt text i e := by
  obtain ⟨root, rest, here⟩ := opens
  exact ⟨⟨root, referenceOf rest⟩, rest, by rw [← here, List.cons_append], refers_iff.mpr rfl⟩

theorem onePerPlace_scan (text : List Char) :
    OnePerPlace (OpensAt text) (StandsAt text) (scan text) := by
  induction text with
  | nil =>
    apply onePerPlace_nil
    rintro i ⟨root, starts⟩
    simp at starts
  | cons c cs ih =>
    have later : OnePerPlace (fun i => OpensAt (c :: cs) (i + 1))
        (fun i => StandsAt (c :: cs) (i + 1)) (scan cs) := ih
    rw [scan]
    split
    · rename_i dollar
      subst dollar
      cases found : behindDollar cs with
      | none =>
        apply later.skip
        intro opens
        obtain ⟨e, stands⟩ := exists_standsAt opens
        rw [standsAt_zero_iff.mp stands] at found
        cases found
      | some e =>
        have stands := standsAt_zero_iff.mpr found
        exact later.cons (opensAt_of_standsAt stands) stands
    · rename_i other
      apply later.skip
      rintro ⟨root, rest, here⟩
      exact other (List.cons.inj here).1.symm

/-! ## Expressions end before the next dollar sign -/

theorem dollar_notMem_keyword (root : ExpressionRoot) : '$' ∉ root.keyword := by
  cases root <;> decide

theorem dollar_notMem_of_chars {run : List Char}
    (chars : ∀ c ∈ run, isReferenceChar c = true) : '$' ∉ run := by
  intro member
  have wrong := chars '$' member
  revert wrong
  decide

theorem referenceOf_append_dollar (rest after : List Char) :
    referenceOf (rest ++ '$' :: after) = referenceOf rest := by
  by_cases dot : rest.head? = some '.'
  · cases rest with
    | nil => cases dot
    | cons c inner =>
      cases dot
      have same : (inner ++ '$' :: after).takeWhile isReferenceChar =
          inner.takeWhile isReferenceChar := by
        obtain ⟨behind, whole, chars, stops⟩ :=
          Text.takeWhile_eq_iff.mp (rfl : inner.takeWhile isReferenceChar = _)
        refine Text.takeWhile_eq_iff.mpr ⟨behind ++ '$' :: after, ?_, chars, ?_⟩
        · rw [← List.append_assoc, ← whole]
        · cases behind with
          | nil => rfl
          | cons d behind => exact stops
      rw [List.cons_append, referenceOf, referenceOf, same]
  · have noDot : (rest ++ '$' :: after).head? ≠ some '.' := by
      cases rest with
      | nil => simp
      | cons c inner => exact dot
    rw [referenceOf_of_noDot dot, referenceOf_of_noDot noDot]

theorem behindDollar_append_dollar (cs after : List Char) :
    behindDollar (cs ++ '$' :: after) = behindDollar cs := by
  ext e
  rw [behindDollar_eq_some_iff, behindDollar_eq_some_iff]
  constructor
  · rintro ⟨rest, whole, reference⟩
    -- The keyword has no dollar sign, so it ends before the one behind the text.
    rcases List.append_eq_append_iff.mp whole with ⟨middle, keyword, behind⟩ | ⟨middle, rfl, rfl⟩
    · cases middle with
      | nil =>
        rw [List.nil_append] at behind
        rw [List.append_nil] at keyword
        refine ⟨[], by rw [List.append_nil, keyword], ?_⟩
        rw [reference, ← behind]
        exact referenceOf_append_dollar [] after
      | cons d middle =>
        obtain ⟨rfl, -⟩ := List.cons.inj behind
        have inKeyword : '$' ∈ e.root.keyword := by simp [keyword]
        exact absurd inKeyword (dollar_notMem_keyword e.root)
    · exact ⟨middle, rfl, by rw [reference, referenceOf_append_dollar]⟩
  · rintro ⟨rest, rfl, reference⟩
    exact ⟨rest ++ '$' :: after, List.append_assoc .., by rw [reference, referenceOf_append_dollar]⟩

theorem scan_append_dollar (before after : List Char) :
    scan (before ++ '$' :: after) = scan before ++ scan ('$' :: after) := by
  induction before with
  | nil => rfl
  | cons c before ih =>
    rw [List.cons_append, scan, scan, behindDollar_append_dollar, ih]
    split
    · rw [List.append_assoc]
    · rfl

theorem scan_append_of_notMem {skipped : List Char} (absent : '$' ∉ skipped) (rest : List Char) :
    scan (skipped ++ rest) = scan rest := by
  induction skipped with
  | nil => rfl
  | cons c skipped ih =>
    rw [List.mem_cons, not_or] at absent
    rw [List.cons_append, scan, if_neg (Ne.symm absent.1), ih absent.2]

/-! ## Matches one behind the other -/

/-- An expression is read from the front of a text as far as it goes, and the text behind
    it is left. A dot belongs to it only if a reference character follows. -/
inductive Reads : List Char → Expression → List Char → Prop where
  | keyword {root : ExpressionRoot} {rest : List Char}
      (alone : ∀ c after, rest = '.' :: c :: after → isReferenceChar c = false) :
      Reads ('$' :: (root.keyword ++ rest)) ⟨root, []⟩ rest
  | reference {root : ExpressionRoot} {run rest : List Char} (nonempty : run ≠ [])
      (chars : ∀ c ∈ run, isReferenceChar c = true)
      (stops : rest.head?.all (fun c => !isReferenceChar c) = true) :
      Reads ('$' :: (root.keyword ++ '.' :: (run ++ rest))) ⟨root, dropDots run⟩ rest

/-- The expressions that are found one behind the other: what is read at a place is left
    behind as a whole, and only where nothing can be read the next character is tried. -/
inductive Sweeps : List Char → List Expression → Prop where
  | done : Sweeps [] []
  | skip {c : Char} {cs : List Char} {found : List Expression}
      (nothing : ∀ e rest, ¬Reads (c :: cs) e rest) (later : Sweeps cs found) :
      Sweeps (c :: cs) found
  | read {text rest : List Char} {e : Expression} {found : List Expression}
      (here : Reads text e rest) (later : Sweeps rest found) : Sweeps text (e :: found)

theorem referenceOf_of_alone {rest : List Char}
    (alone : ∀ c after, rest = '.' :: c :: after → isReferenceChar c = false) :
    referenceOf rest = [] := by
  unfold referenceOf
  split
  · rename_i inner
    cases inner with
    | nil => rfl
    | cons c after =>
      rw [List.takeWhile_cons_of_neg (by simp [alone c after rfl])]
      rfl
  · rfl

theorem exists_reads {cs : List Char} {e : Expression} (found : behindDollar cs = some e) :
    ∃ rest, Reads ('$' :: cs) e rest := by
  obtain ⟨rest, rfl, reference⟩ := behindDollar_eq_some_iff.mp found
  obtain ⟨root, name⟩ := e
  dsimp only at reference
  subst reference
  by_cases alone : ∀ c after, rest = '.' :: c :: after → isReferenceChar c = false
  · rw [referenceOf_of_alone alone]
    exact ⟨rest, .keyword alone⟩
  · simp only [not_forall, Bool.not_eq_false] at alone
    obtain ⟨c, after, rfl, char⟩ := alone
    have nonempty : (c :: after).takeWhile isReferenceChar ≠ [] := by
      rw [List.takeWhile_cons_of_pos char]
      exact List.cons_ne_nil _ _
    obtain ⟨whole, chars, stops⟩ := Text.takeWhile_and_dropWhile_eq_iff.mp
      (⟨rfl, rfl⟩ : (c :: after).takeWhile isReferenceChar = _ ∧
        (c :: after).dropWhile isReferenceChar = _)
    have reads : Reads ('$' :: (root.keyword ++ '.' :: _)) _ _ := .reference nonempty chars stops
    rw [← whole] at reads
    exact ⟨_, reads⟩

/-- The text between a keyword and the next dollar sign holds one expression. -/
theorem scan_keyword (root : ExpressionRoot) {skipped : List Char} (absent : '$' ∉ skipped)
    (rest : List Char) :
    scan ('$' :: (root.keyword ++ (skipped ++ rest))) =
      ⟨root, referenceOf (skipped ++ rest)⟩ :: scan rest := by
  have here : behindDollar (root.keyword ++ (skipped ++ rest)) =
      some ⟨root, referenceOf (skipped ++ rest)⟩ :=
    behindDollar_eq_some_iff.mpr ⟨_, rfl, rfl⟩
  rw [scan, if_pos rfl, here, scan_append_of_notMem (dollar_notMem_keyword root),
    scan_append_of_notMem absent]
  rfl

theorem Reads.scan_eq {text rest : List Char} {e : Expression} (reads : Reads text e rest) :
    scan text = e :: scan rest := by
  cases reads with
  | keyword alone =>
    rename_i root
    have found := scan_keyword root List.not_mem_nil rest
    rwa [List.nil_append, referenceOf_of_alone alone] at found
  | reference nonempty chars stops =>
    rename_i root run
    have skipped : '$' ∉ '.' :: run := by
      rw [List.mem_cons, not_or]
      exact ⟨by decide, dollar_notMem_of_chars chars⟩
    have found := scan_keyword root skipped rest
    rwa [List.cons_append, referenceOf,
      Text.takeWhile_eq_iff.mpr ⟨rest, rfl, chars, stops⟩] at found

theorem Reads.length_lt {text rest : List Char} {e : Expression} (reads : Reads text e rest) :
    rest.length < text.length := by
  cases reads with
  | keyword alone =>
    simp only [List.length_cons, List.length_append]
    omega
  | reference nonempty chars stops =>
    simp only [List.length_cons, List.length_append]
    omega

theorem scan_cons_of_nothing {c : Char} {cs : List Char}
    (nothing : ∀ e rest, ¬Reads (c :: cs) e rest) : scan (c :: cs) = scan cs := by
  rw [scan]
  split
  · rename_i dollar
    subst dollar
    cases found : behindDollar cs with
    | none => rfl
    | some e =>
      obtain ⟨rest, reads⟩ := exists_reads found
      exact absurd reads (nothing e rest)
  · rfl

theorem sweeps_scan (text : List Char) : Sweeps text (scan text) := by
  cases text with
  | nil => exact .done
  | cons c cs =>
    by_cases front : ∃ e rest, Reads (c :: cs) e rest
    · obtain ⟨e, rest, reads⟩ := front
      rw [reads.scan_eq]
      exact .read reads (sweeps_scan rest)
    · have nothing : ∀ e rest, ¬Reads (c :: cs) e rest :=
        fun e rest reads => front ⟨e, rest, reads⟩
      rw [scan_cons_of_nothing nothing]
      exact .skip nothing (sweeps_scan cs)
termination_by text.length
decreasing_by
  · exact reads.length_lt
  · exact Nat.lt_succ_self cs.length

theorem sweeps_iff {text : List Char} {found : List Expression} :
    Sweeps text found ↔ found = scan text := by
  constructor
  · intro sweeps
    induction sweeps with
    | done => rfl
    | skip nothing _ ih => rw [ih, scan_cons_of_nothing nothing]
    | read here _ ih => rw [ih, here.scan_eq]
  · rintro rfl
    exact sweeps_scan text

/-! ## The first part of a reference -/

theorem target?_eq_none_iff {e : Expression} :
    e.target? = none ↔ e.reference = [] ∨ e.reference.head? = some '.' := by
  have empty : e.target? = none ↔ e.reference.takeWhile (· != '.') = [] := by
    unfold target?
    cases e.reference.takeWhile (· != '.') <;> simp
  rw [empty]
  cases e.reference with
  | nil => simp
  | cons c rest => simp [List.takeWhile_cons]

/-- The scan of a text has what is found by seeking one match behind the other. It lists,
    from left to right, one expression for each dollar sign with a keyword right behind it,
    with that keyword and the reference behind it, so a text can be cut before any dollar
    sign. An expression has no target exactly if its reference is empty or starts with a
    dot. -/
theorem scan_finds_every_expression (text : List Char) :
    (∀ found, Sweeps text found ↔ found = scan text) ∧
      OnePerPlace (OpensAt text) (StandsAt text) (scan text) ∧
      (∀ before after, scan (before ++ '$' :: after) = scan before ++ scan ('$' :: after)) ∧
      ∀ e : Expression, e.target? = none ↔ e.reference = [] ∨ e.reference.head? = some '.' :=
  ⟨fun _ => sweeps_iff, onePerPlace_scan text, scan_append_dollar, fun _ => target?_eq_none_iff⟩

/-- Letters behind a keyword, dots at the end, and a dollar sign right behind an expression. -/
example : scan "$stepsX $inputs.a.b..$url. $ steps".toList =
    [⟨.steps, []⟩, ⟨.inputs, "a.b".toList⟩, ⟨.url, []⟩] := by
  decide

end ApiWorkflow.Expression
