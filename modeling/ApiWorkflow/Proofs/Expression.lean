import ApiWorkflow.Expression
import ApiWorkflow.Proofs.Text.Runs

/-! # Where expressions stand in a text

The scan of a text finds one expression for each dollar sign with a keyword behind it.
What an expression refers to first is the longest run of name characters behind the
keyword and a dot, so whether a text mentions a name can be said without the scan.
-/

namespace ApiWorkflow

theorem ExpressionRoot.mem_all (root : ExpressionRoot) : root ∈ all := by
  cases root <;> decide

theorem ExpressionRoot.eq_of_prefix {r s : ExpressionRoot} (starts : r.keyword <+: s.keyword) :
    r = s := by
  have apart : ∀ r ∈ all, ∀ s ∈ all, r.keyword <+: s.keyword → r = s := by decide
  exact apart r r.mem_all s s.mem_all starts

namespace Expression

/-! ## Expressions of a text -/

theorem mem_scan_iff {e : Expression} {text : List Char} :
    e ∈ scan text ↔
      ∃ before after, text = before ++ '$' :: after ∧ behindDollar after = some e := by
  induction text with
  | nil => simp [scan]
  | cons c cs ih =>
    have cut : (∃ before after, c :: cs = before ++ '$' :: after ∧ behindDollar after = some e) ↔
        c = '$' ∧ behindDollar cs = some e ∨
          ∃ before after, cs = before ++ '$' :: after ∧ behindDollar after = some e := by
      constructor
      · rintro ⟨before, after, same, found⟩
        cases before with
        | nil => cases same; exact .inl ⟨rfl, found⟩
        | cons b before => cases same; exact .inr ⟨before, after, rfl, found⟩
      · rintro (⟨rfl, found⟩ | ⟨before, after, rfl, found⟩)
        · exact ⟨[], cs, rfl, found⟩
        · exact ⟨c :: before, after, rfl, found⟩
    rw [cut, ← ih, scan]
    split
    · rename_i dollar
      simp [dollar]
    · rename_i other
      simp [other]

/-- An expression can be read from the front of a text, behind its dollar sign. -/
def Starts (e : Expression) (text : List Char) : Prop :=
  ∃ rest, text = e.root.keyword ++ rest ∧ e.reference = referenceOf rest

theorem Starts.unique {e f : Expression} {text : List Char} (left : e.Starts text)
    (right : f.Starts text) : e = f := by
  obtain ⟨rest, rfl, reference⟩ := left
  obtain ⟨other, same, otherReference⟩ := right
  -- Both keywords stand at the front, so one is the beginning of the other.
  have roots : e.root = f.root := by
    rcases List.prefix_or_prefix_of_prefix ⟨rest, rfl⟩ ⟨other, same.symm⟩ with shorter | longer
    · exact ExpressionRoot.eq_of_prefix shorter
    · exact (ExpressionRoot.eq_of_prefix longer).symm
  have rests : rest = other := by
    rw [roots] at same
    exact List.append_cancel_left same
  cases e
  cases f
  simp_all

theorem stripPiece_keyword_iff {root : ExpressionRoot} {e : Expression} {text : List Char} :
    (Text.stripPiece root.keyword text).map (fun rest => Expression.mk root (referenceOf rest)) =
      some e ↔ root = e.root ∧ e.Starts text := by
  rw [Option.map_eq_some_iff]
  constructor
  · rintro ⟨rest, stripped, rfl⟩
    exact ⟨rfl, rest, Text.stripPiece_eq_some_iff.mp stripped, rfl⟩
  · rintro ⟨rfl, rest, starts, reference⟩
    exact ⟨rest, Text.stripPiece_eq_some_iff.mpr starts, by rw [← reference]⟩

theorem behindDollar_eq_some_iff {e : Expression} {text : List Char} :
    behindDollar text = some e ↔ e.Starts text := by
  have sound : ∀ {f : Expression}, behindDollar text = some f → f.Starts text := by
    intro f found
    obtain ⟨root, -, gives⟩ := List.exists_of_findSome?_eq_some found
    exact (stripPiece_keyword_iff.mp gives).2
  constructor
  · exact sound
  · intro starts
    cases found : behindDollar text with
    | none =>
      have missing := List.findSome?_eq_none_iff.mp found e.root e.root.mem_all
      rw [stripPiece_keyword_iff.mpr ⟨rfl, starts⟩] at missing
      cases missing
    | some other => rw [(sound found).unique starts]

/-! ## Names in a text -/

/-- A character of the name that a reference starts with. -/
def isNameChar (c : Char) : Bool :=
  isReferenceChar c && c != '.'

/-- A text mentions a name behind a keyword: a dollar sign, the keyword, a dot, and then
    the name as the longest run of its characters. -/
def Mentions (root : ExpressionRoot) (text name : List Char) : Prop :=
  name ≠ [] ∧ (∀ c ∈ name, isNameChar c = true) ∧
    ∃ before after, text = before ++ '$' :: (root.keyword ++ '.' :: (name ++ after)) ∧
      after.head?.all (fun c => !isNameChar c) = true

theorem dropDots_eq_iff {run reference : List Char} :
    dropDots run = reference ↔ ∃ dots, run = reference ++ dots ∧ (∀ c ∈ dots, c = '.') ∧
      reference.getLast? ≠ some '.' := by
  have last : (∀ c, reference.getLast? = some c → (c == '.') = false) ↔
      reference.getLast? ≠ some '.' := by
    simp only [beq_eq_false_iff_ne]
    exact ⟨fun all here => all _ here rfl, fun other c here same => other (same ▸ here)⟩
  rw [dropDots, List.reverse_eq_iff, Text.dropWhile_eq_iff]
  simp only [List.head?_reverse, Option.all_eq_true, Bool.not_eq_true', last, beq_iff_eq]
  constructor
  · rintro ⟨dots, same, allDots, ends⟩
    refine ⟨dots.reverse, ?_, fun c member => allDots c (List.mem_reverse.mp member), ends⟩
    rw [← List.reverse_inj, same, List.reverse_append, List.reverse_reverse]
  · rintro ⟨dots, rfl, allDots, ends⟩
    exact ⟨dots.reverse, List.reverse_append, fun c member => allDots c (List.mem_reverse.mp member),
      ends⟩

theorem takeWhile_dropDots (run : List Char) :
    (dropDots run).takeWhile (· != '.') = run.takeWhile (· != '.') := by
  obtain ⟨dots, parts, allDots, -⟩ := dropDots_eq_iff.mp (rfl : dropDots run = dropDots run)
  have stops : dots.takeWhile (· != '.') = [] := by
    cases dots with
    | nil => rfl
    | cons c dots => simp [allDots c]
  conv => rhs; rw [parts]
  rw [List.takeWhile_append, stops]
  split
  · rename_i whole
    rw [List.append_nil]
    exact (List.takeWhile_prefix _).eq_of_length whole
  · rfl

theorem takeWhile_referenceOf (rest : List Char) :
    (referenceOf ('.' :: rest)).takeWhile (· != '.') = rest.takeWhile isNameChar := by
  rw [referenceOf, takeWhile_dropDots, List.takeWhile_takeWhile]
  congr 1
  funext c
  rw [Bool.eq_iff_iff, decide_eq_true_eq, isNameChar, Bool.and_eq_true, and_comm]

theorem target?_eq_some_iff {e : Expression} {name : List Char} :
    e.target? = some name ↔ name ≠ [] ∧ e.reference.takeWhile (· != '.') = name := by
  unfold target?
  split <;> grind

/-- The first parts of the references behind a keyword are the names that are mentioned
    behind it. -/
theorem mentions_iff {root : ExpressionRoot} {text name : List Char} :
    Mentions root text name ↔ ∃ e ∈ scan text, e.root = root ∧ e.target? = some name := by
  constructor
  · rintro ⟨nonempty, inName, before, after, rfl, stops⟩
    refine ⟨⟨root, referenceOf ('.' :: (name ++ after))⟩, ?_, rfl, ?_⟩
    · exact mem_scan_iff.mpr ⟨before, _, rfl, behindDollar_eq_some_iff.mpr ⟨_, rfl, rfl⟩⟩
    · rw [target?_eq_some_iff, takeWhile_referenceOf]
      exact ⟨nonempty, Text.takeWhile_eq_iff.mpr ⟨after, rfl, inName, stops⟩⟩
  · rintro ⟨e, member, rfl, target⟩
    obtain ⟨before, behind, rfl, found⟩ := mem_scan_iff.mp member
    obtain ⟨rest, rfl, reference⟩ := behindDollar_eq_some_iff.mp found
    obtain ⟨nonempty, first⟩ := target?_eq_some_iff.mp target
    -- Without a dot behind the keyword there is no reference.
    obtain ⟨rest, rfl⟩ : ∃ inner, rest = '.' :: inner := by
      unfold referenceOf at reference
      split at reference
      · exact ⟨_, rfl⟩
      · rw [reference] at first
        exact absurd first.symm nonempty
    rw [reference, takeWhile_referenceOf] at first
    obtain ⟨after, rfl, inName, stops⟩ := Text.takeWhile_eq_iff.mp first
    exact ⟨nonempty, inName, before, after, rfl, stops⟩

end Expression

end ApiWorkflow
