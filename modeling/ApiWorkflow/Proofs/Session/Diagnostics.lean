import ApiWorkflow.Proofs.Check.Pass
import ApiWorkflow.Proofs.Document.Positions
import ApiWorkflow.Proofs.Document.Text
import ApiWorkflow.Session
import Mathlib.Data.List.Forall2

/-! # What an editor is shown

A text that cannot be read has one diagnostic, on its first line; any other text has one
for each finding. No diagnostic leaves the text: its line is the first one or one that
declares a workflow or a step.
-/

namespace ApiWorkflow

open Text

namespace Check

/-- A line that a document itself gives. -/
def HasLine (d : Document) (line : Nat) : Prop :=
  line = 0 ∨ ∃ w ∈ d.workflows, line = w.line ∨ ∃ s ∈ w.steps, line = s.line

theorem line_of_mem_atTop {problems : List Problem} {issue : Issue}
    (member : issue ∈ atTop problems) : issue.line = 0 := by
  obtain ⟨_, -, rfl⟩ := List.mem_map.mp member
  rfl

theorem line_of_mem_step {known : List String} {index : OperationIndex} {w : Workflow}
    {before : List Step} {s : Step} {issue : Issue}
    (member : issue ∈ step known index w before s) : issue.line = s.line := by
  rw [step_eq] at member
  obtain ⟨_, -, rfl⟩ := List.mem_map.mp member
  rfl

theorem line_of_mem_workflow {known : List String} {index : OperationIndex}
    {before : List Workflow} {w : Workflow} {issue : Issue}
    (member : issue ∈ workflow known index before w) :
    issue.line = w.line ∨ ∃ s ∈ w.steps, issue.line = s.line := by
  rw [workflow, steps_eq_eachAfter, List.mem_append] at member
  rcases member with own | inner
  · obtain ⟨_, -, rfl⟩ := List.mem_map.mp own
    exact .inl rfl
  · obtain ⟨_, s, isStep, found⟩ := mem_eachAfter inner
    exact .inr ⟨s, isStep, line_of_mem_step found⟩

/-- Every check reports at the line of what it checks. -/
theorem hasLine_of_mem_document {index : OperationIndex} {d : Document} {issue : Issue}
    (member : issue ∈ document index d) : HasLine d issue.line := by
  simp only [document, List.mem_append] at member
  obtain (top | top) | below := member
  · exact .inl (line_of_mem_atTop top)
  · exact .inl (line_of_mem_atTop top)
  · rw [workflows, workflowsAfter_eq_eachAfter] at below
    obtain ⟨_, w, isWorkflow, found⟩ := mem_eachAfter below
    exact .inr ⟨w, isWorkflow, line_of_mem_workflow found⟩

end Check

namespace Document

theorem lineOf_cases (positions : Fields Nat) (name : String) :
    lineOf positions name = 0 ∨ positions.get? name = some (lineOf positions name) := by
  unfold lineOf
  cases positions.get? name with
  | none => exact .inl rfl
  | some line => exact .inr rfl

theorem hasLine_withLines {positions : Fields Nat} {d : Document} {line : Nat}
    (given : Check.HasLine (d.withLines positions) line) :
    line = 0 ∨ ∃ name, line = lineOf positions name := by
  rcases given with first | ⟨w, isWorkflow, given⟩
  · exact .inl first
  · right
    obtain ⟨w, -, rfl⟩ := List.mem_map.mp isWorkflow
    rcases given with own | ⟨s, isStep, own⟩
    · exact ⟨_, own⟩
    · obtain ⟨s, -, rfl⟩ := List.mem_map.mp isStep
      exact ⟨_, own⟩

theorem declares_of_hasLine {text : String} {d : Document} (read : parse text = .ok d) {line : Nat}
    (given : Check.HasLine d line) : line = 0 ∨ Positions.Declares text.toList line := by
  obtain ⟨-, plain, -, rfl⟩ := parse_eq_ok_iff.mp read
  obtain first | ⟨name, looked_up⟩ := hasLine_withLines given
  · exact .inl first
  · rw [looked_up]
    exact (lineOf_cases _ name).imp_right Positions.declares_of_get?

end Document

theorem clamp_le (n : Nat) : clamp n ≤ n :=
  Nat.min_le_left n greatestNumber

theorem clamp_of_lt {n : Nat} (small : n < wordBound 32) : clamp n = n :=
  Nat.min_eq_left (Nat.le_sub_one_of_lt small)

namespace Session

theorem diagnostics_of_ok {s : Session} {text : String} {document : Document}
    (read : Document.parse text = .ok document) :
    s.diagnostics text =
      (Check.findings s.catalog.index document).map (Diagnostic.ofFinding s.settings.diagnostics) := by
  rw [diagnostics, read]

theorem diagnostics_of_error {s : Session} {text : String} {e : Error}
    (fails : Document.parse text = .error e) :
    s.diagnostics text = [Diagnostic.ofError s.settings.diagnostics e] := by
  rw [diagnostics, fails]

/-- Every diagnostic marks a part of one line, which comes from a number that is zero or
    declared. -/
theorem range_of_mem_diagnostics {s : Session} {text : String} {d : Diagnostic}
    (shown : d ∈ s.diagnostics text) :
    ∃ line column, d.range = Range.ofLine line column s.settings.diagnostics.endColumn ∧
      (line = 0 ∨ Positions.Declares text.toList line) := by
  cases read : Document.parse text with
  | error e =>
    rw [diagnostics_of_error read, List.mem_singleton] at shown
    exact ⟨0, 0, by rw [shown]; rfl, .inl rfl⟩
  | ok document =>
    rw [diagnostics_of_ok read] at shown
    obtain ⟨finding, found, rfl⟩ := List.mem_map.mp shown
    obtain ⟨issue, member, rfl⟩ := List.mem_map.mp found
    have given := Check.hasLine_of_mem_document member
    exact ⟨issue.line, 0, rfl, Document.declares_of_hasLine read given⟩

/-- Diagnostics are the findings one by one, or the one error of a text that cannot be
    read, and none of them leaves the text. -/
theorem diagnostics_inside_text (s : Session) (text : String) :
    (∀ e, Document.parse text = .error e →
      ∃ d, s.diagnostics text = [d] ∧ d.severity = .error ∧ d.range.start.line = 0 ∧
        d.message = e.message) ∧
    (∀ document, Document.parse text = .ok document →
      List.Forall₂ (fun d f => d.message = f.message ∧ d.severity = f.severity)
        (s.diagnostics text) (Check.findings s.catalog.index document)) ∧
    ∀ d ∈ s.diagnostics text,
      d.range.start.line = d.range.stop.line ∧
      d.range.start.character ≤ d.range.stop.character ∧
      (d.range.start.line = 0 ∨ d.range.start.line < (lines text.toList).length) ∧
      ((lines text.toList).length ≤ wordBound 32 →
        d.range.start.line = 0 ∨ Positions.Declares text.toList d.range.start.line) := by
  refine ⟨?_, ?_, ?_⟩
  · intro e fails
    exact ⟨_, diagnostics_of_error fails, rfl, rfl, rfl⟩
  · intro document read
    rw [diagnostics_of_ok read, List.forall₂_map_left_iff, List.forall₂_same]
    exact fun f _ => ⟨rfl, rfl⟩
  · intro d shown
    obtain ⟨line, column, same, first | declares⟩ := range_of_mem_diagnostics shown
    all_goals rw [same]; refine ⟨rfl, Nat.le_max_right .., ?_, ?_⟩
    · exact .inl (by rw [first]; rfl)
    · exact fun _ => .inl (by rw [first]; rfl)
    · exact .inr (Nat.lt_of_le_of_lt (clamp_le line) declares.lt_length)
    · intro short
      have small : line < wordBound 32 := Nat.lt_of_lt_of_le declares.lt_length short
      exact .inr (by rw [Range.ofLine, clamp_of_lt small]; exact declares)

/-- A step without a target is marked on its own line, what is missing at the top on the
    first line; of an empty text that is all there is to say. -/
theorem diagnostics_inside_flow :
    let s := Session.new {}
    let text := "workflows:\n  - workflowId: w\n    steps:\n      - stepId: s\n"
    (s.diagnostics text).map (·.range.start.line) = [0, 0, 0, 0, 3] ∧
    (∃ document, Document.parse text = .ok document ∧
      List.Forall₂ (fun d f => d.message = f.message ∧ d.severity = f.severity)
        (s.diagnostics text) (Check.findings s.catalog.index document)) ∧
    (∀ d ∈ s.diagnostics text,
      d.range.start.line = 0 ∨ Positions.Declares text.toList d.range.start.line) ∧
    ∃ d, s.diagnostics "" = [d] ∧ d.severity = .error ∧ d.range.start.line = 0 ∧
      d.message = Error.emptyDocument.message := by
  intro s text
  obtain ⟨-, found, inside⟩ := diagnostics_inside_text s text
  refine ⟨by decide +kernel, ?_, ?_, (diagnostics_inside_text s "").1 _ rfl⟩
  · have isRead : (Document.parse text).isOk = true := by decide +kernel
    cases read : Document.parse text with
    | ok document => exact ⟨document, rfl, found document read⟩
    | error e => rw [read] at isRead; cases isRead
  · intro d shown
    exact (inside d shown).2.2.2 (by decide +kernel)

end Session

end ApiWorkflow
