import ApiWorkflow.Document.Text
import Mathlib.Data.List.TakeWhile

/-! # When a document can be read -/

namespace ApiWorkflow

theorem Source.decode_eq_ok_iff {α : Type} {source : Source} {decoder : Source.Decoder α} {a : α} :
    source.decode decoder = .ok a ↔ source.intact = true ∧
      ∃ left, ((decoder source.depth source.root).run source).run source.aliasLimit = .ok (a, left) := by
  rw [Source.decode]
  cases ran : ((decoder source.depth source.root).run source).run source.aliasLimit with
  | error fault => simp [bind, Except.bind]
  | ok done =>
    obtain ⟨value, left⟩ := done
    cases intact : source.intact <;>
      simp [bind, Except.bind, pure, Except.pure, throw, throwThe, MonadExceptOf.throw]

theorem Format.ofText_brace (cs : List Char) : Format.ofText ('\x7b' :: cs) = .json := by
  have kept : Text.trimStart ('\x7b' :: cs) = '\x7b' :: cs := by
    rw [Text.trimStart, List.dropWhile_cons_of_neg (by decide)]
  rw [Format.ofText, kept]
  rfl

theorem Text.isBlankText_cons {c : Char} (noBlank : isBlank c = false) (cs : List Char) :
    isBlankText (c :: cs) = false := by
  have kept : trimStart (c :: cs) = c :: cs := by
    rw [trimStart, List.dropWhile_cons_of_neg (by simp [noBlank])]
  have solid : (c :: cs).reverse.dropWhile isBlank ≠ [] := by
    rw [Ne, List.dropWhile_eq_nil_iff]
    intro all
    have blank := all c (by simp)
    rw [noBlank] at blank
    cases blank
  simpa [isBlankText, trim, trimEnd, kept] using solid

namespace Document

theorem withLines_withLines (first second : Fields Nat) (d : Document) :
    (d.withLines first).withLines second = d.withLines second := by
  simp [withLines]

/-- A text is read if it is not blank and its tree is; the lines are those of the text. -/
theorem parse_eq_ok_iff {text : String} {d : Document} :
    parse text = .ok d ↔ Text.isBlankText text.toList = false ∧
      ∃ plain, ((Format.ofText text.toList).source text.toList).decode decoder = .ok plain ∧
        d = plain.withLines (Positions.scan text.toList) := by
  simp only [parse, ofChars]
  cases Text.isBlankText text.toList with
  | true => simp
  | false =>
    cases ((Format.ofText text.toList).source text.toList).decode decoder with
    | error fault => simp
    | ok plain => simp [eq_comm]

end Document

end ApiWorkflow
