import ApiWorkflow.Proofs.Text.Utf8
import ApiWorkflow.Text.Search

/-! # Searching bytes through lenient reading

A byte below 0x80 is a character of its own wherever it stands, and no other bytes make
such a character. So a piece of ASCII text occurs in leniently read bytes exactly where
its own bytes occur, whatever is broken around them.
-/

namespace ApiWorkflow.Text

theorem occursIn_iff {α : Type} [DecidableEq α] {piece cs : List α} :
    occursIn piece cs = true ↔ piece <:+: cs := by
  induction cs with
  | nil => cases piece <;> simp [occursIn, splitAtFirst, stripPiece]
  | cons c cs ih =>
    rw [List.infix_cons_iff, ← ih, occursIn, splitAtFirst]
    cases stripped : stripPiece piece (c :: cs) with
    | some rest => simp [stripPiece_eq_some_iff.mp stripped]
    | none =>
      have noPrefix : ¬piece <+: c :: cs := by
        rintro ⟨rest, same⟩
        cases stripped.symm.trans (stripPiece_eq_some_iff.mpr same.symm)
      simp [noPrefix, occursIn]

namespace Utf8

/-- A character of ASCII other than the null character. -/
def IsSign (c : Char) : Prop :=
  0 < c.toNat ∧ c.toNat < 0x80

instance (c : Char) : Decidable (IsSign c) :=
  inferInstanceAs (Decidable (_ ∧ _))

theorem encode_sign {c : Char} (sign : IsSign c) (piece : List Char) :
    encode (c :: piece) = UInt8.ofNat c.toNat :: encode piece := by
  have single : String.utf8EncodeChar c = [UInt8.ofNat c.toNat] := by
    have small : c.val.toNat ≤ 0x7F := Nat.le_of_lt_succ sign.2
    rw [String.utf8EncodeChar, if_pos small]
    rfl
  rw [encode, List.flatMap_cons, single]
  rfl

theorem ofNat_eq_iff {c : Char} (sign : IsSign c) {b : UInt8} (small : b.toNat < 0x80) :
    c = Char.ofNat b.toNat ↔ UInt8.ofNat c.toNat = b := by
  have value : (Char.ofNat b.toNat).toNat = b.toNat := by
    rw [Char.ofNat, dif_pos (Or.inl (by omega))]
    rfl
  have below := sign.2
  rw [← Char.toNat_inj, value, ← UInt8.toNat_inj, toNat_byte (by omega)]

/-! ## Pieces that show no sign -/

/-- Pieces that stand for other characters. -/
def Foreign (piece : Piece) : Prop :=
  ¬IsSign piece.shown

theorem foreign_invalid (n : Nat) : Foreign (.invalid n) := by
  have large : ¬('\ufffd').toNat < 0x80 := by decide
  exact fun sign => large sign.2

theorem foreign_incomplete : Foreign .incomplete :=
  foreign_invalid 0

theorem foreign_code {n : Nat} (wide : 0x80 ≤ n) : Foreign (.char (Char.ofNat n)) := by
  rintro ⟨positive, small⟩
  simp only [Piece.shown] at positive small
  by_cases valid : n.isValidChar
  · rw [Char.ofNat, dif_pos valid] at small
    have value : (Char.ofNatAux n valid).toNat = n := rfl
    omega
  · -- a number that is no code point is read as the null character
    rw [Char.ofNat, dif_neg valid] at positive
    cases positive

/-- A character begun that takes no byte below 0x80 and ends out of ASCII. -/
structure Begun.Wide (p : Begun) : Prop where
  low : 0x80 ≤ p.low
  more : 2 ≤ p.code * 64 + (p.low - 0x80)
  last : p.owed ≤ 1 → 0x80 ≤ p.code * 64 + (p.low - 0x80)

theorem first_of_high {b : Nat} (high : 0x80 ≤ b) :
    (∃ piece, first b = .inl piece ∧ Foreign piece) ∨ ∃ p, first b = .inr p ∧ p.Wide := by
  rw [first, if_neg (by omega)]
  split
  · exact .inl ⟨_, rfl, foreign_invalid 1⟩
  repeat' split
  all_goals first
    | exact .inl ⟨_, rfl, foreign_invalid 1⟩
    | exact .inr ⟨_, rfl, by constructor <;> simp <;> omega⟩

theorem Begun.Wide.next_of_low {p : Begun} (wide : p.Wide) {b : Nat} (small : b < 0x80) :
    p.next b = none := by
  have := wide.low
  rw [Begun.next, if_neg (by omega)]

theorem Begun.Wide.next_cases {p : Begun} (wide : p.Wide) (b : Nat) :
    p.next b = none ∨ (∃ piece, p.next b = some (.inl piece) ∧ Foreign piece) ∨
      ∃ q, p.next b = some (.inr q) ∧ q.Wide := by
  obtain ⟨low, more, last⟩ := wide
  rw [Begun.next]
  split
  · refine .inr ?_
    dsimp only
    split
    · exact .inl ⟨_, rfl, foreign_code (by omega)⟩
    · exact .inr ⟨_, rfl, by constructor <;> simp <;> omega⟩
  · exact .inl rfl

/-! ## A byte at a time -/

/-- Between two characters, or within one that takes more than a byte. -/
def Between (state : Option Begun) : Prop :=
  ∀ p, state = some p → p.Wide

theorem between_none : Between none := by
  intro p impossible
  cases impossible

theorem Begun.Wide.between {p : Begun} (wide : p.Wide) : Between (some p) := by
  rintro _ ⟨⟩
  exact wide

/-- A byte below 0x80 is a character, behind at most one broken piece. -/
theorem piecesAfter_low {state : Option Begun} (between : Between state) {b : UInt8}
    (small : b.toNat < 0x80) (bytes : List UInt8) :
    ∃ broken, (∀ piece ∈ broken, Foreign piece) ∧
      piecesAfter state (b :: bytes) =
        broken ++ .char (Char.ofNat b.toNat) :: piecesAfter none bytes := by
  cases state with
  | none => exact ⟨[], by simp, by rw [piecesAfter, first_ascii small, List.nil_append]⟩
  | some p =>
    refine ⟨[.invalid p.length], by simp [foreign_invalid], ?_⟩
    rw [piecesAfter, (between p rfl).next_of_low small, first_ascii small]
    rfl

theorem piecesAfter_high {state : Option Begun} (between : Between state) {b : UInt8}
    (high : 0x80 ≤ b.toNat) (bytes : List UInt8) :
    ∃ shown next, (∀ piece ∈ shown, Foreign piece) ∧ Between next ∧
      piecesAfter state (b :: bytes) = shown ++ piecesAfter next bytes := by
  cases state with
  | none =>
    rw [piecesAfter]
    obtain ⟨piece, eq, foreign⟩ | ⟨p, eq, wide⟩ := first_of_high high
    · exact ⟨[piece], none, by simpa using foreign, between_none, by rw [eq]; rfl⟩
    · exact ⟨[], some p, by simp, wide.between, by rw [eq]; rfl⟩
  | some p =>
    rw [piecesAfter]
    obtain eq | ⟨piece, eq, foreign⟩ | ⟨q, eq, wide⟩ := (between p rfl).next_cases b.toNat
    · rw [eq]
      obtain ⟨piece, eq, foreign⟩ | ⟨q, eq, wide⟩ := first_of_high high
      · exact ⟨[.invalid p.length, piece], none, by simpa using ⟨foreign_invalid _, foreign⟩,
          between_none, by rw [eq]; rfl⟩
      · exact ⟨[.invalid p.length], some q, by simpa using foreign_invalid _, wide.between,
          by rw [eq]; rfl⟩
    · exact ⟨[piece], none, by simpa using foreign, between_none, by rw [eq]; rfl⟩
    · exact ⟨[], some q, by simp, wide.between, by rw [eq]; rfl⟩

theorem piecesAfter_begun {p : Begun} (wide : p.Wide) (bytes : List UInt8) :
    ∃ piece rest, piecesAfter (some p) bytes = piece :: rest ∧ Foreign piece := by
  induction bytes generalizing p with
  | nil => exact ⟨_, _, by rw [piecesAfter], foreign_incomplete⟩
  | cons b bytes ih =>
    rw [piecesAfter]
    obtain eq | ⟨piece, eq, foreign⟩ | ⟨q, eq, wide⟩ := wide.next_cases b.toNat
    · exact ⟨_, _, by rw [eq], foreign_invalid _⟩
    · exact ⟨_, _, by rw [eq], foreign⟩
    · rw [eq]
      exact ih wide

/-! ## Where signs occur -/

theorem prefix_shown_iff {piece : List Char} (signs : ∀ c ∈ piece, IsSign c)
    (bytes : List UInt8) :
    piece <+: (piecesAfter none bytes).map Piece.shown ↔ encode piece <+: bytes := by
  induction piece generalizing bytes with
  | nil => simp [encode]
  | cons c piece ih =>
    have sign := signs c List.mem_cons_self
    have below := sign.2
    rw [encode_sign sign]
    cases bytes with
    | nil => simp [piecesAfter]
    | cons b bytes =>
      rw [List.cons_prefix_cons]
      rcases Nat.lt_or_ge b.toNat 0x80 with small | high
      · rw [piecesAfter, first_ascii small, List.map_cons, List.cons_prefix_cons,
          ih (fun c mem => signs c (List.mem_cons_of_mem _ mem))]
        exact and_congr_left' (ofNat_eq_iff sign small)
      · -- what the byte shows first is no sign, and the sign's own byte is below 0x80
        have other : UInt8.ofNat c.toNat ≠ b := by
          rintro rfl
          rw [toNat_byte (by omega)] at high
          omega
        obtain ⟨shown, rest, eq, foreign⟩ : ∃ shown rest,
            piecesAfter none (b :: bytes) = shown :: rest ∧ Foreign shown := by
          rw [piecesAfter]
          obtain ⟨piece, eq, foreign⟩ | ⟨p, eq, wide⟩ := first_of_high high
          · exact ⟨_, _, by rw [eq], foreign⟩
          · rw [eq]
            exact piecesAfter_begun wide bytes
        have differs : c ≠ shown.shown := fun same => foreign (same ▸ sign)
        rw [eq, List.map_cons, List.cons_prefix_cons]
        simp [other, differs]

theorem infix_foreign_append_iff {c : Char} (sign : IsSign c) (piece : List Char)
    {broken : List Piece} (foreign : ∀ piece ∈ broken, Foreign piece) (rest : List Piece) :
    c :: piece <:+: (broken ++ rest).map Piece.shown ↔ c :: piece <:+: rest.map Piece.shown := by
  induction broken with
  | nil => rfl
  | cons shown broken ih =>
    have differs : c ≠ shown.shown := fun same => foreign shown List.mem_cons_self (same ▸ sign)
    rw [List.cons_append, List.map_cons, List.infix_cons_iff, List.cons_prefix_cons,
      ih fun piece mem => foreign piece (List.mem_cons_of_mem _ mem)]
    simp [differs]

theorem infix_shown_iff {c : Char} {piece : List Char} (signs : ∀ x ∈ c :: piece, IsSign x)
    {state : Option Begun} (between : Between state) (bytes : List UInt8) :
    c :: piece <:+: (piecesAfter state bytes).map Piece.shown ↔
      encode (c :: piece) <:+: bytes := by
  have sign := signs c List.mem_cons_self
  induction bytes generalizing state with
  | nil =>
    obtain ⟨broken, foreign, eq⟩ : ∃ broken, (∀ piece ∈ broken, Foreign piece) ∧
        piecesAfter state [] = broken ++ [] := by
      cases state with
      | none => exact ⟨[], by simp, by rw [piecesAfter]; rfl⟩
      | some p => exact ⟨[.incomplete], by simp [foreign_incomplete], by rw [piecesAfter]; rfl⟩
    rw [eq, infix_foreign_append_iff sign piece foreign, encode_sign sign]
    simp
  | cons b bytes ih =>
    rw [List.infix_cons_iff]
    rcases Nat.lt_or_ge b.toNat 0x80 with small | high
    · obtain ⟨broken, foreign, eq⟩ := piecesAfter_low between small bytes
      rw [eq, infix_foreign_append_iff sign piece foreign, List.map_cons, List.infix_cons_iff]
      refine or_congr ?_ (ih between_none)
      rw [← prefix_shown_iff signs, piecesAfter, first_ascii small]
      rfl
    · obtain ⟨shown, next, foreign, between, eq⟩ := piecesAfter_high between high bytes
      have noPrefix : ¬encode (c :: piece) <+: b :: bytes := by
        rw [encode_sign sign, List.cons_prefix_cons]
        rintro ⟨rfl, -⟩
        have below := sign.2
        rw [toNat_byte (by omega)] at high
        omega
      rw [eq, infix_foreign_append_iff sign piece foreign]
      exact (ih between).trans (by simp [noPrefix])

/-- A piece of ASCII text is found in leniently read bytes exactly if its bytes occur
    among them. -/
theorem occursIn_decodeLenient_iff {piece : List Char} (signs : ∀ c ∈ piece, IsSign c)
    (bytes : List UInt8) :
    occursIn piece (decodeLenient bytes) = true ↔ encode piece <:+: bytes := by
  rw [occursIn_iff, decodeLenient, pieces]
  cases piece with
  | nil => simp [encode]
  | cons c piece => exact infix_shown_iff signs between_none bytes

/-! ## Whole characters -/

theorem prefix_encodeChar_append_iff {c : Char} {piece : List Char}
    (signs : ∀ x ∈ c :: piece, IsSign x) (d : Char) (bytes : List UInt8) :
    encode (c :: piece) <+: String.utf8EncodeChar d ++ bytes ↔ c = d ∧ encode piece <+: bytes := by
  rw [← prefix_shown_iff signs, piecesAfter_encodeChar, List.map_cons, List.cons_prefix_cons,
    prefix_shown_iff fun x mem => signs x (List.mem_cons_of_mem _ mem)]
  rfl

theorem infix_encodeChar_append_iff {c : Char} {piece : List Char}
    (signs : ∀ x ∈ c :: piece, IsSign x) (d : Char) (bytes : List UInt8) :
    encode (c :: piece) <:+: String.utf8EncodeChar d ++ bytes ↔
      encode (c :: piece) <+: String.utf8EncodeChar d ++ bytes ∨
        encode (c :: piece) <:+: bytes := by
  rw [← infix_shown_iff signs between_none, ← infix_shown_iff signs between_none,
    ← prefix_shown_iff signs, piecesAfter_encodeChar, List.map_cons, List.infix_cons_iff]

theorem eq_map_of_readPieces {index : Nat} {read : List Piece} {text : List Char}
    (reads : readPieces index read = .ok text) : read = text.map .char := by
  induction read generalizing index text with
  | nil =>
    cases reads
    rfl
  | cons piece read ih =>
    cases piece with
    | char c =>
      rw [readPieces] at reads
      cases rest : readPieces (index + c.utf8Size) read with
      | error fault =>
        rw [rest] at reads
        cases reads
      | ok more =>
        rw [rest] at reads
        cases reads
        rw [ih rest, List.map_cons]
    | invalid n => cases reads
    | incomplete => cases reads

/-- A piece of ASCII text occurs in a text exactly if its bytes occur among those of the text. -/
theorem infix_iff_of_decode {piece text : List Char} {bytes : List UInt8}
    (signs : ∀ c ∈ piece, IsSign c) (decoded : decode bytes = .ok text) :
    piece <:+: text ↔ encode piece <:+: bytes := by
  have same : decodeLenient bytes = text := by
    rw [decodeLenient, eq_map_of_readPieces decoded, List.map_map]
    exact List.map_id text
  rw [← occursIn_decodeLenient_iff signs, same, occursIn_iff]

end Utf8

end ApiWorkflow.Text
