import ApiWorkflow.Text.Utf8

/-! # Reading back the bytes of a text

The machine that cuts bytes into pieces finds exactly the characters that were
encoded, whatever bytes come behind them. Strict reading of an encoded text
therefore gives the text back.
-/

namespace ApiWorkflow.Text.Utf8

theorem toNat_byte {n : Nat} (small : n < 256) : (UInt8.ofNat n).toNat = n := by
  rw [UInt8.toNat_ofNat']
  exact Nat.mod_eq_of_lt small

theorem toNat_valid (c : Char) : c.toNat < 0xD800 ∨ 0xDFFF < c.toNat ∧ c.toNat < 0x110000 :=
  c.valid

/-! ## Single bytes -/

theorem first_ascii {n : Nat} (small : n < 0x80) : first n = .inl (.char (Char.ofNat n)) := by
  rw [first, if_pos small]

theorem first_two {n : Nat} (low : 2 ≤ n) (high : n < 32) :
    first (n + 0xC0) = .inr ⟨1, 0x80, 0xBF, n, 1⟩ := by
  have code : n + 0xC0 - 0xC0 = n := by omega
  rw [first, if_neg (by omega), if_neg (by omega), if_pos (by omega), code]

theorem first_three {n : Nat} (high : n < 16) :
    first (n + 0xE0) =
      .inr ⟨2, if n = 0 then 0xA0 else 0x80, if n = 13 then 0x9F else 0xBF, n, 1⟩ := by
  have code : n + 0xE0 - 0xE0 = n := by omega
  rw [first, if_neg (by omega), if_neg (by omega), if_neg (by omega), code]
  grind

theorem first_four {n : Nat} (high : n < 5) :
    first (n + 0xF0) =
      .inr ⟨3, if n = 0 then 0x90 else 0x80, if n = 4 then 0x8F else 0xBF, n, 1⟩ := by
  have code : n + 0xF0 - 0xF0 = n := by omega
  rw [first, if_neg (by omega), if_neg (by omega), if_neg (by omega), if_neg (by omega),
    if_neg (by omega), if_neg (by omega), code]
  grind

theorem piecesAfter_begin {n : Nat} {p : Begun} (small : n < 256) (begins : first n = .inr p)
    (bytes : List UInt8) :
    piecesAfter none (UInt8.ofNat n :: bytes) = piecesAfter (some p) bytes := by
  rw [piecesAfter, toNat_byte small, begins]

theorem piecesAfter_continue {p : Begun} {n : Nat} (small : n < 64) (low : p.low ≤ n + 0x80)
    (high : n + 0x80 ≤ p.high) (more : 1 < p.owed) (bytes : List UInt8) :
    piecesAfter (some p) (UInt8.ofNat (n + 0x80) :: bytes) =
      piecesAfter (some ⟨p.owed - 1, 0x80, 0xBF, p.code * 64 + n, p.length + 1⟩) bytes := by
  have next : p.next (n + 0x80) =
      some (.inr ⟨p.owed - 1, 0x80, 0xBF, p.code * 64 + n, p.length + 1⟩) := by
    rw [Begun.next, if_pos ⟨low, high⟩, if_neg (by omega), Nat.add_sub_cancel]
  rw [piecesAfter, toNat_byte (by omega), next]

theorem piecesAfter_finish {p : Begun} {n : Nat} (small : n < 64) (low : p.low ≤ n + 0x80)
    (high : n + 0x80 ≤ p.high) (last : p.owed = 1) (bytes : List UInt8) :
    piecesAfter (some p) (UInt8.ofNat (n + 0x80) :: bytes) =
      .char (Char.ofNat (p.code * 64 + n)) :: piecesAfter none bytes := by
  have next : p.next (n + 0x80) = some (.inl (.char (Char.ofNat (p.code * 64 + n)))) := by
    rw [Begun.next, if_pos ⟨low, high⟩, if_pos (by omega), Nat.add_sub_cancel]
  rw [piecesAfter, toNat_byte (by omega), next]

/-! ## Whole characters -/

theorem piecesAfter_encodeChar (c : Char) (bytes : List UInt8) :
    piecesAfter none (String.utf8EncodeChar c ++ bytes) = .char c :: piecesAfter none bytes := by
  have valid := toNat_valid c
  have back : Char.ofNat c.toNat = c := Char.ofNat_toNat c
  have value : c.val.toNat = c.toNat := rfl
  simp only [String.utf8EncodeChar, value]
  generalize c.toNat = n at valid back
  split
  · rw [List.cons_append, List.nil_append, piecesAfter, toNat_byte (by omega),
      first_ascii (by omega), back]
  split
  · have begins := first_two (n := n / 64 % 32) (by omega) (by omega)
    simp only [List.cons_append, List.nil_append]
    rw [piecesAfter_begin (by omega) begins,
      piecesAfter_finish (by omega) (by simp) (by simp; omega) rfl]
    have code : n / 64 % 32 * 64 + n % 64 = n := by omega
    rw [code, back]
  split
  · have begins := first_three (n := n / 4096 % 16) (by omega)
    simp only [List.cons_append, List.nil_append]
    rw [piecesAfter_begin (by omega) begins,
      piecesAfter_continue (by omega) (by dsimp only; split <;> omega)
        (by dsimp only; split <;> omega) (by simp),
      piecesAfter_finish (by omega) (by simp) (by simp; omega) rfl]
    have code : (n / 4096 % 16 * 64 + n / 64 % 64) * 64 + n % 64 = n := by omega
    rw [code, back]
  · have begins := first_four (n := n / 262144 % 8) (by omega)
    simp only [List.cons_append, List.nil_append]
    rw [piecesAfter_begin (by omega) begins,
      piecesAfter_continue (by omega) (by dsimp only; split <;> omega)
        (by dsimp only; split <;> omega) (by simp),
      piecesAfter_continue (by omega) (by simp) (by simp; omega) (by simp),
      piecesAfter_finish (by omega) (by simp) (by simp; omega) rfl]
    have code :
        ((n / 262144 % 8 * 64 + n / 4096 % 64) * 64 + n / 64 % 64) * 64 + n % 64 = n := by omega
    rw [code, back]

theorem piecesAfter_encode (cs : List Char) (bytes : List UInt8) :
    piecesAfter none (encode cs ++ bytes) = cs.map .char ++ piecesAfter none bytes := by
  induction cs with
  | nil => rfl
  | cons c cs ih =>
    have split : encode (c :: cs) = String.utf8EncodeChar c ++ encode cs := List.flatMap_cons
    rw [split, List.append_assoc, piecesAfter_encodeChar, ih]
    rfl

/-! ## Texts -/

theorem readPieces_chars (index : Nat) (cs : List Char) :
    readPieces index (cs.map .char) = .ok cs := by
  induction cs generalizing index with
  | nil => rfl
  | cons c cs ih => rw [List.map_cons, readPieces, ih]; rfl

theorem decode_encode (cs : List Char) : decode (encode cs) = .ok cs := by
  have whole : pieces (encode cs) = cs.map .char := by
    simpa only [pieces, piecesAfter, List.append_nil] using piecesAfter_encode cs []
  rw [decode, whole, readPieces_chars]

end ApiWorkflow.Text.Utf8
