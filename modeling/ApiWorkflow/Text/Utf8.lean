/-! # UTF-8

Bytes are cut into pieces by one machine that looks at a byte at a time: a piece
is a character, or the longest start of a character that the next byte, or the
end of the bytes, leaves unfinished. Strict reading fails at the first piece
that is no character; lenient reading puts U+FFFD in its place.
-/

namespace ApiWorkflow.Text.Utf8

/-- The bytes of a text. -/
def encode (cs : List Char) : List UInt8 :=
  cs.flatMap String.utf8EncodeChar

/-- One step through a sequence of bytes. -/
inductive Piece where
  /-- A whole character. -/
  | char (c : Char)
  /-- As many bytes that no character can start with. -/
  | invalid (length : Nat)
  /-- The start of a character, cut off by the end of the bytes. -/
  | incomplete
  deriving Repr, DecidableEq

/-- A character begun: how many bytes it still lacks, the bounds of the next one,
    the code point so far, and the number of bytes read. -/
structure Begun where
  owed : Nat
  low : Nat
  high : Nat
  code : Nat
  length : Nat
  deriving Repr, DecidableEq

/-- What a byte means between two characters. -/
def first (b : Nat) : Piece ⊕ Begun :=
  if b < 0x80 then .inl (.char (Char.ofNat b))
  else if b < 0xC2 then .inl (.invalid 1)
  else if b ≤ 0xDF then .inr ⟨1, 0x80, 0xBF, b - 0xC0, 1⟩
  else if b = 0xE0 then .inr ⟨2, 0xA0, 0xBF, b - 0xE0, 1⟩
  else if b = 0xED then .inr ⟨2, 0x80, 0x9F, b - 0xE0, 1⟩
  else if b ≤ 0xEF then .inr ⟨2, 0x80, 0xBF, b - 0xE0, 1⟩
  else if b = 0xF0 then .inr ⟨3, 0x90, 0xBF, b - 0xF0, 1⟩
  else if b ≤ 0xF3 then .inr ⟨3, 0x80, 0xBF, b - 0xF0, 1⟩
  else if b = 0xF4 then .inr ⟨3, 0x80, 0x8F, b - 0xF0, 1⟩
  else .inl (.invalid 1)

/-- The character begun, one byte later; none if the byte does not belong to it. -/
def Begun.next (p : Begun) (b : Nat) : Option (Piece ⊕ Begun) :=
  if p.low ≤ b ∧ b ≤ p.high then
    let code := p.code * 64 + (b - 0x80)
    if p.owed ≤ 1 then some (.inl (.char (Char.ofNat code)))
    else some (.inr ⟨p.owed - 1, 0x80, 0xBF, code, p.length + 1⟩)
  else none

/-- The pieces of `bytes`, behind a character that may have begun before them. -/
def piecesAfter : Option Begun → List UInt8 → List Piece
  | none, [] => []
  | some _, [] => [.incomplete]
  | none, b :: bytes =>
    match first b.toNat with
    | .inl piece => piece :: piecesAfter none bytes
    | .inr begun => piecesAfter (some begun) bytes
  | some p, b :: bytes =>
    match p.next b.toNat with
    | some (.inl piece) => piece :: piecesAfter none bytes
    | some (.inr begun) => piecesAfter (some begun) bytes
    | none =>
      .invalid p.length ::
        match first b.toNat with
        | .inl piece => piece :: piecesAfter none bytes
        | .inr begun => piecesAfter (some begun) bytes

/-- The pieces of a sequence of bytes. -/
def pieces (bytes : List UInt8) : List Piece :=
  piecesAfter none bytes

/-- Where bytes stop being a text, and how many of them are at fault; no number
    if the bytes only end too early. -/
structure Fault where
  index : Nat
  length : Option Nat
  deriving Repr, DecidableEq

/-- The wording of a fault. -/
def Fault.message (fault : Fault) : String :=
  match fault.length with
  | some n => "invalid utf-8 sequence of " ++ toString n ++ " bytes from index " ++ toString fault.index
  | none => "incomplete utf-8 byte sequence from index " ++ toString fault.index

/-- Read pieces as characters, up to the first that is none. -/
def readPieces (index : Nat) : List Piece → Except Fault (List Char)
  | [] => .ok []
  | .char c :: rest => (readPieces (index + c.utf8Size) rest).map (c :: ·)
  | .invalid n :: _ => .error ⟨index, some n⟩
  | .incomplete :: _ => .error ⟨index, none⟩

/-- The text that the bytes spell, or the first fault in them. -/
def decode (bytes : List UInt8) : Except Fault (List Char) :=
  readPieces 0 (pieces bytes)

/-- The character that stands for a piece. -/
def Piece.shown : Piece → Char
  | .char c => c
  | _ => '\ufffd'

/-- The text that the bytes spell, with U+FFFD for each piece that is no character. -/
def decodeLenient (bytes : List UInt8) : List Char :=
  (pieces bytes).map Piece.shown

end ApiWorkflow.Text.Utf8
