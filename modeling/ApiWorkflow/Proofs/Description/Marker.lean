import ApiWorkflow.Proofs.Description.Listing
import ApiWorkflow.Proofs.Text.Runs

/-! # The marker of a description in the bytes of its file

A file is searched for a marker in its first bytes, read leniently as a text. Where there is
room for these bytes, the search comes to the same as one for the bytes of the markers. So what
is found within some bytes is found within more of them, and it does not matter whether the
bytes end between two characters or within one.
-/

namespace ApiWorkflow.Discovery

open Text

variable {files : FileSystem} {path : List Char}

/-! ## The bytes of a marker -/

/-- The bytes of the word that both markers have. -/
def wordBytes : List UInt8 :=
  [0x6F, 0x70, 0x65, 0x6E, 0x61, 0x70, 0x69]

/-- Bytes hold the word with a colon behind it, or the word in double quotes. -/
def HoldsMarker (bytes : List UInt8) : Prop :=
  wordBytes ++ [0x3A] <:+: bytes ∨ 0x22 :: (wordBytes ++ [0x22]) <:+: bytes

instance (bytes : List UInt8) : Decidable (HoldsMarker bytes) :=
  inferInstanceAs (Decidable (_ ∨ _))

theorem HoldsMarker.mono {bytes more : List UInt8} (within : bytes <:+: more)
    (holds : HoldsMarker bytes) : HoldsMarker more :=
  holds.imp (·.trans within) (·.trans within)

end ApiWorkflow.Discovery
