import ApiWorkflow.Proofs.File.Uri
import ApiWorkflow.Proofs.Text.Lenient

/-! # What can be seen in a uri

A uri may spell any character of its path by an escape, so what stands in the path need not
stand in the uri. It does the other way round: a mark, which is a piece of plain characters with
no digit in front, stands in the path if it stands in the uri, and in the canonical spelling if
and only if it stands in the path. A mark that a uri hides has a character that is escaped in it.
-/

namespace ApiWorkflow.FileUri

open Text

/-! ## Reading escapes -/

/-- A text goes on with two hexadecimal digits. -/
def StartsWithDigits (cs : List Char) : Prop :=
  ∃ a b rest, cs = a :: b :: rest ∧ isHex a = true ∧ isHex b = true

/-- An escaped text and its bytes, one character or one escape at a time. -/
inductive Unescapes : List Char → List UInt8 → Prop where
  | nil : Unescapes [] []
  | escape {a b : Char} {m n : Nat} {cs : List Char} {bytes : List UInt8}
      (high : digit? 16 a = some m) (low : digit? 16 b = some n) (rest : Unescapes cs bytes) :
      Unescapes ('%' :: a :: b :: cs) (UInt8.ofNat (m * 16 + n) :: bytes)
  | char {c : Char} {cs : List Char} {bytes : List UInt8}
      (single : c = '%' → ¬StartsWithDigits cs) (rest : Unescapes cs bytes) :
      Unescapes (c :: cs) (String.utf8EncodeChar c ++ bytes)

theorem unescapes_unescape (cs : List Char) : Unescapes cs (unescape cs) := by
  fun_induction unescape cs with
  | case1 => exact .nil
  | case2 a b cs m n low high ih => exact .escape high low ih
  | case3 a b cs noDigits ih =>
    refine .char ?_ ih
    rintro - ⟨x, y, rest, same, hexLeft, hexRight⟩
    cases same
    obtain ⟨m, high⟩ := Option.isSome_iff_exists.mp hexLeft
    obtain ⟨n, low⟩ := Option.isSome_iff_exists.mp hexRight
    exact noDigits m n high low
  | case4 c cs noEscape ih =>
    refine .char ?_ ih
    rintro rfl ⟨a, b, rest, rfl, -, -⟩
    exact noEscape a b rest rfl rfl

theorem unescape_cons_of_single {c : Char} {cs : List Char}
    (single : c = '%' → ¬StartsWithDigits cs) :
    unescape (c :: cs) = String.utf8EncodeChar c ++ unescape cs := by
  by_cases percent : c = '%'
  · subst percent
    match cs, single rfl with
    | [], _ => rfl
    | [a], _ => rfl
    | a :: b :: rest, noDigits =>
      rw [unescape]
      split
      · rename_i high low
        refine absurd ⟨a, b, rest, rfl, ?_, ?_⟩ noDigits
        · rw [isHex, high, Option.isSome_some]
        · rw [isHex, low, Option.isSome_some]
      · rfl
  · exact unescape_cons_of_ne percent cs

theorem Unescapes.eq {cs : List Char} {bytes : List UInt8} (reads : Unescapes cs bytes) :
    unescape cs = bytes := by
  induction reads with
  | nil => rfl
  | escape high low _ ih => rw [unescape, high, low, ih]
  | char single _ ih => rw [unescape_cons_of_single single, ih]

theorem Unescapes.append {front rest : List Char} {bytes more : List UInt8} {c : Char}
    (reads : Unescapes front bytes) (noDigit : isHex c = false)
    (readsRest : Unescapes (c :: rest) more) :
    Unescapes (front ++ c :: rest) (bytes ++ more) := by
  induction reads with
  | nil => exact readsRest
  | escape high low _ ih => exact .escape high low ih
  | char single inner ih =>
    rename_i d cs read
    rw [List.append_assoc]
    refine .char ?_ ih
    -- an escape that starts in `front` would have to go on with `c`, which is no digit
    rintro percent ⟨a, b, behind, same, hexLeft, hexRight⟩
    match cs, same with
    | [], same =>
      cases same
      rw [noDigit] at hexLeft
      cases hexLeft
    | [x], same =>
      cases same
      rw [noDigit] at hexRight
      cases hexRight
    | x :: y :: cs, same =>
      cases same
      exact single percent ⟨a, b, cs, rfl, hexLeft, hexRight⟩

theorem unescape_append_of_not_mem {piece : List Char} (absent : '%' ∉ piece) (cs : List Char) :
    unescape (piece ++ cs) = Utf8.encode piece ++ unescape cs := by
  induction piece with
  | nil => rfl
  | cons c piece ih =>
    rw [List.mem_cons, not_or] at absent
    rw [List.cons_append, unescape_cons_of_ne (Ne.symm absent.1), ih absent.2, ← List.append_assoc,
      Utf8.encode, Utf8.encode, List.flatMap_cons]

/-! ## What escapes hide -/

/-- An escape of a character stands in a text. -/
def Escapes (cs : List Char) (c : Char) : Prop :=
  ∃ a b m n, ['%', a, b] <:+: cs ∧ digit? 16 a = some m ∧ digit? 16 b = some n ∧
    c.toNat = m * 16 + n

theorem Escapes.mono {cs whole : List Char} {c : Char} (escapes : Escapes cs c)
    (within : cs <:+: whole) : Escapes whole c := by
  obtain ⟨a, b, m, n, stands, high, low, code⟩ := escapes
  exact ⟨a, b, m, n, stands.trans within, high, low, code⟩

theorem lt_of_digit? {c : Char} {n : Nat} (digit : digit? 16 c = some n) : n < 16 := by
  obtain ⟨small, same⟩ := Option.ite_none_right_eq_some.mp digit
  rw [← Option.some.inj same]
  exact small

theorem escapes_of_byte {a b c : Char} {m n : Nat} (high : digit? 16 a = some m)
    (low : digit? 16 b = some n) (sign : Utf8.IsSign c)
    (same : UInt8.ofNat c.toNat = UInt8.ofNat (m * 16 + n)) (cs : List Char) :
    Escapes ('%' :: a :: b :: cs) c := by
  have below := sign.2
  have left := lt_of_digit? high
  have right := lt_of_digit? low
  have code := congrArg UInt8.toNat same
  rw [Utf8.toNat_byte (by omega), Utf8.toNat_byte (by omega)] at code
  exact ⟨a, b, m, n, (List.prefix_append ['%', a, b] cs).isInfix, high, low, code⟩

theorem Unescapes.prefix_of_bytes {cs : List Char} {bytes : List UInt8} (reads : Unescapes cs bytes)
    {piece : List Char} (signs : ∀ c ∈ piece, Utf8.IsSign c) (bare : ∀ c ∈ piece, ¬Escapes cs c)
    (front : Utf8.encode piece <+: bytes) : piece <+: cs := by
  induction reads generalizing piece with
  | nil =>
    cases piece with
    | nil => exact List.nil_prefix
    | cons c piece =>
      rw [Utf8.encode_sign (signs c List.mem_cons_self), List.prefix_nil] at front
      cases front
  | escape high low inner ih =>
    cases piece with
    | nil => exact List.nil_prefix
    | cons c piece =>
      have sign := signs c List.mem_cons_self
      rw [Utf8.encode_sign sign, List.cons_prefix_cons] at front
      exact absurd (escapes_of_byte high low sign front.1 _) (bare c List.mem_cons_self)
  | char single inner ih =>
    cases piece with
    | nil => exact List.nil_prefix
    | cons c piece =>
      rw [Utf8.prefix_encodeChar_append_iff signs] at front
      obtain ⟨rfl, front⟩ := front
      rw [List.cons_prefix_cons]
      refine ⟨rfl, ih (fun x member => signs x (List.mem_cons_of_mem _ member)) ?_ front⟩
      intro x member escapes
      exact bare x (List.mem_cons_of_mem _ member) (escapes.mono (List.suffix_cons _ _).isInfix)

/-- Bytes of plain characters come from these characters, unless one of them is escaped. -/
theorem Unescapes.infix_of_bytes {cs : List Char} {bytes : List UInt8} (reads : Unescapes cs bytes)
    {c : Char} {piece : List Char} (signs : ∀ x ∈ c :: piece, Utf8.IsSign x)
    (bare : ∀ x ∈ c :: piece, ¬Escapes cs x) (occurs : Utf8.encode (c :: piece) <:+: bytes) :
    c :: piece <:+: cs := by
  induction reads with
  | nil =>
    rw [Utf8.encode_sign (signs c List.mem_cons_self), List.infix_nil] at occurs
    cases occurs
  | escape high low inner ih =>
    rename_i a b m n cs bytes
    rcases List.infix_cons_iff.mp occurs with front | behind
    · exact ((Unescapes.escape high low inner).prefix_of_bytes signs bare front).isInfix
    · have within : cs <:+: '%' :: a :: b :: cs := (List.suffix_append ['%', a, b] cs).isInfix
      exact (ih (fun x member escapes => bare x member (escapes.mono within)) behind).trans within
  | char single inner ih =>
    rename_i d cs bytes
    rcases (Utf8.infix_encodeChar_append_iff signs d bytes).mp occurs with front | behind
    · exact ((Unescapes.char single inner).prefix_of_bytes signs bare front).isInfix
    · have within : cs <:+: d :: cs := (List.suffix_cons d cs).isInfix
      exact (ih (fun x member escapes => bare x member (escapes.mono within)) behind).trans within

/-! ## Marks -/

theorem escape_append (left right : List Char) :
    escape (left ++ right) = escape left ++ escape right := by
  rw [escape, Utf8.encode, List.flatMap_append, List.flatMap_append]
  rfl

/-- What has a meaning of its own in a uri or a path. -/
def separators : List Char := ['%', ':', '/', '\\']

/-- A character of ASCII that is no blank and no separator. -/
def IsSolid (c : Char) : Prop :=
  Utf8.IsSign c ∧ isBlank c = false ∧ c ∉ separators

instance (c : Char) : Decidable (IsSolid c) :=
  inferInstanceAs (Decidable (_ ∧ _))

/-- A piece of text that cannot be a part of anything else in a uri. -/
structure IsMark (piece : List Char) : Prop where
  long : 2 ≤ piece.length
  starts : piece.head?.all (fun c => !isHex c) = true
  solid : ∀ c ∈ piece, IsSolid c
  plain : escape piece = piece
  outside : ¬piece <:+: scheme ++ localHost

section

variable {piece : List Char} (mark : IsMark piece)
include mark

theorem IsMark.signs : ∀ c ∈ piece, Utf8.IsSign c :=
  fun c member => (mark.solid c member).1

theorem IsMark.apart (c : Char) (separates : c ∈ separators) : c ∉ piece :=
  fun member => (mark.solid c member).2.2 separates

theorem IsMark.exists_cons : ∃ c rest, piece = c :: rest ∧ isHex c = false := by
  have long := mark.long
  have starts := mark.starts
  cases piece with
  | nil => cases long
  | cons c rest => exact ⟨c, rest, rfl, by simpa using starts⟩

theorem IsMark.infix_unescape {cs : List Char} (stands : piece <:+: cs) :
    Utf8.encode piece <:+: unescape cs := by
  obtain ⟨front, behind, rfl⟩ := stands
  obtain ⟨c, rest, same, noDigit⟩ := mark.exists_cons
  have noPercent : '%' ∉ piece := mark.apart '%' (by decide)
  have spelled : unescape (piece ++ behind) = Utf8.encode piece ++ unescape behind :=
    unescape_append_of_not_mem noPercent behind
  have cut : unescape (front ++ (piece ++ behind)) =
      unescape front ++ unescape (piece ++ behind) := by
    rw [same, List.cons_append]
    exact ((unescapes_unescape front).append noDigit (unescapes_unescape _)).eq
  rw [List.append_assoc, cut, spelled]
  exact ⟨unescape front, unescape behind, List.append_assoc _ _ _⟩

theorem IsMark.infix_escape_iff {cs : List Char} : piece <:+: escape cs ↔ piece <:+: cs := by
  constructor
  · intro stands
    have bytes := mark.infix_unescape stands
    rw [unescape_escape] at bytes
    exact (Utf8.infix_iff_of_decode mark.signs (Utf8.decode_encode cs)).mpr bytes
  · rintro ⟨front, behind, rfl⟩
    rw [escape_append, escape_append, mark.plain]
    exact ⟨escape front, escape behind, rfl⟩

theorem IsMark.not_infix_short (cs : List Char) (short : cs.length ≤ 1) : ¬piece <:+: cs := by
  intro stands
  have bound := stands.length_le
  have long := mark.long
  omega

theorem IsMark.infix_cons_slash_iff {cs : List Char} : piece <:+: '/' :: cs ↔ piece <:+: cs := by
  have absent : '/' ∉ piece := mark.apart '/' (by decide)
  have cut : piece <:+: [] ++ '/' :: cs ↔ piece <:+: [] ∨ piece <:+: cs :=
    infix_append_cons_iff absent
  rw [or_iff_right (mark.not_infix_short [] (by decide))] at cut
  exact cut

theorem IsMark.infix_driveRest_iff {rest : List Char} :
    piece <:+: driveRest rest ↔ piece <:+: rest := by
  unfold driveRest
  split
  · rename_i empty
    rw [List.isEmpty_iff.mp empty]
    exact iff_of_false (mark.not_infix_short ['/'] (by decide))
      (mark.not_infix_short [] (by decide))
  refine infix_map_iff ?_
  intro c member
  have noBackslash : ¬(c == '\\') = true := by
    intro backslash
    rw [beq_iff_eq] at backslash
    subst backslash
    rcases member with member | member
    · exact mark.apart '\\' (by decide) member
    · exact mark.apart '/' (by decide) member
  rw [if_neg noBackslash]

theorem IsMark.infix_settle_iff {path : List Char} : piece <:+: settle path ↔ piece <:+: path := by
  cases drive : hasDrive path with
  | false => rw [settle_of_not_hasDrive drive]
  | true =>
    obtain ⟨letter, rest, rfl, -, -⟩ := hasDrive_iff.mp drive
    have cut : ∀ (letter : Char) (rest : List Char),
        piece <:+: [letter] ++ ':' :: rest ↔ piece <:+: rest := by
      intro letter rest
      rw [infix_append_cons_iff (mark.apart ':' (by decide)),
        or_iff_right (mark.not_infix_short [letter] (Nat.le_refl 1))]
    rw [settle_drive drive]
    exact (cut _ _).trans (mark.infix_driveRest_iff.trans (cut _ _).symm)

/-- A mark stands in the canonical spelling of a path if it stands in the path. -/
theorem IsMark.infix_ofAbsolute_iff {path : List Char} (named : IsNamed path) :
    piece <:+: ofAbsolute path ↔ piece <:+: path := by
  have outside : ¬piece <:+: scheme := fun stands =>
    mark.outside (stands.trans (List.prefix_append scheme localHost).isInfix)
  have rooted : ∀ cs, piece <:+: scheme ++ escape ('/' :: cs) ↔ piece <:+: cs := by
    intro cs
    rw [escape_slash, infix_append_cons_iff (mark.apart '/' (by decide)), or_iff_right outside,
      mark.infix_escape_iff]
  rcases named with drive | ⟨rest, rfl, -⟩
  · rw [ofAbsolute_drive drive, rooted, mark.infix_settle_iff]
  · rw [ofAbsolute_of_not_hasDrive (hasDrive_slash rest), rooted, mark.infix_cons_slash_iff]

/-- A uri shows a mark of its path behind the host, or it spells the mark by escapes there. -/
theorem IsMark.exists_inner {uri path : List Char} (file : HasScheme uri)
    (names : toPath uri = .ok path) :
    ∃ inner, '/' :: inner <:+: uri ∧ (piece <:+: uri ↔ piece <:+: '/' :: inner) ∧
      (piece <:+: path ↔ Utf8.encode piece <:+: unescape ('/' :: inner)) := by
  obtain ⟨host, inner, tail, isHost, parts, decoded, rfl⟩ := exists_parts_of_toPath file names
  have nonempty : piece ≠ [] := by
    obtain ⟨c, rest, rfl, -⟩ := mark.exists_cons
    exact List.cons_ne_nil c rest
  have front : scheme ++ host <:+: scheme ++ localHost := by
    rcases isHost with rfl | rfl
    · exact ⟨[], localHost, by simp⟩
    · exact List.infix_rfl
  refine ⟨inner, ?_, ?_, ?_⟩
  · have within : '/' :: inner <:+: trim uri := by
      rw [parts]
      exact (List.suffix_append _ _).isInfix
    exact within.trans (isInfix_trim uri)
  · rw [← infix_trim_iff nonempty fun c member => (mark.solid c member).2.1, parts,
      mark.infix_cons_slash_iff, infix_append_cons_iff (mark.apart '/' (by decide)),
      or_iff_right fun stands => mark.outside (stands.trans front)]
  · rw [← Utf8.infix_iff_of_decode mark.signs decoded, mark.infix_cons_slash_iff]
    split
    · rfl
    · rw [mark.infix_cons_slash_iff]

theorem IsMark.infix_ofAbsolute {uri path : List Char} (file : HasScheme uri)
    (names : toPath uri = .ok path) (stands : piece <:+: uri) : piece <:+: ofAbsolute path := by
  obtain ⟨inner, -, shown, spelled⟩ := mark.exists_inner file names
  rw [mark.infix_ofAbsolute_iff (isNamed_of_toPath file names), spelled]
  exact mark.infix_unescape (shown.mp stands)

theorem IsMark.exists_escapes {uri path : List Char} (file : HasScheme uri)
    (names : toPath uri = .ok path) (stands : piece <:+: ofAbsolute path)
    (hidden : ¬piece <:+: uri) : ∃ c ∈ piece, Escapes uri c := by
  obtain ⟨inner, within, shown, spelled⟩ := mark.exists_inner file names
  rw [mark.infix_ofAbsolute_iff (isNamed_of_toPath file names), spelled] at stands
  rw [shown] at hidden
  obtain ⟨c, rest, rfl, -⟩ := mark.exists_cons
  by_contra none
  have bare : ∀ x ∈ c :: rest, ¬Escapes ('/' :: inner) x := by
    intro x member escapes
    exact none ⟨x, member, escapes.mono within⟩
  exact hidden ((unescapes_unescape _).infix_of_bytes mark.signs bare stands)

end

end ApiWorkflow.FileUri
