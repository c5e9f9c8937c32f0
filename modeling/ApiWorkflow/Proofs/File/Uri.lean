import ApiWorkflow.File.Uri
import ApiWorkflow.Proofs.Text.Runs
import ApiWorkflow.Proofs.Text.Utf8

/-! # Canonical file uris

Escapes stand for the bytes that they were made of, so the path behind a canonical
uri can be read back from it. From there on spelling a uri canonically a second time
changes nothing, as long as it began as a `file://` uri: a path such as `/C:/x` that
is given without the scheme keeps its capital letter the first time only.
-/

namespace ApiWorkflow.FileUri

open Text

/-! ## Escapes -/

theorem toNat_ofNat {n : Nat} (small : n < 0x80) : (Char.ofNat n).toNat = n := by
  have valid : n.isValidChar := .inl (by omega)
  rw [Char.ofNat, dif_pos valid]
  rfl

theorem digit?_hexDigit {n : Nat} (small : n < 16) : digit? 16 (hexDigit n) = some n := by
  unfold hexDigit digit?
  split <;> rw [toNat_ofNat (by omega)] <;> grind

theorem isPlainByte_bounds {b : UInt8} (plain : isPlainByte b = true) :
    0x2D ≤ b.toNat ∧ b.toNat ≤ 0x7E := by
  simp only [isPlainByte, Bool.or_eq_true, Bool.and_eq_true, decide_eq_true_eq, beq_iff_eq] at plain
  omega

theorem unescape_cons_of_ne {c : Char} (ne : c ≠ '%') (cs : List Char) :
    unescape (c :: cs) = String.utf8EncodeChar c ++ unescape cs := by
  rw [unescape]
  intro a b rest percent
  exact absurd percent ne

theorem unescape_escapeByte (b : UInt8) (cs : List Char) :
    unescape (escapeByte b ++ cs) = b :: unescape cs := by
  have small := b.toNat_lt
  unfold escapeByte
  split
  · rename_i plain
    have bounds := isPlainByte_bounds plain
    have code : (Char.ofNat b.toNat).toNat = b.toNat := toNat_ofNat (by omega)
    have ne : Char.ofNat b.toNat ≠ '%' := by
      intro same
      have percent : '%'.toNat = 0x25 := rfl
      rw [same, percent] at code
      omega
    have encoded : String.utf8EncodeChar (Char.ofNat b.toNat) = [b] := by
      have value : (Char.ofNat b.toNat).val.toNat = b.toNat := code
      simp only [String.utf8EncodeChar, value]
      rw [if_pos (by omega), UInt8.ofNat_toNat]
    rw [List.singleton_append, unescape_cons_of_ne ne, encoded]
    rfl
  · have value : b.toNat / 16 * 16 + b.toNat % 16 = b.toNat := by omega
    simp only [List.cons_append, List.nil_append, unescape]
    rw [digit?_hexDigit (by omega), digit?_hexDigit (by omega)]
    simp only [value, UInt8.ofNat_toNat]

theorem unescape_escapeBytes (bytes : List UInt8) :
    unescape (bytes.flatMap escapeByte) = bytes := by
  induction bytes with
  | nil => rfl
  | cons b bytes ih => rw [List.flatMap_cons, unescape_escapeByte, ih]

theorem unescape_escape (cs : List Char) : unescape (escape cs) = Utf8.encode cs :=
  unescape_escapeBytes (Utf8.encode cs)

theorem escape_cons (c : Char) (cs : List Char) :
    escape (c :: cs) = (String.utf8EncodeChar c).flatMap escapeByte ++ escape cs := by
  rw [escape, Utf8.encode, List.flatMap_cons, List.flatMap_append]
  rfl

@[simp]
theorem escape_slash (cs : List Char) : escape ('/' :: cs) = '/' :: escape cs :=
  escape_cons '/' cs

theorem isBlank_of_mem_escape {c : Char} {cs : List Char} (member : c ∈ escape cs) :
    isBlank c = false := by
  obtain ⟨b, -, inByte⟩ := List.mem_flatMap.mp member
  have small := b.toNat_lt
  have graphic : 0x21 ≤ c.toNat ∧ c.toNat ≤ 0x7E := by
    unfold escapeByte at inByte
    split at inByte
    · rename_i plain
      have bounds := isPlainByte_bounds plain
      rw [List.mem_singleton.mp inByte, toNat_ofNat (by omega)]
      omega
    · have digit : ∀ n < 16, 0x21 ≤ (hexDigit n).toNat ∧ (hexDigit n).toNat ≤ 0x7E := by
        intro n small
        unfold hexDigit
        split <;> rw [toNat_ofNat (by omega)] <;> omega
      simp only [List.mem_cons, List.not_mem_nil, or_false] at inByte
      rcases inByte with rfl | rfl | rfl
      · exact ⟨by decide, by decide⟩
      · exact digit _ (by omega)
      · exact digit _ (by omega)
  simp only [isBlank, Bool.or_eq_false_iff, Bool.and_eq_false_iff, decide_eq_false_iff_not,
    beq_eq_false_iff_ne]
  omega

/-! ## Reading a canonical uri -/

/-- A uri that has the scheme of files in front, behind leading blanks. -/
def HasScheme (uri : List Char) : Prop :=
  scheme <+: trim uri

instance (uri : List Char) : Decidable (HasScheme uri) :=
  inferInstanceAs (Decidable (scheme <+: trim uri))

theorem trim_scheme_escape (cs : List Char) : trim (scheme ++ escape cs) = scheme ++ escape cs := by
  apply trim_of_forall
  intro c member
  have inScheme : scheme.all (fun c => !isBlank c) = true := rfl
  rcases List.mem_append.mp member with inFront | inEscape
  · simpa using List.all_eq_true.mp inScheme c inFront
  · exact isBlank_of_mem_escape inEscape

theorem hasScheme_escape (cs : List Char) : HasScheme (scheme ++ escape cs) := by
  rw [HasScheme, trim_scheme_escape]
  exact List.prefix_append scheme (escape cs)

/-- The path behind an escaped text from the root, which loses its slash if a drive
    follows. -/
theorem toPath_escape (rest : List Char) :
    toPath (scheme ++ escape ('/' :: rest)) =
      .ok (if hasDrive rest then rest else '/' :: rest) := by
  have stripped : stripPiece scheme (scheme ++ escape ('/' :: rest)) =
      some (escape ('/' :: rest)) :=
    stripPiece_eq_some_iff.mpr rfl
  have noHost : stripPiece localHost (escape ('/' :: rest)) = none := by
    rw [escape_slash]
    rfl
  have absolute : Path.isAbsolute (escape ('/' :: rest)) = true := by
    rw [escape_slash]
    rfl
  simp only [toPath, trim_scheme_escape, stripped, noHost, Option.getD_none, absolute, if_true,
    pathOfBytes, unescape_escape, Utf8.decode_encode]
  rw [if_neg (by simp [scheme])]
  split <;> rfl

/-! ## Drive paths -/

/-- A small letter of ASCII. -/
def IsSmall (c : Char) : Prop :=
  0x61 ≤ c.toNat ∧ c.toNat ≤ 0x7A

theorem isSmall_toLower {c : Char} (alpha : c.isAlpha = true) : IsSmall c.toLower := by
  have bounds : 0x41 ≤ c.toNat ∧ c.toNat ≤ 0x5A ∨ IsSmall c := by
    rcases (Bool.or_eq_true _ _).mp alpha with upper | lower
    · have range : 0x41 ≤ c.toNat ∧ c.toNat ≤ 0x5A := of_decide_eq_true upper
      exact .inl range
    · have range := (Bool.and_eq_true _ _).mp lower
      exact .inr ⟨of_decide_eq_true range.1, of_decide_eq_true range.2⟩
  unfold Char.toLower
  split
  · rename_i upper
    have range : 0x41 ≤ c.toNat ∧ c.toNat ≤ 0x5A := upper
    have sum : (c.val + ('a'.val - 'A'.val)).toNat = c.toNat + 0x20 := by
      have bounded : c.toNat + 0x20 < 2 ^ 32 := by omega
      rw [UInt32.toNat_add]
      exact Nat.mod_eq_of_lt bounded
    have small : 0x61 ≤ (c.val + ('a'.val - 'A'.val)).toNat ∧
        (c.val + ('a'.val - 'A'.val)).toNat ≤ 0x7A := by omega
    exact small
  · rename_i notUpper
    have range : ¬(0x41 ≤ c.toNat ∧ c.toNat ≤ 0x5A) := notUpper
    exact bounds.resolve_left range

theorem toLower_of_isSmall {c : Char} (small : IsSmall c) : c.toLower = c := by
  unfold Char.toLower
  split
  · rename_i upper
    have range : 0x41 ≤ c.toNat ∧ c.toNat ≤ 0x5A := upper
    have low : 0x61 ≤ c.toNat := small.1
    omega
  · rfl

theorem isAlpha_of_isSmall {c : Char} (small : IsSmall c) : c.isAlpha = true := by
  have lower : c.isLower = true :=
    (Bool.and_eq_true _ _).mpr ⟨decide_eq_true small.1, decide_eq_true small.2⟩
  exact (Bool.or_eq_true _ _).mpr (.inr lower)

theorem escape_small {c : Char} (small : IsSmall c) (cs : List Char) :
    escape (c :: cs) = c :: escape cs := by
  have low : 0x61 ≤ c.toNat := small.1
  have high : c.toNat ≤ 0x7A := small.2
  have value : c.val.toNat = c.toNat := rfl
  have encoded : String.utf8EncodeChar c = [UInt8.ofNat c.toNat] := by
    simp only [String.utf8EncodeChar, value]
    rw [if_pos (by omega)]
  have byte : (UInt8.ofNat c.toNat).toNat = c.toNat := Utf8.toNat_byte (by omega)
  have plain : isPlainByte (UInt8.ofNat c.toNat) = true := by
    simp only [isPlainByte, byte, Bool.or_eq_true, Bool.and_eq_true, decide_eq_true_eq, beq_iff_eq]
    omega
  rw [escape_cons, encoded]
  simp only [List.flatMap_cons, List.flatMap_nil, escapeByte, plain, if_true, byte,
    Char.ofNat_toNat, List.append_nil, List.singleton_append]

theorem hasDrive_iff {path : List Char} :
    hasDrive path = true ↔ ∃ letter rest, path = letter :: ':' :: rest ∧ letter.isAlpha = true ∧
      (rest = [] ∨ rest.head?.any isSlash = true) := by
  constructor
  · intro drive
    unfold hasDrive at drive
    split at drive
    · rename_i letter rest
      simp only [Bool.and_eq_true, Bool.or_eq_true, List.isEmpty_iff] at drive
      exact ⟨letter, rest, rfl, drive⟩
    · cases drive
  · rintro ⟨letter, rest, rfl, alpha, ends⟩
    simp only [hasDrive, Bool.and_eq_true, Bool.or_eq_true, List.isEmpty_iff]
    exact ⟨alpha, ends⟩

theorem driveRest_head (rest : List Char) (ends : rest = [] ∨ rest.head?.any isSlash = true) :
    ∃ tail, driveRest rest = '/' :: tail := by
  cases rest with
  | nil => exact ⟨[], rfl⟩
  | cons c rest =>
    have slash : isSlash c = true := by
      rcases ends with none | slash
      · cases none
      · simpa using slash
    refine ⟨rest.map fun c => if c == '\\' then '/' else c, ?_⟩
    simp only [isSlash, Bool.or_eq_true, beq_iff_eq] at slash
    rcases slash with rfl | rfl <;> rfl

theorem driveRest_driveRest (rest : List Char) : driveRest (driveRest rest) = driveRest rest := by
  unfold driveRest
  cases rest with
  | nil => rfl
  | cons c rest =>
    simp only [List.isEmpty_cons, List.map_cons, List.map_map, Bool.false_eq_true, if_false]
    congr 1
    · split <;> simp_all
    · apply List.map_congr_left
      intro c _
      simp only [Function.comp_apply]
      split <;> simp_all

/-! ## Canonical spelling -/

/-- A path with its drive as canonical uris spell it: a small letter, slashes of one
    kind, and one slash at least. -/
def settle : List Char → List Char
  | letter :: ':' :: rest =>
    if hasDrive (letter :: ':' :: rest) then letter.toLower :: ':' :: driveRest rest
    else letter :: ':' :: rest
  | path => path

/-- A path that a `file://` uri can name: a drive path, or a path from the root
    that has no drive behind its first slash. -/
def IsNamed (path : List Char) : Prop :=
  hasDrive path = true ∨ ∃ rest, path = '/' :: rest ∧ hasDrive rest = false

theorem settle_drive {letter : Char} {rest : List Char}
    (drive : hasDrive (letter :: ':' :: rest) = true) :
    settle (letter :: ':' :: rest) = letter.toLower :: ':' :: driveRest rest := by
  rw [settle, if_pos drive]

theorem settle_of_not_hasDrive {path : List Char} (noDrive : hasDrive path = false) :
    settle path = path := by
  unfold settle
  split
  · rw [if_neg (by simp [noDrive])]
  · rfl

theorem hasDrive_settle {path : List Char} (drive : hasDrive path = true) :
    hasDrive (settle path) = true := by
  obtain ⟨letter, rest, rfl, alpha, ends⟩ := hasDrive_iff.mp drive
  obtain ⟨tail, slash⟩ := driveRest_head rest ends
  rw [settle_drive drive, slash]
  exact hasDrive_iff.mpr
    ⟨_, _, rfl, isAlpha_of_isSmall (isSmall_toLower alpha), .inr rfl⟩

theorem settle_settle (path : List Char) : settle (settle path) = settle path := by
  cases drive : hasDrive path with
  | false => rw [settle_of_not_hasDrive drive, settle_of_not_hasDrive drive]
  | true =>
    have again := hasDrive_settle drive
    obtain ⟨letter, rest, rfl, alpha, -⟩ := hasDrive_iff.mp drive
    rw [settle_drive drive] at again ⊢
    rw [settle_drive again, toLower_of_isSmall (isSmall_toLower alpha), driveRest_driveRest]

theorem ofAbsolute_drive {path : List Char} (drive : hasDrive path = true) :
    ofAbsolute path = scheme ++ escape ('/' :: settle path) := by
  obtain ⟨letter, rest, rfl, alpha, -⟩ := hasDrive_iff.mp drive
  have colon : escape (':' :: driveRest rest) = '%' :: '3' :: 'A' :: escape (driveRest rest) :=
    escape_cons ':' (driveRest rest)
  rw [ofAbsolute, if_pos drive, settle_drive drive, escape_slash,
    escape_small (isSmall_toLower alpha), colon]
  rfl

theorem ofAbsolute_of_not_hasDrive {path : List Char} (noDrive : hasDrive path = false) :
    ofAbsolute path = scheme ++ escape path := by
  unfold ofAbsolute
  split
  · rw [if_neg (by simp [noDrive])]
  · rfl

theorem hasDrive_slash (rest : List Char) : hasDrive ('/' :: rest) = false := by
  unfold hasDrive
  split
  · rename_i same
    cases same
    rfl
  · rfl

theorem isAbsolute_of_isNamed {path : List Char} (named : IsNamed path) :
    isAbsolute path = true := by
  rcases named with drive | ⟨rest, rfl, -⟩
  · rw [isAbsolute, drive, Bool.or_true]
  · rfl

theorem isNamed_settle {path : List Char} (named : IsNamed path) : IsNamed (settle path) := by
  rcases named with drive | ⟨rest, rfl, noDrive⟩
  · exact .inl (hasDrive_settle drive)
  · exact .inr ⟨rest, settle_of_not_hasDrive (hasDrive_slash rest), noDrive⟩

theorem ofPath_of_isNamed {path : List Char} (named : IsNamed path) :
    ofPath path = .ok (ofAbsolute path) := by
  rw [ofPath, if_pos (isAbsolute_of_isNamed named)]

theorem ofAbsolute_settle {path : List Char} (named : IsNamed path) :
    ofAbsolute (settle path) = ofAbsolute path := by
  rcases named with drive | ⟨rest, rfl, -⟩
  · rw [ofAbsolute_drive (hasDrive_settle drive), ofAbsolute_drive drive, settle_settle]
  · rw [settle_of_not_hasDrive (hasDrive_slash rest)]

/-- The uri of a path names the settled path. -/
theorem toPath_ofAbsolute {path : List Char} (named : IsNamed path) :
    toPath (ofAbsolute path) = .ok (settle path) := by
  rcases named with drive | ⟨rest, rfl, noDrive⟩
  · rw [ofAbsolute_drive drive, toPath_escape, if_pos (hasDrive_settle drive)]
  · have rooted := hasDrive_slash rest
    rw [ofAbsolute_of_not_hasDrive rooted, toPath_escape, if_neg (by simp [noDrive]),
      settle_of_not_hasDrive rooted]

theorem decode_unescape_slash {rest path : List Char}
    (decoded : Utf8.decode (unescape ('/' :: rest)) = .ok path) : ∃ tail, path = '/' :: tail := by
  have first : unescape ('/' :: rest) = Utf8.encode ['/'] ++ unescape rest := by
    rw [unescape_cons_of_ne (by decide)]
    rfl
  rw [first, Utf8.decode, Utf8.pieces, Utf8.piecesAfter_encode, List.map_singleton,
    List.singleton_append, Utf8.readPieces] at decoded
  cases read : Utf8.readPieces (0 + '/'.utf8Size) (Utf8.piecesAfter none (unescape rest)) with
  | error fault => rw [read] at decoded; cases decoded
  | ok tail => rw [read] at decoded; cases decoded; exact ⟨tail, rfl⟩

/-- A `file://` uri taken apart: behind the scheme, and perhaps this host, stands what spells the
    path. -/
theorem exists_parts_of_toPath {uri path : List Char} (file : HasScheme uri)
    (names : toPath uri = .ok path) :
    ∃ host inner tail, (host = [] ∨ host = localHost) ∧
      trim uri = scheme ++ host ++ '/' :: inner ∧
      Utf8.decode (unescape ('/' :: inner)) = .ok ('/' :: tail) ∧
      path = if hasDrive tail then tail else '/' :: tail := by
  obtain ⟨behind, trimmed⟩ := file
  have stripped : stripPiece scheme (trim uri) = some behind :=
    stripPiece_eq_some_iff.mpr trimmed.symm
  obtain ⟨host, isHost, hosted⟩ : ∃ host, (host = [] ∨ host = localHost) ∧
      behind = host ++ (stripPiece localHost behind).getD behind := by
    cases cut : stripPiece localHost behind with
    | none => exact ⟨[], .inl rfl, rfl⟩
    | some rest => exact ⟨localHost, .inr rfl, stripPiece_eq_some_iff.mp cut⟩
  simp only [toPath, stripped] at names
  split at names
  · cases names
  split at names
  · rename_i absolute
    generalize (stripPiece localHost behind).getD behind = rest at names absolute hosted
    obtain ⟨inner, rfl⟩ : ∃ inner, rest = '/' :: inner := by
      cases rest with
      | nil => cases absolute
      | cons c inner => exact ⟨inner, by simpa [Path.isAbsolute] using absolute⟩
    cases decoded : Utf8.decode (unescape ('/' :: inner)) with
    | error fault => simp [pathOfBytes, decoded] at names
    | ok text =>
      obtain ⟨tail, rfl⟩ := decode_unescape_slash decoded
      refine ⟨host, inner, tail, isHost, by rw [← trimmed, hosted, List.append_assoc], decoded, ?_⟩
      simp only [pathOfBytes, decoded] at names
      split at names <;> cases names <;> simp [*]
  · cases names

theorem isNamed_of_toPath {uri path : List Char} (file : HasScheme uri)
    (names : toPath uri = .ok path) : IsNamed path := by
  obtain ⟨host, inner, tail, -, -, -, rfl⟩ := exists_parts_of_toPath file names
  split
  · rename_i drive
    exact .inl drive
  · rename_i noDrive
    exact .inr ⟨tail, rfl, by simpa using noDrive⟩

theorem canonical_eq_ok_iff {uri spelled : List Char} (file : HasScheme uri) :
    canonical uri = .ok spelled ↔ ∃ path, toPath uri = .ok path ∧ spelled = ofAbsolute path := by
  cases names : toPath uri with
  | error fault => simp [canonical, names, bind, Except.bind]
  | ok path =>
    have named := isNamed_of_toPath file names
    simp [canonical, names, bind, Except.bind, ofPath_of_isNamed named, eq_comm]

/-- A uri as stores keep it: spelling it canonically changes nothing. -/
def IsCanonical (uri : List Char) : Prop :=
  canonical uri = .ok uri

theorem isCanonical_ofAbsolute {path : List Char} (named : IsNamed path) :
    IsCanonical (ofAbsolute path) := by
  rw [IsCanonical, canonical, toPath_ofAbsolute named]
  simp only [bind, Except.bind]
  rw [ofPath_of_isNamed (isNamed_settle named), ofAbsolute_settle named]

theorem isCanonical_of_canonical {uri spelled : List Char} (file : HasScheme uri)
    (canonical : canonical uri = .ok spelled) : IsCanonical spelled := by
  obtain ⟨path, names, rfl⟩ := (canonical_eq_ok_iff file).mp canonical
  exact isCanonical_ofAbsolute (isNamed_of_toPath file names)

theorem hasScheme_of_ofPath {path uri : List Char} (writes : ofPath path = .ok uri) :
    HasScheme uri := by
  unfold ofPath at writes
  split at writes
  · cases writes
    cases drive : hasDrive path with
    | true =>
      rw [ofAbsolute_drive drive]
      exact hasScheme_escape _
    | false =>
      rw [ofAbsolute_of_not_hasDrive drive]
      exact hasScheme_escape _
  · cases writes

theorem isAbsolute_of_hasDrive {path : List Char} (drive : hasDrive path = true) :
    Path.isAbsolute path = false := by
  cases path with
  | nil => rfl
  | cons c rest =>
    by_cases slash : c = '/'
    · rw [slash, hasDrive_slash] at drive
      cases drive
    · simp [Path.isAbsolute, slash]

/-- The uri that is written for a path names a path: a drive path, or that one. -/
theorem toPath_of_ofPath {path uri : List Char} (writes : ofPath path = .ok uri) :
    ∃ named, toPath uri = .ok named ∧ (Path.isAbsolute named = true → named = path) := by
  unfold ofPath at writes
  split at writes
  · rename_i absolute
    cases writes
    cases drive : hasDrive path with
    | true =>
      refine ⟨settle path, toPath_ofAbsolute (.inl drive), ?_⟩
      rw [isAbsolute_of_hasDrive (hasDrive_settle drive)]
      exact nofun
    | false =>
      cases path with
      | nil => cases absolute
      | cons c rest =>
        have slash : c = '/' := by simpa [isAbsolute, drive, Path.isAbsolute] using absolute
        subst slash
        -- A drive may stand behind the first slash; it is then the drive path that is named.
        have names := (congrArg toPath (ofAbsolute_of_not_hasDrive drive)).trans (toPath_escape rest)
        refine ⟨_, names, ?_⟩
        split
        · rename_i inner
          rw [isAbsolute_of_hasDrive inner]
          exact nofun
        · exact fun _ => rfl
  · cases writes

/-- Off the drives, the uri that is written for a path is canonical and names that path. -/
theorem isCanonical_of_ofPath {path uri named : List Char} (writes : ofPath path = .ok uri)
    (names : toPath uri = .ok named) (rooted : Path.isAbsolute named = true) :
    IsCanonical uri ∧ toPath uri = .ok path := by
  obtain ⟨other, namesOther, same⟩ := toPath_of_ofPath writes
  cases names.symm.trans namesOther
  have isPath := same rooted
  subst isPath
  have isNamed := isNamed_of_toPath (hasScheme_of_ofPath writes) names
  rw [ofPath_of_isNamed isNamed] at writes
  cases writes
  exact ⟨isCanonical_ofAbsolute isNamed, names⟩

/-! ## Keys -/

theorem key_of_isCanonical {uri : String} (canonical : IsCanonical uri.toList) : key uri = uri := by
  rw [key, keyChars, canonical, String.ofList_toList]

theorem key_of_canonical {uri spelled : String}
    (spells : canonical uri.toList = .ok spelled.toList) : key uri = spelled := by
  rw [key, keyChars, spells, String.ofList_toList]

theorem canonical_eq_key {uri : String} {path : List Char} (file : HasScheme uri.toList)
    (names : toPath uri.toList = .ok path) : canonical uri.toList = .ok (key uri).toList := by
  have spells := (canonical_eq_ok_iff file).mpr ⟨path, names, rfl⟩
  rw [key, keyChars, spells, String.toList_ofList]

/-- A uri that names a path from the root, and none on a drive. -/
def IsRooted (uri : String) : Prop :=
  ∃ path, toPath uri.toList = .ok path ∧ Path.isAbsolute path = true

/-- Off the drives, different paths have uris with different keys. -/
theorem key_ne_of_ofPath {left right : String} {p q : List Char}
    (writesLeft : ofPath p = .ok left.toList) (writesRight : ofPath q = .ok right.toList)
    (rootedLeft : IsRooted left) (rootedRight : IsRooted right) (apart : p ≠ q) :
    key left ≠ key right := by
  obtain ⟨_, namesLeft, absoluteLeft⟩ := rootedLeft
  obtain ⟨_, namesRight, absoluteRight⟩ := rootedRight
  obtain ⟨canonicalLeft, pathLeft⟩ := isCanonical_of_ofPath writesLeft namesLeft absoluteLeft
  obtain ⟨canonicalRight, pathRight⟩ := isCanonical_of_ofPath writesRight namesRight absoluteRight
  rw [key_of_isCanonical canonicalLeft, key_of_isCanonical canonicalRight]
  intro same
  rw [same, pathRight] at pathLeft
  exact apart (Except.ok.inj pathLeft).symm

end ApiWorkflow.FileUri
