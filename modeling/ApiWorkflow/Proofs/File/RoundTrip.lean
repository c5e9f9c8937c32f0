import ApiWorkflow.Proofs.File.Key

/-! # From a path to its uri and back

The uri of a path from the root names that path again, whatever characters the path
has, unless a drive stands behind its first slash: the uri then names the drive path.
The uri of a drive path names the drive path in its canonical form.
-/

namespace ApiWorkflow.FileUri

/-- A path on a drive: a letter of ASCII and a colon, and then the end, a slash or a
    backslash. -/
inductive OnDrive : List Char → Prop where
  | bare {letter : Char} (alpha : letter.isAlpha = true) : OnDrive [letter, ':']
  | slash {letter : Char} (alpha : letter.isAlpha = true) (rest : List Char) :
      OnDrive (letter :: ':' :: '/' :: rest)
  | backslash {letter : Char} (alpha : letter.isAlpha = true) (rest : List Char) :
      OnDrive (letter :: ':' :: '\\' :: rest)

theorem onDrive_iff {path : List Char} : OnDrive path ↔ hasDrive path = true := by
  rw [hasDrive_iff]
  constructor
  · intro drive
    cases drive with
    | bare alpha => exact ⟨_, [], rfl, alpha, .inl rfl⟩
    | slash alpha rest => exact ⟨_, _, rfl, alpha, .inr rfl⟩
    | backslash alpha rest => exact ⟨_, _, rfl, alpha, .inr rfl⟩
  · rintro ⟨letter, rest, rfl, alpha, ends⟩
    cases rest with
    | nil => exact .bare alpha
    | cons c rest =>
      have kind : c = '/' ∨ c = '\\' := by simpa [isSlash] using ends
      rcases kind with rfl | rfl
      · exact .slash alpha rest
      · exact .backslash alpha rest

theorem toPath_ofPath_rooted (rest : List Char) :
    ∃ uri, ofPath ('/' :: rest) = .ok uri ∧
      toPath uri = .ok (if hasDrive rest then rest else '/' :: rest) := by
  refine ⟨ofAbsolute ('/' :: rest), rfl, ?_⟩
  rw [ofAbsolute_of_not_hasDrive (hasDrive_slash rest), toPath_escape]

/-- Different paths from the root have different uris. -/
theorem ofAbsolute_injective {p q : List Char} (absolute : Path.isAbsolute p = true)
    (absoluteOther : Path.isAbsolute q = true) (same : ofAbsolute p = ofAbsolute q) : p = q := by
  have written : ∀ {path : List Char}, Path.isAbsolute path = true →
      ofAbsolute path = scheme ++ escape path := by
    intro path absolute
    cases path with
    | nil => cases absolute
    | cons c rest =>
      have slash : c = '/' := by simpa [Path.isAbsolute] using absolute
      rw [slash, ofAbsolute_of_not_hasDrive (hasDrive_slash rest)]
  rw [written absolute, written absoluteOther] at same
  have bytes := congrArg unescape (List.append_cancel_left same)
  rw [unescape_escape, unescape_escape] at bytes
  have texts := congrArg Text.Utf8.decode bytes
  rw [Text.Utf8.decode_encode, Text.Utf8.decode_encode] at texts
  exact Except.ok.inj texts

theorem toPath_ofPath_drive {path : List Char} (drive : hasDrive path = true) :
    ∃ uri, ofPath path = .ok uri ∧ toPath uri = .ok (driveForm path) := by
  refine ⟨ofAbsolute path, ofPath_of_isNamed (.inl drive), ?_⟩
  rw [toPath_ofAbsolute (.inl drive), driveForm_eq_settle drive]

theorem toPath_ofPath_eq_iff (path : List Char) :
    (∀ rest, path = '/' :: rest →
      ∃ uri, ofPath path = .ok uri ∧ (toPath uri = .ok path ↔ ¬OnDrive rest) ∧
        (OnDrive rest → toPath uri = .ok rest)) ∧
    (OnDrive path → ∃ uri, ofPath path = .ok uri ∧ toPath uri = .ok (driveForm path)) := by
  constructor
  · rintro rest rfl
    obtain ⟨uri, writes, names⟩ := toPath_ofPath_rooted rest
    refine ⟨uri, writes, ?_⟩
    rw [names, onDrive_iff]
    cases drive : hasDrive rest with
    | false => simp
    | true =>
      -- The slash in front is gone, so the path that comes back is a shorter one.
      have shorter : rest ≠ '/' :: rest := by
        intro same
        have lengths := congrArg List.length same
        simp at lengths
      simp [shorter]
  · intro drive
    exact toPath_ofPath_drive (onDrive_iff.mp drive)

/-- A percent sign that looks like an escape, blanks at the end and a character of three
    bytes behind a name that looks like a host; a drive behind a slash; a drive. -/
theorem toPath_ofPath_of_lookalikes :
    (∃ uri, ofPath "/localhost/%41€ ".toList = .ok uri ∧
      toPath uri = .ok "/localhost/%41€ ".toList) ∧
    (∃ uri, ofPath "/C:/x".toList = .ok uri ∧ toPath uri = .ok "C:/x".toList) ∧
    (∃ uri, ofPath "C:\\my api".toList = .ok uri ∧ toPath uri = .ok "c:/my api".toList) := by
  have plain : ¬OnDrive "localhost/%41€ ".toList := by
    rw [onDrive_iff]
    decide
  have drive : OnDrive "C:/x".toList := .slash rfl "x".toList
  obtain ⟨first, writesFirst, same, -⟩ := (toPath_ofPath_eq_iff "/localhost/%41€ ".toList).1 _ rfl
  obtain ⟨second, writesSecond, -, names⟩ := (toPath_ofPath_eq_iff "/C:/x".toList).1 _ rfl
  exact ⟨⟨first, writesFirst, same.mpr plain⟩, ⟨second, writesSecond, names drive⟩,
    (toPath_ofPath_eq_iff "C:\\my api".toList).2 (.backslash rfl "my api".toList)⟩

end ApiWorkflow.FileUri
