import ApiWorkflow.Proofs.File.Uri

/-! # What the key of a uri tells

Two `file://` uris have one canonical spelling exactly if they name one path, where
drive paths count as one up to the case of the letter and the kind of the slashes.
A canonical spelling is its own one, but for a path that is given without the scheme
and has a drive behind its first slash: read back, its uri names the drive path.
-/

namespace ApiWorkflow.FileUri

open Text

/-- A drive path with its letter in lower case, a slash for each backslash, and the
    bare drive read as its root. -/
def driveForm (path : List Char) : List Char :=
  match path.map fun c => if c = '\\' then '/' else c with
  | [letter, colon] => [letter.toLower, colon, '/']
  | letter :: rest => letter.toLower :: rest
  | [] => []

theorem driveForm_eq_settle {path : List Char} (drive : hasDrive path = true) :
    driveForm path = settle path := by
  obtain ⟨letter, rest, rfl, alpha, -⟩ := hasDrive_iff.mp drive
  have letterStays : letter ≠ '\\' := by
    rintro rfl
    cases alpha
  rw [settle_drive drive]
  cases rest with
  | nil => simp [driveForm, driveRest, letterStays]
  | cons c rest => simp [driveForm, driveRest, letterStays]

/-! ## Different files have different keys -/

theorem ofAbsolute_eq_iff {p q : List Char} (left : IsNamed p) (right : IsNamed q) :
    ofAbsolute p = ofAbsolute q ↔ settle p = settle q := by
  constructor
  · intro same
    have names := congrArg toPath same
    rw [toPath_ofAbsolute left, toPath_ofAbsolute right] at names
    exact Except.ok.inj names
  · intro same
    rw [← ofAbsolute_settle left, same, ofAbsolute_settle right]

/-- Settling neither makes a drive path nor takes one away, so only drive paths can
    be settled to one path. -/
theorem settle_eq_iff {p q : List Char} :
    settle p = settle q ↔
      p = q ∨ hasDrive p = true ∧ hasDrive q = true ∧ driveForm p = driveForm q := by
  constructor
  · intro same
    cases left : hasDrive p with
    | false =>
      cases right : hasDrive q with
      | false =>
        rw [settle_of_not_hasDrive left, settle_of_not_hasDrive right] at same
        exact .inl same
      | true =>
        have drive := hasDrive_settle right
        rw [← same, settle_of_not_hasDrive left, left] at drive
        cases drive
    | true =>
      have drive := hasDrive_settle left
      cases right : hasDrive q with
      | false =>
        rw [same, settle_of_not_hasDrive right, right] at drive
        cases drive
      | true =>
        rw [← driveForm_eq_settle left, ← driveForm_eq_settle right] at same
        exact .inr ⟨rfl, rfl, same⟩
  · rintro (rfl | ⟨left, right, same⟩)
    · rfl
    · rw [← driveForm_eq_settle left, same, driveForm_eq_settle right]

theorem canonical_eq_canonical_iff {u v p q : List Char} (leftFile : HasScheme u)
    (rightFile : HasScheme v) (left : toPath u = .ok p) (right : toPath v = .ok q) :
    ∃ c d, canonical u = .ok c ∧ canonical v = .ok d ∧
      (c = d ↔ p = q ∨ hasDrive p = true ∧ hasDrive q = true ∧ driveForm p = driveForm q) := by
  refine ⟨ofAbsolute p, ofAbsolute q, (canonical_eq_ok_iff leftFile).mpr ⟨p, left, rfl⟩,
    (canonical_eq_ok_iff rightFile).mpr ⟨q, right, rfl⟩, ?_⟩
  rw [ofAbsolute_eq_iff (isNamed_of_toPath leftFile left) (isNamed_of_toPath rightFile right)]
  exact settle_eq_iff

/-- A drive in capitals with a backslash, and the same drive path on the local host. -/
theorem canonical_eq_canonical_of_drives :
    toPath "file:///C:%5Cx".toList = .ok "C:\\x".toList ∧
      toPath " file://localhost/c%3a/x".toList = .ok "c:/x".toList ∧
      ∃ c d, canonical "file:///C:%5Cx".toList = .ok c ∧
        canonical " file://localhost/c%3a/x".toList = .ok d ∧ c = d := by
  have left : toPath "file:///C:%5Cx".toList = .ok "C:\\x".toList := rfl
  have right : toPath " file://localhost/c%3a/x".toList = .ok "c:/x".toList := rfl
  obtain ⟨c, d, spellsLeft, spellsRight, same⟩ :=
    canonical_eq_canonical_iff (by decide) (by decide) left right
  exact ⟨left, right, c, d, spellsLeft, spellsRight, same.mpr (.inr ⟨rfl, rfl, rfl⟩)⟩

/-! ## Spelling a uri canonically twice -/

/-- A path that is given without the scheme, with a drive behind its first slash that
    is not in its canonical form. -/
def HidesDrive (uri : List Char) : Prop :=
  ∃ path, trim uri = '/' :: path ∧ hasDrive path = true ∧ driveForm path ≠ path

theorem eq_trim_of_toPath {uri path : List Char} (noFile : ¬HasScheme uri)
    (names : toPath uri = .ok path) : path = trim uri ∧ isAbsolute path = true := by
  have unstripped : stripPiece scheme (trim uri) = none := by
    cases stripped : stripPiece scheme (trim uri) with
    | none => rfl
    | some rest => exact absurd ⟨rest, (stripPiece_eq_some_iff.mp stripped).symm⟩ noFile
  simp only [toPath, unstripped] at names
  split at names
  · cases names
  split at names
  · rename_i absolute
    cases names
    exact ⟨rfl, absolute⟩
  · cases names

theorem toPath_of_slash {uri path : List Char} (rooted : trim uri = '/' :: path) :
    toPath uri = .ok ('/' :: path) := by
  have unstripped : stripPiece scheme ('/' :: path) = none := rfl
  have absolute : isAbsolute ('/' :: path) = true := rfl
  simp only [toPath, rooted, unstripped, absolute, List.isEmpty_cons, if_true]
  rfl

/-- A path that a text names can be named by a `file://` uri, unless the text is a path
    with a drive behind its first slash. -/
theorem isNamed_or_buried {uri path : List Char} (names : toPath uri = .ok path) :
    IsNamed path ∨ ∃ rest, trim uri = '/' :: rest ∧ path = '/' :: rest ∧ hasDrive rest = true := by
  by_cases file : HasScheme uri
  · exact .inl (isNamed_of_toPath file names)
  obtain ⟨same, absolute⟩ := eq_trim_of_toPath file names
  cases drive : hasDrive path with
  | true => exact .inl (.inl drive)
  | false =>
    cases path with
    | nil => cases absolute
    | cons c rest =>
      have slash : c = '/' := by simpa [isAbsolute, drive, Path.isAbsolute] using absolute
      subst slash
      cases inner : hasDrive rest with
      | true => exact .inr ⟨rest, same.symm, rfl, inner⟩
      | false => exact .inl (.inr ⟨rest, rfl, inner⟩)

theorem canonical_of_toPath {uri path : List Char} (names : toPath uri = .ok path) :
    ∃ spelled, canonical uri = .ok spelled := by
  rw [canonical, names]
  rcases isNamed_or_buried names with named | ⟨rest, -, rfl, -⟩
  · exact ⟨_, ofPath_of_isNamed named⟩
  · exact ⟨_, rfl⟩

theorem canonical_of_buried {rest : List Char} (drive : hasDrive rest = true) :
    canonical (scheme ++ escape ('/' :: rest)) = .ok (scheme ++ escape ('/' :: settle rest)) := by
  rw [canonical, toPath_escape, if_pos drive]
  simp only [bind, Except.bind]
  rw [ofPath_of_isNamed (.inl drive), ofAbsolute_drive drive]

theorem escape_settle_eq_iff {rest : List Char} (drive : hasDrive rest = true) :
    scheme ++ escape ('/' :: settle rest) = scheme ++ escape ('/' :: rest) ↔
      settle rest = rest := by
  constructor
  · intro same
    have paths := congrArg toPath same
    rw [toPath_escape, toPath_escape, if_pos (hasDrive_settle drive), if_pos drive] at paths
    exact Except.ok.inj paths
  · intro same
    rw [same]

theorem hidesDrive_iff {uri rest : List Char} (rooted : trim uri = '/' :: rest)
    (drive : hasDrive rest = true) : HidesDrive uri ↔ settle rest ≠ rest := by
  rw [← driveForm_eq_settle drive]
  constructor
  · rintro ⟨path, trimmed, -, unsettled⟩
    cases rooted.symm.trans trimmed
    exact unsettled
  · intro unsettled
    exact ⟨rest, rooted, drive, unsettled⟩

theorem toPath_of_hidesDrive {uri : List Char} (hides : HidesDrive uri) :
    ∃ rest, toPath uri = .ok ('/' :: rest) ∧ hasDrive rest = true := by
  obtain ⟨rest, rooted, drive, -⟩ := hides
  exact ⟨rest, toPath_of_slash rooted, drive⟩

theorem not_hidesDrive_of_isNamed {uri path : List Char} (names : toPath uri = .ok path)
    (named : IsNamed path) : ¬HidesDrive uri := by
  intro hides
  obtain ⟨rest, same, drive⟩ := toPath_of_hidesDrive hides
  cases names.symm.trans same
  rcases named with outer | ⟨inner, same, noDrive⟩
  · rw [hasDrive_slash] at outer
    cases outer
  · cases same
    rw [drive] at noDrive
    cases noDrive

/-- The second spelling is canonical, and differs from the first one only if the uri
    hides a drive. -/
theorem canonical_again {uri spelled : List Char} (spells : canonical uri = .ok spelled) :
    ∃ again, canonical spelled = .ok again ∧ IsCanonical again ∧
      (again = spelled ↔ ¬HidesDrive uri) := by
  cases names : toPath uri with
  | error fault =>
    rw [canonical, names] at spells
    cases spells
  | ok path =>
    rw [canonical, names] at spells
    rcases isNamed_or_buried names with named | ⟨rest, rooted, rfl, drive⟩
    · cases (ofPath_of_isNamed named).symm.trans spells
      have canonical := isCanonical_ofAbsolute named
      exact ⟨_, canonical, canonical, by simpa using not_hidesDrive_of_isNamed names named⟩
    · have written : ofPath ('/' :: rest) = .ok (scheme ++ escape ('/' :: rest)) := by
        rw [← ofAbsolute_of_not_hasDrive (hasDrive_slash rest)]
        rfl
      cases written.symm.trans spells
      refine ⟨_, canonical_of_buried drive, ?_, ?_⟩
      · rw [← ofAbsolute_drive drive]
        exact isCanonical_ofAbsolute (.inl drive)
      · rw [hidesDrive_iff rooted drive, Classical.not_not, escape_settle_eq_iff drive]

theorem key_of_error {uri : String} {fault : Fault} (fails : canonical uri.toList = .error fault) :
    key uri = uri := by
  rw [key, keyChars, fails, String.ofList_toList]

theorem key_ofList {uri again : List Char} (spells : canonical uri = .ok again) :
    key (String.ofList uri) = String.ofList again := by
  rw [key, keyChars, String.toList_ofList, spells]

theorem key_of_ok {uri : String} {spelled : List Char}
    (spells : canonical uri.toList = .ok spelled) :
    key uri = String.ofList spelled := by
  rw [← key_ofList spells, String.ofList_toList]

theorem key_cases {uri : String} (file : HasScheme uri.toList) :
    key uri = uri ∨
      ∃ path, toPath uri.toList = .ok path ∧ (key uri).toList = ofAbsolute path := by
  cases spells : canonical uri.toList with
  | error fault => exact .inl (key_of_error spells)
  | ok spelled =>
    obtain ⟨path, names, rfl⟩ := (canonical_eq_ok_iff file).mp spells
    exact .inr ⟨path, names, by rw [key_of_ok spells, String.toList_ofList]⟩

theorem key_ne_of_error {u v : String} {spelled : List Char} {fault : Fault}
    (spells : canonical u.toList = .ok spelled) (fails : canonical v.toList = .error fault) :
    key u ≠ key v := by
  intro same
  -- the first key is a canonical spelling, which can be spelled again
  obtain ⟨again, spellsAgain, -⟩ := canonical_again spells
  rw [key_of_ok spells, key_of_error fails] at same
  rw [← same, String.toList_ofList, spellsAgain] at fails
  cases fails

/-- The key of a uri tells its canonical spelling, and also that it has none. -/
theorem canonical_eq_of_key_eq {u v : String} (same : key u = key v) :
    canonical u.toList = canonical v.toList := by
  cases left : canonical u.toList with
  | error fault =>
    cases right : canonical v.toList with
    | error other =>
      rw [key_of_error left, key_of_error right] at same
      rw [← left, ← right, same]
    | ok spelled => exact absurd same.symm (key_ne_of_error right left)
  | ok spelled =>
    cases right : canonical v.toList with
    | error other => exact absurd same (key_ne_of_error left right)
    | ok other =>
      rw [key_of_ok left, key_of_ok right] at same
      rw [String.ofList_inj.mp same]

theorem key_key_eq_iff (uri : String) :
    ((canonical uri.toList >>= canonical) = canonical uri.toList ↔ ¬HidesDrive uri.toList) ∧
      (key (key uri) = key uri ↔ ¬HidesDrive uri.toList) ∧
      key (key (key uri)) = key (key uri) := by
  cases spells : canonical uri.toList with
  | error fault =>
    have visible : ¬HidesDrive uri.toList := by
      intro hides
      obtain ⟨rest, names, -⟩ := toPath_of_hidesDrive hides
      rw [canonical, names] at spells
      cases spells
    have fixed : key uri = uri := key_of_error spells
    simp [fixed, visible, bind, Except.bind]
  | ok spelled =>
    obtain ⟨again, spellsAgain, canonical, same⟩ := canonical_again spells
    have first : key uri = String.ofList spelled := by
      rw [← key_ofList spells, String.ofList_toList]
    rw [first, key_ofList spellsAgain, key_ofList canonical, ← same]
    refine ⟨?_, ?_, rfl⟩
    · simp [bind, Except.bind, spellsAgain]
    · exact String.ofList_inj

/-- The capital letter of a drive behind a slash is gone the second time only. -/
theorem key_key_ne_of_hidden_drive :
    canonical "/C:/x".toList = .ok "file:///C%3A/x".toList ∧
      canonical "file:///C%3A/x".toList = .ok "file:///c%3A/x".toList ∧
      key (key "/C:/x") ≠ key "/C:/x" := by
  refine ⟨rfl, rfl, ?_⟩
  decide

end ApiWorkflow.FileUri
