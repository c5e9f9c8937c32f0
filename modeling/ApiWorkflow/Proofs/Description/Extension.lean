import ApiWorkflow.Proofs.Description.Listing
import ApiWorkflow.Settings.Load

/-! # The extensions that discovery can find

Settings are accepted with any extensions that are neither blank nor start with a dot. The
extension of a file is what stands behind the last dot of its name. So an accepted extension
without a dot and a slash is found on every file that ends in it. With a dot or a slash it is
the extension of no file, and the settings find the same files without it.
-/

namespace ApiWorkflow

open Text

/-! ## Texts in another case -/

namespace Text

theorem toLower_of_isAlpha_eq_false {c : Char} (noLetter : c.isAlpha = false) : c.toLower = c := by
  unfold Char.toLower
  split
  · rename_i upper
    have letter : c.isAlpha = true := (Bool.or_eq_true _ _).mpr (.inl (decide_eq_true upper))
    rw [noLetter] at letter
    cases letter
  · rfl

theorem toLower_eq_iff {c sign : Char} (noLetter : sign.isAlpha = false) :
    c.toLower = sign ↔ c = sign := by
  constructor
  · rintro rfl
    cases letter : c.isAlpha with
    | false => exact (toLower_of_isAlpha_eq_false letter).symm
    | true =>
      rw [FileUri.isAlpha_of_isSmall (FileUri.isSmall_toLower letter)] at noLetter
      cases noLetter
  · rintro rfl
    exact toLower_of_isAlpha_eq_false noLetter

theorem mem_iff_of_sameLetters {a b : List Char} (same : sameLetters a b = true) {sign : Char}
    (noLetter : sign.isAlpha = false) : sign ∈ a ↔ sign ∈ b := by
  have kept : ∀ cs : List Char, sign ∈ lowered cs ↔ sign ∈ cs := by
    intro cs
    simp only [lowered, List.mem_map, toLower_eq_iff noLetter, exists_eq_right]
  rw [← kept a, ← kept b, beq_iff_eq.mp same]

end Text

/-! ## Extensions of files -/

namespace Discovery

variable {extensions : List String} {path : List Char}

theorem hasExtension_iff_fileName? :
    hasExtension extensions path = true ↔
      ∃ stem extension, Path.fileName? path = some (stem ++ '.' :: extension) ∧ stem ≠ [] ∧
        '.' ∉ extension ∧ ∃ allowed ∈ extensions, sameLetters allowed.toList extension = true := by
  simp only [hasExtension_iff_extension?, Path.extension?, Option.bind_eq_some_iff,
    Path.nameExtension?_eq_some_iff]
  constructor
  · rintro ⟨extension, ⟨_, last, stem, rfl, more, noDot⟩, allowed⟩
    exact ⟨stem, extension, last, more, noDot, allowed⟩
  · rintro ⟨stem, extension, last, more, noDot, allowed⟩
    exact ⟨extension, ⟨_, last, stem, rfl, more, noDot⟩, allowed⟩

/-- An extension as a file can have it. -/
def IsPlain (extension : String) : Prop :=
  '.' ∉ extension.toList ∧ '/' ∉ extension.toList

instance (extension : String) : Decidable (IsPlain extension) :=
  inferInstanceAs (Decidable (_ ∧ _))

theorem hasExtension_of_isPlain {extension : String} (member : extension ∈ extensions)
    (nonempty : extension.toList ≠ []) (plain : IsPlain extension) (dir : List Char)
    {stem : List Char} (more : stem ≠ []) (noSlash : '/' ∉ stem) :
    hasExtension extensions (Path.append dir (stem ++ '.' :: extension.toList)) = true := by
  have whole : '/' ∉ stem ++ '.' :: extension.toList := by
    simp [noSlash, plain.2]
  have long : 2 < (stem ++ '.' :: extension.toList).length := by
    have stemLength := List.length_pos_iff.mpr more
    have extensionLength := List.length_pos_iff.mpr nonempty
    rw [List.length_append, List.length_cons]
    omega
  refine hasExtension_iff_fileName?.mpr ⟨stem, extension.toList, ?_, more, plain.1, extension,
    member, beq_self_eq_true _⟩
  exact Path.fileName?_append dir (Path.isName_of_length whole long)

theorem isPlain_of_sameLetters {allowed : String} {stem extension : List Char}
    (last : Path.fileName? path = some (stem ++ '.' :: extension)) (noDot : '.' ∉ extension)
    (same : sameLetters allowed.toList extension = true) : IsPlain allowed := by
  have noSlash : '/' ∉ extension := fun member =>
    Path.slash_not_mem_of_fileName? last
      (List.mem_append_right _ (List.mem_cons_of_mem _ member))
  rw [IsPlain, mem_iff_of_sameLetters same rfl, mem_iff_of_sameLetters same rfl]
  exact ⟨noDot, noSlash⟩

theorem hasExtension_filter {extension : String} (lost : ¬IsPlain extension) :
    hasExtension (extensions.filter (· != extension)) path = hasExtension extensions path := by
  rw [Bool.eq_iff_iff, hasExtension_iff_fileName?, hasExtension_iff_fileName?]
  constructor
  · rintro ⟨stem, found, last, more, noDot, allowed, member, same⟩
    exact ⟨stem, found, last, more, noDot, allowed, (List.mem_filter.mp member).1, same⟩
  · rintro ⟨stem, found, last, more, noDot, allowed, member, same⟩
    refine ⟨stem, found, last, more, noDot, allowed, List.mem_filter.mpr ⟨member, ?_⟩, same⟩
    rw [bne_iff_ne]
    rintro rfl
    exact lost (isPlain_of_sameLetters last noDot same)

theorem isBareExtension_of_check {s : Settings} (accepted : s.check = .ok ()) {extension : String}
    (member : extension ∈ s.discovery.extensions) : Settings.isBareExtension extension = true := by
  by_contra notBare
  obtain ⟨bad, found⟩ : ∃ bad,
      s.discovery.extensions.find? (!Settings.isBareExtension ·) = some bad := by
    rw [← Option.isSome_iff_exists, List.find?_isSome]
    exact ⟨extension, member, by simpa using notBare⟩
  obtain ⟨fault, faulty⟩ : ∃ fault, s.fault? = some fault := by
    unfold Settings.fault?
    rw [found]
    dsimp only
    repeat' split
    all_goals exact ⟨_, rfl⟩
  rw [Settings.check, faulty] at accepted
  cases accepted

theorem ne_nil_of_check {s : Settings} (accepted : s.check = .ok ()) {extension : String}
    (member : extension ∈ s.discovery.extensions) : extension.toList ≠ [] := by
  intro empty
  have bare := isBareExtension_of_check accepted member
  rw [Settings.isBareExtension, empty] at bare
  cases bare

/-- An accepted extension without a dot and a slash is found on every file that ends in it.
    With one of them it is found on none, so that discovery finds the same without it. -/
theorem accepted_extension_found_iff_plain {s : Settings} (accepted : s.check = .ok ())
    {extension : String} (member : extension ∈ s.discovery.extensions) :
    (IsPlain extension → ∀ dir stem, stem ≠ [] → '/' ∉ stem →
      hasExtension s.discovery.extensions
        (Path.append dir (stem ++ '.' :: extension.toList)) = true) ∧
    (¬IsPlain extension → ∀ path, hasExtension s.discovery.extensions path =
      hasExtension (s.discovery.extensions.filter (· != extension)) path) := by
  constructor
  · intro plain dir stem more noSlash
    exact hasExtension_of_isPlain member (ne_nil_of_check accepted member) plain dir more noSlash
  · intro lost path
    exact (hasExtension_filter lost).symm

/-- One of two accepted extensions is found behind every stem, and the other one nowhere. -/
theorem found_beside_lost_extension :
    let s : Settings := { discovery := { extensions := ["YAML", "tar.gz"] } }
    s.check = .ok () ∧
      (∀ stem, stem ≠ [] → '/' ∉ stem → hasExtension s.discovery.extensions
        (Path.append "/specs".toList (stem ++ ".YAML".toList)) = true) ∧
      ∀ path, hasExtension s.discovery.extensions path = hasExtension ["YAML"] path := by
  intro s
  have accepted : s.check = .ok () := by decide
  have others : s.discovery.extensions.filter (· != "tar.gz") = ["YAML"] := by decide
  have first : "YAML" ∈ s.discovery.extensions := by decide
  have second : "tar.gz" ∈ s.discovery.extensions := by decide
  have found := (accepted_extension_found_iff_plain accepted first).1 (by decide)
  have lost := (accepted_extension_found_iff_plain accepted second).2 (by decide)
  rw [others] at lost
  exact ⟨accepted, found "/specs".toList, lost⟩

/-- A description with an accepted extension is not discovered. -/
theorem accepted_extension_not_found :
    let s : Settings := { discovery := { extensions := ["api.yaml"] } }
    let content := Utf8.encode "openapi: 3.0.0".toList
    let files : FileSystem := ⟨.dir 1 [("pets.api.yaml".toList, .file content 1)], []⟩
    s.check = .ok () ∧ hasExtension s.discovery.extensions "pets.api.yaml".toList = false ∧
      hasMarker files "/pets.api.yaml".toList s.discovery.markerBytes = true ∧
      (discover files s.discovery "file:///flow.yaml").toOption = some [] := by
  decide +kernel

end Discovery

end ApiWorkflow
