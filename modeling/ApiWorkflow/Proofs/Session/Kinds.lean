import ApiWorkflow.Proofs.File.Escape
import ApiWorkflow.Proofs.Session.Spelling
import Mathlib.Data.List.Infix

/-! # The kind of a document and the spelling of its uri

A session takes a document for an API description by what it knows under the key of its uri, so
every spelling of the uri gives one answer. It takes a document for a workflow document by its
text, which it also has under the key, or by a marker in the uri as it is written. A marker of
which a character is escaped is not seen there. This is the only way in which two spellings of
one uri can be of two kinds.
-/

namespace ApiWorkflow.Session

open Text

/-! ## Markers -/

/-- A uri has a marker of workflow documents in it. -/
def Shows (uri : String) : Prop :=
  ∃ marker ∈ nameMarkers, marker <:+: uri.toList

/-- A uri has no marker, but its key has one. -/
def Hides (uri : String) : Prop :=
  Shows (FileUri.key uri) ∧ ¬Shows uri

/-- An open text has the marker of workflow documents in it. -/
def IsMarkedText (text : Option String) : Prop :=
  ∃ content, text = some content ∧ textMarker <:+: content.toList

theorem isMark_of_mem_nameMarkers {marker : List Char} (member : marker ∈ nameMarkers) :
    FileUri.IsMark marker := by
  have solid : ∀ marker ∈ nameMarkers, ∀ c ∈ marker, FileUri.IsSolid c := by
    have all : nameMarkers.all
        (fun marker => marker.all fun c => decide (FileUri.IsSolid c)) = true := by decide
    simpa only [List.all_eq_true, decide_eq_true_eq] using all
  have solid := solid marker member
  rcases List.mem_pair.mp member with rfl | rfl
  · exact ⟨by decide, by decide, solid, by decide, by decide⟩
  · exact ⟨by decide, by decide, solid, by decide, by decide⟩

theorem isWorkflowFile_iff (s : Session) (uri : String) :
    s.isWorkflowFile uri = true ↔ Shows uri ∨ IsMarkedText (s.text? uri) := by
  rw [isWorkflowFile, Bool.or_eq_true, List.any_eq_true, Option.any_eq_true]
  simp only [occursIn_iff, Shows, IsMarkedText]

theorem shows_key {uri : String} (file : FileUri.HasScheme uri.toList) (shows : Shows uri) :
    Shows (FileUri.key uri) := by
  rcases FileUri.key_cases file with same | ⟨path, names, spelled⟩
  · rw [same]
    exact shows
  · obtain ⟨marker, member, stands⟩ := shows
    refine ⟨marker, member, ?_⟩
    rw [spelled]
    exact (isMark_of_mem_nameMarkers member).infix_ofAbsolute file names stands

theorem exists_escapes_of_hides {uri : String} (file : FileUri.HasScheme uri.toList)
    (hides : Hides uri) : ∃ marker ∈ nameMarkers, ∃ c ∈ marker, FileUri.Escapes uri.toList c := by
  obtain ⟨⟨marker, member, stands⟩, hidden⟩ := hides
  rcases FileUri.key_cases file with same | ⟨path, names, spelled⟩
  · rw [same] at stands
    exact absurd ⟨marker, member, stands⟩ hidden
  · rw [spelled] at stands
    refine ⟨marker, member, (isMark_of_mem_nameMarkers member).exists_escapes file names stands ?_⟩
    exact fun shown => hidden ⟨marker, member, shown⟩

theorem shows_iff {uri : String} (file : FileUri.HasScheme uri.toList) :
    Shows uri ↔ Shows (FileUri.key uri) ∧ ¬Hides uri := by
  constructor
  · intro shows
    exact ⟨shows_key file shows, fun hides => hides.2 shows⟩
  · rintro ⟨inKey, notHidden⟩
    by_contra hidden
    exact notHidden ⟨inKey, hidden⟩

/-! ## Kinds -/

theorem isWorkflowFile_eq_iff {u v : String} (leftFile : FileUri.HasScheme u.toList)
    (rightFile : FileUri.HasScheme v.toList) (same : FileUri.key u = FileUri.key v) (s : Session) :
    s.isWorkflowFile u = s.isWorkflowFile v ↔
      IsMarkedText (s.text? u) ∨ (Hides u ↔ Hides v) := by
  rw [Bool.eq_iff_iff, isWorkflowFile_iff, isWorkflowFile_iff, shows_iff leftFile,
    shows_iff rightFile, text?_eq_of_key same, same]
  by_cases marked : IsMarkedText (s.text? v)
  · simp only [marked, or_true, true_or]
  by_cases inKey : Shows (FileUri.key v)
  · simp only [marked, inKey, true_and, or_false, false_or, not_iff_not]
  · -- Without a marker in the key there is none to hide.
    have left : ¬Hides u := fun hides => inKey (same ▸ hides.1)
    have right : ¬Hides v := fun hides => inKey hides.1
    simp only [left, right, inKey, false_and, false_or, or_true]

/-- Whether opening a document with a text reads the descriptions near it. -/
def readsNear (s : Session) (uri text : String) : Bool :=
  (s.store uri text).isWorkflowFile uri

theorem openText_eq (now : Moment) (s : Session) (uri text : String) :
    s.openText now uri text = ((s.store uri text).withCatalog
      (if s.readsNear uri text then (s.catalog.build now s.settings.discovery uri).1
        else s.catalog), s.diagnostics text) := by
  unfold openText readsNear withCatalog
  dsimp only
  split <;> rfl

theorem isMarkedText_store (s : Session) (uri text : String) :
    IsMarkedText ((s.store uri text).text? uri) ↔ textMarker <:+: text.toList := by
  rw [text?, store, Fields.get?_insert_self, IsMarkedText]
  simp only [Option.some.injEq, exists_eq_left']

theorem readsNear_eq_iff {u v : String} (leftFile : FileUri.HasScheme u.toList)
    (rightFile : FileUri.HasScheme v.toList) (same : FileUri.key u = FileUri.key v) (s : Session)
    (text : String) :
    s.readsNear u text = s.readsNear v text ↔
      textMarker <:+: text.toList ∨ (Hides u ↔ Hides v) := by
  rw [readsNear, readsNear, ← store_eq_of_key same, isWorkflowFile_eq_iff leftFile rightFile same,
    isMarkedText_store]

/-- Two spellings of one uri are of one kind, unless one of them hides a marker in escapes and the
    other one does not. -/
theorem kinds_agree_unless_hidden {u v : String} (leftFile : FileUri.HasScheme u.toList)
    (rightFile : FileUri.HasScheme v.toList) (same : FileUri.key u = FileUri.key v) :
    (∀ s : Session,
      s.isDescriptionFile u = s.isDescriptionFile v ∧
      (s.isWorkflowFile u = s.isWorkflowFile v ↔
        IsMarkedText (s.text? u) ∨ (Hides u ↔ Hides v)) ∧
      (∀ text, s.readsNear u text = s.readsNear v text ↔
        textMarker <:+: text.toList ∨ (Hides u ↔ Hides v)) ∧
      ∀ now uri text, s.openText now uri text = ((s.store uri text).withCatalog
        (if s.readsNear uri text then (s.catalog.build now s.settings.discovery uri).1
          else s.catalog), s.diagnostics text)) ∧
    ∀ uri ∈ [u, v], Hides uri →
      ∃ marker ∈ nameMarkers, ∃ c ∈ marker, FileUri.Escapes uri.toList c := by
  refine ⟨?_, ?_⟩
  · intro s
    exact ⟨isDescriptionFile_eq_of_key same s, isWorkflowFile_eq_iff leftFile rightFile same s,
      readsNear_eq_iff leftFile rightFile same s, fun now => openText_eq now s⟩
  · intro uri member hides
    have file : FileUri.HasScheme uri.toList := by
      rcases List.mem_pair.mp member with rfl | rfl
      · exact leftFile
      · exact rightFile
    exact exists_escapes_of_hides file hides

/-- A blank, the name of the host and an escape in front of the marker change nothing. -/
theorem kinds_agree_of_plain_marker :
    let u := "file:///w/pets.arazzo.yaml"
    let v := " file://localhost/w/%70ets.arazzo.yaml"
    FileUri.HasScheme u.toList ∧ FileUri.HasScheme v.toList ∧ FileUri.key u = FileUri.key v ∧
      ∀ s : Session, s.isWorkflowFile u = s.isWorkflowFile v ∧
        ∀ text, s.readsNear u text = s.readsNear v text := by
  intro u v
  have leftFile : FileUri.HasScheme u.toList := by decide
  have rightFile : FileUri.HasScheme v.toList := by decide
  have same : FileUri.key u = FileUri.key v := by decide +kernel
  have left : ¬Hides u := fun hides => hides.2 ⟨_, List.mem_cons_self, by decide⟩
  have right : ¬Hides v := fun hides => hides.2 ⟨_, List.mem_cons_self, by decide⟩
  refine ⟨leftFile, rightFile, same, ?_⟩
  intro s
  obtain ⟨-, workflow, near, -⟩ := (kinds_agree_unless_hidden leftFile rightFile same).1 s
  exact ⟨workflow.mpr (.inr (iff_of_false left right)),
    fun text => (near text).mpr (.inr (iff_of_false left right))⟩

/-- With the point of the marker escaped, a workflow document is not taken for one, and the
    description beside it is not read. -/
theorem kinds_differ_under_escaped_marker :
    let world : Moment := ⟨⟨.dir 1 [("a.json".toList, .file (Catalog.declaring "x") 1)], []⟩, 0⟩
    let u := "file:///pets.arazzo.yaml"
    let v := "file:///pets%2Earazzo.yaml"
    FileUri.key u = FileUri.key v ∧ (new {}).isWorkflowFile u = true ∧
      (new {}).isWorkflowFile v = false ∧
      ((new {}).openText world u "").1.catalog.index.size = 1 ∧
      ((new {}).openText world v "").1.catalog.index.size = 0 := by
  decide +kernel

end ApiWorkflow.Session
