import ApiWorkflow.Proofs.Document.Positions
import ApiWorkflow.Proofs.Text.Runs
import ApiWorkflow.Text.Utf8
import Mathlib.Data.List.Forall2
import Mathlib.Order.Lattice.Nat

/-! # What the position map says

The grammar of a line that declares an id, and the map as a statement about all lines of a
text: an id has the last of the lines that declare it in the leftmost column in which the text
declares any id under the same key. So lines that declare something further right can be
replaced by others of their kind, and the map stays as it is.
-/

namespace ApiWorkflow.Positions

open Text

/-! ## Lines that declare an id -/

def Blanks (cs : List Char) : Prop :=
  ∀ c ∈ cs, isBlank c = true

/-- A quote of either kind, or nothing. -/
def MayQuote (cs : List Char) : Prop :=
  cs = [] ∨ ∃ q, isQuote q = true ∧ cs = [q]

/-- A dash with at least one blank behind it, or nothing. -/
def MayDash (cs : List Char) : Prop :=
  cs = [] ∨ ∃ c blanks, isBlank c = true ∧ Blanks blanks ∧ cs = '-' :: c :: blanks

/-- An opening brace with any blanks behind it, or nothing. -/
def MayBrace (cs : List Char) : Prop :=
  cs = [] ∨ ∃ blanks, Blanks blanks ∧ cs = '{' :: blanks

/-- What stands in front of a key. -/
inductive Lead : List Char → Prop where
  | mk {indent dash brace quote : List Char} (indents : Blanks indent) (dashes : MayDash dash)
      (opens : MayBrace brace) (quotes : MayQuote quote) :
      Lead (indent ++ (dash ++ (brace ++ quote)))

/-- What stands behind a key, with the id in it. The id goes on as far as it can. -/
inductive Gives : List Char → List Char → Prop where
  | mk {closing before after opening id rest : List Char} (closes : MayQuote closing)
      (blankBefore : Blanks before) (blankAfter : Blanks after) (opens : MayQuote opening)
      (nonempty : id ≠ []) (inside : ∀ c ∈ id, isIdChar c = true)
      (ends : rest.head?.all (fun c => !isIdChar c) = true) :
      Gives (closing ++ (before ++ ':' :: (after ++ (opening ++ (id ++ rest))))) id

/-- A line declares an id under a key, at the column that is the number of bytes in front of
    the key. -/
inductive Writes (key : List Char) : List Char → Nat → List Char → Prop where
  | mk {front behind id : List Char} (lead : Lead front) (gives : Gives behind id) :
      Writes key (front ++ (key ++ behind)) (Utf8.encode front).length id

/-- A word that nothing of what stands in front of a key can go on into. -/
def IsKey (key : List Char) : Prop :=
  ∃ c cs, key = c :: cs ∧ isIdChar c = true ∧ c ≠ '-'

theorem isKey_workflowId : IsKey "workflowId".toList :=
  ⟨_, _, rfl, rfl, by decide⟩

theorem isKey_stepId : IsKey "stepId".toList :=
  ⟨_, _, rfl, rfl, by decide⟩

theorem width_eq_length_encode (cs : List Char) : width cs = (Utf8.encode cs).length := by
  induction cs with
  | nil => rfl
  | cons c cs ih =>
    have bytes : Utf8.encode (c :: cs) = String.utf8EncodeChar c ++ Utf8.encode cs :=
      List.flatMap_cons
    have first : width (c :: cs) = c.utf8Size + width cs := by
      rw [← List.singleton_append, width_append]
      exact congrArg (· + width cs) (Nat.zero_add _)
    rw [first, ih, bytes, List.length_append, String.length_utf8EncodeChar]

/-! ### Reading a line -/

theorem isQuote_cases {q : Char} (quote : isQuote q = true) : q = '"' ∨ q = '\'' := by
  simpa [isQuote] using quote

theorem classes_of_isIdChar {c : Char} (inside : isIdChar c = true) :
    isBlank c = false ∧ isQuote c = false ∧ c ≠ '{' := by
  simp only [isIdChar, Bool.not_eq_true', Bool.or_eq_false_iff, beq_eq_false_iff_ne] at inside
  exact ⟨inside.1.1.1.1.2, inside.1.1.1.1.1, inside.1.2⟩

theorem head?_all_append {p : Char → Bool} {piece rest : List Char}
    (first : piece.head?.all p = true) (next : rest.head?.all p = true) :
    (piece ++ rest).head?.all p = true := by
  cases piece with
  | nil => exact next
  | cons c piece => exact first

theorem trimStart_append {blanks rest : List Char} (blank : Blanks blanks)
    (solid : rest.head?.all (fun c => !isBlank c) = true) : trimStart (blanks ++ rest) = rest :=
  dropWhile_eq_iff.mpr ⟨blanks, rfl, blank, solid⟩

theorem skipQuote_append {quote rest : List Char} (quotes : MayQuote quote)
    (bare : rest.head?.all (fun c => !isQuote c) = true) : skipQuote (quote ++ rest) = rest := by
  rcases quotes with rfl | ⟨q, isQuote, rfl⟩
  · cases rest with
    | nil => rfl
    | cons c rest =>
      have other : Positions.isQuote c = false := by simpa using bare
      simp [skipQuote, other]
  · simp [skipQuote, isQuote]

theorem skipBrace_append {brace rest : List Char} (opens : MayBrace brace)
    (solid : rest.head?.all (fun c => !isBlank c) = true)
    (other : rest.head?.all (fun c => c != '{') = true) : skipBrace (brace ++ rest) = rest := by
  rcases opens with rfl | ⟨blanks, blank, rfl⟩
  · rw [List.nil_append]
    unfold skipBrace
    split
    · cases other
    · rfl
  · exact trimStart_append blank solid

theorem skipDash_append {dash rest : List Char} (dashes : MayDash dash)
    (solid : rest.head?.all (fun c => !isBlank c) = true)
    (other : rest.head?.all (fun c => c != '-') = true) : skipDash (dash ++ rest) = rest := by
  rcases dashes with rfl | ⟨c, blanks, isBlank, blank, rfl⟩
  · rw [List.nil_append]
    unfold skipDash
    split
    · cases other
    · rfl
  · simp [skipDash, isBlank, trimStart_append blank solid]

theorem MayQuote.head?_all {quote : List Char} (quotes : MayQuote quote) :
    quote.head?.all (fun c => !isBlank c) = true ∧ quote.head?.all (fun c => c != '{') = true ∧
      quote.head?.all (fun c => c != '-') = true := by
  rcases quotes with rfl | ⟨q, isQuote, rfl⟩
  · exact ⟨rfl, rfl, rfl⟩
  · rcases isQuote_cases isQuote with rfl | rfl <;> exact ⟨rfl, rfl, rfl⟩

theorem MayBrace.head?_all {brace : List Char} (opens : MayBrace brace) :
    brace.head?.all (fun c => !isBlank c) = true ∧ brace.head?.all (fun c => c != '-') = true := by
  rcases opens with rfl | ⟨blanks, -, rfl⟩ <;> exact ⟨rfl, rfl⟩

theorem MayDash.head?_all {dash : List Char} (dashes : MayDash dash) :
    dash.head?.all (fun c => !isBlank c) = true := by
  rcases dashes with rfl | ⟨c, blanks, -, -, rfl⟩ <;> rfl

theorem toKey_append {front key : List Char} (lead : Lead front) (isKey : IsKey key)
    (behind : List Char) : toKey (front ++ (key ++ behind)) = key ++ behind := by
  obtain ⟨indents, dashes, opens, quotes⟩ := lead
  rename_i indent dash brace quote
  obtain ⟨c, cs, rfl, inside, noDash⟩ := isKey
  obtain ⟨noBlank, noQuote, noBrace⟩ := classes_of_isIdChar inside
  generalize fromKey : c :: cs ++ behind = rest
  have first : rest.head? = some c := by rw [← fromKey]; rfl
  -- Nothing that is skipped can go on into what is left.
  have bare : rest.head?.all (fun c => !isQuote c) = true := by simp [first, noQuote]
  obtain ⟨solidQuote, braceQuote, dashQuote⟩ := quotes.head?_all
  obtain ⟨solidBrace, dashBrace⟩ := opens.head?_all
  have solid : (quote ++ rest).head?.all (fun c => !isBlank c) = true :=
    head?_all_append solidQuote (by simp [first, noBlank])
  have unbraced : (quote ++ rest).head?.all (fun c => c != '{') = true :=
    head?_all_append braceQuote (by simp [first, noBrace])
  have undashed : (brace ++ (quote ++ rest)).head?.all (fun c => c != '-') = true :=
    head?_all_append dashBrace (head?_all_append dashQuote (by simp [first, noDash]))
  have solidToo : (brace ++ (quote ++ rest)).head?.all (fun c => !isBlank c) = true :=
    head?_all_append solidBrace solid
  simp only [toKey, List.append_assoc]
  rw [trimStart_append indents (head?_all_append dashes.head?_all solidToo),
    skipDash_append dashes solidToo undashed, skipBrace_append opens solid unbraced,
    skipQuote_append quotes bare]

theorem idBehind_of_gives {behind id : List Char} (gives : Gives behind id) :
    idBehind behind = some id := by
  obtain ⟨closes, blankBefore, blankAfter, opens, nonempty, inside, ends⟩ := gives
  rename_i closing before after opening rest
  have noQuote : ∀ {blanks rest : List Char}, Blanks blanks → rest.head?.all (fun c => !isQuote c) = true →
      (blanks ++ rest).head?.all (fun c => !isQuote c) = true := by
    intro blanks rest blank bare
    refine stops_append ?_ bare
    intro c member
    rw [← Bool.not_eq_true]
    intro quote
    have isBlank := blank c member
    rcases isQuote_cases quote with rfl | rfl <;> cases isBlank
  have solidId : (id ++ rest).head?.all (fun c => !isBlank c) = true :=
    stops_of_ne_nil nonempty fun c member => (classes_of_isIdChar (inside c member)).1
  have bareId : (id ++ rest).head?.all (fun c => !isQuote c) = true :=
    stops_of_ne_nil nonempty fun c member => (classes_of_isIdChar (inside c member)).2.1
  have colon : trimStart (skipQuote (closing ++ (before ++ ':' :: (after ++ (opening ++ (id ++ rest)))))) =
      ':' :: (after ++ (opening ++ (id ++ rest))) := by
    rw [skipQuote_append closes (noQuote blankBefore rfl), trimStart_append blankBefore rfl]
  have value : skipQuote (trimStart (after ++ (opening ++ (id ++ rest)))) = id ++ rest := by
    rw [trimStart_append blankAfter (head?_all_append opens.head?_all.1 solidId),
      skipQuote_append opens bareId]
  have read : (id ++ rest).takeWhile isIdChar = id := takeWhile_eq_iff.mpr ⟨rest, rfl, inside, ends⟩
  obtain ⟨c, id, rfl⟩ := List.exists_cons_of_ne_nil nonempty
  simp only [idBehind, colon, value, read]

/-! ### What was read -/

theorem exists_blanks (cs : List Char) : ∃ blanks, Blanks blanks ∧ cs = blanks ++ trimStart cs := by
  obtain ⟨blanks, split, blank, -⟩ := dropWhile_eq_iff.mp (rfl : trimStart cs = trimStart cs)
  exact ⟨blanks, blank, split⟩

theorem exists_mayQuote (cs : List Char) : ∃ quote, MayQuote quote ∧ cs = quote ++ skipQuote cs := by
  unfold skipQuote
  split
  · rename_i c cs
    split
    · rename_i quote
      exact ⟨[c], .inr ⟨c, quote, rfl⟩, rfl⟩
    · exact ⟨[], .inl rfl, rfl⟩
  · exact ⟨[], .inl rfl, rfl⟩

theorem exists_mayBrace (cs : List Char) : ∃ brace, MayBrace brace ∧ cs = brace ++ skipBrace cs := by
  unfold skipBrace
  split
  · rename_i cs
    obtain ⟨blanks, blank, split⟩ := exists_blanks cs
    exact ⟨'{' :: blanks, .inr ⟨blanks, blank, rfl⟩, congrArg ('{' :: ·) split⟩
  · exact ⟨[], .inl rfl, rfl⟩

theorem exists_mayDash (cs : List Char) : ∃ dash, MayDash dash ∧ cs = dash ++ skipDash cs := by
  unfold skipDash
  split
  · rename_i c cs
    split
    · rename_i first
      obtain ⟨blanks, blank, split⟩ := exists_blanks cs
      exact ⟨'-' :: c :: blanks, .inr ⟨c, blanks, first, blank, rfl⟩, congrArg ('-' :: c :: ·) split⟩
    · exact ⟨[], .inl rfl, rfl⟩
  · exact ⟨[], .inl rfl, rfl⟩

theorem exists_lead (line : List Char) : ∃ front, Lead front ∧ line = front ++ toKey line := by
  obtain ⟨indent, indents, first⟩ := exists_blanks line
  obtain ⟨dash, dashes, second⟩ := exists_mayDash (trimStart line)
  obtain ⟨brace, opens, third⟩ := exists_mayBrace (skipDash (trimStart line))
  obtain ⟨quote, quotes, fourth⟩ := exists_mayQuote (skipBrace (skipDash (trimStart line)))
  refine ⟨indent ++ (dash ++ (brace ++ quote)), .mk indents dashes opens quotes, ?_⟩
  calc line = indent ++ trimStart line := first
    _ = indent ++ (dash ++ skipDash (trimStart line)) := by rw [← second]
    _ = indent ++ (dash ++ (brace ++ skipBrace (skipDash (trimStart line)))) := by rw [← third]
    _ = indent ++ (dash ++ (brace ++ (quote ++ toKey line))) := by rw [toKey, ← fourth]
    _ = indent ++ (dash ++ (brace ++ quote)) ++ toKey line := by simp only [List.append_assoc]

theorem gives_of_idBehind {behind id : List Char} (found : idBehind behind = some id) :
    Gives behind id := by
  unfold idBehind at found
  split at found
  · rename_i value colon
    have read : (skipQuote (trimStart value)).takeWhile isIdChar = id ∧ id ≠ [] := by
      split at found
      · cases found
      · rename_i nonempty
        cases found
        exact ⟨rfl, nonempty⟩
    obtain ⟨closing, closes, first⟩ := exists_mayQuote behind
    obtain ⟨before, blankBefore, second⟩ := exists_blanks (skipQuote behind)
    obtain ⟨after, blankAfter, third⟩ := exists_blanks value
    obtain ⟨opening, opens, fourth⟩ := exists_mayQuote (trimStart value)
    obtain ⟨rest, fifth, inside, ends⟩ := takeWhile_eq_iff.mp read.1
    rw [first, second, colon, third, fourth, fifth]
    exact .mk closes blankBefore blankAfter opens read.2 inside ends
  · cases found

theorem declared?_eq_some_iff {key line id : List Char} {column : Nat} (isKey : IsKey key) :
    declared? key line = some (column, id) ↔ Writes key line column id := by
  constructor
  · intro declares
    unfold declared? at declares
    dsimp only at declares
    split at declares
    · cases declares
    · rename_i behind stripped
      obtain ⟨read, found, same⟩ := Option.map_eq_some_iff.mp declares
      cases same
      obtain ⟨front, lead, split⟩ := exists_lead line
      have fromKey : toKey line = key ++ behind := stripPiece_eq_some_iff.mp stripped
      have bytes : width line - width (toKey line) = (Utf8.encode front).length := by
        have total := congrArg width split
        rw [width_append] at total
        rw [← width_eq_length_encode]
        omega
      rw [bytes, split, fromKey]
      exact .mk lead (gives_of_idBehind found)
  · rintro ⟨lead, gives⟩
    rename_i front behind
    have fromKey := toKey_append lead isKey behind
    have stripped : stripPiece key (key ++ behind) = some behind := stripPiece_eq_some_iff.mpr rfl
    have bytes : width (front ++ (key ++ behind)) - width (key ++ behind) =
        (Utf8.encode front).length := by
      rw [width_append, width_eq_length_encode, Nat.add_sub_cancel]
    simp only [declared?, fromKey, stripped, idBehind_of_gives gives, Option.map_some, bytes]

/-! ## The map -/

/-- A line of a text declares an id under a key. -/
def WrittenAt (text key : List Char) (number column : Nat) (id : List Char) : Prop :=
  ∃ line, (lines text)[number]? = some line ∧ Writes key line column id

/-- The columns in which a text declares ids under a key. -/
def columns (text key : List Char) : Set Nat :=
  {column | ∃ number id, WrittenAt text key number column id}

/-- The last line that declares an id in the leftmost of the columns of its key. -/
def IsLastLine (text key id : List Char) (number : Nat) : Prop :=
  ∃ column, IsLeast (columns text key) column ∧
    IsGreatest {n | WrittenAt text key n column id} number

theorem mem_leftmost_iff {found : List (Nat × Nat × List Char)} {number column : Nat}
    {id : List Char} :
    (number, column, id) ∈ leftmost found ↔
      (number, column, id) ∈ found ∧ ∀ entry ∈ found, column ≤ entry.2.1 := by
  unfold leftmost
  split
  · rename_i least isLeast
    obtain ⟨somewhere, below⟩ := List.min?_eq_some_iff.mp isLeast
    obtain ⟨first, isFirst, rfl⟩ := List.mem_map.mp somewhere
    rw [List.mem_filter, beq_iff_eq]
    refine and_congr_right fun member => ⟨?_, ?_⟩
    · rintro rfl entry isEntry
      exact below _ (List.mem_map_of_mem isEntry)
    · intro leftmost
      exact Nat.le_antisymm (leftmost first isFirst) (below _ (List.mem_map_of_mem member))
  · rename_i nothing
    rw [List.min?_eq_none_iff, List.map_eq_nil_iff] at nothing
    simp [nothing]

section

variable {text key : List Char} (isKey : IsKey key)

include isKey

theorem mem_declarations_iff_writtenAt {number column : Nat} {id : List Char} :
    (number, column, id) ∈ declarations key (lines text) ↔ WrittenAt text key number column id := by
  simp only [mem_declarations_iff, declared?_eq_some_iff isKey, WrittenAt]

theorem mem_leftmost_iff_writtenAt {number column : Nat} {id : List Char} :
    (number, column, id) ∈ leftmost (declarations key (lines text)) ↔
      IsLeast (columns text key) column ∧ WrittenAt text key number column id := by
  rw [mem_leftmost_iff, mem_declarations_iff_writtenAt isKey]
  constructor
  · rintro ⟨written, below⟩
    refine ⟨⟨⟨number, id, written⟩, ?_⟩, written⟩
    rintro other ⟨n, otherId, writtenToo⟩
    exact below _ ((mem_declarations_iff_writtenAt isKey).mpr writtenToo)
  · rintro ⟨⟨-, below⟩, written⟩
    refine ⟨written, ?_⟩
    rintro ⟨n, other, otherId⟩ member
    exact below ⟨n, otherId, (mem_declarations_iff_writtenAt isKey).mp member⟩

theorem mem_ofKey_iff_writtenAt {mark id : String} {number : Nat} :
    (mark ++ id, number) ∈ ofKey mark key (lines text) ↔
      ∃ column, IsLeast (columns text key) column ∧ WrittenAt text key number column id.toList := by
  simp only [← mem_leftmost_iff_writtenAt isKey, ofKey, List.mem_map, Prod.exists, Prod.mk.injEq]
  constructor
  · rintro ⟨n, column, cs, member, name, rfl⟩
    have chars : cs = id.toList := by simpa using congrArg String.toList name
    exact ⟨column, chars ▸ member⟩
  · rintro ⟨column, member⟩
    exact ⟨number, column, id.toList, member, by rw [String.ofList_toList], rfl⟩

end

theorem isLastLine_iff {text key id : List Char} {number : Nat} :
    IsLastLine text key id number ↔
      (∃ column, IsLeast (columns text key) column ∧ WrittenAt text key number column id) ∧
        ∀ other, (∃ column, IsLeast (columns text key) column ∧ WrittenAt text key other column id) →
          other ≤ number := by
  constructor
  · rintro ⟨column, least, written, last⟩
    refine ⟨⟨column, least, written⟩, ?_⟩
    rintro other ⟨otherColumn, leastToo, writtenToo⟩
    -- the leftmost column is one for all lines
    rw [leastToo.unique least] at writtenToo
    exact last writtenToo
  · rintro ⟨⟨column, least, written⟩, last⟩
    exact ⟨column, least, written, fun other writtenToo => last other ⟨column, least, writtenToo⟩⟩

theorem get?_scan_workflowMark {text : List Char} {id : String} {number : Nat} :
    (scan text).get? (Document.workflowMark ++ id) = some number ↔
      IsLastLine text "workflowId".toList id.toList number := by
  simp only [get?_scan_iff, mem_entries_workflowMark, mem_ofKey_iff_writtenAt isKey_workflowId,
    isLastLine_iff]

theorem get?_scan_stepMark {text : List Char} {id : String} {number : Nat} :
    (scan text).get? (Document.stepMark ++ id) = some number ↔
      IsLastLine text "stepId".toList id.toList number := by
  simp only [get?_scan_iff, mem_entries_stepMark, mem_ofKey_iff_writtenAt isKey_stepId,
    isLastLine_iff]

theorem mark_of_get?_scan {text : List Char} {name : String} {number : Nat}
    (found : (scan text).get? name = some number) :
    ∃ id, name = Document.workflowMark ++ id ∨ name = Document.stepMark ++ id := by
  have member := (get?_scan_iff.mp found).1
  rw [entries_eq, List.mem_append] at member
  rcases member with member | member
  · obtain ⟨_, _, id, -, -, same⟩ := mem_ofKey member
    exact ⟨String.ofList id, .inl same⟩
  · obtain ⟨_, _, id, -, -, same⟩ := mem_ofKey member
    exact ⟨String.ofList id, .inr same⟩

/-! ## Lines that do not count -/

/-- A line that declares nothing under a key, or something to the right of the leftmost column. -/
def Deeper (text key line : List Char) : Prop :=
  ∀ column id, Writes key line column id → ∃ least, IsLeast (columns text key) least ∧ least < column

/-- Two lines are the same, or neither counts in a text. -/
def Exchanges (text line other : List Char) : Prop :=
  line = other ∨ ∀ key ∈ ["workflowId".toList, "stepId".toList],
    Deeper text key line ∧ Deeper text key other

theorem getElem?_of_forall₂ {α β : Type} {R : α → β → Prop} {left : List α} {right : List β}
    (related : List.Forall₂ R left right) {n : Nat} {a : α} (here : left[n]? = some a) :
    ∃ b, right[n]? = some b ∧ R a b := by
  induction related generalizing n with
  | nil => cases here
  | cons first rest ih =>
    cases n with
    | zero =>
      cases here
      exact ⟨_, rfl, first⟩
    | succ n => exact ih here

/-- Two texts declare the same under a key, up to the leftmost column of the first one. -/
def Agree (text other key : List Char) : Prop :=
  ∀ number column id, (∀ least, IsLeast (columns text key) least → column ≤ least) →
    (WrittenAt text key number column id ↔ WrittenAt other key number column id)

theorem WrittenAt.keep {base text other key : List Char} {number column : Nat} {id : List Char}
    (kept : List.Forall₂ (fun line new => line = new ∨ Deeper base key line) (lines text) (lines other))
    (left : ∀ least, IsLeast (columns base key) least → column ≤ least)
    (written : WrittenAt text key number column id) : WrittenAt other key number column id := by
  obtain ⟨line, here, writes⟩ := written
  obtain ⟨new, there, same | deeper⟩ := getElem?_of_forall₂ kept here
  · exact ⟨new, there, same ▸ writes⟩
  · obtain ⟨least, isLeast, less⟩ := deeper column id writes
    exact absurd (left least isLeast) (Nat.not_le_of_lt less)

theorem agree_of_exchanges {text other key : List Char}
    (isKey : key ∈ ["workflowId".toList, "stepId".toList])
    (exchanged : List.Forall₂ (Exchanges text) (lines text) (lines other)) : Agree text other key := by
  intro number column id left
  constructor
  · exact WrittenAt.keep (exchanged.imp fun _ _ same => same.imp_right fun deeper => (deeper key isKey).1)
      left
  · refine WrittenAt.keep (exchanged.flip.imp ?_) left
    exact fun _ _ same => same.imp Eq.symm fun deeper => (deeper key isKey).2

namespace Agree

variable {text other key : List Char} (agree : Agree text other key)

include agree

theorem isLeast_of_isLeast {column : Nat} (least : IsLeast (columns text key) column) :
    IsLeast (columns other key) column := by
  have left : ∀ c ≤ column, ∀ m, IsLeast (columns text key) m → c ≤ m := by
    intro c small m leastToo
    rw [leastToo.unique least]
    exact small
  obtain ⟨⟨number, id, written⟩, below⟩ := least
  refine ⟨⟨number, id, (agree number column id (left column le_rfl)).mp written⟩, ?_⟩
  rintro c ⟨n, otherId, writtenToo⟩
  rcases Nat.lt_or_ge c column with less | above
  · exact below ⟨n, otherId, (agree n c otherId (left c less.le)).mpr writtenToo⟩
  · exact above

theorem isLeast_iff {column : Nat} :
    IsLeast (columns text key) column ↔ IsLeast (columns other key) column := by
  refine ⟨agree.isLeast_of_isLeast, ?_⟩
  intro least
  rcases (columns text key).eq_empty_or_nonempty with empty | nonempty
  · -- Without a leftmost column the texts agree everywhere, so the other one has none either.
    obtain ⟨number, id, written⟩ := least.1
    have here : column ∈ columns text key := by
      refine ⟨number, id, (agree number column id ?_).mpr written⟩
      intro m leastToo
      rw [empty] at leastToo
      exact absurd leastToo.1 (Set.notMem_empty m)
    rw [empty] at here
    exact absurd here (Set.notMem_empty column)
  · have first := isLeast_csInf nonempty
    rwa [← (agree.isLeast_of_isLeast first).unique least]

theorem isLastLine_iff {id : List Char} {number : Nat} :
    IsLastLine text key id number ↔ IsLastLine other key id number := by
  refine exists_congr fun column => ?_
  rw [← agree.isLeast_iff]
  refine and_congr_right fun least => ?_
  have same : {n | WrittenAt text key n column id} = {n | WrittenAt other key n column id} := by
    ext n
    exact agree n column id fun m leastToo => (leastToo.unique least).ge
  rw [same]

end Agree

/-- The map from ids to lines, for every text: each id has the last of the lines that declare it
    in the leftmost column of its key, nothing else has a line, and no line that declares
    something further right can change that. -/
theorem get?_scan_eq_some_iff_isLastLine (text : List Char) :
    (∀ (id : String) (number : Nat),
      (scan text).get? (Document.workflowMark ++ id) = some number ↔
        IsLastLine text "workflowId".toList id.toList number) ∧
    (∀ (id : String) (number : Nat),
      (scan text).get? (Document.stepMark ++ id) = some number ↔
        IsLastLine text "stepId".toList id.toList number) ∧
    (∀ (name : String) (number : Nat), (scan text).get? name = some number →
      ∃ id, name = Document.workflowMark ++ id ∨ name = Document.stepMark ++ id) ∧
    ∀ other, List.Forall₂ (Exchanges text) (lines text) (lines other) → scan other = scan text := by
  refine ⟨fun _ _ => get?_scan_workflowMark, fun _ _ => get?_scan_stepMark,
    fun _ _ => mark_of_get?_scan, ?_⟩
  intro other exchanged
  have workflows : Agree text other "workflowId".toList :=
    agree_of_exchanges List.mem_cons_self exchanged
  have steps : Agree text other "stepId".toList :=
    agree_of_exchanges (List.mem_cons_of_mem _ List.mem_cons_self) exchanged
  have ordered : ∀ text, (scan text).Ordered := by
    intro text
    rw [scan_eq]
    exact Fields.ordered_ofList _
  apply Fields.eq_of_get?_eq (ordered other) (ordered text)
  intro name
  apply Option.ext
  intro number
  have marked : (∃ id, name = Document.workflowMark ++ id ∨ name = Document.stepMark ++ id) →
      ((scan other).get? name = some number ↔ (scan text).get? name = some number) := by
    rintro ⟨id, rfl | rfl⟩
    · rw [get?_scan_workflowMark, get?_scan_workflowMark, workflows.isLastLine_iff]
    · rw [get?_scan_stepMark, get?_scan_stepMark, steps.isLastLine_iff]
  exact ⟨fun found => (marked (mark_of_get?_scan found)).mp found,
    fun found => (marked (mark_of_get?_scan found)).mpr found⟩

/-- A workflow is declared twice, the second time behind a blank of two bytes, and a step runs
    another one. -/
theorem get?_scan_of_nested_workflow :
    let rows (c : Char) := ["  - workflowId: a".toList, "    steps:".toList,
      "      - stepId: s".toList, "        workflowId: ".toList ++ [c],
      "\u00a0- workflowId : 'a'".toList]
    let text := List.intercalate ['\n'] (rows 'b')
    let other := List.intercalate ['\n'] (rows 'c')
    IsLastLine text "workflowId".toList ['a'] 4 ∧ ¬IsLastLine text "workflowId".toList ['b'] 3 ∧
      List.Forall₂ (Exchanges text) (lines text) (lines other) ∧ scan other = scan text := by
  intro rows text other
  obtain ⟨workflows, -, -, exchange⟩ := get?_scan_eq_some_iff_isLastLine text
  have least : IsLeast (columns text "workflowId".toList) 4 :=
    ((mem_leftmost_iff_writtenAt isKey_workflowId).mp (by decide +kernel :
      (4, 4, ['a']) ∈ leftmost (declarations "workflowId".toList (lines text)))).1
  have deeper : ∀ c, (c = 'b' ∨ c = 'c') → ∀ key ∈ ["workflowId".toList, "stepId".toList],
      Deeper text key ("        workflowId: ".toList ++ [c]) := by
    intro c isLetter key isKey column id writes
    rcases List.mem_cons.mp isKey with rfl | isStepId
    · refine ⟨4, least, ?_⟩
      have declares := (declared?_eq_some_iff isKey_workflowId).mpr writes
      rcases isLetter with rfl | rfl
      all_goals
        cases declares
        decide
    · cases List.mem_singleton.mp isStepId
      have declares := (declared?_eq_some_iff isKey_stepId).mpr writes
      rcases isLetter with rfl | rfl <;> cases declares
  have exchanged : List.Forall₂ (Exchanges text) (lines text) (lines other) := by
    have split : lines text = rows 'b' ∧ lines other = rows 'c' := by decide +kernel
    rw [split.1, split.2]
    have same : ∀ line, Exchanges text line line := fun _ => .inl rfl
    exact .cons (same _) (.cons (same _) (.cons (same _) (.cons (.inr fun key isKey =>
      ⟨deeper 'b' (.inl rfl) key isKey, deeper 'c' (.inr rfl) key isKey⟩) (.cons (same _) .nil))))
  have found : (scan text).get? "workflow:a" = some 4 := by decide +kernel
  have missing : (scan text).get? "workflow:b" = none := by decide +kernel
  refine ⟨(workflows "a" 4).mp found, ?_, exchanged, exchange other exchanged⟩
  intro last
  cases missing.symm.trans ((workflows "b" 3).mpr last)

end ApiWorkflow.Positions
