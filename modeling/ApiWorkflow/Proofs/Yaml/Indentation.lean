import ApiWorkflow.Proofs.Yaml.Block
import Mathlib.Data.List.TakeWhile
import Mathlib.Tactic.MkIffOfInductiveProp

/-! # Tokens of indented text

How the scan reads text whose structure is its indentation: bare words, keys and dashes.
`Reads` leads from one place of a text to a later one with the tokens in between, and there
is one lemma for each thing that may stand at a place. The ends and starts of collections are
steps of their own, though the scan adds them to the token that brings them about.
-/

namespace ApiWorkflow.Yaml

/-! ## Words -/

/-- A token starts in this column, or the text ends. A byte-order mark at the start of a line
    starts none. -/
def Halts (column : Nat) (text : List Char) : Prop :=
  ∀ c ∈ text.head?, isGap c = false ∧ isBreak c = false ∧ c ≠ '#' ∧ (column = 0 → c ≠ '\ufeff')

/-- A sign that means something else starts no word, but some signs may go on as one. -/
def startsWord : List Char → Bool
  | [] => false
  | c :: cs => !Scan.isSign c || (['-', '?', ':'].contains c && !cs.isEmpty)

/-- A word that a bare scalar can be. -/
@[mk_iff]
structure Bare (word : List Char) : Prop where
  solid : ∀ c ∈ word, isGap c = false ∧ isBreak c = false
  starts : startsWord word = true
  ends : word.getLast? ≠ some ':'

instance (word : List Char) : Decidable (Bare word) :=
  decidable_of_iff (word.all (fun c => !isGap c && !isBreak c) = true ∧ startsWord word = true ∧
    word.getLast? ≠ some ':') (by simp [bare_iff])

/-- A bare word that can be a key on any line. -/
@[mk_iff]
structure IsKey (word : List Char) : Prop where
  bare : Bare word
  short : word.length ≤ 1024
  noMark : word.head? ≠ some '-' ∧ word.head? ≠ some '.' ∧ word.head? ≠ some '\ufeff'

instance (word : List Char) : Decidable (IsKey word) :=
  decidable_of_iff _ (isKey_iff word).symm

theorem startsWord_eq_true {word : List Char} (starts : startsWord word = true) :
    ∃ c cs, word = c :: cs ∧ (Scan.isSign c = false ∨ c ∈ ['-', '?', ':'] ∧ cs ≠ []) := by
  cases word with
  | nil => cases starts
  | cons c cs =>
    refine ⟨c, cs, rfl, ?_⟩
    simpa only [startsWord, Bool.or_eq_true, Bool.not_eq_true', Bool.and_eq_true,
      List.contains_iff_mem, List.isEmpty_eq_false_iff] using starts

theorem Bare.halts {word : List Char} (bare : Bare word) {column : Nat}
    (clear : column = 0 → word.head? ≠ some '\ufeff') (rest : List Char) :
    Halts column (word ++ rest) := by
  obtain ⟨c, cs, rfl, starts⟩ := startsWord_eq_true bare.starts
  have solid := bare.solid c (by simp)
  intro d head
  cases head
  refine ⟨solid.1, solid.2, ?_, ?_⟩
  · rintro rfl
    rcases starts with noSign | ⟨sign, -⟩
    · exact absurd noSign (by decide)
    · exact absurd sign (by decide)
  · simpa using clear

theorem IsKey.halts {word : List Char} (key : IsKey word) (column : Nat) (rest : List Char) :
    Halts column (word ++ rest) :=
  key.bare.halts (fun _ => key.noMark.2.2) rest

theorem IsKey.isDocumentMark {word : List Char} (key : IsKey word) (rest : List Char) :
    isDocumentMark (word ++ rest) = false := by
  obtain ⟨c, cs, rfl, -⟩ := startsWord_eq_true key.bare.starts
  have noMark := key.noMark
  simp only [List.head?_cons, ne_eq, Option.some.injEq] at noMark
  unfold Yaml.isDocumentMark
  split <;> simp_all

theorem plain_word {word : List Char} (solid : ∀ c ∈ word, isGap c = false ∧ isBreak c = false)
    (ends : word.getLast? ≠ some ':') (indent : Int) (text rest : List Char) (line column : Nat) :
    Token.plain false indent text .nothing line column (word ++ rest) =
      Token.plain false indent (word.reverse ++ text) .nothing line (column + word.length) rest := by
  induction word generalizing text column with
  | nil => rfl
  | cons c cs ih =>
    obtain ⟨⟨noGap, noBreak⟩, others⟩ := List.forall_mem_cons.mp solid
    -- A colon ends the word only before a gap, and no character of the word is one.
    have goesOn : (c == ':' && endsWord (cs ++ rest)) = false := by
      cases cs with
      | nil =>
        have noColon : c ≠ ':' := by simpa using ends
        simp [noColon]
      | cons d ds =>
        obtain ⟨noGap, noBreak⟩ := others d (by simp)
        simp [endsWord, noGap, noBreak]
    have further : cs.getLast? ≠ some ':' := by
      cases cs with
      | nil => simp
      | cons d ds => simpa [List.getLast?_cons_cons] using ends
    rw [List.cons_append, Token.plain]
    simp [noGap, noBreak, goesOn, Between.isNothing, Between.flush, ih others further, Nat.add_assoc,
      Nat.add_comm 1]

theorem plain_colon {cs : List Char} (ends : endsWord cs = true) (indent : Int) (text : List Char)
    (line column : Nat) :
    Token.plain false indent text .nothing line column (':' :: cs) =
      some (text.reverse, ⟨':' :: cs, line, column⟩, false) := by
  rw [Token.plain]
  simp [isBreak, isGap, ends, Between.isNothing, Between.hasBreak]

theorem plain_spaces (indent : Int) (text rest : List Char) (line column count : Nat)
    (first : Option Char) :
    Token.plain false indent text (.breaks first []) line column (List.replicate count ' ' ++ rest) =
      Token.plain false indent text (.breaks first []) line (column + count) rest := by
  induction count generalizing column with
  | zero => rfl
  | succ count ih =>
    rw [List.replicate_succ, List.cons_append, Token.plain]
    simp [isBreak, isGap, Between.addGap, ih, Nat.add_assoc, Nat.add_comm 1]

theorem plain_break {rest : List Char} {indent : Int} {count : Nat} (halts : Halts count rest)
    (outside : count < indent) (text : List Char) (line column : Nat) :
    Token.plain false indent text .nothing line column ('\n' :: (List.replicate count ' ' ++ rest)) =
      some (text.reverse, ⟨rest, line + 1, count⟩, true) := by
  rw [Token.plain]
  simp only [isBreak, beq_self_eq_true, Bool.true_or, ↓reduceIte, Between.addBreak, plain_spaces,
    Nat.zero_add]
  cases rest with
  | nil => rfl
  | cons c cs =>
    obtain ⟨noGap, noBreak, -⟩ := halts c rfl
    rw [Token.plain]
    simp [noGap, noBreak, Between.isNothing, Between.hasBreak, outside]

namespace Scan

theorem readToken_bare {word rest : List Char} (bare : Bare word) {s : Scan}
    (here : s.cursor.rest = word ++ rest) (outside : s.inFlow = false)
    (noMark : s.cursor.column = 0 → isDocumentMark (word ++ rest) = false) :
    s.readToken = s.readPlain := by
  obtain ⟨c, cs, rfl, starts⟩ := startsWord_eq_true bare.starts
  obtain ⟨⟨noGap, noBreak⟩, others⟩ := List.forall_mem_cons.mp bare.solid
  rw [List.cons_append] at here noMark
  have mark : (s.cursor.column == 0 && isDocumentMark (c :: (cs ++ rest))) = false := by
    simpa using noMark
  rw [readToken, here]
  simp only [outside, mark]
  rcases starts with noSign | ⟨sign, goesOn⟩
  · have plain : startsPlain false c (cs ++ rest) = true := by
      simp [startsPlain, noSign, noGap, noBreak]
    simp only [isSign, List.contains_eq_mem, List.mem_cons, List.not_mem_nil,
      decide_eq_false_iff_not, not_or] at noSign
    simp [noSign, plain]
  · obtain ⟨d, ds, rfl⟩ := List.exists_cons_of_ne_nil goesOn
    obtain ⟨nextGap, nextBreak⟩ := others d (by simp)
    simp only [List.mem_cons, List.not_mem_nil, or_false] at sign
    rcases sign with rfl | rfl | rfl <;>
      simp [endsWord, nextGap, nextBreak, startsPlain]

/-! ## Single steps -/

theorem toToken_of_halts {text : List Char} {column : Nat} (halts : Halts column text)
    (allowed : Bool) (line : Nat) :
    toToken false false allowed line column text = (⟨text, line, column⟩, allowed) := by
  cases text with
  | nil => rfl
  | cons c cs =>
    obtain ⟨noGap, noBreak, noComment, noMark⟩ := halts c rfl
    have inLine : (c == '\ufeff' && column == 0) = false := by
      simpa [imp_not_comm] using noMark
    simp only [isGap, Bool.or_eq_false_iff] at noGap
    simp [toToken, noGap, noBreak, noComment, inLine]

theorem toToken_spaces (text : List Char) (allowed : Bool) (line column count : Nat) :
    toToken false false allowed line column (List.replicate count ' ' ++ text) =
      toToken false false allowed line (column + count) text := by
  induction count generalizing column with
  | zero => rfl
  | succ count ih =>
    rw [List.replicate_succ, List.cons_append, toToken]
    simp [isBreak, ih, Nat.add_assoc, Nat.add_comm 1]

theorem tokens_of_next {s t : Scan} (read : s.next = some t) (noKey : t.keys = [none])
    (goesOn : t.ended = false) (bound : Nat) :
    s.tokens (bound + 1) = t.waiting ++
      tokens bound { t with settled := t.settled + t.waiting.length, waiting := [] } := by
  have all : t.settledCount = t.waiting.length := by
    rw [settledCount, noKey]
    rfl
  rw [tokens, read]
  simp [settle, all, goesOn]

theorem tokens_of_advance {s t : Scan} (same : s.advance = t.advance) (bound : Nat) :
    s.tokens bound = t.tokens bound := by
  cases bound with
  | zero => rfl
  | succ bound => simp only [tokens, next, same]

/-- How many collections end at a column. -/
def closing (column : Nat) (indents : List Nat) : Nat :=
  (indents.takeWhile (column < ·)).length

/-- No collection ends at a column. -/
def Within (column : Nat) (indents : List Nat) : Prop :=
  ∀ indent ∈ indents.head?, indent ≤ column

/-- Whether a collection at a column is a new one. -/
def isNew (column : Nat) (indents : List Nat) : Bool :=
  indents.head?.all (· < column)

/-- The open collections with one at a column, and its start if it is a new one. -/
def deeper (column : Nat) (indents : List Nat) : List Nat :=
  if isNew column indents then column :: indents else indents

def starting (token : Token) (column : Nat) (indents : List Nat) : List Token :=
  if isNew column indents then [token] else []

theorem closing_of_within {column : Nat} {indents : List Nat} (within : Within column indents) :
    closing column indents = 0 := by
  cases indents with
  | nil => rfl
  | cons indent indents => simp [closing, within indent rfl]

theorem within_of_isNew {column : Nat} {indents : List Nat} (new : isNew column indents = true) :
    Within column indents := by
  cases indents with
  | nil => simp [Within]
  | cons indent indents =>
    simp only [isNew, List.head?_cons, Option.all_some, decide_eq_true_eq] at new
    simpa [Within] using Nat.le_of_lt new

@[simp]
theorem isNew_self (column : Nat) (indents : List Nat) : isNew column (column :: indents) = false := by
  simp [isNew]

theorem within_self (column : Nat) (indents : List Nat) : Within column (column :: indents) := by
  simp [Within]

theorem indent_lt_iff (s : Scan) (column : Nat) :
    s.indent < column ↔ isNew column s.indents = true := by
  unfold indent isNew
  cases s.indents with
  | nil => simp; omega
  | cons indent indents => simp

theorem roll_eq {s : Scan} (outside : s.keys.length = 1) (column place : Nat) (token : Token) :
    s.roll column place token = { s with
      indents := deeper column s.indents
      waiting := s.waiting.take place ++ starting token column s.indents ++ s.waiting.drop place } := by
  have outside : s.inFlow = false := by simp [inFlow, outside]
  unfold roll deeper starting
  simp only [outside, indent_lt_iff]
  cases isNew column s.indents <;> simp

theorem next_colon {cs : List Char} (ends : endsWord cs = true) {column width : Nat}
    (short : width ≤ 1024) {indents : List Nat} (within : Within column indents) (required : Bool)
    (token : Token) (line settled : Nat) :
    next ⟨⟨':' :: cs, line, column + width⟩, indents, [some ⟨settled, line, column, required⟩], false,
        settled, [token], false⟩ = some
      ⟨⟨cs, line, column + width + 1⟩, deeper column indents, [none], false, settled,
        starting .blockMappingStart column indents ++ [.key, token, .value], false⟩ := by
  have deep : closing (column + width) indents = 0 :=
    closing_of_within fun indent head => Nat.le_add_right_of_le (within indent head)
  simp only [closing, List.length_eq_zero_iff] at deep
  have halts : Halts (column + width) (':' :: cs) := by simp [Halts, isGap, isBreak]
  rw [next]
  simp [advance, inFlow, toToken_of_halts halts, refreshKeys, refreshKey, Nat.not_lt.mpr short, unroll,
    deep, readToken, isDocumentMark, ends, readColon, roll_eq, allowKey, skip, Cursor.skip, push]

end Scan

/-! ## Places between tokens -/

/-- A place in a text where no token waits. -/
structure Spot where
  keyAllowed : Bool
  text : List Char
  column : Nat
  indents : List Nat

namespace Spot

open Scan

/-- The scan that has come to a place, on some line and behind some tokens. -/
def scan (spot : Spot) (line settled : Nat) : Scan :=
  ⟨⟨spot.text, line, spot.column⟩, spot.indents, [none], spot.keyAllowed, settled, [], false⟩

/-- The same scan behind the ends of collections, right before it reads a token. -/
def unrolled (spot : Spot) (line settled : Nat) : Scan :=
  ⟨⟨spot.text, line, spot.column⟩, spot.indents.drop (closing spot.column spot.indents), [none],
    spot.keyAllowed, settled, List.replicate (closing spot.column spot.indents) .blockEnd, false⟩

theorem next_eq {spot : Spot} (halts : Halts spot.column spot.text) (line settled : Nat) :
    (spot.scan line settled).next = (spot.unrolled line settled).readToken.bind refreshKeys := by
  have advanced : (spot.scan line settled).advance = spot.scan line settled := by
    simp [advance, scan, inFlow, toToken_of_halts halts]
  have refreshed : (spot.scan line settled).refreshKeys = some (spot.scan line settled) := rfl
  have closed : (spot.scan line settled).unroll (spot.scan line settled).cursor.column =
      spot.unrolled line settled := by
    simp [unroll, scan, inFlow, unrolled, closing]
  rw [next, advanced, refreshed]
  simp only [Option.bind_eq_bind, Option.bind_some, closed]

theorem next_dash (cs : List Char) (line column settled : Nat) (indents : List Nat) :
    (scan ⟨true, '-' :: ' ' :: cs, column, indents⟩ line settled).next = some
      ⟨⟨' ' :: cs, line, column + 1⟩, deeper column (indents.drop (closing column indents)), [none], true,
       settled, List.replicate (closing column indents) .blockEnd ++
        (starting .blockSequenceStart column (indents.drop (closing column indents)) ++ [.blockEntry]),
       false⟩ := by
  rw [next_eq (by simp [Halts, isGap, isBreak])]
  have dash : (unrolled ⟨true, '-' :: ' ' :: cs, column, indents⟩ line settled).readToken =
      (unrolled ⟨true, '-' :: ' ' :: cs, column, indents⟩ line settled).readDash := by
    simp [unrolled, readToken, endsWord, isDocumentMark, isGap]
  rw [dash, readDash, rollHere, roll_eq rfl]
  simp [unrolled, inFlow, dropKey, allowKey, skip, Cursor.skip, push, refreshKeys, refreshKey]

theorem next_word {word cs : List Char} (key : IsKey word) (ends : endsWord cs = true) {column : Nat}
    {indents : List Nat} (within : Within column indents) (line settled : Nat) :
    ∃ required, (scan ⟨true, word ++ ':' :: cs, column, indents⟩ line settled).next = some
      ⟨⟨':' :: cs, line, column + word.length⟩, indents, [some ⟨settled, line, column, required⟩], false,
        settled, [.scalar .plain (String.ofList word)], false⟩ := by
  refine ⟨(scan ⟨true, word ++ ':' :: cs, column, indents⟩ line settled).indent == column, ?_⟩
  rw [next_eq (key.halts _ _), readToken_bare key.bare rfl rfl (fun _ => key.isDocumentMark _),
    readPlain]
  simp [unrolled, closing_of_within within, markKey, dropKey, inFlow,
    plain_word key.bare.solid key.bare.ends, plain_colon ends, allowKey, push, refreshKeys, refreshKey,
    Nat.not_lt.mpr key.short]
  rfl

theorem next_value {word rest : List Char} (bare : Bare word) {column indent count : Nat}
    (halts : Halts count rest) (indents : List Nat) (inside : indent ≤ column) (back : count ≤ indent)
    (positive : column ≠ 0) (line settled : Nat) :
    (scan ⟨false, word ++ '\n' :: (List.replicate count ' ' ++ rest), column, indent :: indents⟩
      line settled).next = some
      ⟨⟨rest, line + 1, count⟩, indent :: indents, [none], true, settled,
        [.scalar .plain (String.ofList word)], false⟩ := by
  have within : Within column (indent :: indents) := by simpa [Within] using inside
  have back : (count : Int) < indent + 1 := by omega
  rw [next_eq (bare.halts (fun zero => absurd zero positive) _),
    readToken_bare bare rfl rfl (fun zero => absurd zero positive), readPlain]
  simp [unrolled, closing_of_within within, markKey, inFlow, Scan.indent, plain_word bare.solid bare.ends,
    plain_break halts back, allowKey, push, refreshKeys, refreshKey]

theorem tokens_key {word cs : List Char} (key : IsKey word) (ends : endsWord cs = true) {column : Nat}
    {indents : List Nat} (within : Within column indents) (line settled bound : Nat) :
    (scan ⟨true, word ++ ':' :: cs, column, indents⟩ line settled).tokens (bound + 2) =
      starting .blockMappingStart column indents ++
        [.key, .scalar .plain (String.ofList word), .value] ++
        (scan ⟨false, cs, column + word.length + 1, deeper column indents⟩ line
          (settled + ((starting .blockMappingStart column indents).length + 3))).tokens bound := by
  obtain ⟨required, waits⟩ := next_word key ends within line settled
  have colon := next_colon ends key.short within required (.scalar .plain (String.ofList word)) line settled
  have settles := tokens_of_next colon rfl rfl bound
  rw [List.length_append] at settles
  refine Eq.trans ?_ settles
  rw [tokens, waits]
  simp [settle, settledCount]

/-- At the end of the text all collections end. -/
theorem tokens_end (allowed : Bool) (line column settled bound : Nat) (indents : List Nat) :
    (scan ⟨allowed, [], column, indents⟩ line settled).tokens (bound + 1) =
      List.replicate indents.length .blockEnd ++ [.streamEnd] := by
  have all : ∀ indents : List Nat,
      (indents.takeWhile fun indent : Nat => (-1 : Int) < indent) = indents := by
    intro indents
    rw [List.takeWhile_eq_self_iff]
    intro indent _
    simp
    omega
  have fewer : closing column indents ≤ indents.length := (List.takeWhile_sublist _).length_le
  have read : (scan ⟨allowed, [], column, indents⟩ line settled).next = some
      ⟨newLine ⟨[], line, column⟩, [], [none], false, settled,
        List.replicate indents.length .blockEnd ++ [.streamEnd], true⟩ := by
    rw [next_eq (by simp [Halts])]
    simp [unrolled, readToken, readEnd, unroll, inFlow, all, dropKey, allowKey, push, refreshKeys,
      refreshKey, Nat.add_sub_cancel' fewer]
  rw [tokens, read]
  simp [settle, settledCount, List.take_of_length_le]

/-! ## Runs of the scan -/

/-- From one place to a later one, with the tokens in between. Every step takes a character,
    and two steps must be left for the rest. -/
def Reads (spot : Spot) (between : List Token) (later : Spot) : Prop :=
  ∃ steps, steps + later.text.length ≤ spot.text.length ∧ ∀ line settled bound, ∃ line' settled',
    (spot.scan line settled).tokens (bound + 2 + steps) =
      between ++ (later.scan line' settled').tokens (bound + 2)

theorem Reads.append {first second third : Spot} {before behind : List Token}
    (left : Reads first before second) (right : Reads second behind third) :
    Reads first (before ++ behind) third := by
  obtain ⟨steps, fewer, left⟩ := left
  obtain ⟨more, further, right⟩ := right
  refine ⟨steps + more, by omega, ?_⟩
  intro line settled bound
  obtain ⟨line', settled', ran⟩ := left line settled (bound + more)
  obtain ⟨line'', settled'', goesOn⟩ := right line' settled' bound
  have regroup : bound + 2 + (steps + more) = bound + more + 2 + steps := by omega
  have enough : bound + more + 2 = bound + 2 + more := by omega
  exact ⟨line'', settled'', by rw [regroup, ran, enough, goesOn, List.append_assoc]⟩

theorem reads_of_next {spot later : Spot} {between : List Token}
    (shorter : later.text.length < spot.text.length)
    (read : ∀ line settled, ∃ line', (spot.scan line settled).next = some
      ⟨⟨later.text, line', later.column⟩, later.indents, [none], later.keyAllowed, settled, between,
        false⟩) : Reads spot between later := by
  refine ⟨1, by omega, ?_⟩
  intro line settled bound
  obtain ⟨line', read⟩ := read line settled
  exact ⟨line', settled + between.length, tokens_of_next read rfl rfl (bound + 2)⟩

theorem reads_of_tokens {spot later : Spot} {between : List Token}
    (shorter : later.text.length ≤ spot.text.length)
    (tokens : ∀ line settled bound, ∃ line' settled', (spot.scan line settled).tokens (bound + 2) =
      between ++ (later.scan line' settled').tokens (bound + 2)) : Reads spot between later :=
  ⟨0, by omega, tokens⟩

section Layout

variable {column : Nat} {indents : List Nat}

theorem tokens_spaces {rest : List Char} {count : Nat} (halts : Halts (column + count) rest)
    (allowed : Bool) (line settled bound : Nat) :
    (scan ⟨allowed, List.replicate count ' ' ++ rest, column, indents⟩ line settled).tokens bound =
      (scan ⟨allowed, rest, column + count, indents⟩ line settled).tokens bound := by
  refine tokens_of_advance ?_ bound
  simp [advance, scan, inFlow, toToken_spaces, toToken_of_halts halts]

theorem reads_spaces {rest : List Char} (count : Nat) (halts : Halts (column + count) rest)
    (allowed : Bool) :
    Reads ⟨allowed, List.replicate count ' ' ++ rest, column, indents⟩ []
      ⟨allowed, rest, column + count, indents⟩ :=
  reads_of_tokens (by simp) fun line settled bound =>
    ⟨line, settled, tokens_spaces halts allowed line settled (bound + 2)⟩

theorem reads_break (rest : List Char) (allowed : Bool) :
    Reads ⟨allowed, '\n' :: rest, column, indents⟩ [] ⟨true, rest, 0, indents⟩ := by
  refine reads_of_tokens (by simp) fun line settled bound => ⟨line + 1, settled, ?_⟩
  refine tokens_of_advance ?_ (bound + 2)
  simp [advance, scan, inFlow, toToken, isBreak]

/-- The next line is not indented further than `limit`. -/
def Outdented (limit : Nat) (rest : List Char) : Prop :=
  ∃ count tail, rest = List.replicate count ' ' ++ tail ∧ count ≤ limit ∧ Halts count tail

/-- The text ends, or goes on with a dash that is not indented further than `limit`. -/
def Closes (limit : Nat) (rest : List Char) : Prop :=
  ∃ count tail, rest = List.replicate count ' ' ++ tail ∧ count ≤ limit ∧
    (tail = [] ∨ ∃ cs, tail = '-' :: ' ' :: cs)

theorem halts_dash (column : Nat) (cs : List Char) : Halts column ('-' :: ' ' :: cs) := by
  simp [Halts, isGap, isBreak]

theorem Closes.outdented {limit : Nat} {rest : List Char} (closes : Closes limit rest) :
    Outdented limit rest := by
  obtain ⟨count, tail, rfl, back, rfl | ⟨cs, rfl⟩⟩ := closes
  · exact ⟨count, [], rfl, back, by simp [Halts]⟩
  · exact ⟨count, _, rfl, back, halts_dash count cs⟩

theorem Closes.mono {limit more : Nat} {rest : List Char} (closes : Closes limit rest)
    (le : limit ≤ more) : Closes more rest := by
  obtain ⟨count, tail, same, back, shape⟩ := closes
  exact ⟨count, tail, same, Nat.le_trans back le, shape⟩

theorem reads_value {word rest : List Char} (bare : Bare word) {indent : Nat}
    (inside : indent ≤ column) (outdented : Outdented indent rest) :
    Reads ⟨false, ' ' :: (word ++ '\n' :: rest), column, indent :: indents⟩
      [.scalar .plain (String.ofList word)] ⟨true, rest, 0, indent :: indents⟩ := by
  obtain ⟨count, tail, rfl, back, halts⟩ := outdented
  have gap : Reads
      ⟨false, ' ' :: (word ++ '\n' :: (List.replicate count ' ' ++ tail)), column, indent :: indents⟩ []
      ⟨false, word ++ '\n' :: (List.replicate count ' ' ++ tail), column + 1, indent :: indents⟩ :=
    reads_spaces 1 (bare.halts (fun zero => absurd zero (Nat.succ_ne_zero _)) _) false
  refine gap.append ⟨1, by simp; omega, ?_⟩
  intro line settled bound
  have read := next_value bare halts indents (Nat.le_succ_of_le inside) back (Nat.succ_ne_zero _)
    line settled
  refine ⟨line + 1, settled + 1, ?_⟩
  rw [tokens_of_next read rfl rfl, tokens_spaces (by rwa [Nat.zero_add]), Nat.zero_add]
  rfl

theorem reads_dash (cs : List Char) :
    Reads ⟨true, '-' :: ' ' :: cs, column, column :: indents⟩ [.blockEntry]
      ⟨true, ' ' :: cs, column + 1, column :: indents⟩ := by
  refine reads_of_next (by simp) fun line settled => ⟨line, ?_⟩
  rw [next_dash, closing_of_within (within_self column indents)]
  simp [deeper, starting]

theorem reads_sequenceStart (new : isNew column indents = true) (cs : List Char) :
    Reads ⟨true, List.replicate column ' ' ++ '-' :: ' ' :: cs, 0, indents⟩ [.blockSequenceStart]
      ⟨true, List.replicate column ' ' ++ '-' :: ' ' :: cs, 0, column :: indents⟩ := by
  refine reads_of_tokens (Nat.le_refl _) fun line settled bound => ⟨line, settled + 1, ?_⟩
  rw [tokens_spaces (halts_dash _ cs), tokens_spaces (halts_dash _ cs), Nat.zero_add,
    tokens_of_next (next_dash cs line column settled indents) rfl rfl,
    tokens_of_next (next_dash cs line column (settled + 1) (column :: indents)) rfl rfl,
    closing_of_within (within_of_isNew new), closing_of_within (within_self column indents)]
  simp [deeper, starting, new, Nat.add_assoc]

theorem reads_blockEnd_nil (indent : Nat) :
    Reads ⟨true, [], column, indent :: indents⟩ [.blockEnd] ⟨true, [], column, indents⟩ := by
  refine reads_of_tokens (Nat.le_refl _) fun line settled bound => ⟨line, settled, ?_⟩
  rw [tokens_end, tokens_end]
  rfl

/-- A collection ends before a line that is not indented as far. -/
theorem reads_blockEnd {limit indent : Nat} {rest : List Char} (closes : Closes limit rest)
    (outside : limit < indent) :
    Reads ⟨true, rest, 0, indent :: indents⟩ [.blockEnd] ⟨true, rest, 0, indents⟩ := by
  obtain ⟨count, tail, rfl, back, shape⟩ := closes
  refine reads_of_tokens (Nat.le_refl _) fun line settled bound => ⟨line, settled + 1, ?_⟩
  rcases shape with rfl | ⟨cs, rfl⟩
  · have halts : Halts (0 + count) [] := by simp [Halts]
    rw [tokens_spaces halts, tokens_spaces halts, tokens_end, tokens_end]
    rfl
  · have more : closing count (indent :: indents) = closing count indents + 1 := by
      simp [closing, Nat.lt_of_le_of_lt back outside]
    rw [tokens_spaces (halts_dash _ cs), tokens_spaces (halts_dash _ cs), Nat.zero_add,
      tokens_of_next (next_dash cs line count settled (indent :: indents)) rfl rfl,
      tokens_of_next (next_dash cs line count (settled + 1) indents) rfl rfl, more]
    simp [List.replicate_succ, Nat.add_assoc, Nat.add_comm 1]

theorem reads_key {word cs : List Char} (key : IsKey word) (ends : endsWord cs = true) :
    Reads ⟨true, word ++ ':' :: cs, column, column :: indents⟩
      [.key, .scalar .plain (String.ofList word), .value]
      ⟨false, cs, column + word.length + 1, column :: indents⟩ := by
  refine ⟨2, ?_, fun line settled bound => ⟨line, settled + 3, ?_⟩⟩
  · obtain ⟨c, _, rfl, -⟩ := startsWord_eq_true key.bare.starts
    simp
    omega
  · rw [tokens_key key ends (within_self column indents)]
    simp [starting, deeper]

theorem reads_mappingStart {word cs : List Char} (key : IsKey word) (ends : endsWord cs = true)
    (new : isNew column indents = true) :
    Reads ⟨true, word ++ ':' :: cs, column, indents⟩ [.blockMappingStart]
      ⟨true, word ++ ':' :: cs, column, column :: indents⟩ := by
  refine reads_of_tokens (Nat.le_refl _) fun line settled bound => ⟨line, settled + 1, ?_⟩
  rw [tokens_key key ends (within_of_isNew new), tokens_key key ends (within_self column indents)]
  simp [starting, deeper, new, Nat.add_assoc]

theorem reads_pair {name word rest : List Char} (key : IsKey name) (bare : Bare word)
    (outdented : Outdented column rest) :
    Reads ⟨true, name ++ ':' :: ' ' :: (word ++ '\n' :: rest), column, column :: indents⟩
      [.key, .scalar .plain (String.ofList name), .value, .scalar .plain (String.ofList word)]
      ⟨true, rest, 0, column :: indents⟩ :=
  (reads_key key rfl).append (reads_value bare (by omega) outdented)

/-- An item that is a dictionary starts with a dash and its first key. -/
theorem reads_dictItem {name cs : List Char} (key : IsKey name) (ends : endsWord cs = true) :
    Reads ⟨true, List.replicate column ' ' ++ '-' :: ' ' :: (name ++ ':' :: cs), 0, column :: indents⟩
      [.blockEntry, .blockMappingStart]
      ⟨true, name ++ ':' :: cs, column + 2, (column + 2) :: column :: indents⟩ := by
  have indented : Reads
      ⟨true, List.replicate column ' ' ++ '-' :: ' ' :: (name ++ ':' :: cs), 0, column :: indents⟩ []
      ⟨true, '-' :: ' ' :: (name ++ ':' :: cs), 0 + column, column :: indents⟩ :=
    reads_spaces column (halts_dash _ _) true
  rw [Nat.zero_add] at indented
  have gap : Reads ⟨true, ' ' :: (name ++ ':' :: cs), column + 1, column :: indents⟩ []
      ⟨true, name ++ ':' :: cs, column + 2, column :: indents⟩ :=
    reads_spaces 1 (key.halts _ _) true
  have new : isNew (column + 2) (column :: indents) = true := by simp [isNew]
  exact indented.append ((reads_dash _).append (gap.append (reads_mappingStart key ends new)))

end Layout

/-! ## Lists in blocks -/

section Items

variable {α : Type} {column : Nat} {indents : List Nat} {text : α → List Char} {block : α → Block}

/-- Each of these values is written on lines of its own as an item of a list at a column. -/
structure Itemized (column : Nat) (indents : List Nat) (text : α → List Char) (block : α → Block)
    (values : List α) : Prop where
  dash : ∀ a ∈ values, ∃ cs, text a = List.replicate column ' ' ++ '-' :: ' ' :: cs
  reads : ∀ a ∈ values, ∀ rest, Closes column rest →
    Reads ⟨true, text a ++ rest, 0, column :: indents⟩ (.blockEntry :: (block a).tokens)
      ⟨true, rest, 0, column :: indents⟩

theorem reads_itemTokens {values : List α} (itemized : Itemized column indents text block values)
    {rest : List Char} (closes : Closes column rest) :
    Reads ⟨true, values.flatMap text ++ rest, 0, column :: indents⟩
        (Block.itemTokens (values.map block)) ⟨true, rest, 0, column :: indents⟩ ∧
      Closes column (values.flatMap text ++ rest) := by
  induction values with
  | nil => exact ⟨⟨0, by simp, fun line settled bound => ⟨line, settled, rfl⟩⟩, closes⟩
  | cons a values ih =>
    obtain ⟨dash, dashes⟩ := List.forall_mem_cons.mp itemized.dash
    obtain ⟨first, others⟩ := List.forall_mem_cons.mp itemized.reads
    obtain ⟨goesOn, closes⟩ := ih ⟨dashes, others⟩
    rw [List.flatMap_cons, List.append_assoc]
    refine ⟨(first _ closes).append goesOn, ?_⟩
    obtain ⟨cs, starts⟩ := dash
    exact ⟨column, _, by rw [starts, List.append_assoc]; rfl, Nat.le_refl _, .inr ⟨_, rfl⟩⟩

/-- A list as the value of a key. -/
theorem reads_listing {values : List α} (itemized : Itemized column indents text block values)
    (new : isNew column indents = true) {limit : Nat} (outside : limit < column) {rest : List Char}
    (closes : Closes limit rest) (behind : Nat) :
    Reads ⟨false, '\n' :: (values.flatMap text ++ rest), behind, indents⟩
      (Block.listing (values.map block)).tokens ⟨true, rest, 0, indents⟩ := by
  have broken : Reads ⟨false, '\n' :: (values.flatMap text ++ rest), behind, indents⟩ []
    ⟨true, values.flatMap text ++ rest, 0, indents⟩ := reads_break _ _
  obtain ⟨items, -⟩ := reads_itemTokens itemized (closes.mono (Nat.le_of_lt outside))
  cases values with
  | nil => exact broken
  | cons a values =>
    obtain ⟨cs, starts⟩ := itemized.dash a (by simp)
    have opens : Reads ⟨true, (a :: values).flatMap text ++ rest, 0, indents⟩ [.blockSequenceStart]
        ⟨true, (a :: values).flatMap text ++ rest, 0, column :: indents⟩ := by
      rw [List.flatMap_cons, starts, List.append_assoc, List.append_assoc]
      exact reads_sequenceStart new _
    exact broken.append (opens.append (items.append (reads_blockEnd closes outside)))

end Items

theorem uniform_eq_self {cs : List Char} (clean : ∀ c ∈ cs, c ≠ '\r' ∧ c ≠ '\u0085') :
    uniform cs = cs := by
  induction cs with
  | nil => rfl
  | cons c cs ih =>
    obtain ⟨⟨noReturn, noBreak⟩, others⟩ := List.forall_mem_cons.mp clean
    rw [uniform.eq_def]
    split <;> simp_all

/-- The tokens of a text that is read up to its end. -/
theorem ofText_of_reads {cs : List Char} {between : List Token} {column : Nat}
    (clean : ∀ c ∈ cs, isAllowed c = true ∧ c ≠ '\r' ∧ c ≠ '\u0085')
    (reads : Reads ⟨true, cs, 0, []⟩ between ⟨true, [], column, []⟩) :
    Token.ofText cs = between ++ [.streamEnd] := by
  have allowed : cs.all isAllowed = true :=
    List.all_eq_true.mpr fun c member => (clean c member).1
  have same : uniform cs = cs := uniform_eq_self fun c member => (clean c member).2
  have start : Scan.start cs = scan ⟨true, cs, 0, []⟩ 0 0 := rfl
  obtain ⟨steps, fewer, reads⟩ := reads
  obtain ⟨line, settled, read⟩ := reads 0 0 (cs.length - steps)
  have enough : cs.length + 2 = cs.length - steps + 2 + steps := by
    simp only [List.length_nil] at fewer
    omega
  rw [Token.ofText, if_pos allowed]
  simp only [same]
  rw [start, enough, read, tokens_end]
  rfl

end Spot

end ApiWorkflow.Yaml
