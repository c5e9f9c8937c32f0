import ApiWorkflow.Proofs.Text.Runs
import ApiWorkflow.Settings.Load
import Mathlib.Data.Nat.Digits.Defs

/-! # Settings from the environment

A variable of the environment gives what stands between the blanks around it, and a blank one
gives nothing. A variable for a number has to spell it in digits, perhaps behind a plus sign,
and the number has to fit 64 bits. Exactly then the settings are replaced, by what the variables
give and nowhere else. Settings are loaded from a file, or are the default ones, are replaced in
this way and checked.
-/

namespace ApiWorkflow.Settings

open Text

/-! ## Numerals -/

/-- The number that digits spell in the decimal system. -/
def decimal (digits : List Char) : Nat :=
  Nat.ofDigits 10 (digits.reverse.map fun c => c.toNat - '0'.toNat)

/-- Digits, perhaps behind a plus sign, and the number of 64 bits that they spell. -/
inductive Numeral : List Char → Nat → Prop where
  | mk {sign digits : List Char} (signed : sign = [] ∨ sign = ['+']) (nonempty : digits ≠ [])
      (areDigits : ∀ c ∈ digits, c.isDigit = true) (fits : decimal digits ≤ 2 ^ 64 - 1) :
      Numeral (sign ++ digits) (decimal digits)

theorem isDigit_iff {c : Char} : c.isDigit = true ↔ 0x30 ≤ c.toNat ∧ c.toNat ≤ 0x39 := by
  rw [Char.isDigit, Bool.and_eq_true, decide_eq_true_eq, decide_eq_true_eq]
  rfl

theorem digit?_ten (c : Char) :
    digit? 10 c = if c.isDigit then some (c.toNat - '0'.toNat) else none := by
  have zero : '0'.toNat = 0x30 := rfl
  have digit := isDigit_iff (c := c)
  simp only [digit?, zero, Bool.and_eq_true, decide_eq_true_eq]
  grind

theorem decimal_cons (c : Char) (cs : List Char) :
    decimal (c :: cs) = (c.toNat - '0'.toNat) * 10 ^ cs.length + decimal cs := by
  rw [decimal, List.reverse_cons, List.map_append, Nat.ofDigits_append, List.length_map,
    List.length_reverse, List.map_singleton, Nat.ofDigits_singleton, decimal]
  ring

theorem numeralAfter?_eq_some_iff {value n : Nat} {cs : List Char} :
    numeralAfter? 10 value cs = some n ↔
      (∀ c ∈ cs, c.isDigit = true) ∧ n = value * 10 ^ cs.length + decimal cs := by
  induction cs generalizing value with
  | nil =>
    have zero : decimal [] = 0 := rfl
    rw [numeralAfter?, Option.some.injEq, List.length_nil, Nat.pow_zero, Nat.mul_one, zero,
      Nat.add_zero, and_iff_right (List.forall_mem_nil _)]
    exact eq_comm
  | cons c cs ih =>
    rw [numeralAfter?, digit?_ten]
    cases digit : c.isDigit with
    | false => simp [digit]
    | true =>
      have shifted : (value * 10 + (c.toNat - '0'.toNat)) * 10 ^ cs.length + decimal cs =
          value * 10 ^ (cs.length + 1) + decimal (c :: cs) := by
        rw [decimal_cons]
        ring
      rw [if_pos rfl]
      simp only [ih, List.forall_mem_cons, digit, true_and, List.length_cons, shifted]

theorem numeral?_eq_some_iff {n : Nat} {cs : List Char} :
    numeral? 10 cs = some n ↔ cs ≠ [] ∧ (∀ c ∈ cs, c.isDigit = true) ∧ n = decimal cs := by
  cases cs with
  | nil => simp [numeral?]
  | cons c cs =>
    rw [numeral?, numeralAfter?_eq_some_iff, Nat.zero_mul, Nat.zero_add]
    · simp
    · simp

theorem natural?_append {sign digits : List Char} (signed : sign = [] ∨ sign = ['+'])
    (areDigits : ∀ c ∈ digits, c.isDigit = true) :
    natural? (sign ++ digits) = (numeral? 10 digits).filter (· < wordBound 64) := by
  rcases signed with rfl | rfl
  · rw [List.nil_append, natural?]
    -- what starts with a plus sign has a character that is no digit
    rintro rest rfl
    have digit : '+'.isDigit = true := areDigits '+' List.mem_cons_self
    cases digit
  · rfl

theorem exists_sign (cs : List Char) : ∃ sign digits, (sign = [] ∨ sign = ['+']) ∧
    cs = sign ++ digits ∧ natural? cs = (numeral? 10 digits).filter (· < wordBound 64) := by
  unfold natural?
  split
  · rename_i digits
    exact ⟨['+'], digits, .inr rfl, rfl, rfl⟩
  · exact ⟨[], cs, .inl rfl, rfl, rfl⟩

theorem natural?_eq_some_iff {n : Nat} {cs : List Char} : natural? cs = some n ↔ Numeral cs n := by
  have bound : wordBound 64 = 2 ^ 64 := rfl
  constructor
  · intro read
    obtain ⟨sign, digits, signed, rfl, same⟩ := exists_sign cs
    rw [same, Option.filter_eq_some_iff, decide_eq_true_eq, bound, numeral?_eq_some_iff] at read
    obtain ⟨⟨nonempty, areDigits, rfl⟩, small⟩ := read
    exact .mk signed nonempty areDigits (Nat.le_sub_one_of_lt small)
  · rintro ⟨signed, nonempty, areDigits, fits⟩
    rw [natural?_append signed areDigits, Option.filter_eq_some_iff, decide_eq_true_eq, bound]
    exact ⟨numeral?_eq_some_iff.mpr ⟨nonempty, areDigits, rfl⟩, by omega⟩

/-! ## Variables -/

variable {env : Environment} {key : String}

/-- A variable is not set, or set to blanks only. -/
inductive Silent (env : Environment) (key : String) : Prop where
  | unset (unset : env key = none)
  | blank {value : String} (set : env key = some value)
      (blank : ∀ c ∈ value.toList, isBlank c = true)

/-- A variable gives a text: it is set to the text with blanks around it, and the text neither
    starts nor ends with a blank. -/
inductive Gives (env : Environment) (key : String) : List Char → Prop where
  | mk {value : String} {before text after : List Char} (set : env key = some value)
      (cut : value.toList = before ++ (text ++ after))
      (blankBefore : ∀ c ∈ before, isBlank c = true) (blankAfter : ∀ c ∈ after, isBlank c = true)
      (nonempty : text ≠ []) (starts : text.head?.all (fun c => !isBlank c) = true)
      (ends : text.getLast?.all (fun c => !isBlank c) = true) : Gives env key text

/-- A variable is silent or gives a number. -/
def Readable (env : Environment) (key : String) : Prop :=
  Silent env key ∨ ∃ text n, Gives env key text ∧ Numeral text n

theorem isBlankString_iff {value : String} :
    isBlankString value = true ↔ ∀ c ∈ value.toList, isBlank c = true := by
  rw [isBlankString, isBlankText, List.isEmpty_iff, trim_eq_iff]
  constructor
  · rintro ⟨before, after, cut, blankBefore, blankAfter, -, -⟩
    rw [cut, List.nil_append]
    exact List.forall_mem_append.mpr ⟨blankBefore, blankAfter⟩
  · intro blank
    exact ⟨value.toList, [], (List.append_nil _).symm, blank, List.forall_mem_nil _, rfl, rfl⟩

theorem valueIn_eq_none_iff : valueIn env key = none ↔ Silent env key := by
  unfold valueIn
  constructor
  · intro missing
    split at missing
    · rename_i value set
      split at missing
      · rename_i blank
        exact .blank set (isBlankString_iff.mp blank)
      · cases missing
    · rename_i unset
      exact .unset unset
  · rintro (unset | ⟨set, blank⟩)
    · rw [unset]
    · rw [set]
      exact if_pos (isBlankString_iff.mpr blank)

theorem valueIn_eq_some_iff {text : String} :
    valueIn env key = some text ↔ Gives env key text.toList := by
  unfold valueIn
  constructor
  · intro found
    split at found
    · rename_i value set
      split at found
      · cases found
      · rename_i solid
        cases found
        obtain ⟨before, after, cut, blankBefore, blankAfter, starts, ends⟩ :=
          trim_eq_iff.mp (rfl : trim value.toList = trim value.toList)
        rw [isBlankString, isBlankText, List.isEmpty_iff] at solid
        rw [trimmed, String.toList_ofList]
        exact .mk set cut blankBefore blankAfter solid starts ends
    · cases found
  · rintro ⟨set, cut, blankBefore, blankAfter, nonempty, starts, ends⟩
    rename_i value before after
    have kept : trim value.toList = text.toList :=
      trim_eq_iff.mpr ⟨before, after, cut, blankBefore, blankAfter, starts, ends⟩
    rw [set]
    dsimp only
    rw [if_neg, trimmed, kept, String.ofList_toList]
    rwa [isBlankString, isBlankText, List.isEmpty_iff, kept]

/-- A setting for which there is a variable: it is read from what the variable gives, or else
    stays as it was. -/
inductive Replaced {α : Type} (env : Environment) (key : String) (Reads : List Char → α → Prop)
    (old : α) : α → Prop where
  | kept (silent : Silent env key) : Replaced env key Reads old old
  | given {text : List Char} {new : α} (gives : Gives env key text) (reads : Reads text new) :
      Replaced env key Reads old new

theorem Replaced.again {α : Type} {Reads : List Char → α → Prop} {old new : α}
    (replaced : Replaced env key Reads old new) : Replaced env key Reads new new := by
  cases replaced with
  | kept silent => exact .kept silent
  | given gives reads => exact .given gives reads

theorem replaced_text_iff {old new : String} :
    Replaced env key (fun text new => new.toList = text) old new ↔
      (valueIn env key).getD old = new := by
  constructor
  · intro replaced
    cases replaced with
    | kept silent => rw [valueIn_eq_none_iff.mpr silent, Option.getD_none]
    | given gives reads =>
      subst reads
      rw [valueIn_eq_some_iff.mpr gives, Option.getD_some]
  · rintro rfl
    cases found : valueIn env key with
    | none => exact .kept (valueIn_eq_none_iff.mp found)
    | some text => exact .given (valueIn_eq_some_iff.mp found) rfl

theorem replaced_number_iff {old new : Nat} :
    Replaced env key Numeral old new ↔
      ∃ number, numberIn env key = .ok number ∧ number.getD old = new := by
  unfold numberIn
  constructor
  · intro replaced
    cases replaced with
    | kept silent => exact ⟨none, by rw [valueIn_eq_none_iff.mpr silent], rfl⟩
    | @given text _ gives reads =>
      rw [← String.toList_ofList (l := text)] at gives
      refine ⟨some new, ?_, rfl⟩
      rw [valueIn_eq_some_iff.mpr gives]
      dsimp only
      rw [String.toList_ofList, natural?_eq_some_iff.mpr reads]
  · rintro ⟨number, read, rfl⟩
    split at read
    · rename_i silent
      cases read
      exact .kept (valueIn_eq_none_iff.mp silent)
    · rename_i text found
      split at read
      · rename_i n spelled
        cases read
        exact .given (valueIn_eq_some_iff.mp found) (natural?_eq_some_iff.mp spelled)
      · cases read

theorem readable_iff (old : Nat) : Readable env key ↔ ∃ new, Replaced env key Numeral old new := by
  constructor
  · rintro (silent | ⟨text, n, gives, reads⟩)
    · exact ⟨old, .kept silent⟩
    · exact ⟨n, .given gives reads⟩
  · rintro ⟨new, replaced⟩
    cases replaced with
    | kept silent => exact .inl silent
    | given gives reads => exact .inr ⟨_, new, gives, reads⟩

/-! ## All settings -/

/-- Settings with other values of those that variables replace. -/
def withValues (s : Settings) (logLevel : String) (lifetime maxDepth : Nat) : Settings :=
  { s with
    logLevel := logLevel
    cache := { s.cache with lifetime := lifetime }
    discovery := { s.discovery with maxDepth := maxDepth } }

/-- Settings after the variables were looked at: each of the three is replaced by its variable,
    and all others are as before. -/
structure Overridden (env : Environment) (s t : Settings) : Prop where
  logLevel : Replaced env logLevelKey (fun text new => new.toList = text) s.logLevel t.logLevel
  lifetime : Replaced env lifetimeKey Numeral s.cache.lifetime t.cache.lifetime
  maxDepth : Replaced env maxDepthKey Numeral s.discovery.maxDepth t.discovery.maxDepth
  others : t = s.withValues t.logLevel t.cache.lifetime t.discovery.maxDepth

theorem override_eq_ok_iff_exists {s t : Settings} :
    s.override env = .ok t ↔ ∃ lifetime maxDepth, numberIn env lifetimeKey = .ok lifetime ∧
      numberIn env maxDepthKey = .ok maxDepth ∧
      t = s.withValues ((valueIn env logLevelKey).getD s.logLevel)
        (lifetime.getD s.cache.lifetime) (maxDepth.getD s.discovery.maxDepth) := by
  unfold override
  cases numberIn env lifetimeKey with
  | error fault => simp [bind, Except.bind]
  | ok lifetime =>
    cases numberIn env maxDepthKey with
    | error fault => simp [bind, Except.bind]
    | ok maxDepth =>
      simp only [bind, Except.bind, pure, Except.pure, Except.ok.injEq, exists_and_left,
        exists_eq_left']
      exact eq_comm

theorem override_eq_ok_iff {s t : Settings} : s.override env = .ok t ↔ Overridden env s t := by
  rw [override_eq_ok_iff_exists]
  constructor
  · rintro ⟨lifetime, maxDepth, readLifetime, readDepth, rfl⟩
    exact ⟨replaced_text_iff.mpr rfl, replaced_number_iff.mpr ⟨lifetime, readLifetime, rfl⟩,
      replaced_number_iff.mpr ⟨maxDepth, readDepth, rfl⟩, rfl⟩
  · rintro ⟨logLevel, lifetime, maxDepth, others⟩
    obtain ⟨lifetimeNumber, readLifetime, newLifetime⟩ := replaced_number_iff.mp lifetime
    obtain ⟨depthNumber, readDepth, newDepth⟩ := replaced_number_iff.mp maxDepth
    refine ⟨lifetimeNumber, depthNumber, readLifetime, readDepth, ?_⟩
    rw [replaced_text_iff.mp logLevel, newLifetime, newDepth]
    exact others

theorem Overridden.again {s t : Settings} (replaced : Overridden env s t) : Overridden env t t :=
  ⟨replaced.logLevel.again, replaced.lifetime.again, replaced.maxDepth.again, rfl⟩

theorem exists_overridden_iff {s : Settings} :
    (∃ t, Overridden env s t) ↔ ∀ key ∈ [lifetimeKey, maxDepthKey], Readable env key := by
  rw [List.forall_mem_cons, List.forall_mem_singleton, readable_iff s.cache.lifetime,
    readable_iff s.discovery.maxDepth]
  constructor
  · rintro ⟨t, replaced⟩
    exact ⟨⟨_, replaced.lifetime⟩, ⟨_, replaced.maxDepth⟩⟩
  · rintro ⟨⟨lifetime, newLifetime⟩, ⟨maxDepth, newDepth⟩⟩
    exact ⟨s.withValues ((valueIn env logLevelKey).getD s.logLevel) lifetime maxDepth,
      replaced_text_iff.mpr rfl, newLifetime, newDepth, rfl⟩

/-! ## Loading -/

/-- The settings with which loading starts: those that the text of a file stands for, or the
    default ones. -/
inductive Base (files : FileSystem) : Option String → Settings → Prop where
  | default : Base files none {}
  | file {path : String} {text : List Char} {base : Settings}
      (read : files.readText path.toList = .ok text) (stands : ofToml? text = some base) :
      Base files (some path) base

theorem base_some_iff {files : FileSystem} {path : String} {base : Settings} :
    Base files (some path) base ↔ ofFile files path = .ok base := by
  unfold ofFile
  constructor
  · rintro ⟨⟩
    rename_i stands read
    simp only [read, stands]
  · intro loaded
    split at loaded
    · cases loaded
    · rename_i text read
      split at loaded
      · rename_i settings stands
        cases loaded
        exact .file read stands
      · cases loaded

theorem override_and_check_eq_ok_iff {base t : Settings} :
    (do let settings ← base.override env; settings.check; pure settings) = .ok t ↔
      Overridden env base t ∧ t.check = .ok () := by
  rw [← override_eq_ok_iff]
  cases base.override env with
  | error fault => simp [bind, Except.bind]
  | ok settings =>
    simp only [bind, Except.bind, pure, Except.pure, Except.ok.injEq]
    cases checked : settings.check with
    | error fault =>
      refine iff_of_false (by simp) ?_
      rintro ⟨rfl, accepted⟩
      rw [checked] at accepted
      cases accepted
    | ok _ =>
      constructor
      · rintro ⟨⟩
        exact ⟨rfl, checked⟩
      · rintro ⟨rfl, -⟩
        rfl

theorem load_eq_ok_iff {files : FileSystem} {path : Option String} {t : Settings} :
    load files env path = .ok t ↔
      ∃ base, Base files path base ∧ Overridden env base t ∧ t.check = .ok () := by
  simp only [← override_and_check_eq_ok_iff]
  unfold load
  constructor
  · intro loaded
    cases path with
    | none => exact ⟨{}, .default, loaded⟩
    | some path =>
      cases read : ofFile files path with
      | error fault =>
        simp only [read] at loaded
        cases loaded
      | ok base =>
        simp only [read] at loaded
        exact ⟨base, base_some_iff.mpr read, loaded⟩
  · rintro ⟨base, start, loaded⟩
    cases path with
    | none =>
      cases start
      exact loaded
    | some path =>
      simp only [base_some_iff.mp start]
      exact loaded

/-- Settings are replaced exactly if each of the two variables for numbers is silent or spells a
    number. Then each variable that is not silent has replaced its setting and nothing else is
    changed, so that doing it again changes nothing. Loaded settings are what comes of those of
    the file, or of the default ones, if they pass the check. -/
theorem environment_overrides_exactly (env : Environment) :
    (∀ s : Settings,
      ((∃ t, s.override env = .ok t) ↔ ∀ key ∈ [lifetimeKey, maxDepthKey], Readable env key) ∧
      ∀ t, s.override env = .ok t → Overridden env s t ∧ t.override env = .ok t) ∧
    ∀ files path t, load files env path = .ok t ↔
      ∃ base, Base files path base ∧ Overridden env base t ∧ t.check = .ok () := by
  refine ⟨fun s => ⟨?_, ?_⟩, fun files path t => load_eq_ok_iff⟩
  · simp only [override_eq_ok_iff]
    exact exists_overridden_iff
  · intro t done
    have replaced := override_eq_ok_iff.mp done
    exact ⟨replaced, override_eq_ok_iff.mpr replaced.again⟩

/-- The text of a file with settings, and files with it among them. -/
def written : List Char :=
  "[discovery]\nmax_depth = 3\n[cache]\nttl_seconds = 5\n".toList

def configured : FileSystem where
  root := .dir 0 [("settings.toml".toList, .file (Text.Utf8.encode written) 0)]
  workDir := []

/-- The greatest number of 64 bits is read behind a plus sign and zeros, with blanks of several
    kinds around it, and replaces that of a file. One more is too much. -/
theorem environment_overrides_to_greatest_number :
    let env (lifetime : String) : Environment := fun key =>
      [(lifetimeKey, lifetime), (maxDepthKey, "\u2003\n"), (logLevelKey, " debug\t")].lookup key
    let greatest := env "\u3000+00018446744073709551615 "
    let t : Settings := { logLevel := "debug", cache := { lifetime := 18446744073709551615 } }
    override greatest {} = .ok t ∧ Overridden greatest {} t ∧ t.override greatest = .ok t ∧
      (∀ files, load files greatest none = .ok t) ∧
      load configured greatest (some "/settings.toml") = .ok (t.withValues "debug" (2 ^ 64 - 1) 3) ∧
      ¬∀ key ∈ [lifetimeKey, maxDepthKey], Readable (env "18446744073709551616") key := by
  intro env greatest t
  have done : override greatest {} = .ok t := by decide +kernel
  have checked : t.check = .ok () := by decide +kernel
  obtain ⟨replacing, loading⟩ := environment_overrides_exactly greatest
  obtain ⟨replaced, again⟩ := (replacing {}).2 t done
  refine ⟨done, replaced, again, fun files => ?_, ?_, ?_⟩
  · exact (loading files none t).mpr ⟨{}, .default, replaced, checked⟩
  · let base : Settings := { cache := { lifetime := 5 }, discovery := { maxDepth := 3 } }
    have read : configured.readText "/settings.toml".toList = .ok written := by decide +kernel
    have stands : ofToml? written = some base := by decide +kernel
    have done : base.override greatest = .ok (t.withValues "debug" (2 ^ 64 - 1) 3) := by
      decide +kernel
    exact (loading configured (some "/settings.toml") _).mpr
      ⟨base, .file read stands, ((replacing base).2 _ done).1, by decide +kernel⟩
  · rw [← ((environment_overrides_exactly (env "18446744073709551616")).1 {}).1]
    rintro ⟨u, tooMuch⟩
    have fails : (override (env "18446744073709551616") {}).toOption = none := by decide +kernel
    rw [tooMuch] at fails
    cases fails

end ApiWorkflow.Settings
