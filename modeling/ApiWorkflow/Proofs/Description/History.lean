import ApiWorkflow.Proofs.Catalog.Reading
import ApiWorkflow.Proofs.File.Key
import ApiWorkflow.Proofs.History

/-! # The cache as a history

Some calls of a cache spell a uri canonically and refuse it if it has no such spelling, the
others take its key. They agree: under a key is what was stored last with a uri of that key,
unless it was forgotten since, and its count is the number of times that it was served since.
It is served as long as the file has the time of change that it had when it was stored.
-/

namespace ApiWorkflow.DescriptionCache

/-- What can be asked of a cache. -/
inductive Call where
  | get (uri : String)
  | put (uri : String) (description : ApiDescription)
  | invalidate (uri : String)
  | clear
  | hits (uri : String)
  | stats

/-- What a call is answered with. -/
inductive Reply where
  | served (description : Option ApiDescription)
  | stored (result : Except Error Unit)
  | hits (count : Option Nat)
  | stats (entries hits : Nat)
  | done

/-- The cache after a call, with the reply. -/
def answer (cache : DescriptionCache) (now : Moment) : Call → DescriptionCache × Reply
  | .get uri => (cache.get now uri).map id .served
  | .put uri description =>
    match cache.put now uri description with
    | .ok next => (next, .stored (.ok ()))
    | .error e => (cache, .stored (.error e))
  | .invalidate uri => (cache.invalidate uri, .done)
  | .clear => (cache.clear, .done)
  | .hits uri => (cache, .hits (cache.hits? uri))
  | .stats => (cache, .stats cache.size cache.totalHits)

/-- A call with the world at its time and the reply. -/
structure Line where
  now : Moment
  call : Call
  reply : Reply

/-- The cache after some calls. -/
def after (cache : DescriptionCache) (events : List (Moment × Call)) : DescriptionCache :=
  events.foldl (fun cache event => (cache.answer event.1 event.2).1) cache

/-- What was asked of a cache and answered. -/
def log (cache : DescriptionCache) : List (Moment × Call) → List Line
  | [] => []
  | (now, call) :: events =>
    let next := cache.answer now call
    ⟨now, call, next.2⟩ :: next.1.log events

/-- A call that puts a description under a key: the file has the time of change and the clock
    the time that an entry has. -/
inductive Stores (key : String) (entry : CacheEntry) : Line → Prop where
  | put {now : Moment} {uri : String} (same : FileUri.key uri = key)
    (changed : modified now.files key.toList = .ok entry.modified) (time : now.time = entry.storedAt) :
    Stores key entry ⟨now, .put uri entry.description, .stored (.ok ())⟩

/-- A call behind which what was under a key is no longer there. -/
inductive Ends (key : String) : Line → Prop where
  | put {now : Moment} {uri : String} {description : ApiDescription} (same : FileUri.key uri = key) :
    Ends key ⟨now, .put uri description, .stored (.ok ())⟩
  | invalidate {now : Moment} {uri : String} {reply : Reply} (same : FileUri.key uri = key) :
    Ends key ⟨now, .invalidate uri, reply⟩
  | clear {now : Moment} {reply : Reply} : Ends key ⟨now, .clear, reply⟩

/-- A call that was served what is under a key. -/
def isServed (key : String) : Line → Bool
  | ⟨_, .get uri, .served (some _)⟩ => FileUri.key uri == key
  | _ => false

/-! ## What a call changes -/

/-- The ways in which a call is answered. -/
inductive Answered (cache : DescriptionCache) (now : Moment) :
    Call → DescriptionCache → Reply → Prop where
  | missed {uri : String} : Answered cache now (.get uri) cache (.served none)
  | served {uri : String} {entry : CacheEntry}
    (found : cache.entries.get? (FileUri.key uri) = some entry) :
    Answered cache now (.get uri)
      { cache with
        entries := cache.entries.insert (FileUri.key uri) { entry with hits := entry.hits + 1 } }
      (.served (some entry.description))
  | refused {uri : String} {description : ApiDescription} {e : Error} :
    Answered cache now (.put uri description) cache (.stored (.error e))
  | stored {uri : String} {description : ApiDescription} {time : Int}
    (changed : modified now.files (FileUri.key uri).toList = .ok time) :
    Answered cache now (.put uri description)
      { cache with
        entries := cache.entries.insert (FileUri.key uri) ⟨description, time, now.time, 0⟩ }
      (.stored (.ok ()))
  | forgotten {uri : String} : Answered cache now (.invalidate uri) (cache.invalidate uri) .done
  | cleared : Answered cache now .clear cache.clear .done
  | hits {uri : String} : Answered cache now (.hits uri) cache (.hits (cache.hits? uri))
  | stats : Answered cache now .stats cache (.stats cache.size cache.totalHits)

section

variable (cache : DescriptionCache) (now : Moment) (uri : String)

theorem answered_get :
    Answered cache now (.get uri) (cache.get now uri).1 (.served (cache.get now uri).2) := by
  cases spells : FileUri.canonical uri.toList with
  | error fault =>
    simp only [get, spells]
    exact .missed
  | ok spelled =>
    have key := FileUri.key_of_ok spells
    cases fresh : cache.served? now spelled with
    | none =>
      simp only [get, spells, fresh]
      exact .missed
    | some entry =>
      simp only [get, spells, fresh, ← key]
      apply Answered.served
      rw [key]
      exact (Option.filter_eq_some_iff.mp fresh).1

theorem answered_put (description : ApiDescription) :
    Answered cache now (.put uri description) (cache.answer now (.put uri description)).1
      (cache.answer now (.put uri description)).2 := by
  rw [answer]
  cases spells : FileUri.canonical uri.toList with
  | error fault =>
    have fails : cache.put now uri description = .error (.badUri fault) := by
      rw [put, spells]
      rfl
    simp only [fails]
    exact .refused
  | ok spelled =>
    have key := FileUri.key_of_ok spells
    have continues : cache.put now uri description =
        (modified now.files spelled).bind fun time => .ok { cache with
          entries := cache.entries.insert (FileUri.key uri) ⟨description, time, now.time, 0⟩ } := by
      rw [put, spells, key]
      rfl
    cases changed : modified now.files spelled with
    | error e =>
      simp only [continues, changed, Except.bind]
      exact .refused
    | ok time =>
      simp only [continues, changed, Except.bind]
      apply Answered.stored
      rw [key, String.toList_ofList]
      exact changed

theorem answered_answer (call : Call) :
    Answered cache now call (cache.answer now call).1 (cache.answer now call).2 := by
  cases call with
  | get uri => exact answered_get cache now uri
  | put uri description => exact answered_put cache now uri description
  | invalidate uri => exact .forgotten
  | clear => exact .cleared
  | hits uri => exact .hits
  | stats => exact .stats

end

section

variable {key : String} {entry : CacheEntry} {cache next : DescriptionCache} {now : Moment}
  {call : Call} {reply : Reply}

theorem Answered.ordered (answered : Answered cache now call next reply)
    (ordered : cache.entries.Ordered) : next.entries.Ordered := by
  cases answered with
  | served found => exact Fields.ordered_insert _ _ ordered
  | stored changed => exact Fields.ordered_insert _ _ ordered
  | forgotten => exact Fields.ordered_erase _ ordered
  | cleared => exact Fields.ordered_nil
  | missed | refused | hits | stats => exact ordered

theorem Answered.lifetime_eq (answered : Answered cache now call next reply) :
    next.lifetime = cache.lifetime := by
  cases answered <;> rfl

theorem Answered.eq_of_failure (answered : Answered cache now call next reply)
    (fails : reply = .served none ∨ ∃ e, reply = .stored (.error e)) : next = cache := by
  cases answered with
  | missed | refused => rfl
  | served found => simp at fails
  | stored changed => simp at fails
  | forgotten | cleared | hits | stats => simp at fails

theorem stores_put_iff {uri : String} {description : ApiDescription} {time : Int}
    (changed : modified now.files (FileUri.key uri).toList = .ok time) :
    Stores key entry ⟨now, .put uri description, .stored (.ok ())⟩ ↔
      FileUri.key uri = key ∧ description = entry.description ∧ time = entry.modified ∧
        now.time = entry.storedAt := by
  constructor
  · rintro ⟨rfl, changedTo, clock⟩
    exact ⟨rfl, rfl, Except.ok.inj (changed.symm.trans changedTo), clock⟩
  · rintro ⟨rfl, rfl, rfl, clock⟩
    exact .put rfl changed clock

theorem ends_put_iff {uri : String} {description : ApiDescription} :
    Ends key ⟨now, .put uri description, .stored (.ok ())⟩ ↔ FileUri.key uri = key :=
  ⟨fun | .put same => same, .put⟩

theorem ends_invalidate_iff {uri : String} :
    Ends key ⟨now, .invalidate uri, reply⟩ ↔ FileUri.key uri = key :=
  ⟨fun | .invalidate same => same, .invalidate⟩

theorem get?_iff_of_idle {line : Line} (notStored : ¬Stores key entry line) (lasts : ¬Ends key line)
    (unserved : isServed key line = false) {n : Nat} :
    cache.entries.get? key = some { entry with hits := n } ↔
      (Stores key entry line ∧ n = 0) ∨ ∃ m, cache.entries.get? key = some { entry with hits := m } ∧
        ¬Ends key line ∧ n = if isServed key line then m + 1 else m := by
  simp [notStored, lasts, unserved]

/-- A call puts an entry under a key, ends it, or leaves it there and counts if it is served. -/
theorem Answered.get?_iff (answered : Answered cache now call next reply) {n : Nat} :
    next.entries.get? key = some { entry with hits := n } ↔
      (Stores key entry ⟨now, call, reply⟩ ∧ n = 0) ∨
        ∃ m, cache.entries.get? key = some { entry with hits := m } ∧
          ¬Ends key ⟨now, call, reply⟩ ∧ n = if isServed key ⟨now, call, reply⟩ then m + 1 else m := by
  cases answered with
  | @served uri older found =>
    have notStored : ¬Stores key entry ⟨now, .get uri, .served (some older.description)⟩ := by rintro ⟨⟩
    have lasts : ¬Ends key ⟨now, .get uri, .served (some older.description)⟩ := by rintro ⟨⟩
    simp only [Fields.get?_insert, notStored, lasts, isServed, beq_iff_eq]
    by_cases same : key = FileUri.key uri
    · subst same
      obtain ⟨description, time, storedAt, hits⟩ := older
      simp only [found, if_true, Option.some.injEq, CacheEntry.mk.injEq]
      grind
    · simp [same, Ne.symm same]
  | stored changed =>
    simp only [Fields.get?_insert, stores_put_iff changed, ends_put_iff, isServed]
    split
    · simp only [Option.some.injEq, CacheEntry.mk.injEq]
      grind
    · grind
  | forgotten =>
    have notStored {uri : String} : ¬Stores key entry ⟨now, .invalidate uri, .done⟩ := by rintro ⟨⟩
    simp only [invalidate, Fields.get?_erase, notStored, ends_invalidate_iff, isServed]
    grind
  | cleared =>
    have notStored : ¬Stores key entry ⟨now, .clear, .done⟩ := by rintro ⟨⟩
    have ends : Ends key ⟨now, .clear, .done⟩ := .clear
    simp [clear, Fields.get?, notStored, ends]
  | missed | refused | hits | stats => exact get?_iff_of_idle (by rintro ⟨⟩) (by rintro ⟨⟩) rfl

theorem canonical_of_modified {files : FileSystem} {uri : String} {time : Int}
    (changed : modified files (FileUri.key uri).toList = .ok time) :
    FileUri.canonical uri.toList = .ok (FileUri.key uri).toList := by
  cases spells : FileUri.canonical uri.toList with
  | ok spelled => rw [FileUri.key_of_ok spells, String.toList_ofList]
  | error fault =>
    rw [FileUri.key_of_error spells] at changed
    obtain ⟨path, names, -⟩ := modified_eq_ok_iff.mp changed
    obtain ⟨spelled, again⟩ := FileUri.canonical_of_toPath names
    cases spells.symm.trans again

theorem isCurrent_iff {files : FileSystem} {uri : List Char} :
    isCurrent files uri entry = true ↔ modified files uri = .ok entry.modified := by
  unfold isCurrent
  split
  · rename_i time changed
    rw [changed, beq_iff_eq, Except.ok.injEq]
  · rename_i e fails
    simp [fails]

/-- What is under the key of a uri is served if it is not too old and its file has the time of
    change that it had. -/
theorem get_eq_some_iff {uri : String} {description : ApiDescription} :
    (cache.get now uri).2 = some description ↔
      ∃ entry, cache.entries.get? (FileUri.key uri) = some entry ∧
        cache.isExpired now.time entry = false ∧
        modified now.files (FileUri.key uri).toList = .ok entry.modified ∧
        entry.description = description := by
  constructor
  · intro served
    cases spells : FileUri.canonical uri.toList with
    | error fault => simp [get, spells] at served
    | ok spelled =>
      rw [FileUri.key_of_ok spells]
      cases found : cache.served? now spelled with
      | none => simp [get, spells, found] at served
      | some entry =>
        obtain ⟨isThere, usable⟩ := Option.filter_eq_some_iff.mp found
        simp only [Bool.and_eq_true, Bool.not_eq_true', isCurrent_iff] at usable
        simp only [get, spells, found, Option.some.injEq] at served
        rw [String.toList_ofList]
        exact ⟨entry, isThere, usable.1, usable.2, served⟩
  · rintro ⟨entry, isThere, young, changed, rfl⟩
    have spells := canonical_of_modified changed
    have found : cache.served? now (FileUri.key uri).toList = some entry := by
      rw [served?, String.ofList_toList, isThere, Option.filter_eq_some_iff]
      simp [young, isCurrent_iff.mpr changed]
    simp only [get, spells, found]

end

/-! ## Logs -/

/-- A cache in which nothing was stored. -/
def fresh (lifetime : Nat) : DescriptionCache :=
  { lifetime := lifetime }

def Line.event (line : Line) : Moment × Call :=
  (line.now, line.call)

section

variable (cache : DescriptionCache)

theorem after_concat (events : List (Moment × Call)) (now : Moment) (call : Call) :
    cache.after (events ++ [(now, call)]) = ((cache.after events).answer now call).1 := by
  rw [after, List.foldl_append]
  rfl

theorem log_concat (events : List (Moment × Call)) (now : Moment) (call : Call) :
    cache.log (events ++ [(now, call)]) =
      cache.log events ++ [⟨now, call, ((cache.after events).answer now call).2⟩] := by
  induction events generalizing cache with
  | nil => rfl
  | cons event events ih =>
    obtain ⟨past, earlier⟩ := event
    simp only [List.cons_append, log, ih]
    rfl

theorem map_event_log (events : List (Moment × Call)) :
    (cache.log events).map Line.event = events := by
  induction events generalizing cache with
  | nil => rfl
  | cons event events ih =>
    obtain ⟨now, call⟩ := event
    simp only [log, List.map_cons, ih]
    rfl

theorem exists_of_prefix_log {events : List (Moment × Call)} {before : List Line} {line : Line}
    (within : before ++ [line] <+: cache.log events) :
    ∃ earlier now call, before = cache.log earlier ∧
      line = ⟨now, call, ((cache.after earlier).answer now call).2⟩ := by
  induction events using List.reverseRecOn with
  | nil => simp [log] at within
  | append_singleton events event ih =>
    obtain ⟨now, call⟩ := event
    rw [log_concat, List.prefix_concat_iff] at within
    rcases within with whole | shorter
    · obtain ⟨same, here⟩ := List.append_inj' whole rfl
      simp only [List.cons.injEq, and_true] at here
      exact ⟨events, now, call, same, here⟩
    · exact ih shorter

theorem ordered_after (events : List (Moment × Call)) (ordered : cache.entries.Ordered) :
    (cache.after events).entries.Ordered := by
  induction events using List.reverseRecOn with
  | nil => exact ordered
  | append_singleton events event ih =>
    obtain ⟨now, call⟩ := event
    rw [after_concat]
    exact (answered_answer _ now call).ordered ih

theorem lifetime_after (events : List (Moment × Call)) :
    (cache.after events).lifetime = cache.lifetime := by
  induction events using List.reverseRecOn with
  | nil => rfl
  | append_singleton events event ih =>
    obtain ⟨now, call⟩ := event
    rw [after_concat, (answered_answer _ now call).lifetime_eq, ih]

theorem modified_of_mem_log {events : List (Moment × Call)} {past : Moment} {uri : String}
    {description : ApiDescription}
    (member : ⟨past, .put uri description, .stored (.ok ())⟩ ∈ cache.log events) :
    ∃ time, modified past.files (FileUri.key uri).toList = .ok time := by
  induction events using List.reverseRecOn with
  | nil => cases member
  | append_singleton events event ih =>
    obtain ⟨now, call⟩ := event
    rw [log_concat, List.mem_append, List.mem_singleton] at member
    rcases member with earlier | here
    · exact ih earlier
    · have answered := answered_answer (cache.after events) now call
      simp only [Line.mk.injEq] at here
      obtain ⟨rfl, rfl, stored⟩ := here
      rw [← stored] at answered
      generalize ((cache.after events).answer past _).1 = next at answered
      cases answered with
      | stored changed => exact ⟨_, changed⟩

end

/-! ## What a log tells -/

/-- A description was stored at some moment under a key, and nothing has ended it in the rest of
    a log. -/
def Kept (lines : List Line) (key : String) (past : Moment) (description : ApiDescription)
    (rest : List Line) : Prop :=
  ∃ before uri, FileUri.key uri = key ∧
    StandsSince (Ends key) lines before ⟨past, .put uri description, .stored (.ok ())⟩ rest

section

variable {lifetime : Nat} {events : List (Moment × Call)} {key : String}

theorem get?_after_eq_some_iff {entry : CacheEntry} :
    ((fresh lifetime).after events).entries.get? key = some entry ↔
      ∃ past rest, Kept ((fresh lifetime).log events) key past entry.description rest ∧
        modified past.files key.toList = .ok entry.modified ∧ past.time = entry.storedAt ∧
        entry.hits = rest.countP (isServed key) := by
  have recorded : ((fresh lifetime).after (((fresh lifetime).log events).map Line.event)).entries.get?
      key = some { entry with hits := entry.hits } ↔
      ∃ before first rest, StandsSince (Ends key) ((fresh lifetime).log events) before first rest ∧
        Stores key entry first ∧ entry.hits = rest.countP (isServed key) := by
    apply counts_iff_standsSince fun lines n =>
      ((fresh lifetime).after (lines.map Line.event)).entries.get? key = some { entry with hits := n }
    · exact nofun
    · intro before line within n
      obtain ⟨earlier, now, call, rfl, rfl⟩ := exists_of_prefix_log _ within
      simp only [List.map_append, map_event_log, List.map_singleton, Line.event, after_concat]
      exact (answered_answer ((fresh lifetime).after earlier) now call).get?_iff
  rw [map_event_log] at recorded
  rw [recorded]
  constructor
  · rintro ⟨before, _, rest, stands, ⟨same, changed, clock⟩, counted⟩
    exact ⟨_, rest, ⟨before, _, same, stands⟩, changed, clock, counted⟩
  · rintro ⟨past, rest, ⟨before, uri, same, stands⟩, changed, clock, counted⟩
    exact ⟨before, _, rest, stands, .put same changed clock, counted⟩

theorem exists_entry_of_kept {past : Moment} {description : ApiDescription} {rest : List Line}
    (kept : Kept ((fresh lifetime).log events) key past description rest) :
    ∃ time, modified past.files key.toList = .ok time ∧
      ((fresh lifetime).after events).entries.get? key =
        some ⟨description, time, past.time, rest.countP (isServed key)⟩ := by
  obtain ⟨before, uri, rfl, stands⟩ := id kept
  have member : ⟨past, .put uri description, .stored (.ok ())⟩ ∈ (fresh lifetime).log events := by
    rw [stands.split]
    exact List.mem_append_right _ List.mem_cons_self
  obtain ⟨time, changed⟩ := modified_of_mem_log _ member
  exact ⟨time, changed, get?_after_eq_some_iff.mpr ⟨past, rest, kept, changed, rfl, rfl⟩⟩

theorem mem_times_of_kept {past : Moment} {description : ApiDescription} {rest : List Line}
    (kept : Kept ((fresh lifetime).log events) key past description rest) :
    past.time ∈ events.map (·.1.time) := by
  obtain ⟨before, uri, -, stands⟩ := kept
  have same := map_event_log (fresh lifetime) events
  rw [stands.split, List.map_append, List.map_cons] at same
  rw [← same, List.map_append]
  exact List.mem_append_right _ List.mem_cons_self

end

/-- What was stored at one of some times is not too old yet: no more than the lifetime has passed. -/
def Lasting (lifetime : Nat) (times : List Nat) (now : Nat) : Prop :=
  ∀ time ∈ times, now - time ≤ lifetime * 1000000000

instance (lifetime : Nat) (times : List Nat) (now : Nat) : Decidable (Lasting lifetime times now) :=
  inferInstanceAs (Decidable (∀ time ∈ times, now - time ≤ lifetime * 1000000000))

theorem Lasting.isExpired_eq_false {cache : DescriptionCache} {times : List Nat} {now : Nat}
    (lasting : Lasting cache.lifetime times now) {entry : CacheEntry}
    (stored : entry.storedAt ∈ times) : cache.isExpired now entry = false := by
  rw [isExpired, decide_eq_false_iff_not, Nat.not_lt]
  exact lasting entry.storedAt stored

/-- What a cache answers at some moment is told by a log. -/
structure Recounts (lines : List Line) (now : Moment) (cache : DescriptionCache) : Prop where
  /-- The count of a uri is the number of times that what was stored last was served since. -/
  hits : ∀ uri n, cache.hits? uri = some n ↔ ∃ past description rest,
    Kept lines (FileUri.key uri) past description rest ∧ n = rest.countP (isServed (FileUri.key uri))
  /-- It is served if its file has the time of change that it had then. -/
  served : ∀ uri description, (cache.get now uri).2 = some description ↔
    ∃ past rest, Kept lines (FileUri.key uri) past description rest ∧
      ∃ time, modified past.files (FileUri.key uri).toList = .ok time ∧
        modified now.files (FileUri.key uri).toList = .ok time
  unchanged : ∀ call, (cache.answer now call).2 = .served none ∨
    (∃ e, (cache.answer now call).2 = .stored (.error e)) → (cache.answer now call).1 = cache
  /-- All that is kept, with its counts. -/
  stats : ∃ counts : List (String × Nat), (counts.map Prod.fst).Nodup ∧
    (∀ key n, (key, n) ∈ counts ↔ ∃ past description rest,
      Kept lines key past description rest ∧ n = rest.countP (isServed key)) ∧
    cache.size = counts.length ∧
    cache.totalHits = counts.foldl (fun total count => total + count.2) 0

section

variable {lifetime : Nat} {events : List (Moment × Call)}

theorem exists_hits_iff {key : String} {n : Nat} :
    (∃ entry, ((fresh lifetime).after events).entries.get? key = some entry ∧ entry.hits = n) ↔
      ∃ past description rest, Kept ((fresh lifetime).log events) key past description rest ∧
        n = rest.countP (isServed key) := by
  constructor
  · rintro ⟨entry, found, rfl⟩
    obtain ⟨past, rest, kept, -, -, counted⟩ := get?_after_eq_some_iff.mp found
    exact ⟨past, entry.description, rest, kept, counted⟩
  · rintro ⟨past, description, rest, kept, rfl⟩
    obtain ⟨time, -, found⟩ := exists_entry_of_kept kept
    exact ⟨_, found, rfl⟩

end

/-- Whatever is asked of a cache, in whatever spelling of uris and however files change in
    between, as long as nothing gets too old, the log of the run tells what it answers. -/
theorem recounts_log (lifetime : Nat) (events : List (Moment × Call)) (now : Moment)
    (lasting : Lasting lifetime (events.map (·.1.time)) now.time) :
    Recounts ((fresh lifetime).log events) now ((fresh lifetime).after events) where
  hits := by
    intro uri n
    rw [hits?, Option.map_eq_some_iff]
    exact exists_hits_iff
  served := by
    intro uri description
    rw [get_eq_some_iff]
    constructor
    · rintro ⟨entry, found, -, changed, rfl⟩
      obtain ⟨past, rest, kept, changedThen, -, -⟩ := get?_after_eq_some_iff.mp found
      exact ⟨past, rest, kept, entry.modified, changedThen, changed⟩
    · rintro ⟨past, rest, kept, time, changedThen, changed⟩
      obtain ⟨other, same, found⟩ := exists_entry_of_kept kept
      cases changedThen.symm.trans same
      have lasts : Lasting ((fresh lifetime).after events).lifetime (events.map (·.1.time)) now.time := by
        rw [lifetime_after]
        exact lasting
      exact ⟨_, found, lasts.isExpired_eq_false (mem_times_of_kept kept), changed, rfl⟩
  unchanged := fun call fails => (answered_answer _ now call).eq_of_failure fails
  stats := by
    have ordered := ordered_after (fresh lifetime) events Fields.ordered_nil
    refine ⟨((fresh lifetime).after events).entries.map fun entry => (entry.1, entry.2.hits),
      ?_, ?_, ?_, ?_⟩
    · rw [List.map_map]
      exact Fields.nodup_names ordered
    · intro key n
      rw [← exists_hits_iff, List.mem_map]
      simp only [Fields.get?_eq_some_iff ordered, Prod.mk.injEq, Prod.exists]
      grind
    · rw [List.length_map, size]
    · rw [List.foldl_map, totalHits]

/-- A world with one file, changed at some time, so many seconds after the start. -/
def oneFile (changed : Int) (seconds : Nat) : Moment where
  files := { root := .dir 0 [("a".toList, .file [] changed)], workDir := [] }
  time := seconds * 1000000000

/-- What is stored under one spelling is served under two others, the last time when its whole
    lifetime has passed, but not while its file has another time of change; a uri of no file and a
    file that is not there are refused. -/
theorem recounts_log_of_one_file :
    let events := [(oneFile 1 0, Call.put "file:///a" {}), (oneFile 1 0, .get "file://localhost/a"),
      (oneFile 2 7, .get "/a"), (oneFile 1 300, .get " file:///%61"),
      (oneFile 1 300, .get "untitled:a"), (oneFile 1 300, .put "file:///b" {})]
    Lasting 300 (events.map (·.1.time)) (oneFile 2 300).time ∧
      ((fresh 300).after events).hits? "/a" = some 2 ∧ ((fresh 300).after events).size = 1 ∧
      Recounts ((fresh 300).log events) (oneFile 2 300) ((fresh 300).after events) := by
  intro events
  have lasting : Lasting 300 (events.map (·.1.time)) (oneFile 2 300).time := by decide +kernel
  exact ⟨lasting, by decide +kernel, by decide +kernel,
    recounts_log 300 events (oneFile 2 300) lasting⟩

end ApiWorkflow.DescriptionCache
