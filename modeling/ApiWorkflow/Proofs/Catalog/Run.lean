import ApiWorkflow.Proofs.Catalog.Reading
import ApiWorkflow.Proofs.Description.Discovery

/-! # Runs of a catalog

A run is a list of requests, each with the world as it is at its time. Between two
requests the files may change in any way. A request is a series of moves, each of
which reads or forgets one description: what every move preserves holds after every
run.
-/

namespace ApiWorkflow.Catalog

/-- What can be asked of a catalog. -/
inductive Request where
  | build (uri : String)
  | index (uri : String)
  | reindex (uri : String)
  | invalidate (uri : String)
  deriving Repr, DecidableEq

/-- What a request is answered with. -/
inductive Reply where
  | report (result : Except Error IndexReport)
  | added (result : Except Error Nat)
  | done

def Request.uri : Request → String
  | .build uri | .index uri | .reindex uri | .invalidate uri => uri

/-- A catalog without operations and descriptions. -/
def empty (lifetime : Nat) : Catalog :=
  { cache := { lifetime := lifetime } }

/-- The catalog after a request, with the reply. -/
def handle (settings : DiscoverySettings) (now : Moment) (catalog : Catalog) :
    Request → Catalog × Reply
  | .build uri => (catalog.build now settings uri).map id .report
  | .index uri => (catalog.indexFile now uri).map id .added
  | .reindex uri => (catalog.reindexFile now uri).map id .added
  | .invalidate uri => (catalog.invalidate uri, .done)

/-- The catalog after a run. -/
def after (settings : DiscoverySettings) (catalog : Catalog) (run : List (Moment × Request)) :
    Catalog :=
  run.foldl (fun catalog event => (catalog.handle settings event.1 event.2).1) catalog

/-- Every request of a run is about a `file://` uri. -/
def OnFiles (run : List (Moment × Request)) : Prop :=
  ∀ event ∈ run, FileUri.HasScheme event.2.uri.toList

instance (run : List (Moment × Request)) : Decidable (OnFiles run) :=
  inferInstanceAs (Decidable (∀ event ∈ run, FileUri.HasScheme event.2.uri.toList))

/-! ## Moves -/

/-- One description is read or forgotten. -/
inductive Move where
  | read (now : Moment) (uri : String)
  | forget (uri : String)

def Move.uri : Move → String
  | .read _ uri | .forget uri => uri

/-- The catalog after a move. -/
def move (catalog : Catalog) : Move → Catalog
  | .read now uri => (catalog.indexFile now uri).1
  | .forget uri => catalog.invalidate uri

/-- The moves of a request. -/
def Request.moves (settings : DiscoverySettings) (now : Moment) : Request → List Move
  | .build uri =>
    match Discovery.discover now.files settings uri with
    | .ok uris => uris.map (.read now)
    | .error _ => []
  | .index uri => [.read now uri]
  | .reindex uri => [.forget uri, .read now uri]
  | .invalidate uri => [.forget uri]

/-- The moves of a run. -/
def movesOf (settings : DiscoverySettings) (run : List (Moment × Request)) : List Move :=
  run.flatMap fun event => event.2.moves settings event.1

theorem indexAll_eq_foldl (now : Moment) (catalog : Catalog) (report : IndexReport)
    (uris : List String) :
    (indexAll now catalog report uris).1 = (uris.map (Move.read now)).foldl move catalog := by
  induction uris generalizing catalog report with
  | nil => rfl
  | cons uri uris ih =>
    rw [indexAll, List.map_cons, List.foldl_cons, move]
    split
    · rename_i result
      rw [ih, result]
    · rename_i result
      rw [ih, result]

theorem handle_eq_foldl (settings : DiscoverySettings) (now : Moment) (catalog : Catalog)
    (request : Request) :
    (catalog.handle settings now request).1 =
      (request.moves settings now).foldl move catalog := by
  cases request with
  | build uri =>
    cases finds : Discovery.discover now.files settings uri with
    | error error => simp [handle, build, Request.moves, finds]
    | ok uris => simp [handle, build, Request.moves, finds, indexAll_eq_foldl]
  | index uri => rfl
  | reindex uri => rfl
  | invalidate uri => rfl

/-- A run comes to the same catalog as its moves. -/
theorem after_eq_foldl (settings : DiscoverySettings) (catalog : Catalog)
    (run : List (Moment × Request)) :
    after settings catalog run = (movesOf settings run).foldl move catalog := by
  induction run generalizing catalog with
  | nil => rfl
  | cons event run ih =>
    have split : movesOf settings (event :: run) =
        event.2.moves settings event.1 ++ movesOf settings run := List.flatMap_cons
    rw [split, List.foldl_append, ← handle_eq_foldl, ← ih]
    rfl

section

variable {allowed : String → Prop} (files : ∀ uri, FileUri.HasScheme uri.toList → allowed uri)

include files

theorem allowed_of_mem_moves {settings : DiscoverySettings} {now : Moment} {request : Request}
    (given : allowed request.uri) {m : Move} (member : m ∈ request.moves settings now) :
    allowed m.uri := by
  cases request with
  | build uri =>
    simp only [Request.moves] at member
    split at member
    · rename_i uris finds
      obtain ⟨found, isFound, rfl⟩ := List.mem_map.mp member
      exact files found (Discovery.hasScheme_of_discover finds found isFound)
    · cases member
  | index uri =>
    rw [List.mem_singleton.mp member]
    exact given
  | reindex uri =>
    rcases List.mem_cons.mp member with rfl | later
    · exact given
    · rw [List.mem_singleton.mp later]
      exact given
  | invalidate uri =>
    rw [List.mem_singleton.mp member]
    exact given

theorem allowed_of_mem_movesOf {settings : DiscoverySettings} {run : List (Moment × Request)}
    (given : ∀ event ∈ run, allowed event.2.uri) {m : Move} (member : m ∈ movesOf settings run) :
    allowed m.uri := by
  obtain ⟨event, inRun, isMove⟩ := List.mem_flatMap.mp member
  exact allowed_of_mem_moves files (given event inRun) isMove

/-- What holds of a catalog and is kept by each move on an allowed uri holds after every run on
    such uris. -/
theorem after_induction_of_allowed {invariant : Catalog → Prop} (settings : DiscoverySettings)
    {catalog : Catalog} {run : List (Moment × Request)}
    (given : ∀ event ∈ run, allowed event.2.uri) (start : invariant catalog)
    (step : ∀ catalog m, allowed (Move.uri m) → invariant catalog → invariant (move catalog m)) :
    invariant (after settings catalog run) := by
  have within : ∀ m ∈ movesOf settings run, allowed m.uri :=
    fun _ member => allowed_of_mem_movesOf files given member
  rw [after_eq_foldl]
  generalize movesOf settings run = moves at within
  induction moves generalizing catalog with
  | nil => exact start
  | cons m moves ih =>
    rw [List.foldl_cons]
    exact ih (step catalog m (within m List.mem_cons_self) start)
      fun other member => within other (List.mem_cons_of_mem _ member)

end

theorem hasScheme_of_mem_movesOf {settings : DiscoverySettings} {run : List (Moment × Request)}
    (onFiles : OnFiles run) {m : Move} (member : m ∈ movesOf settings run) :
    FileUri.HasScheme m.uri.toList :=
  allowed_of_mem_movesOf (fun _ file => file) onFiles member

theorem after_induction {invariant : Catalog → Prop} (settings : DiscoverySettings)
    {catalog : Catalog} {run : List (Moment × Request)} (onFiles : OnFiles run)
    (start : invariant catalog)
    (step : ∀ catalog m, FileUri.HasScheme (Move.uri m).toList → invariant catalog →
      invariant (move catalog m)) :
    invariant (after settings catalog run) :=
  after_induction_of_allowed (fun _ file => file) settings onFiles start step

end ApiWorkflow.Catalog
