import ApiWorkflow.Yaml.Document

/-! # Trees written in blocks

A block is a bare scalar, a value that is not written, a list or a dictionary with bare
keys. Main statement: `Block.source_of_tokens`, a text with the tokens of a block is read
as the tree of that block.
-/

namespace ApiWorkflow.Yaml

open Source

/-- A tree that is written without brackets, anchors and tags. -/
inductive Block where
  | scalar (text : String)
  | missing
  | list (items : List Block)
  | dict (entries : List (String × Block))

namespace Block

/-- A list, which is not written if it has no items. -/
def listing : List Block → Block
  | [] => .missing
  | items => .list items

/-- Induction on a block, where the members of a collection have the property. -/
@[induction_eliminator]
theorem induct {motive : Block → Prop} (scalar : ∀ text, motive (.scalar text))
    (missing : motive .missing)
    (list : ∀ items, (∀ item ∈ items, motive item) → motive (.list items))
    (dict : ∀ entries, (∀ entry ∈ entries, motive entry.2) → motive (.dict entries)) :
    (block : Block) → motive block
  | .scalar text => scalar text
  | .missing => missing
  | .list items => list items fun item _ => induct scalar missing list dict item
  | .dict entries => dict entries fun entry _ => induct scalar missing list dict entry.2
termination_by block => sizeOf block
decreasing_by
  · have := List.sizeOf_lt_of_mem ‹item ∈ items›
    simp
    omega
  · have := List.sizeOf_lt_of_mem ‹entry ∈ entries›
    obtain ⟨key, value⟩ := entry
    simp at this ⊢
    omega

mutual

/-- The tokens of a block. -/
def tokens : Block → List Token
  | .scalar text => [.scalar .plain text]
  | .missing => []
  | .list items => .blockSequenceStart :: (itemTokens items ++ [.blockEnd])
  | .dict entries => .blockMappingStart :: (entryTokens entries ++ [.blockEnd])

def itemTokens : List Block → List Token
  | [] => []
  | item :: items => .blockEntry :: (tokens item ++ itemTokens items)

def entryTokens : List (String × Block) → List Token
  | [] => []
  | (key, value) :: entries =>
    .key :: .scalar .plain key :: .value :: (tokens value ++ entryTokens entries)

end

/-- An event of a bare scalar. -/
def scalarEvent (text : String) : Event :=
  .scalar ⟨none, none⟩ .plain text

mutual

/-- The events of a block. -/
def events : Block → List Event
  | .scalar text => [scalarEvent text]
  | .missing => [.empty]
  | .list items => .sequenceStart ⟨none, none⟩ :: (itemEvents items ++ [.sequenceEnd])
  | .dict entries => .mappingStart ⟨none, none⟩ :: (entryEvents entries ++ [.mappingEnd])

def itemEvents : List Block → List Event
  | [] => []
  | item :: items => events item ++ itemEvents items

def entryEvents : List (String × Block) → List Event
  | [] => []
  | (key, value) :: entries => scalarEvent key :: (events value ++ entryEvents entries)

end

/-- The leaf of a bare scalar. -/
def leaf (text : String) : Node :=
  .leaf (.untyped .plain none text)

mutual

/-- The tree of a block. -/
def node : Block → Node
  | .scalar text => leaf text
  | .missing => leaf ""
  | .list items => .list none (itemNodes items)
  | .dict entries => .dict none (entryNodes entries)

def itemNodes : List Block → List Node
  | [] => []
  | item :: items => node item :: itemNodes items

def entryNodes : List (String × Block) → List (Node × Node)
  | [] => []
  | (key, value) :: entries => (leaf key, node value) :: entryNodes entries

end

/-! ## From tokens to events -/

/-- From one state of the grammar to another one, with the events in between. -/
def Runs (pending : Event.Pending) (between : List Event) (later : Event.Pending) : Prop :=
  ∀ bound, Event.run (bound + between.length) pending =
    (between ++ (Event.run bound later).1, (Event.run bound later).2)

theorem Runs.nil (pending : Event.Pending) : Runs pending [] pending :=
  fun _ => rfl

theorem Runs.append {first second third : Event.Pending} {before behind : List Event}
    (left : Runs first before second) (right : Runs second behind third) :
    Runs first (before ++ behind) third := by
  intro bound
  have regroup : bound + (before ++ behind).length = bound + behind.length + before.length := by
    rw [List.length_append]
    omega
  rw [regroup, left, right, List.append_assoc]

theorem Runs.cons {goal : Event.Goal} {goals : List Event.Goal} {tokens : List Token}
    {handles : List (String × String)} {event : Event} {next later : Event.Pending}
    {between : List Event}
    (step : Event.ofGoal goal goals tokens handles = some (event, next))
    (runs : Runs next between later) : Runs ⟨goal :: goals, tokens, handles⟩ (event :: between) later := by
  intro bound
  rw [List.length_cons, ← Nat.add_assoc, Event.run]
  simp only [step, runs bound, List.cons_append]

/-- The tokens before which a value of a dictionary is not written, and an item of a list. -/
def valueEnds : List Token := [.key, .value, .blockEnd]
def itemEnds : List Token := [.blockEntry, .blockEnd]

/-- A node starts with the first event of a block, and the rest follows. -/
def Opens (start : Option (Event × Event.Pending)) (between : List Event)
    (later : Event.Pending) : Prop :=
  ∃ event next rest, start = some (event, next) ∧ between = event :: rest ∧ Runs next rest later

theorem Opens.runs {goal : Event.Goal} {goals : List Event.Goal} {tokens : List Token}
    {handles : List (String × String)} {between : List Event} {later : Event.Pending}
    (opens : Opens (Event.ofGoal goal goals tokens handles) between later) :
    Runs ⟨goal :: goals, tokens, handles⟩ between later := by
  obtain ⟨event, next, rest, step, rfl, runs⟩ := opens
  exact .cons step runs

section Grammar

variable {handles : List (String × String)} {goals : List Event.Goal} {rest : List Token}

/-- Where a block stands: its place and the tokens that may follow it. -/
inductive Stands : Event.Place → List Token → Prop where
  | value : Stands .blockValue valueEnds
  | item : Stands .block itemEnds

/-- A block is read with its events, where one of the tokens that may follow it does. -/
def IsRead (block : Block) : Prop :=
  ∀ ⦃place ends⦄, Stands place ends → ∀ goals handles (follow : Token) (rest : List Token),
    follow ∈ ends → Opens (Event.nodeOrEmpty place ends goals (block.tokens ++ follow :: rest) handles)
      block.events ⟨goals, follow :: rest, handles⟩

theorem isRead_scalar (text : String) : IsRead (.scalar text) := by
  intro place ends stands goals handles follow rest _
  refine ⟨scalarEvent text, ⟨goals, follow :: rest, handles⟩, [], ?_, rfl, .nil _⟩
  cases stands <;> rfl

theorem isRead_missing : IsRead .missing := by
  intro place ends stands goals handles follow rest member
  refine ⟨.empty, ⟨goals, follow :: rest, handles⟩, [], ?_, rfl, .nil _⟩
  have written : Event.isMissing ends (tokens .missing ++ follow :: rest) = some true := by
    simpa [tokens, Event.isMissing] using member
  rw [Event.nodeOrEmpty, written]
  rfl

theorem runs_items {items : List Block} (isRead : ∀ item ∈ items, IsRead item) :
    Runs ⟨.blockEntries :: goals, itemTokens items ++ .blockEnd :: rest, handles⟩
      (itemEvents items ++ [.sequenceEnd]) ⟨goals, rest, handles⟩ := by
  induction items with
  | nil => exact .cons rfl (.nil _)
  | cons item items ih =>
    obtain ⟨first, others⟩ := List.forall_mem_cons.mp isRead
    rw [itemTokens, itemEvents, List.cons_append, List.append_assoc, List.append_assoc]
    obtain ⟨follow, more, same, among⟩ : ∃ follow more,
        itemTokens items ++ .blockEnd :: rest = follow :: more ∧ follow ∈ itemEnds := by
      cases items with
      | nil => exact ⟨_, _, rfl, by decide⟩
      | cons next items => exact ⟨_, _, rfl, by decide⟩
    have opens : Opens (Event.ofGoal .blockEntries goals
        (.blockEntry :: (item.tokens ++ (itemTokens items ++ .blockEnd :: rest))) handles) item.events
        ⟨.blockEntries :: goals, itemTokens items ++ .blockEnd :: rest, handles⟩ := by
      rw [same]
      exact first .item (.blockEntries :: goals) handles follow more among
    exact opens.runs.append (ih others)

theorem runs_entries {entries : List (String × Block)} (isRead : ∀ entry ∈ entries, IsRead entry.2) :
    Runs ⟨.blockKeys :: goals, entryTokens entries ++ .blockEnd :: rest, handles⟩
      (entryEvents entries ++ [.mappingEnd]) ⟨goals, rest, handles⟩ := by
  induction entries with
  | nil => exact .cons rfl (.nil _)
  | cons entry entries ih =>
    obtain ⟨key, value⟩ := entry
    obtain ⟨first, others⟩ := List.forall_mem_cons.mp isRead
    rw [entryTokens, entryEvents, List.cons_append, List.cons_append, List.cons_append,
      List.cons_append, List.append_assoc, List.append_assoc]
    obtain ⟨follow, more, same, among⟩ : ∃ follow more,
        entryTokens entries ++ .blockEnd :: rest = follow :: more ∧ follow ∈ valueEnds := by
      cases entries with
      | nil => exact ⟨_, _, rfl, by decide⟩
      | cons next entries => exact ⟨_, _, rfl, by decide⟩
    have opens : Opens (Event.ofGoal .blockValue goals
        (.value :: (value.tokens ++ (entryTokens entries ++ .blockEnd :: rest))) handles) value.events
        ⟨.blockKeys :: goals, entryTokens entries ++ .blockEnd :: rest, handles⟩ := by
      rw [same]
      exact first .value (.blockKeys :: goals) handles follow more among
    exact .cons rfl (opens.runs.append (ih others))

theorem isRead_list {items : List Block} (isRead : ∀ item ∈ items, IsRead item) :
    IsRead (.list items) := by
  intro place ends stands goals handles follow rest _
  refine ⟨.sequenceStart ⟨none, none⟩, ⟨.blockEntries :: goals,
    itemTokens items ++ .blockEnd :: follow :: rest, handles⟩, itemEvents items ++ [.sequenceEnd],
    ?_, rfl, runs_items isRead⟩
  rw [tokens, List.cons_append, List.append_assoc]
  cases stands <;> rfl

theorem isRead_dict {entries : List (String × Block)} (isRead : ∀ entry ∈ entries, IsRead entry.2) :
    IsRead (.dict entries) := by
  intro place ends stands goals handles follow rest _
  refine ⟨.mappingStart ⟨none, none⟩, ⟨.blockKeys :: goals,
    entryTokens entries ++ .blockEnd :: follow :: rest, handles⟩, entryEvents entries ++ [.mappingEnd],
    ?_, rfl, runs_entries isRead⟩
  rw [tokens, List.cons_append, List.append_assoc]
  cases stands <;> rfl

theorem isRead (block : Block) : IsRead block := by
  induction block with
  | scalar text => exact isRead_scalar text
  | missing => exact isRead_missing
  | list items ih => exact isRead_list ih
  | dict entries ih => exact isRead_dict ih

theorem length_events_le (block : Block) : block.events.length ≤ block.tokens.length + 1 := by
  induction block with
  | scalar text => simp [events, tokens]
  | missing => simp [events, tokens]
  | list items ih =>
    have fewer : (itemEvents items).length ≤ (itemTokens items).length := by
      induction items with
      | nil => simp [itemEvents, itemTokens]
      | cons item items inner =>
        obtain ⟨first, others⟩ := List.forall_mem_cons.mp ih
        have := inner others
        simp only [itemEvents, itemTokens, List.length_append, List.length_cons]
        omega
    simp only [events, tokens, List.length_cons, List.length_append]
    omega
  | dict entries ih =>
    have fewer : (entryEvents entries).length ≤ (entryTokens entries).length := by
      induction entries with
      | nil => simp [entryEvents, entryTokens]
      | cons entry entries inner =>
        obtain ⟨first, others⟩ := List.forall_mem_cons.mp ih
        have := inner others
        simp only [entryEvents, entryTokens, List.length_append, List.length_cons]
        omega
    simp only [events, tokens, List.length_cons, List.length_append]
    omega

theorem ofTokens_dict (entries : List (String × Block)) :
    Event.ofTokens (tokens (.dict entries) ++ [.streamEnd]) = ⟨events (.dict entries), true⟩ := by
  have runs : Runs ⟨[.blockNode], tokens (.dict entries) ++ [.streamEnd], Event.standardHandles⟩
      (events (.dict entries)) ⟨[], [.streamEnd], Event.standardHandles⟩ := by
    rw [tokens, events, List.cons_append, List.append_assoc]
    exact .cons rfl (runs_entries fun entry _ => isRead entry.2)
  have enough := length_events_le (.dict entries)
  obtain ⟨spare, bound⟩ : ∃ spare, 4 * (tokens (.dict entries) ++ [Token.streamEnd]).length + 8 =
      spare + 1 + (events (.dict entries)).length := by
    rw [List.length_append]
    exact ⟨4 * ((tokens (.dict entries)).length + 1) + 7 - (events (.dict entries)).length, by grind⟩
  have content : Event.content (tokens (.dict entries) ++ [.streamEnd]) Event.standardHandles =
      ⟨events (.dict entries), true⟩ := by
    rw [Event.content, bound, runs (spare + 1)]
    simp [Event.run, Event.onlyEnds]
  exact content

end Grammar

/-! ## From events to trees -/

/-- A composer inside of collections, where nothing has an anchor. -/
def inside (frames : List (Nat × Frame)) (count : Nat) : Composer :=
  ⟨frames, none, [], [], [], count, true⟩

/-- The events of a block add its tree to the innermost collection. -/
def IsBuilt (block : Block) : Prop :=
  ∀ start frame frames count later,
    (inside ((start, frame) :: frames) count).run (block.events ++ later) =
      (inside ((start, frame.add block.node) :: frames) (count + block.events.length)).run later

theorem run_itemEvents {items : List Block} (isBuilt : ∀ item ∈ items, IsBuilt item) (start : Nat)
    (tag : Option String) (held : List Node) (frames : List (Nat × Frame)) (count : Nat)
    (later : List Event) :
    (inside ((start, .list tag held) :: frames) count).run (itemEvents items ++ later) =
      (inside ((start, .list tag ((itemNodes items).reverse ++ held)) :: frames)
        (count + (itemEvents items).length)).run later := by
  induction items generalizing held count with
  | nil => rfl
  | cons item items ih =>
    obtain ⟨first, others⟩ := List.forall_mem_cons.mp isBuilt
    rw [itemEvents, List.append_assoc, first, Frame.add, ih others]
    simp [itemNodes, Nat.add_assoc]

theorem run_entryEvents {entries : List (String × Block)} (isBuilt : ∀ entry ∈ entries, IsBuilt entry.2)
    (start : Nat) (tag : Option String) (held : List (Node × Node)) (frames : List (Nat × Frame))
    (count : Nat) (later : List Event) :
    (inside ((start, .dict tag held none) :: frames) count).run (entryEvents entries ++ later) =
      (inside ((start, .dict tag ((entryNodes entries).reverse ++ held) none) :: frames)
        (count + (entryEvents entries).length)).run later := by
  induction entries generalizing held count with
  | nil => rfl
  | cons entry entries ih =>
    obtain ⟨key, value⟩ := entry
    obtain ⟨first, others⟩ := List.forall_mem_cons.mp isBuilt
    have named : (inside ((start, .dict tag held none) :: frames) count).run
        (scalarEvent key :: (value.events ++ (entryEvents entries ++ later))) =
        (inside ((start, .dict tag held (some (leaf key))) :: frames) (count + 1)).run
          (value.events ++ (entryEvents entries ++ later)) := rfl
    rw [entryEvents, List.cons_append, List.append_assoc, named, first, Frame.add, ih others]
    simp [entryNodes, Nat.add_assoc, Nat.add_comm, Nat.add_left_comm]

theorem run_sequenceEnd (place start count : Nat) (items : List Node) (frame : Frame)
    (frames : List (Nat × Frame)) (later : List Event) :
    (inside ((place, .list none items) :: (start, frame) :: frames) count).run (.sequenceEnd :: later) =
      (inside ((start, frame.add (.list none items.reverse)) :: frames) (count + 1)).run later :=
  rfl

theorem run_mappingEnd (place start count : Nat) (entries : List (Node × Node)) (frame : Frame)
    (frames : List (Nat × Frame)) (later : List Event) :
    (inside ((place, .dict none entries none) :: (start, frame) :: frames) count).run
        (.mappingEnd :: later) =
      (inside ((start, frame.add (.dict none entries.reverse)) :: frames) (count + 1)).run later :=
  rfl

theorem isBuilt (block : Block) : IsBuilt block := by
  induction block with
  | scalar text =>
    intro start frame frames count later
    rfl
  | missing =>
    intro start frame frames count later
    rfl
  | list items ih =>
    intro start frame frames count later
    have opened : (inside ((start, frame) :: frames) count).run (events (.list items) ++ later) =
        (inside ((count, .list none []) :: (start, frame) :: frames) (count + 1)).run
          (itemEvents items ++ .sequenceEnd :: later) := by
      rw [events, List.cons_append, List.append_assoc]
      rfl
    have size : count + (events (.list items)).length =
        count + 1 + (itemEvents items).length + 1 := by
      simp only [events, List.length_cons, List.length_append, List.length_nil]
      omega
    rw [opened, run_itemEvents ih, List.append_nil, run_sequenceEnd, List.reverse_reverse, size, node]
  | dict entries ih =>
    intro start frame frames count later
    have opened : (inside ((start, frame) :: frames) count).run (events (.dict entries) ++ later) =
        (inside ((count, .dict none [] none) :: (start, frame) :: frames) (count + 1)).run
          (entryEvents entries ++ .mappingEnd :: later) := by
      rw [events, List.cons_append, List.append_assoc]
      rfl
    have size : count + (events (.dict entries)).length =
        count + 1 + (entryEvents entries).length + 1 := by
      simp only [events, List.length_cons, List.length_append, List.length_nil]
      omega
    rw [opened, run_entryEvents ih, List.append_nil, run_mappingEnd, List.reverse_reverse, size, node]

theorem run_dict (entries : List (String × Block)) :
    Composer.start.run (events (.dict entries)) =
      ⟨[], some (node (.dict entries)), [], [], [], (events (.dict entries)).length, true⟩ := by
  have opened : Composer.start.run (events (.dict entries)) =
      (inside [(0, .dict none [] none)] 1).run (entryEvents entries ++ [.mappingEnd]) := by
    rw [events]
    rfl
  have size : (events (.dict entries)).length = 1 + (entryEvents entries).length + 1 := by
    simp [events, Nat.add_comm]
  have closed : (inside [(0, .dict none (entryNodes entries).reverse none)]
        (1 + (entryEvents entries).length)).run [.mappingEnd] =
      ⟨[], some (.dict none (entryNodes entries).reverse.reverse), [], [], [],
        1 + (entryEvents entries).length + 1, true⟩ := rfl
  rw [opened, run_entryEvents (fun entry _ => isBuilt entry.2), List.append_nil, closed,
    List.reverse_reverse, size, node]

/-- A text with the tokens of a dictionary is read as its tree. -/
theorem source_of_tokens {cs : List Char} {entries : List (String × Block)}
    (tokens : Token.ofText cs = tokens (.dict entries) ++ [.streamEnd]) :
    source cs =
      { root := node (.dict entries)
        positional := false
        depth := depthLimit
        anchors := []
        aliasLimit := 100 * (events (.dict entries)).length
        intact := true } := by
  rw [source, tokens, ofTokens_dict]
  simp only [run_dict]
  rfl

end Block

end ApiWorkflow.Yaml
