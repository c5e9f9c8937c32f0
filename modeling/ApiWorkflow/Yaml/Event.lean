import ApiWorkflow.Yaml.Token

/-! # Events of a YAML document

The events of a document are its scalars, its aliases, and the starts and ends of
its collections, in the order of the text. `Event.ofTokens` follows the grammar
with a stack of goals: each step settles one event and the goals that remain.
-/

namespace ApiWorkflow.Yaml

open Source

/-- The properties of a node. -/
structure Properties where
  anchor : Option String
  tag : Option String
  deriving Repr, DecidableEq, Inhabited

/-- An event. -/
inductive Event where
  | alias (name : String)
  | scalar (props : Properties) (style : Style) (text : String)
  | sequenceStart (props : Properties)
  | sequenceEnd
  | mappingStart (props : Properties)
  | mappingEnd
  deriving Repr, DecidableEq, Inhabited

namespace Event

/-- A value that is not written. -/
def empty : Event :=
  .scalar ⟨none, none⟩ .plain ""

/-- What the grammar expects next. -/
inductive Goal where
  | blockNode
  | blockEntries
  | indentlessEntries
  | blockKeys
  | blockValue
  | flowEntries (first : Bool)
  | pairKey
  | pairValue
  | pairEnd
  | flowKeys (first : Bool)
  | flowValue
  | noFlowValue
  deriving Repr, DecidableEq, Inhabited

/-- The goals that remain, the tokens that remain, and what the handles of tags
    stand for. -/
structure Pending where
  goals : List Goal
  tokens : List Token
  handles : List (String × String)
  deriving Repr, Inhabited

/-- A node is expected in three places that differ in what may stand there. -/
inductive Place where
  /-- A value or a key of a block mapping, where a sequence need not be indented. -/
  | blockValue
  | block
  | flow
  deriving Repr, DecidableEq, Inhabited

/-- The tag that a handle and a suffix spell. -/
def tagText (handles : List (String × String)) (handle suffix : String) : Option String :=
  if handle.isEmpty then some suffix
  else (handles.lookup handle).map (· ++ suffix)

/-- The properties at the start of a node, in either order; none if a handle of a
    tag is not known. -/
def properties (handles : List (String × String)) (tokens : List Token) :
    Option (Properties × List Token) :=
  match tokens with
  | .anchor name :: .tag handle suffix :: rest =>
    (tagText handles handle suffix).map fun tag => (⟨some name, some tag⟩, rest)
  | .tag handle suffix :: .anchor name :: rest =>
    (tagText handles handle suffix).map fun tag => (⟨some name, some tag⟩, rest)
  | .anchor name :: rest => some (⟨some name, none⟩, rest)
  | .tag handle suffix :: rest =>
    (tagText handles handle suffix).map fun tag => (⟨none, some tag⟩, rest)
  | rest => some (⟨none, none⟩, rest)

/-- The tag `!` of a scalar says nothing. -/
def scalarProperties (props : Properties) : Properties :=
  if props.tag = some "!" then { props with tag := none } else props

/-- The first event of a node. Its own goals come before `goals`. -/
def node (place : Place) (goals : List Goal) (tokens : List Token)
    (handles : List (String × String)) : Option (Event × Pending) :=
  match tokens with
  | .alias name :: rest => some (.alias name, ⟨goals, rest, handles⟩)
  | tokens =>
    match properties handles tokens with
    | none => none
    | some (_, []) => none
    | some (props, token :: rest) =>
      match token, place with
      | .blockEntry, .blockValue =>
        some (.sequenceStart props, ⟨.indentlessEntries :: goals, token :: rest, handles⟩)
      | .scalar style text, _ =>
        some (.scalar (scalarProperties props) style text, ⟨goals, rest, handles⟩)
      | .flowSequenceStart, _ =>
        some (.sequenceStart props, ⟨.flowEntries true :: goals, rest, handles⟩)
      | .flowMappingStart, _ =>
        some (.mappingStart props, ⟨.flowKeys true :: goals, rest, handles⟩)
      | token, place =>
        if place != .flow && token == .blockSequenceStart then
          some (.sequenceStart props, ⟨.blockEntries :: goals, rest, handles⟩)
        else if place != .flow && token == .blockMappingStart then
          some (.mappingStart props, ⟨.blockKeys :: goals, rest, handles⟩)
        else if props.anchor.isSome || props.tag.isSome then
          some (.scalar props .plain "", ⟨goals, token :: rest, handles⟩)
        else none

/-- Whether the next token is one of `ends`, before which a node is not written;
    none if there is no token. -/
def isMissing (ends : List Token) : List Token → Option Bool
  | [] => none
  | token :: _ => some (ends.contains token)

/-- A node, or an empty value before one of `ends`. -/
def nodeOrEmpty (place : Place) (ends : List Token) (goals : List Goal) (tokens : List Token)
    (handles : List (String × String)) : Option (Event × Pending) :=
  match isMissing ends tokens with
  | none => none
  | some true => some (.empty, ⟨goals, tokens, handles⟩)
  | some false => node place goals tokens handles

/-- The next entry of a list in brackets, behind its comma. -/
def flowEntry (goals : List Goal) (tokens : List Token) (handles : List (String × String)) :
    Option (Event × Pending) :=
  match tokens with
  | .key :: rest => some (.mappingStart ⟨none, none⟩, ⟨.pairKey :: goals, rest, handles⟩)
  | .flowSequenceEnd :: rest => some (.sequenceEnd, ⟨goals.drop 1, rest, handles⟩)
  | tokens => node .flow goals tokens handles

/-- The next entry of a dictionary in braces, behind its comma. -/
def flowPair (goals : List Goal) (tokens : List Token) (handles : List (String × String)) :
    Option (Event × Pending) :=
  match tokens with
  | .key :: rest =>
    nodeOrEmpty .flow [.value, .flowEntry, .flowMappingEnd] (.flowValue :: goals) rest handles
  | .flowMappingEnd :: rest => some (.mappingEnd, ⟨goals.drop 1, rest, handles⟩)
  | tokens => node .flow (.noFlowValue :: goals) tokens handles

/-- The next event of a goal. `goals` are those behind it. -/
def ofGoal (goal : Goal) (goals : List Goal) (tokens : List Token)
    (handles : List (String × String)) : Option (Event × Pending) :=
  match goal with
  | .blockNode => node .block goals tokens handles
  | .blockEntries =>
    match tokens with
    | .blockEntry :: rest =>
      nodeOrEmpty .block [.blockEntry, .blockEnd] (.blockEntries :: goals) rest handles
    | .blockEnd :: rest => some (.sequenceEnd, ⟨goals, rest, handles⟩)
    | _ => none
  | .indentlessEntries =>
    match tokens with
    | [] => none
    | .blockEntry :: rest =>
      nodeOrEmpty .block [.blockEntry, .key, .value, .blockEnd] (.indentlessEntries :: goals) rest
        handles
    | tokens => some (.sequenceEnd, ⟨goals, tokens, handles⟩)
  | .blockKeys =>
    match tokens with
    | .key :: rest =>
      nodeOrEmpty .blockValue [.key, .value, .blockEnd] (.blockValue :: goals) rest handles
    | .blockEnd :: rest => some (.mappingEnd, ⟨goals, rest, handles⟩)
    | _ => none
  | .blockValue =>
    match tokens with
    | [] => none
    | .value :: rest =>
      nodeOrEmpty .blockValue [.key, .value, .blockEnd] (.blockKeys :: goals) rest handles
    | tokens => some (.empty, ⟨.blockKeys :: goals, tokens, handles⟩)
  | .flowEntries first =>
    let goals := .flowEntries false :: goals
    match tokens with
    | .flowSequenceEnd :: rest => some (.sequenceEnd, ⟨goals.drop 1, rest, handles⟩)
    | .flowEntry :: rest =>
      if first then node .flow goals tokens handles else flowEntry goals rest handles
    | tokens => if first then flowEntry goals tokens handles else none
  | .pairKey =>
    match isMissing [.value, .flowEntry, .flowSequenceEnd] tokens with
    | none => none
    | some true => some (.empty, ⟨.pairValue :: goals, tokens.drop 1, handles⟩)
    | some false => node .flow (.pairValue :: goals) tokens handles
  | .pairValue =>
    match tokens with
    | [] => none
    | .value :: rest =>
      nodeOrEmpty .flow [.flowEntry, .flowSequenceEnd] (.pairEnd :: goals) rest handles
    | tokens => some (.empty, ⟨.pairEnd :: goals, tokens, handles⟩)
  | .pairEnd =>
    match tokens with
    | [] => none
    | tokens => some (.mappingEnd, ⟨goals, tokens, handles⟩)
  | .flowKeys first =>
    let goals := .flowKeys false :: goals
    match tokens with
    | .flowMappingEnd :: rest => some (.mappingEnd, ⟨goals.drop 1, rest, handles⟩)
    | .flowEntry :: rest =>
      if first then node .flow (.noFlowValue :: goals) tokens handles else flowPair goals rest handles
    | tokens => if first then flowPair goals tokens handles else none
  | .flowValue =>
    match tokens with
    | [] => none
    | .value :: rest => nodeOrEmpty .flow [.flowEntry, .flowMappingEnd] goals rest handles
    | tokens => some (.empty, ⟨goals, tokens, handles⟩)
  | .noFlowValue =>
    match tokens with
    | [] => none
    | tokens => some (.empty, ⟨goals, tokens, handles⟩)

/-- The events up to the end of the goals, and the tokens behind them; no rest
    where the tokens make no sense. `bound` bounds the number of events. -/
def run : Nat → Pending → List Event × Option (List Token)
  | 0, _ => ([], none)
  | bound + 1, pending =>
    match pending.goals with
    | [] => ([], some pending.tokens)
    | goal :: goals =>
      match ofGoal goal goals pending.tokens pending.handles with
      | none => ([], none)
      | some (event, pending) =>
        let (events, rest) := run bound pending
        (event :: events, rest)

/-- The directives before a document: what they say of the handles of tags, and
    the tokens behind them. -/
def directives (version : Bool) (handles : List (String × String)) :
    List Token → Option (List (String × String) × List Token)
  | .versionDirective major minor :: rest =>
    if version || major != 1 || (minor != 1 && minor != 2) then none
    else directives true handles rest
  | .tagDirective handle leading :: rest =>
    if (handles.lookup handle).isSome then none
    else directives version (handles ++ [(handle, leading)]) rest
  | rest => some (handles, rest)

/-- The handles that need no directive; a directive for one of them comes first. -/
def standardHandles : List (String × String) :=
  [("!", "!"), ("!!", "tag:yaml.org,2002:")]

/-- The events of the only document of a text. -/
structure Stream where
  events : List Event
  /-- Whether the text makes sense up to its end and holds no second document. -/
  intact : Bool
  deriving Repr, Inhabited

/-- Nothing but marks of a document's end follows. -/
def onlyEnds : List Token → Bool
  | [.streamEnd] => true
  | .documentEnd :: rest => onlyEnds rest
  | _ => false

/-- Events of a document whose content starts here. -/
def content (tokens : List Token) (handles : List (String × String)) : Stream :=
  let (events, rest) := run (4 * tokens.length + 8) ⟨[.blockNode], tokens, handles⟩
  ⟨events, match rest with
    | some rest => onlyEnds rest
    | none => false⟩

/-- An explicit document may have no content. -/
def explicitContent (tokens : List Token) (handles : List (String × String)) : Stream :=
  match tokens with
  | [] => ⟨[], false⟩
  | .versionDirective .. :: _ | .tagDirective .. :: _ | .documentStart :: _ => ⟨[.empty], false⟩
  | .documentEnd :: _ | .streamEnd :: _ => ⟨[.empty], onlyEnds tokens⟩
  | tokens => content tokens handles

/-- The events of a token list. -/
def ofTokens (tokens : List Token) : Stream :=
  match tokens with
  | [.streamEnd] => ⟨[], true⟩
  | .versionDirective .. :: _ | .tagDirective .. :: _ | .documentStart :: _ =>
    match directives false [] tokens with
    | some (handles, .documentStart :: rest) => explicitContent rest (handles ++ standardHandles)
    | _ => ⟨[], false⟩
  | tokens => content tokens standardHandles

end Event

end ApiWorkflow.Yaml
