import ApiWorkflow.Source.Node

/-! # Tokens of a YAML text -/

namespace ApiWorkflow.Yaml

open Source

/-- A token. Indentation is made explicit: a block collection has a start token
    and an end token, and so has every key of a mapping. -/
inductive Token where
  | streamEnd
  | versionDirective (major minor : Nat)
  | tagDirective (handle leading : String)
  | documentStart
  | documentEnd
  | blockSequenceStart
  | blockMappingStart
  | blockEnd
  | flowSequenceStart
  | flowSequenceEnd
  | flowMappingStart
  | flowMappingEnd
  | blockEntry
  | flowEntry
  | key
  | value
  | alias (name : String)
  | anchor (name : String)
  | tag (handle suffix : String)
  | scalar (style : Style) (text : String)
  deriving Repr, DecidableEq, Inhabited

end ApiWorkflow.Yaml
