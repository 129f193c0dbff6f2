/-!
# Tokens of a settings text

The pieces of a text in the order in which a reader of its structure needs them. Indentation shows
as the begin and the end of blocks.
-/

namespace CrashCourier.Yaml

/-- How a scalar is written. -/
inductive Style where
  | plain
  | singleQuoted
  | doubleQuoted
  | literal
  | folded
  deriving DecidableEq

/-- One piece of a text. -/
inductive Token where
  | streamStart
  | streamEnd
  /-- The version of the format that the text says it follows. -/
  | version (major minor : Nat)
  /-- A handle for tags, and what it stands for. -/
  | tagDirective (handle stands : String)
  | documentStart
  | documentEnd
  | blockSequenceStart
  | blockMappingStart
  | blockEnd
  | flowSequenceStart
  | flowSequenceEnd
  | flowMappingStart
  | flowMappingEnd
  | blockEntry
  | flowEntry
  | key
  | value
  | alias (name : String)
  | anchor (name : String)
  | tag (handle suffix : String)
  | scalar (text : String) (style : Style)
  deriving DecidableEq

end CrashCourier.Yaml
