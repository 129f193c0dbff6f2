/-!
# The log

What the library reports of its work: entries with a level, a message and named texts.
-/

namespace CrashCourier

/-- How much an entry matters. -/
inductive Level where
  | debug
  | info
  | warn
  | error
  deriving DecidableEq

def Level.name : Level → String
  | debug => "DEBUG"
  | info => "INFO"
  | warn => "WARN"
  | error => "ERROR"

structure LogEntry where
  level : Level
  message : String
  /-- Names and what they stand for in this entry. -/
  fields : List (String × String)
  deriving DecidableEq

/-- Entries, the first one first. -/
abbrev Log := List LogEntry

end CrashCourier
