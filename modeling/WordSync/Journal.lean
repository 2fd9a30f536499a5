/-!
# The journal

Diagnostic records and the list that collects them. A record says how serious it is, which part
of the program speaks, and what it has to say.
-/

namespace WordSync

/-- How serious a record is. -/
inductive Level where
  /-- Something cannot go on. -/
  | error
  /-- Something looks wrong. -/
  | warn
  /-- Something worth knowing happened. -/
  | info
  /-- A detail for whoever looks for a fault. -/
  | debug
  /-- A detail of normal work. -/
  | trace
  deriving DecidableEq

/-- The name of a level. -/
def Level.name : Level → String
  | .error => "ERROR"
  | .warn => "WARN"
  | .info => "INFO"
  | .debug => "DEBUG"
  | .trace => "TRACE"

/-- One diagnostic record. -/
structure Record where
  /-- How serious it is. -/
  level : Level
  /-- Which part of the program speaks, as the path of its module. -/
  target : String
  /-- What it says. -/
  message : String
  deriving DecidableEq

/-- Records in the order in which they were made. -/
abbrev Journal := List Record

/-- Whether `needle` stands somewhere in a text. -/
def occursIn (needle : List Char) : List Char → Bool
  | [] => needle.isEmpty
  | c :: rest => needle.isPrefixOf (c :: rest) || occursIn needle rest

namespace Journal

/-- The journal with one more record at its end. -/
def note (journal : Journal) (record : Record) : Journal := journal ++ [record]

/-- Whether some record comes from a target that starts with `start` and mentions `needle`. -/
def mentions (journal : Journal) (start needle : String) : Bool :=
  journal.any fun record =>
    start.toList.isPrefixOf record.target.toList && occursIn needle.toList record.message.toList

/-- All records, and the empty journal that is left. -/
def drain (journal : Journal) : List Record × Journal := (journal, [])

end Journal

end WordSync
