import StackLang.Text.Padding

/-!
# Log records

Compiling and running leave records behind: each has a level, the part of the program that made it,
and a text.
-/

namespace StackLang

namespace Log

/-- How grave a record is. -/
inductive Level where
  | debug | warning | error
deriving DecidableEq

/-- The name of a level. -/
def Level.name : Level → String
  | debug => "DEBUG"
  | warning => "WARNING"
  | error => "ERROR"

/-- Who made a record. -/
inductive Origin where
  | generation | compilation | machine
deriving DecidableEq

/-- The name of an origin. -/
def Origin.name : Origin → String
  | generation => "bytelang.compiler.codegen"
  | compilation => "bytelang.compiler.compiler"
  | machine => "bytelang.vm.machine"

end Log

/-- A log record. -/
structure Log where
  level : Log.Level
  origin : Log.Origin
  message : String
deriving DecidableEq

namespace Log

/-- A record with its level and origin. -/
def text (r : Log) : String := r.level.name ++ " " ++ r.origin.name ++ ": " ++ r.message

end Log

end StackLang
