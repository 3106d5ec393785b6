import Namespacer.Json.Printer
import Namespacer.Sorting
import Namespacer.Text.LetterCase

/-!
# Log events

An event has a level, a name and fields. A log shows the events from a level
on, one line each.
-/

namespace Namespacer

/-- How serious an event is. -/
inductive LogLevel where
  | debug
  | info
  | warning
  | error
  | critical
deriving DecidableEq, Repr

namespace LogLevel

/-- The word for a level. -/
def label : LogLevel → String
  | debug => "debug"
  | info => "info"
  | warning => "warning"
  | error => "error"
  | critical => "critical"

/-- The rank of a level. -/
def rank : LogLevel → Nat
  | debug => 0
  | info => 1
  | warning => 2
  | error => 3
  | critical => 4

/-- The level from which a log shows events, by its name in any letter case.
An unknown name means warnings. -/
def ofName (name : Text) : LogLevel :=
  match String.ofList (Text.upper name) with
  | "DEBUG" => debug
  | "INFO" => info
  | "ERROR" => error
  | _ => warning

end LogLevel

/-- A log event. -/
structure LogEvent where
  level : LogLevel
  event : Text
  fields : List (Text × Json) := []

namespace LogEvent

/-- Whether a shown text has to be quoted. -/
def needsQuotes (text : List Nat) : Bool :=
  text.any fun code => [32, 9, 61, 13, 10, 34, 39].contains code

/-- A field value as a line shows it. -/
def shownValue : Json → Text
  | .string text => if needsQuotes text then Text.quotedCodes text else text.map Char.ofNat
  | value => value.shown

/-- The line of an event: its level, its name and its fields sorted by key. -/
def line (event : LogEvent) : Text :=
  let fields := sortBy (fun a b => Text.le a.1 b.1) event.fields
  let shown := fields.flatMap fun (key, value) => ' ' :: key ++ '=' :: shownValue value
  Text.dropEndWhile (· == ' ')
    ('[' :: Text.padEnd 9 event.level.label ++ "] " ++ Text.padEnd 30 event.event ++ shown)

end LogEvent

/-- The lines that a log shows from a level on. -/
def logText (level : LogLevel) (events : List LogEvent) : Text :=
  (events.filter (level.rank ≤ ·.level.rank)).flatMap fun event => event.line ++ ['\n']

end Namespacer
