import Bourse.Log.Frame
import Bourse.Text.Field
import Bourse.Text.Number
import Bourse.Text.Quoted

/-!
# Configuration

The engine is configured by variables. A variable that is not set leaves its default, as does a
size of zero; blanks around a value are ignored.
-/

namespace Bourse

/-- The configuration of an engine. -/
structure Config where
  /-- Directory of the logs. -/
  directory : String := "./data/wal"
  /-- Most commands that wait for a symbol. -/
  mailboxSize : Nat := 4096
  /-- Most commands that are logged together. -/
  batchMax : Nat := 256
  logBuffer : Nat := 1048576
  outboxBuffer : Nat := 1048576
  /-- Milliseconds after which publishers look again without being woken. -/
  pollInterval : Nat := 50
  busSize : Nat := 65536
  publishing : Bool := true
  /-- Longest payload accepted when logs are read. -/
  maxPayload : Nat := Log.defaultLimit
deriving DecidableEq, Repr, Inhabited

/-- A variable has a value that cannot be used. -/
structure ConfigError where
  key : String
  value : String
deriving DecidableEq, Repr, Inhabited

/-- Wording of the error. -/
def ConfigError.message (e : ConfigError) : String :=
  "invalid value " ++ Text.quoted e.value ++ " for " ++ e.key

namespace Config

/-- Reads a variable with a reader of trimmed text. -/
def setting {α : Type} (lookup : String → Option String) (key : String)
    (read : List Char → Option α) (default : α) : Except ConfigError α :=
  match lookup key with
  | none => .ok default
  | some value =>
    match read (Text.trim value.toList) with
    | some a => .ok a
    | none => .error { key, value }

/-- Reads a size; zero stands for the default. -/
def size (lookup : String → Option String) (key : String) (default : Nat) :
    Except ConfigError Nat := do
  let n ← setting lookup key (Text.unsigned? 64) default
  return if n = 0 then default else n

/-- Reads a truth value. -/
def bool? (text : List Char) : Option Bool :=
  if text = "true".toList then some true
  else if text = "false".toList then some false
  else none

/-- The variables that are looked up. -/
def keys : List String :=
  ["ENGINE_WAL_DIR", "ENGINE_PUBLISHER_POLL_MS", "ENGINE_MAILBOX_SIZE", "ENGINE_BATCH_MAX",
    "ENGINE_WAL_BUF_SIZE", "ENGINE_OUTBOX_BUF_SIZE", "ENGINE_EVENT_BUS_SIZE",
    "ENGINE_ENABLE_PUBLISHER", "ENGINE_MAX_PAYLOAD"]

/-- Reads the configuration from variables. A blank directory is as good as none. -/
def ofVariables (lookup : String → Option String) : Except ConfigError Config := do
  let base : Config := {}
  let directory := match lookup "ENGINE_WAL_DIR" with
    | some d => if Text.trim d.toList = [] then base.directory else d
    | none => base.directory
  let pollInterval ← size lookup "ENGINE_PUBLISHER_POLL_MS" base.pollInterval
  let mailboxSize ← size lookup "ENGINE_MAILBOX_SIZE" base.mailboxSize
  let batchMax ← size lookup "ENGINE_BATCH_MAX" base.batchMax
  let logBuffer ← size lookup "ENGINE_WAL_BUF_SIZE" base.logBuffer
  let outboxBuffer ← size lookup "ENGINE_OUTBOX_BUF_SIZE" base.outboxBuffer
  let busSize ← size lookup "ENGINE_EVENT_BUS_SIZE" base.busSize
  let publishing ← setting lookup "ENGINE_ENABLE_PUBLISHER" bool? base.publishing
  let maxPayload ← size lookup "ENGINE_MAX_PAYLOAD" base.maxPayload
  return {
    directory, mailboxSize, batchMax, logBuffer, outboxBuffer, pollInterval, busSize, publishing,
    maxPayload }

end Config

end Bourse
