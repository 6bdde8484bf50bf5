import CppProgramming.Lib.Assignments
import CppProgramming.Lib.ByteString

/-! # The configuration files

`AbstractConfig::init` with the items of `ClientConfig` and `ServerConfig`: every item is set to its default, then the
lines of the file are taken one by one up to an exception of a parser. -/

namespace HelloWorld.Config
open Assignments (Effect)

/-- The levels of the logger. -/
inductive LogLevel where
  | debug
  | info
  | warn
  | error
  deriving DecidableEq, Repr

/-- A value of one of the types that items have. -/
inductive Value where
  | logLevel (x : LogLevel)
  | string (x : ByteString)
  | int (x : Int)
  | bool (x : Bool)
  deriving DecidableEq, Repr

/-- A string literal. -/
def bytes (s : String) : ByteString := s.toList.map fun c => c.toNat.toUInt8

/-! ### Parsers -/

/-- `utils::ParseLogLevel`. -/
def parseLogLevel (s : ByteString) : LogLevel :=
  if s = bytes "DEBUG" then .debug
  else if s = bytes "INFO" then .info
  else if s = bytes "WARN" then .warn
  else if s = bytes "ERROR" then .error
  else .info

/-- `utils::StringToBool`. -/
def stringToBool (s : ByteString) : Bool := s = bytes "true"

/-- `boost::algorithm::trim`. -/
def trim (s : ByteString) : ByteString := (s.dropWhile ByteString.isspace).rdropWhile ByteString.isspace

/-! ### Items -/

/-- `DEFINE_CONFIG_ITEM`. -/
structure ConfigItem where
  name : ByteString
  parser : ByteString → Except ByteString.StoiError Value
  default : ByteString

/-- An item that is read with `ParseLogLevel`. -/
def logLevelItem (name default : String) : ConfigItem :=
  ⟨bytes name, fun s => .ok (.logLevel (parseLogLevel s)), bytes default⟩

/-- An item that is a string. -/
def stringItem (name default : String) : ConfigItem := ⟨bytes name, fun s => .ok (.string s), bytes default⟩

/-- An item that is read with `std::stoi`. -/
def intItem (name default : String) : ConfigItem := ⟨bytes name, fun s => (ByteString.stoi s).map .int, bytes default⟩

/-- An item that is read with `StringToBool`. -/
def boolItem (name default : String) : ConfigItem := ⟨bytes name, fun s => .ok (.bool (stringToBool s)), bytes default⟩

/-- `log.level`. -/
def LOG_LEVEL : ConfigItem := logLevelItem "log.level" "INFO"
/-- `grpc.server.host`. -/
def GRPC_SERVER_HOST : ConfigItem := stringItem "grpc.server.host" "localhost"
/-- `grpc.server.port`. -/
def GRPC_SERVER_PORT : ConfigItem := intItem "grpc.server.port" "50051"
/-- `grpc.client.async`. -/
def GRPC_CLIENT_ASYNC : ConfigItem := boolItem "grpc.client.async" "false"
/-- `grpc.client.async.request.count`. -/
def GRPC_CLIENT_ASYNC_REQUEST_COUNT : ConfigItem := intItem "grpc.client.async.request.count" "3"
/-- `grpc.client.async.threadpool.size`. -/
def GRPC_CLIENT_ASYNC_THREADPOOL_SIZE : ConfigItem := intItem "grpc.client.async.threadpool.size" "8"
/-- `grpc.client.async.polling.interval.milliseconds`. -/
def GRPC_CLIENT_ASYNC_POLLING_INTERVAL_MILLISECONDS : ConfigItem :=
  intItem "grpc.client.async.polling.interval.milliseconds" "500"
/-- `grpc.server.async`. -/
def GRPC_SERVER_ASYNC : ConfigItem := boolItem "grpc.server.async" "false"
/-- `grpc.server.async.threadpool.size`. -/
def GRPC_SERVER_ASYNC_THREADPOOL_SIZE : ConfigItem := intItem "grpc.server.async.threadpool.size" "8"
/-- `grpc.server.async.polling.interval.milliseconds`. -/
def GRPC_SERVER_ASYNC_POLLING_INTERVAL_MILLISECONDS : ConfigItem :=
  intItem "grpc.server.async.polling.interval.milliseconds" "500"

/-- The items of a subclass behind `LOG_LEVEL`, which is the first one of both. Every default passes its parser. -/
structure ConfigClass where
  items : List ConfigItem
  nodup : ((LOG_LEVEL :: items).map ConfigItem.name).Nodup
  defaults : ∀ item ∈ LOG_LEVEL :: items, (item.parser item.default).isOk = true

/-- `ClientConfig`. -/
def clientConfig : ConfigClass where
  items := [GRPC_SERVER_HOST, GRPC_SERVER_PORT, GRPC_CLIENT_ASYNC, GRPC_CLIENT_ASYNC_REQUEST_COUNT,
    GRPC_CLIENT_ASYNC_THREADPOOL_SIZE, GRPC_CLIENT_ASYNC_POLLING_INTERVAL_MILLISECONDS]
  nodup := by decide
  defaults := by decide

/-- `ServerConfig`. -/
def serverConfig : ConfigClass where
  items := [GRPC_SERVER_PORT, GRPC_SERVER_ASYNC, GRPC_SERVER_ASYNC_THREADPOOL_SIZE,
    GRPC_SERVER_ASYNC_POLLING_INTERVAL_MILLISECONDS]
  nodup := by decide
  defaults := by decide

/-! ### The program -/

/-- The items by their names, and the argument of the last `SetLogLevel`. -/
structure State where
  values : ByteString → Option Value := fun _ => none
  logLevel : Option Value := none

/-- A member function of a configuration; the exceptions are those of `std::stoi`. -/
abbrev Exec := EStateM ByteString.StoiError State

/-- `_item = parser(s)`. -/
def ConfigItem.assign (item : ConfigItem) (s : ByteString) : Exec Unit := fun state =>
  match item.parser s with
  | .ok x => .ok () { state with values := Function.update state.values item.name (some x) }
  | .error e => .error e state

/-- `init_item`. -/
def ConfigItem.init (item : ConfigItem) : Exec Unit := item.assign item.default

/-- `set_item`. -/
def ConfigItem.set (item : ConfigItem) (k v : ByteString) : Exec Bool := do
  if k ≠ item.name then
    return false
  item.assign v
  return true

/-- `SetLogLevel` of the logger. -/
def setLogLevel (level : Option Value) : Exec Unit := modify fun s => { s with logLevel := level }

/-- `initConfig`: every item gets its default. -/
def ConfigClass.initConfig (c : ConfigClass) : Exec Unit := (LOG_LEVEL :: c.items).forM ConfigItem.init

/-- `setConfig`: every item is asked in turn. -/
def ConfigClass.setConfig (c : ConfigClass) (name value : ByteString) : Exec Unit := do
  if ← LOG_LEVEL.set name value then
    setLogLevel ((← get).values LOG_LEVEL.name)
  c.items.forM fun item => do
    let _ ← item.set name value

/-- One line of the file: `line[0]` of an empty string is no comment sign. -/
def ConfigClass.loadLine (c : ConfigClass) (line : ByteString) : Exec Unit := do
  let line := trim line
  if line.head? = some 35 ∨ line = [] then
    return
  match line.splitOn 61 with
  | [k, v] => c.setConfig (trim k) (trim v)
  | _ => return

/-- `loadConfigFile`, where `none` is a file that cannot be opened. -/
def ConfigClass.loadConfigFile (c : ConfigClass) : Option (List ByteString) → Exec Unit
  | none => return
  | some lines =>
    try
      lines.forM c.loadLine
    catch _ =>
      pure ()

/-- `AbstractConfig::init`. -/
def ConfigClass.init (c : ConfigClass) (file : Option (List ByteString)) : Exec Unit := do
  c.initConfig
  c.loadConfigFile file

end HelloWorld.Config
