import CppProgramming.SimpleHttp.HttpRequest

/-! # Request handlers

`RequestHandler` is the interface through which a connection hands received data to the application and
learns whether it is still waited for. Other threads may look at the handler's two flags and run its other
callbacks in between, so a callback is a sequence of steps, one for each access of the handler's fields and
one for each call of `write`. `HttpRequestHandler` is the handler that `simple_http` installs. -/

namespace SimpleHttp

/-- `ConnectionErrorCode`. -/
inductive ConnectionErrorCode where
  | noError
  | socketError
  | socketClosed
  deriving DecidableEq, Repr

/-- The value that `errorCode` holds. -/
def ConnectionErrorCode.toInt : ConnectionErrorCode → BitVec 32
  | .noError => 0
  | .socketError => 1
  | .socketClosed => 2

/-- What one step of a callback does to the handler, and how the callback goes on: it returns, an exception
    leaves it, it continues, or it calls `RequestHandler::write` and then continues. -/
inductive HandlerStep (State Pc : Type) where
  | ret (h : State) (v : Bool)
  | throw
  | goto (h : State) (p : Pc)
  | write (h : State) (content : ByteString) (p : Pc)

/-- A class derived from `RequestHandler`: its fields, the two flags of the base class among them, the
    program points of its callbacks and what it does at each. `spontaneous` says that threads of its own
    call `write`, too. -/
structure RequestHandler where
  State : Type
  Pc : Type
  init : State
  isReadWaiting : State → Bool
  isWriteWaiting : State → Bool
  appendReceivedData : ByteString → Pc
  checkDataIntegrity : Pc
  readCompleteCallback : ConnectionErrorCode → Pc
  writeCompleteCallback : ConnectionErrorCode → Pc
  exec : State → Pc → HandlerStep State Pc
  spontaneous : Bool

namespace HttpRequestHandler

/-- The fields of `HttpRequestHandler` and of its base class. -/
structure State where
  httpRequest : HttpRequest := {}
  contentToWrite : ByteString := []
  isReadWaiting : Bool := true
  isWriteWaiting : Bool := false

/-- The program points of the callbacks. -/
inductive Pc where
  | append (s : ByteString)
  | integrity
  | readComplete
  | clearRead
  | respond
  | setWrite
  | writeComplete
  | clearWrite
  deriving DecidableEq, Repr

/-- `"hello\r\n"`. -/
def responseMsg : ByteString := [104, 101, 108, 108, 111, 13, 10]

/-- `std::to_string(n)`. -/
def toDecimal (n : Nat) : ByteString := (Nat.toDigits 10 n).map fun d => UInt8.ofNat d.toNat

/-- The response to every request: `"HTTP/1.1 200 OK\r\n"`, a line `"Context-Length: "` with the size of
    `responseMsg`, an empty line and `responseMsg`. -/
def contentToWrite : ByteString :=
  [72, 84, 84, 80, 47, 49, 46, 49, 32, 50, 48, 48, 32, 79, 75, 13, 10] ++
    ([67, 111, 110, 116, 101, 120, 116, 45, 76, 101, 110, 103, 116, 104, 58, 32] ++ toDecimal responseMsg.length ++
      [13, 10]) ++ [13, 10] ++ responseMsg

/-- One step of a callback. `Write` hands the content over before it sets `isWriteWaiting`. -/
def exec (h : State) : Pc → HandlerStep State Pc
  | .append s =>
    match h.httpRequest.append s with
    | .ok q => .ret { h with httpRequest := q } false
    | .error _ => .throw
  | .integrity => .ret h h.httpRequest.allReceived
  | .readComplete => if h.isReadWaiting then .goto h .clearRead else .ret h false
  | .clearRead => .goto { h with isReadWaiting := false } .respond
  | .respond => .write { h with contentToWrite := contentToWrite } contentToWrite .setWrite
  | .setWrite => .ret { h with isWriteWaiting := true } false
  | .writeComplete => if h.isWriteWaiting then .goto h .clearWrite else .ret h false
  | .clearWrite => .ret { h with isWriteWaiting := false } false

end HttpRequestHandler

/-- `HttpRequestHandler`. Its callbacks only log the error code. -/
def httpRequestHandler : RequestHandler where
  State := HttpRequestHandler.State
  Pc := HttpRequestHandler.Pc
  init := {}
  isReadWaiting := HttpRequestHandler.State.isReadWaiting
  isWriteWaiting := HttpRequestHandler.State.isWriteWaiting
  appendReceivedData := .append
  checkDataIntegrity := .integrity
  readCompleteCallback _ := .readComplete
  writeCompleteCallback _ := .writeComplete
  exec := HttpRequestHandler.exec
  spontaneous := false

end SimpleHttp
