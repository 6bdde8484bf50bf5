import CppProgramming.Lib.ByteString

/-! # The request parser of `simple_http/http_server`

`HttpRequest` collects the bytes of a connection in `buf` and takes the first line, the header lines
and the message body out of it as they become complete. A member function that throws leaves the object
as changed so far, so an exception carries the object it leaves behind. -/

namespace SimpleHttp

/-- The exceptions that leave `HttpRequest::Append`. -/
inductive ParseError where
  -- `std::runtime_error` of `AddHeader`: a header line without a colon.
  | runtimeError
  -- What `std::stoi` threw on the value of `Content-Length`.
  | stoi (e : ByteString.StoiError)
  deriving DecidableEq, Repr

/-- `HttpRequest`. `headers` is the `std::map`, as the partial function it stores. -/
structure HttpRequest where
  buf : ByteString := []
  contentLength : Nat := 0
  firstLine : ByteString := []
  headers : ByteString → Option ByteString := fun _ => none
  messageBody : ByteString := []
  headersParseComplete : Bool := false
  totalParseComplete : Bool := false

namespace HttpRequest

/-- `LINE_END`, `"\r\n"`. -/
def lineEnd : ByteString := [13, 10]

/-- `HEADER_SEP`, `':'`. -/
def headerSep : UInt8 := 58

/-- `CONTENT_LENGTH_HEADER`, `"Content-Length"`. -/
def contentLengthHeader : ByteString := [67, 111, 110, 116, 101, 110, 116, 45, 76, 101, 110, 103, 116, 104]

/-- `Trim`: `Ltrim`, then `Rtrim`. -/
def trim (s : ByteString) : ByteString := (s.dropWhile ByteString.isspace).rdropWhile ByteString.isspace

/-- The conversion of an `int` to a 64-bit `size_t`. -/
def toSizeT (v : Int) : Nat := (v % 2 ^ 64).toNat

/-- `SetFirstLine`. -/
def setFirstLine (q : HttpRequest) : HttpRequest :=
  if q.firstLine ≠ [] then q
  else
    match ByteString.find lineEnd q.buf with
    | none => q
    | some pos => { q with firstLine := q.buf.take pos, buf := q.buf.drop (pos + lineEnd.length) }

/-- `AddHeader`. -/
def addHeader (q : HttpRequest) (s : ByteString) : Except (ParseError × HttpRequest) HttpRequest :=
  match ByteString.find [headerSep] s with
  | none => .error (.runtimeError, q)
  | some pos => .ok { q with headers := Function.update q.headers (s.take pos) (some (trim (s.drop (pos + 1)))) }

/-- `SetContentLength`. -/
def setContentLength (q : HttpRequest) : Except (ParseError × HttpRequest) HttpRequest :=
  match q.headers contentLengthHeader with
  | none => .ok { q with contentLength := 0 }
  | some v =>
    match ByteString.stoi v with
    | .ok n => .ok { q with contentLength := toSizeT n }
    | .error e => .error (.stoi e, q)

/-- The loop of `SetHeaders`, at most `fuel` rounds of it. -/
def setHeadersLoop : Nat → HttpRequest → Except (ParseError × HttpRequest) HttpRequest
  | 0, q => .ok q
  | fuel + 1, q =>
    match ByteString.find lineEnd q.buf with
    | none => .ok q
    | some 0 => setContentLength { q with buf := q.buf.drop lineEnd.length, headersParseComplete := true }
    | some pos => do
      let q' ← addHeader q (q.buf.take pos)
      setHeadersLoop fuel { q' with buf := q'.buf.drop (pos + lineEnd.length) }

/-- `SetHeaders`. Every round takes at least the two bytes of a line end out of `buf`, so the loop has
    ended before the rounds are used up (`setHeaders_eq`). -/
def setHeaders (q : HttpRequest) : Except (ParseError × HttpRequest) HttpRequest :=
  setHeadersLoop (q.buf.length + 1) q

/-- `ParseMessageBody`. -/
def parseMessageBody (q : HttpRequest) : HttpRequest :=
  if !q.headersParseComplete then q
  else if q.totalParseComplete then q
  else
    { q with
      messageBody := q.messageBody ++ q.buf
      totalParseComplete := decide ((q.messageBody ++ q.buf).length ≥ q.contentLength)
      buf := [] }

/-- `ParseRequest`. -/
def parseRequest (q : HttpRequest) : Except (ParseError × HttpRequest) HttpRequest := do
  let q' ← if !q.headersParseComplete then setHeaders (setFirstLine q) else .ok q
  .ok (parseMessageBody q')

/-- `Append`. -/
def append (q : HttpRequest) (s : ByteString) : Except (ParseError × HttpRequest) HttpRequest :=
  if q.totalParseComplete then .ok q else parseRequest { q with buf := q.buf ++ s }

/-- `AllReceived`. -/
def allReceived (q : HttpRequest) : Bool := q.totalParseComplete

/-- `GetMessageBody`. -/
def getMessageBody (q : HttpRequest) : ByteString := q.messageBody

/-- The chunks of a stream, fed one by one to a fresh object until one of them throws. -/
def feed (chunks : List ByteString) : Except (ParseError × HttpRequest) HttpRequest :=
  chunks.foldlM append {}

end HttpRequest
end SimpleHttp
