import OpenDB.Library.AssocList
import OpenDB.Library.ByteSearch
import OpenDB.Types.NumberText
import OpenDB.Types.ValueText

/-!
# HTTP framing and responses

An I/O thread owns connections. When a socket is readable it takes the connection out of its table,
which leaves a null pointer there, appends what has arrived to the read buffer, hands a complete
request to the server and puts the connection back. The server answers by `writeTo`, which looks the
connection up in the same table.

Two slips decide what happens. The length of a body is read from the colon of its header on, so it is
always zero (`readContentLength_eq_zero`), and the answer is written while the table still holds the
null pointer, so every request that is handed over ends in a null dereference (`readable_delivered`).
-/

set_option autoImplicit false

namespace OpenDB

open OpenDB.Library

/-- How a call of the I/O thread can fail to return. -/
inductive IoFault where
  | nullDereference
  /-- `std::out_of_range` from `substr`, outside of any handler. -/
  | outOfRange
  deriving DecidableEq, Repr

def crlf : Bytes := [13, 10]

/-! ## Requests and responses -/

/-- `renderHttpResponse`. -/
def renderHttpResponse (statusCode : Nat) (reason body contentType : Bytes) : Bytes :=
  ascii "HTTP/1.1 " ++ decimal statusCode ++ ascii " " ++ reason ++ crlf ++
    ascii "Content-Type: " ++ contentType ++ crlf ++
    ascii "Content-Length: " ++ decimal body.length ++ crlf ++
    ascii "Connection: close" ++ crlf ++ crlf ++ body

/-- `renderHttpError`. -/
def renderHttpError (statusCode : Nat) (reason message : Bytes) : Bytes :=
  ascii "HTTP/1.1 " ++ decimal statusCode ++ ascii " " ++ reason ++ crlf ++
    ascii "Content-Type: application/json" ++ crlf ++
    ascii "Content-Length: " ++ decimal (20 + message.length) ++ crlf ++
    ascii "Connection: close" ++ crlf ++ crlf ++
    ascii "\x7b\"error\":\"" ++ message ++ ascii "\"\x7d"

/-- `splitMethodPath`: the first two words of the request line, the path without its query. -/
def splitMethodPath (requestLine : Bytes) : Option (Bytes × Bytes) :=
  match findFrom [32] requestLine 0 with
  | none => none
  | some p1 =>
    match findFrom [32] requestLine (p1 + 1) with
    | none => none
    | some p2 =>
      let path := (requestLine.drop (p1 + 1)).take (p2 - p1 - 1)
      let path := match findFrom [63] path 0 with
        | none => path
        | some q => path.take q
      some (requestLine.take p1, path)

/-- What the server needs of the layers behind it: the answers of the request plugin, or the encoded
error when it cannot be opened, and the texts of the monitoring endpoints. -/
structure HttpServer where
  handleRequest : Bytes → Bytes
  openError : Option Bytes
  metrics : Bytes
  status : Bytes
  maxBodySize : Nat

namespace HttpServer

/-- The endpoints that go to the plugin. -/
def throughPlugin (server : HttpServer) (json : Bytes) : Bytes :=
  match server.openError with
  | some error => renderHttpResponse 500 (ascii "Internal Error") error (ascii "application/json")
  | none => renderHttpResponse 200 (ascii "OK") (server.handleRequest json) (ascii "application/json")

def sendOk (body : Bytes) : Bytes :=
  renderHttpResponse 200 (ascii "OK") body (ascii "application/json")

/-- `onClientRequest`: what it hands to `writeTo`, which it does exactly once. -/
def onClientRequest (server : HttpServer) (request : Bytes) : Bytes :=
  match findFrom crlf request 0 with
  | none => renderHttpError 400 (ascii "Bad Request") (ascii "invalid request line")
  | some lineEnd =>
    match splitMethodPath (request.take lineEnd) with
    | none => renderHttpError 400 (ascii "Bad Request") (ascii "invalid request line")
    | some (method, path) =>
      let bodyJson := match findFrom (crlf ++ crlf) request 0 with
        | none => []
        | some headerEnd => request.drop (headerEnd + 4)
      if server.maxBodySize < bodyJson.length then
        renderHttpError 413 (ascii "Payload Too Large")
          (ascii "request body exceeds " ++ decimal server.maxBodySize ++ ascii " bytes")
      else if method = ascii "POST" ∧ path = ascii "/query" then server.throughPlugin bodyJson
      else if method = ascii "POST" ∧ path = ascii "/begin" then
        server.throughPlugin (ascii "\x7b\"type\":\"begin\"\x7d")
      else if method = ascii "POST" ∧ path = ascii "/commit" then server.throughPlugin bodyJson
      else if method = ascii "POST" ∧ path = ascii "/rollback" then server.throughPlugin bodyJson
      else if method = ascii "GET" ∧ (path = ascii "/health" ∨ path = ascii "/healthz") then
        sendOk (ascii "\x7b\"status\":\"ok\"\x7d")
      else if method = ascii "GET" ∧ path = ascii "/metrics" then sendOk server.metrics
      else if method = ascii "GET" ∧ path = ascii "/status" then sendOk server.status
      else renderHttpError 404 (ascii "Not Found")
        (ascii "endpoint not found: " ++ method ++ ascii " " ++ path)

end HttpServer

/-! ## The I/O thread -/

structure Connection where
  readBuffer : Bytes
  writeBuffer : Bytes
  writeOffset : Nat
  closed : Bool
  deriving DecidableEq

/-- The connections of the thread, by socket; a connection that is taken out leaves a null pointer.
`delivered` records what was handed to `onClientRequest`. -/
structure IoThread where
  conns : AssocMap Nat (Option Connection)
  delivered : List (Nat × Bytes)
  deriving DecidableEq

/-- The length of the body by the header section: what the code reads behind `Content-Length:`. -/
def readContentLength (headerSection : Bytes) : Except IoFault Nat :=
  match findFrom (ascii "Content-Length:") headerSection 0 with
  | none => .ok 0
  | some clPos =>
    match findFirstNotOf (ascii " \t") headerSection (clPos + 14) with
    | none => .error .outOfRange
    | some start =>
      let stop := (findFrom crlf headerSection start).getD headerSection.length
      .ok (((stoull ((headerSection.drop start).take (stop - start))).map UInt64.toNat).getD 0)

/-- `handleRead`: the connection with the bytes that have arrived, and the request if it is complete. -/
def handleRead (c : Connection) (received : Bytes) : Except IoFault (Connection × Option Bytes) :=
  let buffer := c.readBuffer ++ received
  match findFrom (crlf ++ crlf) buffer 0 with
  | none => .ok ({ c with readBuffer := buffer, closed := c.closed || decide (64 * 1024 < buffer.length) },
      none)
  | some headerEnd =>
    match readContentLength (buffer.take headerEnd) with
    | .error fault => .error fault
    | .ok contentLength =>
      let totalExpected := headerEnd + 4 + contentLength
      if buffer.length < totalExpected then .ok ({ c with readBuffer := buffer }, none)
      else .ok ({ c with readBuffer := buffer.drop totalExpected }, some (buffer.take totalExpected))

namespace IoThread

/-- `writeTo`. -/
def writeTo (t : IoThread) (fd : Nat) (data : Bytes) : Except IoFault IoThread :=
  match t.conns.find fd with
  | none => .ok t
  | some none => .error .nullDereference
  | some (some c) =>
    .ok { t with conns := t.conns.assign fd (some { c with writeBuffer := data, writeOffset := 0 }) }

/-- The connection goes back into the table, unless it is closed. -/
def checkIn (t : IoThread) (fd : Nat) (c : Connection) : IoThread :=
  { t with conns := if c.closed then t.conns.erase fd else t.conns.assign fd (some c) }

/-- A readable socket in `run`: the connection is taken out, read from and put back. -/
def readable (server : HttpServer) (fd : Nat) (received : Bytes) (t : IoThread) :
    Except IoFault IoThread :=
  match t.conns.find fd with
  | none => .ok t
  | some none => .error .nullDereference
  | some (some c) => do
    let checkedOut := { t with conns := t.conns.assign fd none }
    match ← handleRead c received with
    | (c, none) => return checkedOut.checkIn fd c
    | (c, some request) =>
      let handed := { checkedOut with delivered := t.delivered ++ [(fd, request)] }
      let answered ← handed.writeTo fd (server.onClientRequest request)
      return answered.checkIn fd c

/-- The reads that the bytes of a socket arrive in. -/
def reads (server : HttpServer) (fd : Nat) : List Bytes → IoThread → Except IoFault IoThread
  | [], t => .ok t
  | received :: rest, t => do
    let t ← t.readable server fd received
    reads server fd rest t

/-- `adopt`: a new connection. -/
def adopt (fd : Nat) (t : IoThread) : IoThread :=
  { t with conns := t.conns.assign fd (some ⟨[], [], 0, false⟩) }

def new : IoThread := ⟨.empty, []⟩

end IoThread

/-! ## The length of the body -/

/-- The text that is taken for the length starts with the colon of the header, so it is no number. -/
theorem readContentLength_eq_zero (headerSection : Bytes) :
    readContentLength headerSection = .ok 0 := by
  rw [readContentLength]
  cases hfind : findFrom (ascii "Content-Length:") headerSection 0 with
  | none => rfl
  | some clPos =>
    obtain ⟨-, rest, hrest⟩ := isPrefixOf_of_findFrom hfind
    have hcolon : headerSection.drop (clPos + 14) = 58 :: rest := by
      rw [← List.drop_drop, ← hrest]
      rfl
    have hat : headerSection[clPos + 14]? = some 58 := by
      rw [← List.head?_drop, hcolon]
      rfl
    have hstart : findFirstNotOf (ascii " \t") headerSection (clPos + 14) = some (clPos + 14) :=
      findFirstNotOf_self hat (by decide)
    simp only [hstart, hcolon]
    -- whatever is cut off behind it, the text is empty or starts with the colon
    generalize (findFrom crlf headerSection (clPos + 14)).getD headerSection.length - (clPos + 14) = n
    cases n with
    | zero => rfl
    | succ n =>
      rw [List.take_succ_cons, stoull_eq_none (by decide) (by decide) (by decide) (by decide)]
      rfl

/-- A request is handed over as soon as its header section is complete, without its body. -/
theorem handleRead_request {c c' : Connection} {received request : Bytes}
    (h : handleRead c received = .ok (c', some request)) :
    ∃ headerEnd, findFrom (crlf ++ crlf) (c.readBuffer ++ received) 0 = some headerEnd ∧
      request = (c.readBuffer ++ received).take (headerEnd + 4) := by
  rw [handleRead] at h
  cases hfind : findFrom (crlf ++ crlf) (c.readBuffer ++ received) 0 with
  | none =>
    simp only [hfind] at h
    cases h
  | some headerEnd =>
    simp only [hfind, readContentLength_eq_zero] at h
    split_ifs at h
    · cases h
    · cases h
      exact ⟨headerEnd, rfl, rfl⟩

/-! ## Delivery and answer -/

namespace IoThread

variable {server : HttpServer} {fd : Nat} {received : Bytes} {t t' : IoThread}

/-- A read that returns has handed nothing over: the answer to a request would be written through the
null pointer. -/
theorem readable_delivered (h : t.readable server fd received = .ok t') :
    t'.delivered = t.delivered := by
  rw [readable] at h
  cases hconn : t.conns.find fd with
  | none =>
    rw [hconn] at h
    cases h
    rfl
  | some entry =>
    cases entry with
    | none =>
      rw [hconn] at h
      cases h
    | some c =>
      simp only [hconn] at h
      cases hread : handleRead c received with
      | error fault =>
        rw [hread] at h
        cases h
      | ok result =>
        obtain ⟨c', request⟩ := result
        rw [hread] at h
        cases request with
        | none =>
          cases h
          rfl
        | some request =>
          have hnull : (t.conns.assign fd none).find fd = some none :=
            AssocMap.find_assign_self _ _ _
          simp only [bind, Except.bind, writeTo, hnull] at h
          cases h

theorem reads_delivered {chunks : List Bytes} (h : reads server fd chunks t = .ok t') :
    t'.delivered = t.delivered := by
  induction chunks generalizing t with
  | nil =>
    cases h
    rfl
  | cons received rest ih =>
    rw [reads] at h
    cases hfirst : t.readable server fd received with
    | error fault =>
      rw [hfirst] at h
      cases h
    | ok t₁ =>
      rw [hfirst] at h
      exact (ih h).trans (readable_delivered hfirst)

/-- The request arrives in these reads on a new connection, is handed over once and as it is, and the
answer is in the write buffer of its connection. -/
def Framed (server : HttpServer) (fd : Nat) (request : Bytes) (chunks : List Bytes) : Prop :=
  ∃ t c, reads server fd chunks (new.adopt fd) = .ok t ∧ t.delivered = [(fd, request)] ∧
    t.conns.find fd = some (some c) ∧ c.writeBuffer = server.onClientRequest request

/-- No request is ever framed, whatever it is and however its bytes arrive. -/
theorem not_framed (server : HttpServer) (fd : Nat) (request : Bytes) (chunks : List Bytes) :
    ¬ Framed server fd request chunks := by
  rintro ⟨t, c, hreads, hdelivered, -, -⟩
  rw [reads_delivered hreads] at hdelivered
  cases hdelivered

/-- A server whose plugin answers with an empty object. -/
def plainServer : HttpServer := ⟨fun _ => ascii "\x7b\x7d", none, [], [], 10485760⟩

/-- A query with a body of two bytes. -/
def shortQuery : Bytes :=
  ascii "POST /query HTTP/1.1\r\nContent-Length: 2\r\n\r\n\x7b\x7d"

theorem shortQuery_faults :
    reads plainServer 4 [shortQuery] (new.adopt 4) = .error .nullDereference ∧
      ¬ Framed plainServer 4 shortQuery [shortQuery] := by
  have hfault : reads plainServer 4 [shortQuery] (new.adopt 4) = .error .nullDereference := by
    decide +kernel
  refine ⟨hfault, ?_⟩
  rintro ⟨t, c, hreads, -⟩
  rw [hfault] at hreads
  cases hreads

end IoThread

end OpenDB
