import OpenDB.Frontend.HttpServer
import OpenDB.Frontend.JsonWellFormed

/-!
# Error responses

A client reads a response line by line up to the blank line, takes the length of the body from the
header that declares it and expects JSON (`WellFormed`).

The server writes errors in three ways. The plugin's errors and the refusal of a connection at capacity
are well formed. `renderHttpError` declares eight bytes more than it writes, whatever the message, and
puts the message between quotes as it is; so an error response is well formed exactly when the request
has reached an endpoint (`error_responses_iff`).
-/

set_option autoImplicit false

namespace OpenDB

open OpenDB.Library OpenDB.Library.JsonText IoThread

/-! ## What a client reads -/

/-- The lines up to the blank one, and the body behind it. The first argument is the line so far, from
its end on. -/
def readHead (line : Bytes) : Bytes → Option (List Bytes × Bytes)
  | 13 :: 10 :: rest =>
    if line.isEmpty then some ([], rest)
    else (readHead [] rest).map fun (lines, body) => (line.reverse :: lines, body)
  | c :: rest => readHead (c :: line) rest
  | [] => none

structure ClientView where
  status : Nat
  declared : Option Nat
  body : Bytes
  deriving DecidableEq

/-- The length that a header line declares. -/
def declaredLength (line : Bytes) : Option Nat :=
  if (ascii "Content-Length: ").isPrefixOf line then some (digitsValue (line.drop 16)) else none

def readResponse (response : Bytes) : Option ClientView :=
  match readHead [] response with
  | some (statusLine :: headers, body) =>
    some ⟨digitsValue ((statusLine.drop 9).takeWhile isDigit), headers.findSome? declaredLength, body⟩
  | _ => none

/-- The declared length is the number of bytes of the body, and the body is JSON. -/
def WellFormed (response : Bytes) : Prop :=
  ∃ view, readResponse response = some view ∧ view.declared = some view.body.length ∧
    ∃ tree, Document tree view.body

def IsErrorResponse (response : Bytes) : Prop :=
  ∃ view, readResponse response = some view ∧ 400 ≤ view.status

/-! ## Responses are read back -/

theorem readHead_line {line : Bytes} (h : 13 ∉ line) (soFar rest : Bytes) :
    readHead soFar (line ++ rest) = readHead (line.reverse ++ soFar) rest := by
  induction line generalizing soFar with
  | nil => rfl
  | cons c line ih =>
    obtain ⟨hc, hline⟩ := List.ne_and_not_mem_of_not_mem_cons h
    -- no line ends before a carriage return
    rw [List.cons_append, readHead.eq_2 _ _ _ fun _ h13 _ => hc h13.symm, ih hline]
    simp

/-- A header line and what is behind it. -/
theorem readHead_crlf {line : Bytes} (h : 13 ∉ line) (hne : line ≠ []) (rest : Bytes) :
    readHead [] (line ++ (crlf ++ rest)) =
      (readHead [] rest).map fun (lines, body) => (line :: lines, body) := by
  rw [readHead_line h, crlf, List.append_nil]
  simp [readHead, hne]

theorem readHead_blank (body : Bytes) : readHead [] (crlf ++ body) = some ([], body) := rfl

/-- A response with the headers that both renderers write. -/
def rendered (statusLine contentType : Bytes) (length : Nat) (body : Bytes) : Bytes :=
  statusLine ++ (crlf ++ ((ascii "Content-Type: " ++ contentType) ++ (crlf ++
    ((ascii "Content-Length: " ++ decimal length) ++ (crlf ++ (ascii "Connection: close" ++ (crlf ++
      (crlf ++ body))))))))

theorem readResponse_rendered {statusLine contentType : Bytes} (hstatus : 13 ∉ statusLine)
    (hne : statusLine ≠ []) (htype : 13 ∉ contentType) (length : Nat) (body : Bytes) :
    readResponse (rendered statusLine contentType length body) =
      some ⟨digitsValue ((statusLine.drop 9).takeWhile isDigit), some length, body⟩ := by
  -- none of the lines holds a carriage return of its own
  have htype' : 13 ∉ ascii "Content-Type: " ++ contentType := by
    rw [List.mem_append, not_or]
    exact ⟨by decide, htype⟩
  have hlength : 13 ∉ ascii "Content-Length: " ++ decimal length := by
    rw [List.mem_append, not_or]
    exact ⟨by decide, fun h => absurd (isDigit_of_mem_decimal h) (by decide)⟩
  have hread : readHead [] (rendered statusLine contentType length body) =
      some ([statusLine, ascii "Content-Type: " ++ contentType,
        ascii "Content-Length: " ++ decimal length, ascii "Connection: close"], body) := by
    rw [rendered, readHead_crlf hstatus hne,
      readHead_crlf htype' (List.append_ne_nil_of_left_ne_nil ascii_ne_nil _),
      readHead_crlf hlength (List.append_ne_nil_of_left_ne_nil ascii_ne_nil _),
      readHead_crlf (by decide) ascii_ne_nil, readHead_blank]
    rfl
  -- only one header declares a length
  have hfirst : declaredLength (ascii "Content-Type: " ++ contentType) = none := by rfl
  have hsecond : declaredLength (ascii "Content-Length: " ++ decimal length) = some length := by
    have hprefix := List.isPrefixOf_iff_prefix.2
      (List.prefix_append (ascii "Content-Length: ") (decimal length))
    rw [declaredLength, if_pos hprefix, List.drop_left' (by decide), digitsValue_decimal]
  rw [readResponse, hread]
  simp only [List.findSome?_cons, hfirst, hsecond]

def statusLine (statusCode : Nat) (reason : Bytes) : Bytes :=
  ascii "HTTP/1.1 " ++ (decimal statusCode ++ (ascii " " ++ reason))

/-- The status line tells the status code. -/
theorem readResponse_statusLine {reason contentType : Bytes} (hreason : 13 ∉ reason)
    (htype : 13 ∉ contentType) (statusCode length : Nat) (body : Bytes) :
    readResponse (rendered (statusLine statusCode reason) contentType length body) =
      some ⟨statusCode, some length, body⟩ := by
  have hline : 13 ∉ statusLine statusCode reason := by
    simp only [statusLine, List.mem_append, not_or]
    exact ⟨by decide, fun h => absurd (isDigit_of_mem_decimal h) (by decide), by decide, hreason⟩
  -- the code stands behind the nine bytes of the version, up to the blank
  have hcode : ((statusLine statusCode reason).drop 9).takeWhile isDigit = decimal statusCode := by
    have hstop : (ascii " " ++ reason).takeWhile isDigit = [] := by rfl
    rw [statusLine, List.drop_left' (by decide),
      List.takeWhile_append_of_pos fun c => isDigit_of_mem_decimal, hstop, List.append_nil]
  have hne : statusLine statusCode reason ≠ [] := List.append_ne_nil_of_left_ne_nil ascii_ne_nil _
  rw [readResponse_rendered hline hne htype, hcode, digitsValue_decimal]

section

variable {statusCode : Nat} {reason message body : Bytes}

theorem readResponse_renderHttpResponse (hreason : 13 ∉ reason) :
    readResponse (renderHttpResponse statusCode reason body (ascii "application/json")) =
      some ⟨statusCode, some body.length, body⟩ := by
  have htext : renderHttpResponse statusCode reason body (ascii "application/json") =
      rendered (statusLine statusCode reason) (ascii "application/json") body.length body := by
    simp only [renderHttpResponse, rendered, statusLine, List.append_assoc]
  rw [htext]
  exact readResponse_statusLine hreason (by decide) ..

/-- The body of an error. -/
def errorBody (message : Bytes) : Bytes := ascii "\x7b\"error\":\"" ++ message ++ ascii "\"\x7d"

theorem readResponse_renderHttpError (hreason : 13 ∉ reason) :
    readResponse (renderHttpError statusCode reason message) =
      some ⟨statusCode, some (20 + message.length), errorBody message⟩ := by
  have htext : renderHttpError statusCode reason message =
      rendered (statusLine statusCode reason) (ascii "application/json") (20 + message.length)
        (errorBody message) := by
    have htype : ascii "Content-Type: application/json" =
        ascii "Content-Type: " ++ ascii "application/json" := by decide
    simp only [renderHttpError, rendered, statusLine, errorBody, htype, List.append_assoc]
  rw [htext]
  exact readResponse_statusLine hreason (by decide) ..

theorem wellFormed_renderHttpResponse {tree : Tree} (hreason : 13 ∉ reason) (h : Document tree body) :
    WellFormed (renderHttpResponse statusCode reason body (ascii "application/json")) :=
  ⟨_, readResponse_renderHttpResponse hreason, rfl, tree, h⟩

/-- Eight bytes more are declared than there are. -/
theorem length_errorBody (message : Bytes) : (errorBody message).length + 8 = 20 + message.length := by
  have hfront : (ascii "\x7b\"error\":\"").length = 10 := by decide
  have hback : (ascii "\"\x7d").length = 2 := by decide
  simp only [errorBody, List.length_append, hfront, hback]
  omega

theorem not_wellFormed_renderHttpError (hreason : 13 ∉ reason) :
    ¬ WellFormed (renderHttpError statusCode reason message) := by
  rintro ⟨view, hread, hlength, -⟩
  rw [readResponse_renderHttpError hreason, Option.some.injEq] at hread
  subst hread
  -- what is declared is the length of the body and eight bytes more
  have hextra := length_errorBody message
  rw [Option.some.injEq] at hlength
  dsimp only at hlength
  omega

end

/-! ## The server's responses -/

/-- The methods and paths that are answered. -/
def endpoints : List (Bytes × Bytes) :=
  [(ascii "POST", ascii "/query"), (ascii "POST", ascii "/begin"), (ascii "POST", ascii "/commit"),
    (ascii "POST", ascii "/rollback"), (ascii "GET", ascii "/health"), (ascii "GET", ascii "/healthz"),
    (ascii "GET", ascii "/metrics"), (ascii "GET", ascii "/status")]

/-- What is behind the first blank line. -/
def requestBody (request : Bytes) : Bytes :=
  match findFrom (crlf ++ crlf) request 0 with
  | none => []
  | some headerEnd => request.drop (headerEnd + 4)

/-- The request has a request line with two blanks, a body within the limit and an endpoint. -/
def Routed (server : HttpServer) (request : Bytes) : Prop :=
  ∃ lineEnd route, findFrom crlf request 0 = some lineEnd ∧
    splitMethodPath (request.take lineEnd) = some route ∧
      (requestBody request).length ≤ server.maxBodySize ∧ route ∈ endpoints

/-- The response to a connection beyond the limit. -/
def atCapacity : Bytes :=
  ascii "HTTP/1.1 503 Service Unavailable" ++ crlf ++ ascii "Content-Type: application/json" ++ crlf ++
    ascii "Content-Length: 30" ++ crlf ++ ascii "Connection: close" ++ crlf ++ crlf ++
      ascii "\x7b\"error\":\"server at capacity\"\x7d"

namespace HttpServer

/-- The server whose plugin cannot be opened, with the error that it says. -/
def withOpenError (server : HttpServer) (error : Option DbError) : HttpServer :=
  { server with openError := error.map JsonEncoder.encodeError }

variable {server : HttpServer} {request : Bytes}

theorem throughPlugin_eq (json : Bytes) :
    (∃ body, server.throughPlugin json = sendOk body) ∨
      ∃ error, server.openError = some error ∧ server.throughPlugin json =
        renderHttpResponse 500 (ascii "Internal Error") error (ascii "application/json") := by
  cases hopen : server.openError with
  | none =>
    refine .inl ⟨server.handleRequest json, ?_⟩
    rw [throughPlugin, hopen]
    rfl
  | some error =>
    refine .inr ⟨error, rfl, ?_⟩
    rw [throughPlugin, hopen]

/-- At an endpoint the answer is that of the endpoint or the error of the plugin, elsewhere it is an error
of the server's own. -/
def Answers (server : HttpServer) (request answer : Bytes) : Prop :=
  (¬ Routed server request ∧ ∃ statusCode reason message, 400 ≤ statusCode ∧ 13 ∉ reason ∧
    answer = renderHttpError statusCode reason message) ∨
  (Routed server request ∧ ((∃ body, answer = sendOk body) ∨
    ∃ error, server.openError = some error ∧ answer =
      renderHttpResponse 500 (ascii "Internal Error") error (ascii "application/json")))

theorem onClientRequest_cases (server : HttpServer) (request : Bytes) :
    server.Answers request (server.onClientRequest request) := by
  rw [onClientRequest]
  cases hline : findFrom crlf request 0 with
  | none =>
    refine .inl ⟨?_, 400, _, _, by decide, by decide, rfl⟩
    rintro ⟨_, _, hline', -⟩
    rw [hline] at hline'
    cases hline'
  | some lineEnd =>
    dsimp only
    cases hroute : splitMethodPath (request.take lineEnd) with
    | none =>
      refine .inl ⟨?_, 400, _, _, by decide, by decide, rfl⟩
      rintro ⟨_, _, hline', hroute', -⟩
      rw [hline, Option.some.injEq] at hline'
      rw [← hline', hroute] at hroute'
      cases hroute'
    | some route =>
      obtain ⟨method, path⟩ := route
      have hrouted : Routed server request ↔ (requestBody request).length ≤ server.maxBodySize ∧
          (method, path) ∈ endpoints := by
        constructor
        · rintro ⟨_, _, hline', hroute', hrest⟩
          rw [hline, Option.some.injEq] at hline'
          rw [← hline', hroute, Option.some.injEq] at hroute'
          rw [hroute']
          exact hrest
        · exact fun hrest => ⟨lineEnd, _, hline, hroute, hrest⟩
      -- the endpoints in the order in which the server asks for them
      refine iteInduction (motive := server.Answers request) (fun hlong => ?_) fun hlong => ?_
      · exact .inl ⟨fun h => absurd (hrouted.1 h).1 (not_le.2 hlong), 413, _, _, by decide, by decide,
          rfl⟩
      have hshort : (requestBody request).length ≤ server.maxBodySize := not_lt.1 hlong
      refine iteInduction (motive := server.Answers request) (fun hquery => ?_) fun hquery => ?_
      · obtain ⟨rfl, rfl⟩ := hquery
        exact .inr ⟨hrouted.2 ⟨hshort, by decide⟩, throughPlugin_eq _⟩
      refine iteInduction (motive := server.Answers request) (fun hbegin => ?_) fun hbegin => ?_
      · obtain ⟨rfl, rfl⟩ := hbegin
        exact .inr ⟨hrouted.2 ⟨hshort, by decide⟩, throughPlugin_eq _⟩
      refine iteInduction (motive := server.Answers request) (fun hcommit => ?_) fun hcommit => ?_
      · obtain ⟨rfl, rfl⟩ := hcommit
        exact .inr ⟨hrouted.2 ⟨hshort, by decide⟩, throughPlugin_eq _⟩
      refine iteInduction (motive := server.Answers request) (fun hrollback => ?_) fun hrollback => ?_
      · obtain ⟨rfl, rfl⟩ := hrollback
        exact .inr ⟨hrouted.2 ⟨hshort, by decide⟩, throughPlugin_eq _⟩
      refine iteInduction (motive := server.Answers request) (fun hhealth => ?_) fun hhealth => ?_
      · obtain ⟨rfl, rfl | rfl⟩ := hhealth
        · exact .inr ⟨hrouted.2 ⟨hshort, by decide⟩, .inl ⟨_, rfl⟩⟩
        · exact .inr ⟨hrouted.2 ⟨hshort, by decide⟩, .inl ⟨_, rfl⟩⟩
      refine iteInduction (motive := server.Answers request) (fun hmetrics => ?_) fun hmetrics => ?_
      · obtain ⟨rfl, rfl⟩ := hmetrics
        exact .inr ⟨hrouted.2 ⟨hshort, by decide⟩, .inl ⟨_, rfl⟩⟩
      refine iteInduction (motive := server.Answers request) (fun hstatus => ?_) fun hstatus => ?_
      · obtain ⟨rfl, rfl⟩ := hstatus
        exact .inr ⟨hrouted.2 ⟨hshort, by decide⟩, .inl ⟨_, rfl⟩⟩
      refine .inl ⟨fun h => ?_, 404, _, _, by decide, by decide, rfl⟩
      -- an endpoint would have been found above
      have hmem := (hrouted.1 h).2
      simp only [endpoints, List.mem_cons, Prod.mk.injEq, List.not_mem_nil, or_false] at hmem
      rcases hmem with h | h | h | h | h | h | h | h
      · exact hquery h
      · exact hbegin h
      · exact hcommit h
      · exact hrollback h
      · exact hhealth ⟨h.1, .inl h.2⟩
      · exact hhealth ⟨h.1, .inr h.2⟩
      · exact hmetrics h
      · exact hstatus h

theorem wellFormed_sendOk_encodeError (e : DbError) :
    WellFormed (sendOk (JsonEncoder.encodeError e)) :=
  wellFormed_renderHttpResponse (by decide) (JsonEncoder.document_encodeError e)

theorem not_isErrorResponse_sendOk (body : Bytes) : ¬ IsErrorResponse (sendOk body) := by
  rintro ⟨view, hread, hstatus⟩
  rw [sendOk, readResponse_renderHttpResponse (by decide), Option.some.injEq] at hread
  subst hread
  exact absurd hstatus (show ¬ 400 ≤ 200 by decide)

end HttpServer

theorem wellFormed_atCapacity : WellFormed atCapacity := by
  have hbody : errorBody (ascii "server at capacity") =
      123 :: (34 :: (ascii "error" ++ 34 :: 58 :: (34 :: (ascii "server at capacity" ++ [34]))) ++
        [125]) := by
    decide
  refine ⟨⟨503, some 30, errorBody (ascii "server at capacity")⟩, by decide +kernel, by decide, ?_⟩
  have hmember := Derives.compactMember (JsonEncoder.chars_of_all (s := ascii "error") (by decide))
    (.string (JsonEncoder.chars_of_all (s := ascii "server at capacity") (by decide)))
  have htext : Derives (.value (.object [(ascii "error", .string (ascii "server at capacity"))])) _ :=
    .compactObject (.last hmember)
  rw [hbody]
  exact ⟨_, htext.document⟩

/-- An error response to a request is well formed exactly when the request has reached an endpoint. The
response at capacity is well formed, and so are the errors of the plugin. -/
theorem error_responses_iff (server : HttpServer) (error : Option DbError) (request : Bytes)
    (e : DbError) :
    ((IsErrorResponse ((server.withOpenError error).onClientRequest request) →
      WellFormed ((server.withOpenError error).onClientRequest request)) ↔ Routed server request) ∧
    WellFormed atCapacity ∧ WellFormed (HttpServer.sendOk (JsonEncoder.encodeError e)) := by
  refine ⟨?_, wellFormed_atCapacity, HttpServer.wellFormed_sendOk_encodeError e⟩
  rcases (server.withOpenError error).onClientRequest_cases request with
    ⟨hroute, statusCode, reason, message, hstatus, hreason, htext⟩ | ⟨hroute, hanswer⟩
  · refine iff_of_false (fun h => ?_) hroute
    rw [htext] at h
    exact not_wellFormed_renderHttpError hreason
      (h ⟨_, readResponse_renderHttpError hreason, hstatus⟩)
  · refine iff_of_true (fun hisError => ?_) hroute
    rcases hanswer with ⟨body, htext⟩ | ⟨text, hopen, htext⟩
    · rw [htext] at hisError
      exact absurd hisError (HttpServer.not_isErrorResponse_sendOk body)
    · -- what the plugin says has been encoded already
      obtain ⟨e, -, rfl⟩ := Option.map_eq_some_iff.1 hopen
      rw [htext]
      exact wellFormed_renderHttpResponse (by decide) (JsonEncoder.document_encodeError e)

/-- A request for a path that is no endpoint, which holds a quote. -/
def quotedPath : Bytes := ascii "GET /\" HTTP/1.1\r\n\r\n"

/-- The response declares 46 bytes, and 38 follow; the quote of the path ends the string. -/
theorem quotedPath_malformed :
    readResponse (plainServer.onClientRequest quotedPath) = some ⟨404, some 46,
      ascii "\x7b\"error\":\"endpoint not found: GET /\"\"\x7d"⟩ ∧
      IsErrorResponse (plainServer.onClientRequest quotedPath) ∧
        ¬ WellFormed (plainServer.onClientRequest quotedPath) := by
  have hread : readResponse (plainServer.onClientRequest quotedPath) = some ⟨404, some 46,
      ascii "\x7b\"error\":\"endpoint not found: GET /\"\"\x7d"⟩ := by
    decide +kernel
  refine ⟨hread, ⟨_, hread, by decide⟩, ?_⟩
  rintro ⟨view, hview, hlength, -⟩
  rw [hread, Option.some.injEq] at hview
  subst hview
  exact absurd hlength (by decide)

end OpenDB
