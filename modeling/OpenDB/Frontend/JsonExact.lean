import OpenDB.Frontend.JsonRequests

/-!
# Where the parser reads JSON

A text is one request if it is an object that JSON allows, with a type and with nothing but blanks
around it. The parser reads a text exactly (`Exact`) if it accepts it as the request that it is, and
rejects it if it is none. It does so exactly on the texts that are `Unambiguous`: the object in front of
them, whenever the parser or JSON allows it, has no tokens on which the two differ, and only blanks stand
behind it. The parser does not look behind the object, though it says it does.
-/

set_option autoImplicit false

namespace OpenDB

namespace Json

variable {s r : Bytes} {fields : List Field}

/-- The text is one object with a type, as JSON has it, up to the blanks around it. -/
def StandardRequest (s : Bytes) (req : JsonRequest) : Prop :=
  ∃ fields r, ReadsObject s fields r ∧ skipWhitespace r = [] ∧ standard.request fields = some req ∧
    req.type ≠ []

/-- The text is accepted as what it is. -/
def Exact (s : Bytes) : Prop := ∀ req, parseJsonRequest s = some req ↔ StandardRequest s req

/-- Only blanks stand behind the object. Its strings have no control characters and its numbers are
integers without a plus sign, leading zeros, a fraction or an exponent, a transaction's of 64 bits and
not negative. The type and the statement have no surrogate pairs. -/
structure Shared (fields : List Field) (r : Bytes) : Prop where
  behind : skipWhitespace r = []
  allowed : ∀ f ∈ fields, shared.Allows f
  type : hasPair (partsOf fields).type = false
  sql : hasPair (partsOf fields).sql = false

/-- An object with a type that the parser allows, or JSON with nothing behind it, is `Shared`. -/
def Unambiguous (s : Bytes) : Prop :=
  ∀ fields r, ReadsObject s fields r → unitText (partsOf fields).type ≠ [] →
    (∀ f ∈ fields, lenient.Allows f) ∨ (skipWhitespace r = [] ∧ ∀ f ∈ fields, standard.Allows f) →
    Shared fields r

/-- The number of the transaction is written in a member of its name. -/
theorem txnId_partsOf {text : Bytes} (h : (partsOf fields).txnId = some text) :
    ∃ f ∈ fields, f.name = .txnId ∧ f.value = .number text := by
  induction fields using List.reverseRecOn with
  | nil => cases h
  | append_singleton fields f ih =>
    rw [partsOf, List.foldl_append, List.foldl_cons, List.foldl_nil, ← partsOf, Parts.set] at h
    split at h
    · obtain ⟨f', hmem, hf'⟩ := ih h
      exact ⟨f', List.mem_append_left _ hmem, hf'⟩
    · obtain ⟨f', hmem, hf'⟩ := ih h
      exact ⟨f', List.mem_append_left _ hmem, hf'⟩
    · rename_i text' hname hvalue
      cases h
      exact ⟨f, List.mem_append_right _ List.mem_cons_self, hname, hvalue⟩
    · obtain ⟨f', hmem, hf'⟩ := ih h
      exact ⟨f', List.mem_append_left _ hmem, hf'⟩

/-- What is shared is the same request to both. -/
theorem Shared.finish_eq (h : Shared fields r) :
    standard.finish (partsOf fields) = lenient.finish (partsOf fields) := by
  have htype : pairText (partsOf fields).type = unitText (partsOf fields).type := pairText_eq h.type
  have hsql : pairText (partsOf fields).sql = unitText (partsOf fields).sql := pairText_eq h.sql
  have htxn : (partsOf fields).txnId.bind unsignedValue = (partsOf fields).txnId.bind lenient.txnId := by
    cases htext : (partsOf fields).txnId with
    | none => rfl
    | some text =>
      obtain ⟨f, hmem, hname, hvalue⟩ := txnId_partsOf htext
      have hallowed := (h.allowed f hmem).2
      rw [hname, hvalue] at hallowed
      obtain ⟨n, hn⟩ := Option.isSome_iff_exists.1 hallowed
      have hn : unsignedValue text = some n := hn
      rw [Option.bind_some, Option.bind_some, hn, lenient_txnId_of_unsignedValue hn]
  simp only [Dialect.finish, JsonRequest.mk.injEq]
  exact ⟨htype, hsql, htxn⟩

theorem parse_iff {req : JsonRequest} :
    parseJsonRequest s = some req ↔ ∃ fields r, ReadsObject s fields r ∧
      (∀ f ∈ fields, lenient.Allows f) ∧ req = lenient.finish (partsOf fields) ∧ req.type ≠ [] := by
  simp only [parseJsonRequest_eq_some_iff, Dialect.request_eq_some_iff, and_assoc]

theorem standardRequest_iff {req : JsonRequest} :
    StandardRequest s req ↔ ∃ fields r, ReadsObject s fields r ∧ skipWhitespace r = [] ∧
      (∀ f ∈ fields, standard.Allows f) ∧ req = standard.finish (partsOf fields) ∧ req.type ≠ [] := by
  simp only [StandardRequest, Dialect.request_eq_some_iff, and_assoc]

/-- Where both have the same request, its object is shared. -/
theorem shared_of_both {req : JsonRequest} (hread : ReadsObject s fields r)
    (hparse : parseJsonRequest s = some req) (hrequest : StandardRequest s req) : Shared fields r := by
  obtain ⟨fields', r', hread', hlenient, hreq, -⟩ := parse_iff.1 hparse
  obtain ⟨rfl, rfl⟩ := hread.unique hread'
  obtain ⟨fields', r', hread', hbehind, hstandard, hreq', -⟩ := standardRequest_iff.1 hrequest
  obtain ⟨rfl, rfl⟩ := hread.unique hread'
  have hsame := hreq'.symm.trans hreq
  have htype : pairText (partsOf fields).type = unitText (partsOf fields).type :=
    congrArg JsonRequest.type hsame
  have hsql : pairText (partsOf fields).sql = unitText (partsOf fields).sql :=
    congrArg JsonRequest.sql hsame
  exact ⟨hbehind, fun f hf => (shared_allows_iff f).2 ⟨hlenient f hf, hstandard f hf⟩,
    pairText_eq_iff.1 htype, pairText_eq_iff.1 hsql⟩

/-- The parser accepts the requests of JSON, as what they are, on the unambiguous texts and no others. -/
theorem exact_iff (s : Bytes) : Exact s ↔ Unambiguous s := by
  constructor
  · intro hexact fields r hread htype hallowed
    rcases hallowed with hlenient | ⟨hbehind, hstandard⟩
    · have hparse : parseJsonRequest s = some (lenient.finish (partsOf fields)) :=
        parse_iff.2 ⟨fields, r, hread, hlenient, rfl,
          (lenient.type_finish_eq_nil_iff _).not.2 htype⟩
      exact shared_of_both hread hparse ((hexact _).1 hparse)
    · have hrequest : StandardRequest s (standard.finish (partsOf fields)) :=
        standardRequest_iff.2 ⟨fields, r, hread, hbehind, hstandard, rfl,
          (standard.type_finish_eq_nil_iff _).not.2 htype⟩
      exact shared_of_both hread ((hexact _).2 hrequest) hrequest
  · intro h req
    constructor
    · intro hparse
      obtain ⟨fields, r, hread, hlenient, rfl, htype⟩ := parse_iff.1 hparse
      have hshared := h fields r hread ((lenient.type_finish_eq_nil_iff _).not.1 htype) (.inl hlenient)
      exact standardRequest_iff.2 ⟨fields, r, hread, hshared.behind,
        fun f hf => ((shared_allows_iff f).1 (hshared.allowed f hf)).2, hshared.finish_eq.symm, htype⟩
    · intro hrequest
      obtain ⟨fields, r, hread, hbehind, hstandard, rfl, htype⟩ := standardRequest_iff.1 hrequest
      have hshared := h fields r hread ((standard.type_finish_eq_nil_iff _).not.1 htype)
        (.inr ⟨hbehind, hstandard⟩)
      exact parse_iff.2 ⟨fields, r, hread,
        fun f hf => ((shared_allows_iff f).1 (hshared.allowed f hf)).1, hshared.finish_eq, htype⟩

/-- A request with a letter behind it is accepted. -/
theorem begin_behind_not_exact : ¬ Exact (ascii "\x7b\"type\":\"begin\"\x7dx") := by
  intro hexact
  have hparse : parseJsonRequest (ascii "\x7b\"type\":\"begin\"\x7dx") =
      some ⟨ascii "begin", [], none⟩ := by decide +kernel
  obtain ⟨fields, r, hread, hbehind, -⟩ := (hexact _).1 hparse
  have hvalue : Reads .value (ascii "\"begin\"\x7dx") (.string ((ascii "begin").map .raw))
      (ascii "\x7dx") := .token (by decide +kernel)
  have hfield : ReadsField (ascii "\"type\":\"begin\"\x7dx")
      ⟨(ascii "type").map .raw, .string ((ascii "begin").map .raw)⟩ (ascii "\x7dx") :=
    ⟨ascii ":\"begin\"\x7dx", ascii "\"begin\"\x7dx", by decide +kernel, by decide +kernel, hvalue⟩
  have hobject : ReadsObject (ascii "\x7b\"type\":\"begin\"\x7dx")
      [⟨(ascii "type").map .raw, .string ((ascii "begin").map .raw)⟩] (ascii "x") :=
    ⟨ascii "\"type\":\"begin\"\x7dx", by decide +kernel, .inr (.last hfield (by decide +kernel))⟩
  obtain ⟨-, rfl⟩ := hread.unique hobject
  exact absurd hbehind (by decide +kernel)

end Json

end OpenDB
