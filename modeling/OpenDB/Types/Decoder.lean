import OpenDB.Library.LittleEndian
import OpenDB.Library.FaultState

/-!
# Faults and page decoders

The storage layer is C++: a call can end in an exception, in a memory access outside a buffer, or
not at all. `Fault` names the three. A `Decoder` reads a buffer from front to back; its state is the
part of the buffer that is still unread, and a read past the end is a fault of its own, never a
silent success.
-/

set_option autoImplicit false

namespace OpenDB

open OpenDB.Library

/-- Contents of a `std::string` or of a byte vector. -/
abbrev Bytes := List UInt8

/-- The bytes of an ASCII text of the source. -/
def ascii (s : String) : Bytes := s.toList.map fun c => UInt8.ofNat c.toNat

/-- The text of a literal with at least one character. -/
theorem ascii_ne_nil {c : Char} {cs : List Char} : ascii (String.ofList (c :: cs)) ≠ [] := by
  simp [ascii]

/-- How a call can fail to return. -/
inductive Fault where
  /-- A thrown `std::runtime_error`. -/
  | runtimeError (what : Bytes)
  /-- A read or write outside a buffer: undefined behaviour, not an exception. -/
  | outOfBounds
  /-- A failed `assert`: the process aborts. -/
  | assertion
  /-- A loop of the source that never ends. -/
  | nontermination
  deriving DecidableEq, Repr

/-- A thrown exception, as opposed to undefined behaviour or an endless loop. -/
def Fault.isThrown : Fault → Bool
  | .runtimeError _ => true
  | _ => false

/-- A reader of a byte buffer; the state is the unread part. -/
abbrev Decoder (α : Type) := EStateM Fault Bytes α

/-- Read one byte. -/
def readByte : Decoder UInt8 := fun bs =>
  match bs with
  | [] => .error .outOfBounds []
  | b :: rest => .ok b rest

/-- Read `n` bytes. -/
def readBytes (n : Nat) : Decoder Bytes := fun bs =>
  if bs.length < n then .error .outOfBounds bs else .ok (bs.take n) (bs.drop n)

/-- Read a little-endian number of `w` bytes. -/
def readLE (w : Nat) : Decoder Nat := do
  let bs ← readBytes w
  return leValue bs

@[simp] theorem run_readByte_cons (b : UInt8) (rest : Bytes) :
    readByte.run (b :: rest) = .ok b rest := rfl

@[simp] theorem run_readBytes_append (bs rest : Bytes) :
    (readBytes bs.length).run (bs ++ rest) = .ok bs rest := by
  simp [readBytes, EStateM.run]

theorem run_readBytes_append_of_length {n : Nat} {bs rest : Bytes} (h : bs.length = n) :
    (readBytes n).run (bs ++ rest) = .ok bs rest := by
  subst h
  exact run_readBytes_append bs rest

theorem run_readLE_append {w n : Nat} (h : n < 256 ^ w) (rest : Bytes) :
    (readLE w).run (leBytes w n ++ rest) = .ok n rest := by
  rw [readLE, EStateM.run_bind, run_readBytes_append_of_length (length_leBytes w n)]
  simp [leValue_leBytes_of_fits h]

end OpenDB
