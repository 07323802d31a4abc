import OpenDB.Types.Value

/-!
# Tuples

A row: named values in order. The class keeps an index from name to column, so a tuple carries the
fact that its names are distinct; `set`, the mutation the engine uses, keeps it. The wire format of
the B+tree pages is here as well, because it is the only serialisation a tuple has:
`run_decodeTuple_encodeTuple` is its round trip.
-/

set_option autoImplicit false

namespace OpenDB

open OpenDB.Library

/-- A named value. -/
structure ColumnValue where
  name : Bytes
  value : Value
  deriving DecidableEq, Repr

/-- An ordered row with distinct column names. -/
structure Tuple where
  columns : List ColumnValue
  distinct : (columns.map ColumnValue.name).Nodup
  deriving DecidableEq

namespace Tuple

/-- The tuple without columns. -/
def empty : Tuple := ⟨[], List.nodup_nil⟩

@[ext] theorem ext {s t : Tuple} (h : s.columns = t.columns) : s = t := by
  cases s
  cases t
  simp_all

/-- Replace the value of an existing column in place, or append a new column. -/
def setColumns (name : Bytes) (value : Value) : List ColumnValue → List ColumnValue
  | [] => [⟨name, value⟩]
  | c :: cs => if c.name = name then ⟨name, value⟩ :: cs else c :: setColumns name value cs

theorem map_name_setColumns (name : Bytes) (value : Value) (cs : List ColumnValue) :
    (setColumns name value cs).map ColumnValue.name =
      if name ∈ cs.map ColumnValue.name then cs.map ColumnValue.name
      else cs.map ColumnValue.name ++ [name] := by
  induction cs with
  | nil => simp [setColumns]
  | cons c cs ih =>
    by_cases h : c.name = name
    · simp [setColumns, h]
    · have h' : ¬ name = c.name := fun e => h e.symm
      by_cases hm : name ∈ cs.map ColumnValue.name <;>
        simp_all [setColumns]

/-- `Tuple::set`. -/
def set (t : Tuple) (name : Bytes) (value : Value) : Tuple :=
  ⟨setColumns name value t.columns, by
    rw [map_name_setColumns]
    split_ifs with h
    · exact t.distinct
    · rw [List.nodup_append]
      refine ⟨t.distinct, List.nodup_singleton name, ?_⟩
      rintro x hx y hy rfl
      rw [List.mem_singleton] at hy
      exact h (hy ▸ hx)⟩

theorem columns_set (t : Tuple) (name : Bytes) (value : Value) :
    (t.set name value).columns = setColumns name value t.columns := rfl

theorem setColumns_of_not_mem {name : Bytes} {value : Value} {cs : List ColumnValue}
    (h : name ∉ cs.map ColumnValue.name) : setColumns name value cs = cs ++ [⟨name, value⟩] := by
  induction cs with
  | nil => rfl
  | cons c cs ih =>
    simp only [List.map_cons, List.mem_cons, not_or] at h
    rw [setColumns, if_neg (fun e => h.1 e.symm), ih h.2, List.cons_append]

/-! ## Page format -/

/-- One column: name length, name, value. -/
def columnBytes (c : ColumnValue) : Bytes :=
  leBytes 4 c.name.length ++ (c.name ++ c.value.toBytes)

/-- `BTree::encodeTuple`. -/
def encodeTuple (t : Tuple) : Bytes :=
  leBytes 4 t.columns.length ++ (t.columns.map columnBytes).flatten

/-- The column loop of `BTree::decodeTuple`: a truncated name ends it early. -/
def decodeColumns : Nat → Tuple → Decoder Tuple
  | 0, t => return t
  | n + 1, t => do
    if (← get).length < 4 then return t
    let nlen ← readLE 4
    if (← get).length < nlen then return t
    let name ← readBytes nlen
    let v ← Value.fromBytes
    decodeColumns n (t.set name v)

/-- `BTree::decodeTuple`. -/
def decodeTuple : Decoder Tuple := do
  if (← get).length < 4 then return empty
  let count ← readLE 4
  decodeColumns count empty

theorem four_le_length_encodeTuple (t : Tuple) : 4 ≤ t.encodeTuple.length := by
  simp [encodeTuple]

theorem length_encodeTuple_empty : (encodeTuple empty).length = 4 := by
  simp [encodeTuple, empty]

theorem run_decodeColumns (cs : List ColumnValue) (rest : Bytes) :
    ∀ acc t : Tuple, t.columns = acc.columns ++ cs →
      ((cs.map columnBytes).flatten).length < 2 ^ 32 →
      (decodeColumns cs.length acc).run ((cs.map columnBytes).flatten ++ rest) = .ok t rest := by
  induction cs with
  | nil =>
    intro acc t ht _
    have : acc = t := Tuple.ext (by simpa using ht.symm)
    subst this
    rfl
  | cons c cs ih =>
    intro acc t ht hsize
    have hbytes : (columnBytes c).length = 4 + (c.name.length + c.value.toBytes.length) := by
      simp [columnBytes]
    simp only [List.map_cons, List.flatten_cons, List.length_append, hbytes] at hsize
    have hname : c.name.length < 256 ^ 4 := by norm_num; omega
    -- the names are distinct, so `set` appends the column
    have hnew : c.name ∉ acc.columns.map ColumnValue.name := by
      have hd := t.distinct
      rw [ht, List.map_append, List.nodup_append] at hd
      intro hmem
      exact hd.2.2 c.name hmem c.name (by simp) rfl
    have hset : t.columns = (acc.set c.name c.value).columns ++ cs := by
      rw [columns_set, setColumns_of_not_mem hnew, ht, List.append_assoc]
      rfl
    have hstep := ih (acc.set c.name c.value) t hset (by omega)
    have hassoc : ((c :: cs).map columnBytes).flatten ++ rest =
        leBytes 4 c.name.length ++ (c.name ++ (c.value.toBytes ++
          ((cs.map columnBytes).flatten ++ rest))) := by
      simp [columnBytes]
    have hvalue := Value.run_fromBytes_toBytes c.value (by omega)
      ((cs.map columnBytes).flatten ++ rest)
    have hlong : ∀ b : Bytes, ¬ (leBytes 4 c.name.length ++ b).length < 4 := by
      intro b
      simp
    have hfits : ∀ b : Bytes, ¬ (c.name ++ b).length < c.name.length := by
      intro b
      simp
    rw [hassoc, List.length_cons, decodeColumns]
    simp only [EStateM.run_bind, EStateM.run_get, hlong, if_false, run_readLE_append hname, hfits,
      run_readBytes_append, hvalue, hstep]

/-- What `encodeTuple` writes, `decodeTuple` reads back, and it stops where the tuple ends. -/
theorem run_decodeTuple_encodeTuple (t : Tuple) (hsize : t.encodeTuple.length < 2 ^ 32)
    (rest : Bytes) : decodeTuple.run (t.encodeTuple ++ rest) = .ok t rest := by
  have hsum : 4 + ((t.columns.map columnBytes).flatten).length < 2 ^ 32 := by
    simpa [encodeTuple] using hsize
  have hcount : t.columns.length < 256 ^ 4 := by
    have : t.columns.length ≤ ((t.columns.map columnBytes).flatten).length := by
      induction t.columns with
      | nil => simp
      | cons c cs ih =>
        simp only [List.length_cons, List.map_cons, List.flatten_cons, List.length_append,
          columnBytes, length_leBytes] at ih ⊢
        omega
    norm_num
    omega
  have hcols := run_decodeColumns t.columns rest empty t rfl (by omega)
  have hlong : ¬ (t.encodeTuple ++ rest).length < 4 := by
    have := four_le_length_encodeTuple t
    rw [List.length_append]
    omega
  rw [decodeTuple]
  simp only [EStateM.run_bind, EStateM.run_get, hlong, if_false]
  rw [encodeTuple, List.append_assoc, run_readLE_append hcount]
  exact hcols

end Tuple

end OpenDB
