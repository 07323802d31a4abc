import Mathlib

/-!
# Tables with a key

A table is a list of rows in the strict order of a key. So it has at most one row of each key, and is
known by the function that finds a row by its key: this file says what `insert`, `map` and `filter`
make of that function.
-/

set_option autoImplicit false

namespace OpenDB.Library

universe u v

variable {α : Type u} {κ : Type v} [LinearOrder κ]

/-- Rows in the strict order of their keys. -/
structure KeyedTable (key : α → κ) where
  rows : List α
  sorted : rows.Pairwise fun a b => key a < key b

namespace KeyedTable

variable {key : α → κ} {t : KeyedTable key} {a b : α} {k : κ}

def empty (key : α → κ) : KeyedTable key := ⟨[], List.Pairwise.nil⟩

/-- The row of a key. -/
def find (t : KeyedTable key) (k : κ) : Option α := t.rows.find? fun a => key a = k

/-- The row takes the place of the one with its key, or its own. -/
def insert (t : KeyedTable key) (a : α) : KeyedTable key where
  rows := (t.rows.filter fun b => key b < key a) ++ a :: t.rows.filter fun b => key a < key b
  sorted := by
    rw [List.pairwise_append, List.pairwise_cons]
    refine ⟨t.sorted.filter _, ⟨fun b hb => ?_, t.sorted.filter _⟩, fun b hb c hc => ?_⟩
    · exact of_decide_eq_true (List.mem_filter.1 hb).2
    · have hba : key b < key a := of_decide_eq_true (List.mem_filter.1 hb).2
      rcases List.mem_cons.1 hc with rfl | hc
      · exact hba
      · exact hba.trans (of_decide_eq_true (List.mem_filter.1 hc).2)

/-- A change of the rows that keeps their keys. -/
def map (t : KeyedTable key) (f : α → α) (hf : ∀ a, key (f a) = key a) : KeyedTable key where
  rows := t.rows.map f
  sorted := by
    rw [List.pairwise_map]
    simpa only [hf] using t.sorted

def filter (t : KeyedTable key) (p : α → Bool) : KeyedTable key := ⟨t.rows.filter p, t.sorted.filter p⟩

/-! ## The rows of the keys -/

theorem eq_of_key_eq (ha : a ∈ t.rows) (hb : b ∈ t.rows) (h : key a = key b) : a = b := by
  have hnodup : (t.rows.map key).Nodup :=
    List.pairwise_map.2 (t.sorted.imp fun hlt => hlt.ne)
  exact List.inj_on_of_nodup_map hnodup ha hb h

theorem key_of_find (h : t.find k = some a) : key a = k := by
  have hfound := List.find?_eq_some_iff_append.1 h
  exact of_decide_eq_true hfound.1

/-- What is found by a key is the row of the table with that key. -/
theorem find_eq_some_iff : t.find k = some a ↔ a ∈ t.rows ∧ key a = k := by
  constructor
  · intro h
    exact ⟨List.mem_of_find?_eq_some h, key_of_find h⟩
  · rintro ⟨ha, rfl⟩
    -- some row is found, and no other row has the key
    have hsome : (t.find (key a)).isSome = true :=
      List.find?_isSome.2 ⟨a, ha, decide_eq_true rfl⟩
    obtain ⟨b, hb⟩ := Option.isSome_iff_exists.1 hsome
    rw [hb, eq_of_key_eq (List.mem_of_find?_eq_some hb) ha (key_of_find hb)]

theorem find_insert : (t.insert a).find k = if k = key a then some a else t.find k := by
  apply Option.ext
  intro b
  have hmem : b ∈ (t.insert a).rows ↔ b = a ∨ b ∈ t.rows ∧ key b ≠ key a := by
    simp only [insert, List.mem_append, List.mem_cons, List.mem_filter, decide_eq_true_eq, ne_iff_lt_or_gt]
    tauto
  rw [find_eq_some_iff, hmem]
  split_ifs with hk
  · subst hk
    constructor
    · rintro ⟨rfl | ⟨-, hne⟩, hkey⟩
      · rfl
      · exact absurd hkey hne
    · rintro ⟨⟩
      exact ⟨Or.inl rfl, rfl⟩
  · rw [find_eq_some_iff]
    constructor
    · rintro ⟨rfl | ⟨hb, -⟩, hkey⟩
      · exact absurd hkey.symm hk
      · exact ⟨hb, hkey⟩
    · rintro ⟨hb, rfl⟩
      exact ⟨Or.inr ⟨hb, hk⟩, rfl⟩

theorem find_map {f : α → α} {hf : ∀ a, key (f a) = key a} :
    (t.map f hf).find k = (t.find k).map f := by
  show (t.rows.map f).find? _ = _
  rw [List.find?_map, find]
  congr 2
  funext a
  simp only [Function.comp_apply, hf]

theorem find_filter {p : α → Bool} : (t.filter p).find k = (t.find k).filter p := by
  apply Option.ext
  intro b
  rw [find_eq_some_iff, Option.filter_eq_some_iff, find_eq_some_iff]
  show b ∈ t.rows.filter p ∧ _ ↔ _
  rw [List.mem_filter]
  tauto

/-- The rows are what is found by their keys. -/
theorem filterMap_find : (t.rows.map key).filterMap t.find = t.rows := by
  rw [List.filterMap_map]
  have hfind : ∀ a ∈ t.rows, (t.find ∘ key) a = some a := fun a ha => find_eq_some_iff.2 ⟨ha, rfl⟩
  rw [List.filterMap_congr hfind, List.filterMap_some]

theorem key_mem_of_find (h : (t.find k).isSome = true) : k ∈ t.rows.map key := by
  obtain ⟨a, ha⟩ := Option.isSome_iff_exists.1 h
  obtain ⟨hmem, rfl⟩ := find_eq_some_iff.1 ha
  exact List.mem_map_of_mem hmem

end KeyedTable

end OpenDB.Library
