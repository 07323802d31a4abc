import Mathlib.Data.List.Nodup
import Mathlib.Tactic

/-!
# Maps in iteration order

A map as the list of its entries in iteration order; that the keys are distinct is part of the map.
`assign` is the assignment `m[k] = v`: it replaces the value of a key in place and appends a key that
is new; `erase` removes a key. A lookup finds the entry of its key (`exists_of_find`), and both
operations are described by where that entry stands.
-/

set_option autoImplicit false

namespace OpenDB.Library

universe u v

variable {α : Type u} {β : Type v} [DecidableEq α]

/-- Assignment to a key. -/
def assign (k : α) (v : β) : List (α × β) → List (α × β)
  | [] => [(k, v)]
  | e :: m => if e.1 = k then (k, v) :: m else e :: assign k v m

/-- Removal of a key. -/
def eraseKey (k : α) (m : List (α × β)) : List (α × β) := m.filter fun e => e.1 ≠ k

theorem map_fst_assign (k : α) (v : β) (m : List (α × β)) :
    (assign k v m).map Prod.fst =
      if k ∈ m.map Prod.fst then m.map Prod.fst else m.map Prod.fst ++ [k] := by
  induction m with
  | nil => simp [assign]
  | cons e m ih =>
    by_cases h : e.1 = k
    · simp [assign, h]
    · have h' : ¬ k = e.1 := fun heq => h heq.symm
      rw [assign, if_neg h, List.map_cons, ih, List.map_cons]
      by_cases hm : k ∈ m.map Prod.fst
      · rw [if_pos hm, if_pos (List.mem_cons_of_mem _ hm)]
      · rw [if_neg hm, if_neg (by rw [List.mem_cons]; tauto), List.cons_append]

theorem nodup_assign {k : α} {v : β} {m : List (α × β)} (h : (m.map Prod.fst).Nodup) :
    ((assign k v m).map Prod.fst).Nodup := by
  rw [map_fst_assign]
  split_ifs with hk
  · exact h
  · rw [List.nodup_append]
    refine ⟨h, List.nodup_singleton k, ?_⟩
    rintro x hx y hy rfl
    exact hk (List.mem_singleton.1 hy ▸ hx)

theorem lookup_eq_none_iff {k : α} {m : List (α × β)} :
    m.lookup k = none ↔ k ∉ m.map Prod.fst := by
  induction m with
  | nil => simp
  | cons e m ih =>
    obtain ⟨k', v⟩ := e
    by_cases h : k = k'
    · simp [h]
    · have hb : (k == k') = false := by simpa using h
      rw [List.lookup_cons, hb, List.map_cons, List.mem_cons, not_or]
      exact ih.trans ⟨fun hm => ⟨h, hm⟩, fun hm => hm.2⟩

/-- The entry a lookup finds. -/
theorem exists_of_lookup {k : α} {v : β} {m : List (α × β)} (h : m.lookup k = some v) :
    ∃ A B, m = A ++ (k, v) :: B ∧ k ∉ A.map Prod.fst := by
  induction m with
  | nil => simp at h
  | cons e m ih =>
    obtain ⟨k', v'⟩ := e
    by_cases hk : k = k'
    · subst hk
      simp only [List.lookup_cons, beq_self_eq_true] at h
      cases h
      exact ⟨[], m, rfl, by simp⟩
    · have hb : (k == k') = false := by simpa using hk
      rw [List.lookup_cons, hb] at h
      obtain ⟨A, B, rfl, hA⟩ := ih h
      exact ⟨(k', v') :: A, B, rfl, by simp [hk, hA]⟩

theorem lookup_append_cons {k : α} {v : β} {A : List (α × β)} (B : List (α × β))
    (hA : k ∉ A.map Prod.fst) : (A ++ (k, v) :: B).lookup k = some v := by
  induction A with
  | nil => simp
  | cons e A ih =>
    obtain ⟨k', v'⟩ := e
    simp only [List.map_cons, List.mem_cons, not_or] at hA
    have hb : (k == k') = false := by simpa using hA.1
    rw [List.cons_append, List.lookup_cons, hb]
    exact ih hA.2

theorem assign_append_cons {k : α} {v w : β} {A B : List (α × β)} (hA : k ∉ A.map Prod.fst) :
    assign k w (A ++ (k, v) :: B) = A ++ (k, w) :: B := by
  induction A with
  | nil => simp [assign]
  | cons e A ih =>
    simp only [List.map_cons, List.mem_cons, not_or] at hA
    rw [List.cons_append, assign, if_neg (fun e => hA.1 e.symm), ih hA.2, List.cons_append]

theorem assign_of_not_mem {k : α} {v : β} {m : List (α × β)} (h : k ∉ m.map Prod.fst) :
    assign k v m = m ++ [(k, v)] := by
  induction m with
  | nil => rfl
  | cons e m ih =>
    simp only [List.map_cons, List.mem_cons, not_or] at h
    rw [assign, if_neg (fun e => h.1 e.symm), ih h.2, List.cons_append]

theorem eraseKey_append_cons {k : α} {v : β} {A B : List (α × β)} (hA : k ∉ A.map Prod.fst)
    (hB : k ∉ B.map Prod.fst) : eraseKey k (A ++ (k, v) :: B) = A ++ B := by
  have hkeep : ∀ C : List (α × β), k ∉ C.map Prod.fst → C.filter (fun e => e.1 ≠ k) = C := by
    intro C hC
    rw [List.filter_eq_self]
    intro e he
    exact decide_eq_true fun heq => hC (heq ▸ List.mem_map_of_mem he)
  unfold eraseKey
  rw [List.filter_append, List.filter_cons_of_neg (by simp), hkeep A hA, hkeep B hB]

/-- A map with distinct keys. -/
structure AssocMap (α : Type u) (β : Type v) where
  entries : List (α × β)
  distinct : (entries.map Prod.fst).Nodup
  deriving DecidableEq

namespace AssocMap

/-- The empty map. -/
def empty : AssocMap α β := ⟨[], List.nodup_nil⟩

def find (m : AssocMap α β) (k : α) : Option β := m.entries.lookup k

def assign (m : AssocMap α β) (k : α) (v : β) : AssocMap α β :=
  ⟨Library.assign k v m.entries, nodup_assign m.distinct⟩

def erase (m : AssocMap α β) (k : α) : AssocMap α β :=
  ⟨eraseKey k m.entries, m.distinct.sublist (List.filter_sublist.map _)⟩

/-- The same keys with other values. -/
def mapValues {γ : Type v} (f : β → γ) (m : AssocMap α β) : AssocMap α γ :=
  ⟨m.entries.map fun e => (e.1, f e.2), by
    rw [List.map_map]
    exact m.distinct⟩

omit [DecidableEq α] in
@[ext] theorem ext {m m' : AssocMap α β} (h : m.entries = m'.entries) : m = m' := by
  cases m
  cases m'
  congr

theorem find_eq_none_iff {m : AssocMap α β} {k : α} :
    m.find k = none ↔ k ∉ m.entries.map Prod.fst :=
  lookup_eq_none_iff

theorem find_assign_self (m : AssocMap α β) (k : α) (v : β) : (m.assign k v).find k = some v := by
  show (Library.assign k v m.entries).lookup k = some v
  generalize m.entries = es
  induction es with
  | nil => simp [Library.assign]
  | cons e es ih =>
    by_cases h : e.1 = k
    · simp [Library.assign, h]
    · have hb : (k == e.1) = false := by simpa using fun heq : k = e.1 => h heq.symm
      rw [Library.assign, if_neg h, List.lookup_cons, hb]
      exact ih

theorem find_assign_of_ne (m : AssocMap α β) {k k' : α} (v : β) (hne : k' ≠ k) :
    (m.assign k v).find k' = m.find k' := by
  show (Library.assign k v m.entries).lookup k' = m.entries.lookup k'
  generalize m.entries = es
  induction es with
  | nil =>
    have hb : (k' == k) = false := by simpa using hne
    simp [Library.assign, List.lookup_cons, hb]
  | cons e es ih =>
    by_cases h : e.1 = k
    · have hb : (k' == k) = false := by simpa using hne
      rw [Library.assign, if_pos h, List.lookup_cons, List.lookup_cons, h, hb]
    · rw [Library.assign, if_neg h, List.lookup_cons, List.lookup_cons, ih]

theorem find_erase_of_ne (m : AssocMap α β) {k k' : α} (hne : k' ≠ k) :
    (m.erase k).find k' = m.find k' := by
  show (eraseKey k m.entries).lookup k' = m.entries.lookup k'
  unfold eraseKey
  generalize m.entries = es
  induction es with
  | nil => rfl
  | cons e es ih =>
    by_cases h : e.1 = k
    · have hb : (k' == e.1) = false := by simpa [h] using hne
      rw [List.filter_cons_of_neg (by simp [h]), List.lookup_cons, hb]
      exact ih
    · rw [List.filter_cons_of_pos (by simpa using h), List.lookup_cons, List.lookup_cons, ih]

/-- The only entry of a key. -/
theorem find_erase_self (m : AssocMap α β) (k : α) : (m.erase k).find k = none := by
  rw [find_eq_none_iff]
  intro hmem
  obtain ⟨e, he, hk⟩ := List.mem_map.1 hmem
  have hkeep := of_decide_eq_true (List.mem_filter.1 he).2
  exact hkeep hk

theorem exists_of_find {m : AssocMap α β} {k : α} {v : β} (h : m.find k = some v) :
    ∃ A B, m.entries = A ++ (k, v) :: B ∧ k ∉ A.map Prod.fst ∧ k ∉ B.map Prod.fst := by
  obtain ⟨A, B, hm, hA⟩ := exists_of_lookup h
  refine ⟨A, B, hm, hA, ?_⟩
  have hd := m.distinct
  rw [hm, List.map_append, List.map_cons, List.nodup_append, List.nodup_cons] at hd
  exact hd.2.1.1

theorem find_of_mem {m : AssocMap α β} {e : α × β} (h : e ∈ m.entries) : m.find e.1 = some e.2 := by
  obtain ⟨A, B, hm⟩ := List.append_of_mem h
  have hd := m.distinct
  rw [hm, List.map_append, List.map_cons, List.nodup_append] at hd
  unfold find
  rw [hm]
  apply lookup_append_cons
  intro hmem
  exact hd.2.2 e.1 hmem e.1 List.mem_cons_self rfl

/-- A map is determined by its keys and what it finds for them. -/
theorem map_entries_eq {γ : Type v} {δ : Type v} {m : AssocMap α β} {l : List γ} {key : γ → α}
    {val : γ → δ} {g : β → δ} (hkeys : m.entries.map Prod.fst = l.map key)
    (hval : ∀ c ∈ l, ∃ v, m.find (key c) = some v ∧ g v = val c) :
    m.entries.map (fun e => (e.1, g e.2)) = l.map fun c => (key c, val c) := by
  have hlen : m.entries.length = l.length := by
    have := congrArg List.length hkeys
    rwa [List.length_map, List.length_map] at this
  apply List.ext_getElem
  · rw [List.length_map, List.length_map, hlen]
  · intro i hi hi'
    rw [List.length_map] at hi hi'
    rw [List.getElem_map, List.getElem_map]
    have hkey : (m.entries[i]).1 = key l[i] := by
      have := List.getElem_of_eq hkeys (show i < (m.entries.map Prod.fst).length by
        rw [List.length_map]; exact hi)
      rwa [List.getElem_map, List.getElem_map] at this
    obtain ⟨v, hfind, hgv⟩ := hval l[i] (List.getElem_mem hi')
    rw [← hkey, find_of_mem (List.getElem_mem hi)] at hfind
    cases hfind
    rw [hkey, hgv]

/-- Assigning keys that are all new appends their entries. -/
theorem entries_foldl_assign {γ : Type v} {g : α × γ → β} {l : List (α × γ)} {m : AssocMap α β}
    (h : (m.entries.map Prod.fst ++ l.map Prod.fst).Nodup) :
    (l.foldl (fun m e => m.assign e.1 (g e)) m).entries =
      m.entries ++ l.map fun e => (e.1, g e) := by
  induction l generalizing m with
  | nil => exact (List.append_nil _).symm
  | cons e l ih =>
    have hnew : e.1 ∉ m.entries.map Prod.fst := by
      intro hmem
      rw [List.nodup_append] at h
      exact h.2.2 e.1 hmem e.1 List.mem_cons_self rfl
    have hentries : (m.assign e.1 (g e)).entries = m.entries ++ [(e.1, g e)] :=
      assign_of_not_mem hnew
    rw [List.foldl_cons, ih, hentries, List.append_assoc]
    · rfl
    · rw [hentries, List.map_append, List.append_assoc]
      exact h

/-- Assignments to other keys. -/
theorem find_foldl_assign_of_not_mem {γ : Type v} {g : α × γ → β} {l : List (α × γ)}
    {m : AssocMap α β} {k : α} (h : k ∉ l.map Prod.fst) :
    (l.foldl (fun m e => m.assign e.1 (g e)) m).find k = m.find k := by
  induction l generalizing m with
  | nil => rfl
  | cons e l ih =>
    rw [List.map_cons, List.mem_cons, not_or] at h
    rw [List.foldl_cons, ih h.2, find_assign_of_ne _ _ h.1]

/-- A key that is assigned once. -/
theorem find_foldl_assign_of_mem {γ : Type v} {g : α × γ → β} {l : List (α × γ)}
    {m : AssocMap α β} {e : α × γ} (hd : (l.map Prod.fst).Nodup) (h : e ∈ l) :
    (l.foldl (fun m e => m.assign e.1 (g e)) m).find e.1 = some (g e) := by
  induction l generalizing m with
  | nil => cases h
  | cons e' l ih =>
    rw [List.map_cons, List.nodup_cons] at hd
    rw [List.foldl_cons]
    rcases List.mem_cons.1 h with rfl | hmem
    · rw [find_foldl_assign_of_not_mem hd.1, find_assign_self]
    · exact ih hd.2 hmem

/-- A key is found exactly when it occurs. -/
theorem isSome_find_iff {m : AssocMap α β} {k : α} :
    (m.find k).isSome = true ↔ k ∈ m.entries.map Prod.fst := by
  rw [Option.isSome_iff_ne_none, ne_eq, find_eq_none_iff, not_not]

/-- Lookup in a list whose values are changed key by key. -/
theorem lookup_map {γ : Type v} (f : α → β → γ) (k : α) (m : List (α × β)) :
    (m.map fun e => (e.1, f e.1 e.2)).lookup k = (m.lookup k).map (f k) := by
  induction m with
  | nil => rfl
  | cons e m ih =>
    obtain ⟨k', v⟩ := e
    rw [List.map_cons, List.lookup_cons, List.lookup_cons]
    cases hk : k == k' with
    | true =>
      rw [eq_of_beq hk]
      rfl
    | false => exact ih

theorem find_mapValues (f : β → β) (m : AssocMap α β) (k : α) :
    (m.mapValues f).find k = (m.find k).map f :=
  lookup_map (fun _ => f) k m.entries

/-- A key after others have been erased one after another. -/
theorem find_foldl_erase {γ : Type v} (key : γ → α) (l : List γ) (m : AssocMap α β) (k : α) :
    (l.foldl (fun m e => m.erase (key e)) m).find k =
      if k ∈ l.map key then none else m.find k := by
  induction l generalizing m with
  | nil => rfl
  | cons e l ih =>
    rw [List.foldl_cons, ih, List.map_cons]
    by_cases hrest : k ∈ l.map key
    · rw [if_pos hrest, if_pos (List.mem_cons_of_mem _ hrest)]
    · rw [if_neg hrest]
      by_cases hkey : k = key e
      · rw [hkey, find_erase_self, if_pos List.mem_cons_self]
      · rw [find_erase_of_ne _ hkey, if_neg]
        exact fun hmem => (List.mem_cons.1 hmem).elim hkey hrest

/-- The entries whose value is kept by `f`, with their new values. -/
def filterMapValues (f : β → Option β) (m : AssocMap α β) : AssocMap α β :=
  ⟨m.entries.filterMap fun e => (f e.2).map fun v => (e.1, v), by
    have hkeys : ((m.entries.filterMap fun e => (f e.2).map fun v => (e.1, v)).map Prod.fst).Sublist
        (m.entries.map Prod.fst) := by
      generalize m.entries = l
      induction l with
      | nil => exact List.Sublist.refl _
      | cons e l ih =>
        rw [List.filterMap_cons]
        cases f e.2 with
        | none => exact ih.cons _
        | some v => exact ih.cons_cons _
    exact hkeys.nodup m.distinct⟩

theorem find_filterMapValues (f : β → Option β) (m : AssocMap α β) (k : α) :
    (m.filterMapValues f).find k = (m.find k).bind f := by
  have hlookup : ∀ l : List (α × β), (l.map Prod.fst).Nodup →
      (l.filterMap fun e => (f e.2).map fun v => (e.1, v)).lookup k = (l.lookup k).bind f := by
    intro l hl
    induction l with
    | nil => rfl
    | cons e l ih =>
      obtain ⟨k', v⟩ := e
      rw [List.map_cons, List.nodup_cons] at hl
      rw [List.filterMap_cons, List.lookup_cons]
      cases hk : k == k' with
      | true =>
        -- the rest of the list does not have the key
        have hkey := eq_of_beq hk
        have hrest : (l.filterMap fun e => (f e.2).map fun v => (e.1, v)).lookup k = none := by
          rw [ih hl.2, lookup_eq_none_iff.2 (by rw [hkey]; exact hl.1)]
          rfl
        cases hv : f v with
        | none => simpa [hv] using hrest
        | some w => simp [hv, hkey]
      | false =>
        cases hv : f v with
        | none => simpa [hv] using ih hl.2
        | some w => simpa [hv, List.lookup_cons, hk] using ih hl.2
  exact hlookup m.entries m.distinct

end AssocMap

end OpenDB.Library
