import Mathlib.Data.List.Pairwise
import Mathlib.Data.List.Sort
import Mathlib.Logic.Relation
import Mathlib.Order.Extension.Linear

/-!
# Arrangements of a list

A list is arranged if nothing stands in front of what it has to follow. The elements of a list can be
arranged if and only if the relation has no cycle among them (`exists_arranged_iff`).

A list of images is arranged by a comparison of the images, the list itself by a relation of its own.
The two fit together, in that every arrangement of the images is the image of an arrangement, exactly
if the comparison of the images knows of everything that the relation says between elements with
different images (`images_arranged_iff`).

A list has no other arrangement than itself exactly if it is in order and elements that may stand either
way are equal (`arranged_unique_iff`).
-/

set_option autoImplicit false

namespace OpenDB.Library

variable {α β : Type*}

/-- Nothing stands in front of what it has to follow. -/
def Arranged (r : α → α → Prop) (l : List α) : Prop := l.Pairwise fun x y => ¬ r y x

/-- The relation between the elements of the list has no cycle. -/
def AcyclicOn (r : α → α → Prop) (l : List α) : Prop :=
  ∀ a, ¬ Relation.TransGen (fun x y => x ∈ l ∧ y ∈ l ∧ r x y) a a

/-- A strict weak order of the elements of the list: no two are in front of each other, and an element
in front of another has any third one behind it or in front of the other. -/
structure StrictWeakOn (r : α → α → Prop) (l : List α) : Prop where
  asymm : ∀ a ∈ l, ∀ b ∈ l, r a b → ¬ r b a
  cotrans : ∀ a ∈ l, ∀ b ∈ l, ∀ c ∈ l, r a c → r a b ∨ r b c

section

variable {r : α → α → Prop} {l l' : List α} {a b : α}

theorem StrictWeakOn.trans (h : StrictWeakOn r l) {a b c : α} (ha : a ∈ l) (hb : b ∈ l) (hc : c ∈ l)
    (hab : r a b) (hbc : r b c) : r a c :=
  (h.cotrans a ha c hc b hb hab).resolve_right fun hcb => h.asymm b hb c hc hbc hcb

theorem AcyclicOn.irrefl (h : AcyclicOn r l) (ha : a ∈ l) : ¬ r a a :=
  fun hr => h a (Relation.TransGen.single ⟨ha, ha, hr⟩)

/-! ## Arrangements exist where there is no cycle -/

/-- Elements of an arranged list that are related stand in their order. -/
theorem Arranged.idxOf_lt [DecidableEq α] (h : Arranged r l) (hirrefl : ∀ x ∈ l, ¬ r x x)
    (ha : a ∈ l) (hb : b ∈ l) (hab : r a b) : l.idxOf a < l.idxOf b := by
  rcases Nat.lt_trichotomy (l.idxOf a) (l.idxOf b) with hlt | heq | hgt
  · exact hlt
  · obtain rfl : a = b := (List.idxOf_inj ha).1 heq
    exact absurd hab (hirrefl a ha)
  · have hnot := List.pairwise_iff_getElem.1 h _ _ (List.idxOf_lt_length_iff.2 hb)
      (List.idxOf_lt_length_iff.2 ha) hgt
    rw [List.getElem_idxOf, List.getElem_idxOf] at hnot
    exact absurd hab hnot

theorem Arranged.acyclicOn (h : Arranged r l) (hirrefl : ∀ x ∈ l, ¬ r x x) : AcyclicOn r l := by
  classical
  intro a hcycle
  have hlt : ∀ b, Relation.TransGen (fun x y => x ∈ l ∧ y ∈ l ∧ r x y) a b →
      l.idxOf a < l.idxOf b := by
    intro b hb
    induction hb with
    | single hr => exact h.idxOf_lt hirrefl hr.1 hr.2.1 hr.2.2
    | tail _ hr ih => exact ih.trans (h.idxOf_lt hirrefl hr.1 hr.2.1 hr.2.2)
  exact Nat.lt_irrefl _ (hlt a hcycle)

/-- What has no cycle extends to a linear order, and the list sorted by that order is arranged. -/
theorem AcyclicOn.exists_arranged (h : AcyclicOn r l) : ∃ out, out.Perm l ∧ Arranged r out := by
  classical
  set s : α → α → Prop := fun x y => x ∈ l ∧ y ∈ l ∧ r x y with hs
  have hpartial : IsPartialOrder α (Relation.ReflTransGen s) := by
    refine { refl := fun _ => .refl, trans := fun _ _ _ => .trans, antisymm := ?_ }
    intro x y hxy hyx
    rcases Relation.reflTransGen_iff_eq_or_transGen.1 hxy with heq | hxy
    · exact heq.symm
    · exact absurd (hxy.trans_left hyx) (h x)
  obtain ⟨t, ht, hle⟩ := extend_partialOrder (Relation.ReflTransGen s)
  have hpairwise : (l.insertionSort t).Pairwise t := List.pairwise_insertionSort t l
  refine ⟨l.insertionSort t, List.perm_insertionSort t l, ?_⟩
  refine hpairwise.imp_of_mem ?_
  intro x y hx hy hxy hr
  have hx := (List.mem_insertionSort t).1 hx
  have hy := (List.mem_insertionSort t).1 hy
  obtain rfl : x = y := ht.antisymm x y hxy (hle y x (.single ⟨hy, hx, hr⟩))
  exact h.irrefl hx hr

theorem AcyclicOn.perm (h : AcyclicOn r l) (hperm : l'.Perm l) : AcyclicOn r l' := by
  intro a hcycle
  refine h a (Relation.TransGen.mono ?_ a a hcycle)
  intro x y hxy
  exact ⟨hperm.mem_iff.1 hxy.1, hperm.mem_iff.1 hxy.2.1, hxy.2.2⟩

theorem exists_arranged_iff (hirrefl : ∀ x ∈ l, ¬ r x x) :
    (∃ out, out.Perm l ∧ Arranged r out) ↔ AcyclicOn r l := by
  constructor
  · rintro ⟨out, hperm, hout⟩
    have hacyclic := hout.acyclicOn fun x hx => hirrefl x (hperm.mem_iff.1 hx)
    exact hacyclic.perm hperm.symm
  · exact AcyclicOn.exists_arranged

theorem StrictWeakOn.acyclicOn (h : StrictWeakOn r l) : AcyclicOn r l := by
  intro a hcycle
  have hpath : ∀ b, Relation.TransGen (fun x y => x ∈ l ∧ y ∈ l ∧ r x y) a b →
      a ∈ l ∧ b ∈ l ∧ r a b := by
    intro b hb
    induction hb with
    | single hr => exact hr
    | tail _ hr ih => exact ⟨ih.1, hr.2.1, h.trans ih.1 hr.1 hr.2.1 ih.2.2 hr.2.2⟩
  obtain ⟨ha, -, hr⟩ := hpath a hcycle
  exact h.asymm a ha a ha hr hr

/-- Nor has it one if two elements of it that are not in order are put in the other order. -/
theorem StrictWeakOn.acyclicOn_or (h : StrictWeakOn r l) (hb : b ∈ l) (ha : a ∈ l) (hne : a ≠ b)
    (hab : ¬ r a b) : AcyclicOn (fun x y => r x y ∨ (x = b ∧ y = a)) l := by
  intro c hcycle
  -- a path is a step of the order, or it goes from `b` to `a` at some place
  have hpath : ∀ d, Relation.TransGen
      (fun x y => x ∈ l ∧ y ∈ l ∧ (r x y ∨ (x = b ∧ y = a))) c d →
      c ∈ l ∧ d ∈ l ∧ (r c d ∨ ((c = b ∨ r c b) ∧ (d = a ∨ r a d))) := by
    intro d hd
    induction hd with
    | @single d hr =>
      refine ⟨hr.1, hr.2.1, ?_⟩
      rcases hr.2.2 with hr | ⟨rfl, rfl⟩
      · exact Or.inl hr
      · exact Or.inr ⟨Or.inl rfl, Or.inl rfl⟩
    | @tail d e _ hr ih =>
      obtain ⟨hc, hd, hpath⟩ := ih
      refine ⟨hc, hr.2.1, ?_⟩
      rcases hr.2.2 with hde | ⟨rfl, rfl⟩
      · rcases hpath with hcd | ⟨hcb, had⟩
        · exact Or.inl (h.trans hc hd hr.2.1 hcd hde)
        · refine Or.inr ⟨hcb, Or.inr ?_⟩
          rcases had with rfl | had
          · exact hde
          · exact h.trans ha hd hr.2.1 had hde
      · rcases hpath with hcd | ⟨hcb, -⟩
        · exact Or.inr ⟨Or.inr hcd, Or.inl rfl⟩
        · exact Or.inr ⟨hcb, Or.inl rfl⟩
  obtain ⟨hc, -, hr | ⟨rfl | hcb, rfl | hac⟩⟩ := hpath c hcycle
  · exact h.asymm c hc c hc hr hr
  · exact hne rfl
  · exact hab hac
  · exact hab hcb
  · exact hab (h.trans ha hc hb hac hcb)

/-- Insertion sort by a strict weak order arranges the list. -/
theorem StrictWeakOn.arranged_insertionSort [DecidableRel r] (h : StrictWeakOn r l) :
    Arranged r (l.insertionSort fun x y => ¬ r y x) := by
  -- the order is total and transitive on the elements of the list
  set s : {x // x ∈ l} → {x // x ∈ l} → Prop := fun x y => ¬ r y.1 x.1 with hs
  have htotal : Std.Total s := by
    refine ⟨fun x y => ?_⟩
    by_cases hyx : r y.1 x.1
    · exact Or.inr (h.asymm y.1 y.2 x.1 x.2 hyx)
    · exact Or.inl hyx
  have htrans : IsTrans {x // x ∈ l} s := by
    refine ⟨fun x y z hxy hyz hzx => ?_⟩
    rcases h.cotrans z.1 z.2 y.1 y.2 x.1 x.2 hzx with hzy | hyx
    · exact hyz hzy
    · exact hxy hyx
  have hsorted : (l.attach.insertionSort s).Pairwise s := List.pairwise_insertionSort s _
  have hmap := List.map_insertionSort (r := s) (s := fun x y : α => ¬ r y x) Subtype.val l.attach
    fun _ _ _ _ => Iff.rfl
  rw [List.attach_map_subtype_val] at hmap
  rw [Arranged, ← hmap, List.pairwise_map]
  exact hsorted

end

/-! ## One arrangement -/

section

variable {r : α → α → Prop} {l : List α}

/-- Elements of a list stand in one order or the other. -/
theorem rel_or_rel_of_pairwise {s : α → α → Prop} (h : l.Pairwise s) {a b : α} (ha : a ∈ l)
    (hb : b ∈ l) (hne : a ≠ b) : s a b ∨ s b a := by
  have hsymm : Std.Symm fun x y => s x y ∨ s y x := ⟨fun _ _ => Or.symm⟩
  exact (h.imp Or.inl : l.Pairwise fun x y => s x y ∨ s y x).forall ha hb hne

/-- A list is the only arrangement of itself exactly if its elements stand in order, and those of which
none precedes the other are equal. -/
theorem StrictWeakOn.arranged_unique_iff (h : StrictWeakOn r l) :
    (∀ out : List α, out.Perm l → Arranged r out → out = l) ↔
      l.Pairwise fun a b => r a b ∨ a = b := by
  constructor
  · intro honly
    rw [List.pairwise_iff_forall_sublist]
    intro a b hsub
    by_contra hnot
    obtain ⟨hab, hne⟩ := not_or.1 hnot
    -- then there is an arrangement with `b` in front of `a`
    obtain ⟨out, hperm, hout⟩ := (h.acyclicOn_or (hsub.subset (by simp)) (hsub.subset (by simp)) hne
      hab).exists_arranged
    obtain rfl := honly out hperm (hout.imp fun hxy hyx => hxy (Or.inl hyx))
    exact hout.forall_sublist hsub (Or.inr ⟨rfl, rfl⟩)
  · intro hordered out hperm hout
    refine List.Perm.eq_of_pairwise ?_ ?_ hordered hperm
    · intro a b ha hb hab hba
      rcases hab with hab | rfl
      · rcases hba with hba | rfl
        · exact absurd hba (h.asymm a (hperm.mem_iff.1 ha) b hb hab)
        · rfl
      · rfl
    · refine hout.imp_of_mem fun {a b} ha hb hba => ?_
      by_cases hne : a = b
      · exact Or.inr hne
      · rcases rel_or_rel_of_pairwise hordered (hperm.mem_iff.1 ha) (hperm.mem_iff.1 hb) hne with
          (hab | heq) | (hba' | heq)
        · exact Or.inl hab
        · exact Or.inr heq
        · exact absurd hba' hba
        · exact Or.inr heq.symm

end

/-! ## Images -/

section

variable {r : α → α → Prop} {r' : β → β → Prop} {p : α → β} {l : List α} {out : List β}

/-- A permutation of the images comes from a permutation of the list that leaves elements with the
same image in their order. -/
theorem exists_perm_of_map [DecidableEq β] (h : out.Perm (l.map p)) :
    ∃ arr : List α, arr.Perm l ∧ arr.map p = out ∧
      ∀ v, (arr.filter fun x => p x = v) = l.filter fun x => p x = v := by
  induction out generalizing l with
  | nil =>
    obtain rfl : l = [] := List.map_eq_nil_iff.1 (List.nil_perm.1 h)
    exact ⟨[], .nil, rfl, fun _ => rfl⟩
  | cons v out ih =>
    -- the first element with that image goes to the front
    obtain ⟨x, hx, hxv⟩ : ∃ x ∈ l, p x = v := List.mem_map.1 (h.mem_iff.1 List.mem_cons_self)
    obtain ⟨y, front, back, hfront, hy, rfl, -⟩ :=
      List.exists_of_eraseP (p := fun x => decide (p x = v)) hx (decide_eq_true hxv)
    obtain rfl : p y = v := of_decide_eq_true hy
    have hmiddle : (front ++ y :: back).Perm (y :: (front ++ back)) := List.perm_middle
    have hrest : out.Perm ((front ++ back).map p) :=
      (h.trans (hmiddle.map p)).cons_inv
    obtain ⟨arr, hperm, hmap, hfilter⟩ := ih hrest
    refine ⟨y :: arr, (hperm.cons y).trans hmiddle.symm, by rw [List.map_cons, hmap], fun w => ?_⟩
    have hnone : p y = w → (front.filter fun x => p x = w) = [] := by
      rintro rfl
      exact List.filter_eq_nil_iff.2 hfront
    by_cases hw : p y = w
    · simp [hfilter, hw, hnone hw]
    · simp [hfilter, hw]

/-- Every arrangement of the images is the image of an arrangement, if the comparison of the images
agrees with the relation wherever the images differ. -/
theorem exists_arranged_of_map (hagree : ∀ x ∈ l, ∀ y ∈ l, r x y → p x = p y ∨ r' (p x) (p y))
    (hacyclic : AcyclicOn r l) (hperm : out.Perm (l.map p)) (hout : Arranged r' out) :
    ∃ arr : List α, arr.Perm l ∧ Arranged r arr ∧ arr.map p = out := by
  classical
  obtain ⟨sorted, hsorted, harranged⟩ := hacyclic.exists_arranged
  obtain ⟨arr, harr, rfl, hfilter⟩ := exists_perm_of_map (hperm.trans (hsorted.map p).symm)
  refine ⟨arr, harr.trans hsorted, ?_, rfl⟩
  refine List.pairwise_iff_forall_sublist.2 ?_
  intro x y hxy hyx
  have hmem : ∀ z ∈ [x, y], z ∈ l := fun z hz => hsorted.mem_iff.1 (harr.mem_iff.1 (hxy.subset hz))
  rcases hagree y (hmem y (by simp)) x (hmem x (by simp)) hyx with heq | hlt
  · -- elements with the same image stand as in the sorted list
    have hsub := hxy.filter fun z => decide (p z = p y)
    rw [hfilter, List.filter_cons_of_pos (by simp [heq]), List.filter_cons_of_pos (by simp)] at hsub
    exact harranged.forall_sublist (hsub.trans List.filter_sublist) hyx
  · exact hout.forall_sublist (hxy.map p) hlt

theorem images_arranged_iff (hirrefl : ∀ x ∈ l, ¬ r x x) (hweak : StrictWeakOn r' (l.map p)) :
    (∀ out : List β, out.Perm (l.map p) → Arranged r' out →
      ∃ arr : List α, arr.Perm l ∧ Arranged r arr ∧ arr.map p = out) ↔
      (∀ x ∈ l, ∀ y ∈ l, r x y → p x = p y ∨ r' (p x) (p y)) ∧ AcyclicOn r l := by
  constructor
  · intro h
    constructor
    · intro a ha b hb hab
      by_contra hnot
      rw [not_or] at hnot
      have ha' := List.mem_map_of_mem (f := p) ha
      have hb' := List.mem_map_of_mem (f := p) hb
      -- an arrangement of the images with that of `b` in front of that of `a`
      obtain ⟨out, hperm, hout⟩ := (hweak.acyclicOn_or hb' ha' hnot.1 hnot.2).exists_arranged
      obtain ⟨arr, harr, harranged, rfl⟩ := h out hperm (hout.imp fun hxy hyx => hxy (Or.inl hyx))
      have hne : a ≠ b := fun heq => hnot.1 (congrArg p heq)
      have hfront := List.pairwise_map.1 hout
      rcases rel_or_rel_of_pairwise (harranged.and hfront) (harr.mem_iff.2 ha) (harr.mem_iff.2 hb)
        hne with hba | hab'
      · exact hba.2 (Or.inr ⟨rfl, rfl⟩)
      · exact hab'.1 hab
    · obtain ⟨out, hperm, hout⟩ := hweak.acyclicOn.exists_arranged
      obtain ⟨arr, harr, harranged, -⟩ := h out hperm hout
      exact (exists_arranged_iff hirrefl).1 ⟨arr, harr, harranged⟩
  · rintro ⟨hagree, hacyclic⟩ out hperm hout
    exact exists_arranged_of_map hagree hacyclic hperm hout

end

end OpenDB.Library
