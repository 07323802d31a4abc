import OpenDB.Library.CyclicRedundancy
import OpenDB.Storage.Pager

/-!
# Burst errors

The byte loop of `crc32` with its table is a register of 32 bits that is fed the message bit by bit, the
lowest bit of every byte first (`toBitVec_crc32`). So two byte strings that differ only within four
consecutive bytes have different checksums, and a page whose payload has been changed only there is not
read (`burst_errors`).
-/

set_option autoImplicit false

namespace OpenDB

open OpenDB.Library

namespace Pager

/-! ## The byte loop -/

/-- The reversed polynomial. -/
def crcTaps : BitVec 32 := 0xEDB88320

/-- The bits of a message in the order in which the register is fed. -/
def messageBits (data : Bytes) : List Bool := data.flatMap fun b => Crc.lowBits b.toBitVec 8

theorem messageBits_append (a b : Bytes) : messageBits (a ++ b) = messageBits a ++ messageBits b :=
  List.flatMap_append

theorem length_messageBits (data : Bytes) : (messageBits data).length = 8 * data.length := by
  simp [messageBits, List.length_flatMap, Crc.lowBits, Nat.mul_comm]

theorem messageBits_injective {a b : Bytes} (hlen : a.length = b.length)
    (h : messageBits a = messageBits b) : a = b := by
  induction a generalizing b with
  | nil => exact (List.length_eq_zero_iff.1 hlen.symm).symm
  | cons x a ih =>
    obtain ⟨y, b, rfl⟩ := List.exists_cons_of_length_eq_add_one hlen.symm
    rw [messageBits, List.flatMap_cons, messageBits, List.flatMap_cons] at h
    obtain ⟨hfirst, hrest⟩ := List.append_inj h (by simp [Crc.lowBits])
    have hbyte : x = y := by
      refine UInt8.toBitVec_inj.1 (BitVec.eq_of_getLsbD_eq fun i hi => ?_)
      exact (List.map_inj_left.1 hfirst) i (List.mem_range.2 hi)
    rw [hbyte, ih (Nat.succ.inj hlen) hrest]

theorem toBitVec_crcTable (i : UInt32) :
    (crcTable i).toBitVec = (Crc.shift crcTaps)^[8] i.toBitVec := by
  have hstep : ∀ c : UInt32,
      (if c &&& 1 = 1 then (0xEDB88320 : UInt32) ^^^ (c >>> 1) else c >>> 1).toBitVec =
        Crc.shift crcTaps c.toBitVec := by
    intro c
    have hlow : c &&& 1 = 1 ↔ c.toBitVec.getLsbD 0 = true := by
      rw [← UInt32.toNat_inj, UInt32.toNat_and, show (1 : UInt32).toNat = 1 from rfl,
        Nat.and_one_is_mod, BitVec.getLsbD, Nat.testBit_zero, decide_eq_true_eq, UInt32.toNat_toBitVec]
    rw [Crc.shift]
    by_cases h : c &&& 1 = 1
    · rw [if_pos h, if_pos (hlow.1 h)]
      rfl
    · rw [if_neg h, if_neg fun hc => h (hlow.2 hc)]
      rfl
  have hfold : ∀ (l : List Nat) (c : UInt32),
      (l.foldl (fun (c : UInt32) _ =>
        if c &&& 1 = 1 then (0xEDB88320 : UInt32) ^^^ (c >>> 1) else c >>> 1) c).toBitVec =
      (Crc.shift crcTaps)^[l.length] c.toBitVec := by
    intro l
    induction l with
    | nil => exact fun c => rfl
    | cons _ l ih =>
      intro c
      rw [List.foldl_cons, ih, hstep, List.length_cons, Function.iterate_succ_apply]
  exact hfold (List.range 8) i

/-- One round of the byte loop. -/
theorem toBitVec_crcByte (crc : UInt32) (b : UInt8) :
    (crcTable ((crc ^^^ b.toUInt32) &&& 0xFF) ^^^ (crc >>> 8)).toBitVec =
      Crc.feedAll crcTaps crc.toBitVec (Crc.lowBits b.toBitVec 8) := by
  have hhigh : ∀ i, 8 ≤ i → b.toUInt32.toBitVec.getLsbD i = false := by
    intro i hi
    rw [UInt8.toBitVec_toUInt32, BitVec.getLsbD_setWidth, BitVec.getLsbD_of_ge b.toBitVec i hi,
      Bool.and_false]
  have hbits : Crc.lowBits b.toBitVec 8 = Crc.lowBits b.toUInt32.toBitVec 8 := by
    refine List.map_congr_left fun i hi => ?_
    have hi := List.mem_range.1 hi
    rw [UInt8.toBitVec_toUInt32, BitVec.getLsbD_setWidth, decide_eq_true (by omega), Bool.true_and]
  have hmove : (crc ^^^ b.toUInt32).toBitVec >>> 8 = (crc >>> 8).toBitVec := by
    rw [UInt32.toBitVec_xor, BitVec.ushiftRight_xor_distrib]
    have hnone : b.toUInt32.toBitVec >>> 8 = 0#32 := by
      refine BitVec.eq_of_getLsbD_eq fun i _ => ?_
      rw [BitVec.getLsbD_ushiftRight, hhigh _ (Nat.le_add_right 8 i), BitVec.getLsbD_zero]
    rw [hnone, BitVec.xor_zero]
    rfl
  rw [hbits, Crc.feedAll_lowBits crcTaps _ _ hhigh, ← UInt32.toBitVec_xor, Crc.shifts_eq_xor, hmove,
    UInt32.toBitVec_xor, toBitVec_crcTable]
  rfl

/-- The checksum is the register that has been fed the message, from all ones on and with all its bits
turned around in the end. -/
theorem toBitVec_crc32 (data : Bytes) :
    (crc32 data).toBitVec =
      Crc.feedAll crcTaps 0xFFFFFFFF (messageBits data) ^^^ 0xFFFFFFFF := by
  have hfold : ∀ (data : Bytes) (crc : UInt32),
      (data.foldl (fun crc b => crcTable ((crc ^^^ b.toUInt32) &&& 0xFF) ^^^ (crc >>> 8)) crc).toBitVec =
        Crc.feedAll crcTaps crc.toBitVec (messageBits data) := by
    intro data
    induction data with
    | nil => exact fun crc => rfl
    | cons b data ih =>
      intro crc
      rw [List.foldl_cons, ih, toBitVec_crcByte, messageBits, messageBits, List.flatMap_cons,
        Crc.feedAll, Crc.feedAll, Crc.feedAll, List.foldl_append]
  rw [crc32, UInt32.toBitVec_xor, hfold]
  rfl

/-! ## Bursts -/

/-- The strings are as long as each other, and the same outside of the `n` bytes from `i` on. -/
structure AgreeOutside (i n : Nat) (a b : Bytes) : Prop where
  length_eq : a.length = b.length
  same : ∀ j, j < i ∨ i + n ≤ j → a[j]? = b[j]?

theorem AgreeOutside.split {i n : Nat} {a b : Bytes} (h : AgreeOutside i n a b) :
    ∃ front u v behind : Bytes, a = front ++ (u ++ behind) ∧ b = front ++ (v ++ behind) ∧
      u.length = v.length ∧ u.length ≤ n := by
  have hfront : a.take i = b.take i := by
    refine List.ext_getElem? fun j => ?_
    rw [List.getElem?_take, List.getElem?_take]
    split_ifs with hj
    · exact h.same j (.inl hj)
    · rfl
  have hbehind : (a.drop i).drop n = (b.drop i).drop n := by
    refine List.ext_getElem? fun j => ?_
    rw [List.drop_drop, List.drop_drop, List.getElem?_drop, List.getElem?_drop]
    exact h.same _ (.inr (Nat.le_add_right _ j))
  refine ⟨a.take i, (a.drop i).take n, (b.drop i).take n, (a.drop i).drop n, ?_, ?_, ?_, ?_⟩
  · rw [List.take_append_drop, List.take_append_drop]
  · rw [hfront, hbehind, List.take_append_drop, List.take_append_drop]
  · rw [List.length_take, List.length_take, List.length_drop, List.length_drop, h.length_eq]
  · exact List.length_take_le n _

/-- Strings that differ within four consecutive bytes have different checksums. -/
theorem crc32_ne_of_agreeOutside {i : Nat} {a b : Bytes} (h : AgreeOutside i 4 a b) (hne : a ≠ b) :
    crc32 a ≠ crc32 b := by
  obtain ⟨front, u, v, behind, rfl, rfl, hlen, hsmall⟩ := h.split
  intro hcrc
  have hbits := congrArg UInt32.toBitVec hcrc
  rw [toBitVec_crc32, toBitVec_crc32, BitVec.xor_left_inj] at hbits
  simp only [messageBits_append] at hbits
  refine Crc.feedAll_ne_of_burst (by decide) (by decide) _ ?_ ?_ ?_ hbits
  · rw [length_messageBits, length_messageBits, hlen]
  · rw [length_messageBits]
    omega
  · intro huv
    exact hne (by rw [messageBits_injective hlen huv])

/-! ## Pages -/

/-- A page on file whose payload has been changed within four consecutive bytes, and nothing else. -/
structure PayloadBurst (written found : RawPage) : Prop where
  header : found.bytes.take dataPageHeaderSize = written.bytes.take dataPageHeaderSize
  changed : found.payload ≠ written.payload
  window : ∃ i, AgreeOutside i 4 found.payload written.payload

theorem PayloadBurst.storedCrc_eq {written found : RawPage} (h : PayloadBurst written found) :
    found.storedCrc = written.storedCrc := by
  have hfield : ∀ page : RawPage,
      page.field 0 4 = leValue ((page.bytes.take dataPageHeaderSize).take 4) := by
    intro page
    rw [RawPage.field, List.drop_zero, List.take_take]
    rfl
  rw [RawPage.storedCrc, RawPage.storedCrc, hfield, hfield, h.header]

theorem getElem?_file_of_writeRaw {p p' : Pager} {id : PageId} {page : RawPage}
    (h : (writeRaw id page).run p = .ok () p') : p'.file[id.toNat]? = some page := by
  -- whatever the file has been extended by, the page is written last
  have hlast : ∀ {q : Pager}, EStateM.run (modify fun p : Pager =>
      { p with file := p.file.write id.toNat page } : EStateM Fault Pager Unit) q = .ok () p' →
        p'.file[id.toNat]? = some page := by
    intro q hq
    cases hq
    exact getElem?_write_self _ _ _
  rw [writeRaw, run_bind_eq_ok] at h
  obtain ⟨before, _, -, h⟩ := h
  dsimp only at h
  split_ifs at h
  · obtain ⟨-, _, -, h⟩ := run_bind_eq_ok.1 h
    obtain ⟨-, _, -, h⟩ := run_bind_eq_ok.1 h
    exact hlast h
  · exact hlast h

/-- What `writePage` leaves on the page that it returns. -/
theorem getElem?_file_of_writePage {p p' : Pager} {target : Option PageId} {data : Bytes} {id : PageId}
    (h : (writePage target data).run p = .ok id p') :
    data.length = dataPagePayloadSize ∧ p'.file[id.toNat]? = some (dataPage data) := by
  have hwritten : ∀ {x : PageId} {q : Pager}, (do
      writeRaw x (dataPage data)
      return x : EStateM Fault Pager PageId).run q = .ok id p' →
        p'.file[id.toNat]? = some (dataPage data) := by
    intro x q hq
    obtain ⟨_, q', hraw, hreturn⟩ := run_bind_eq_ok.1 hq
    cases hreturn
    exact getElem?_file_of_writeRaw hraw
  rw [writePage.eq_def] at h
  by_cases hlen : data.length = dataPagePayloadSize
  · refine ⟨hlen, ?_⟩
    rw [if_neg (not_not.2 hlen)] at h
    cases target with
    | none =>
      obtain ⟨_, _, -, h⟩ := run_bind_eq_ok.1 h
      exact hwritten h
    | some x =>
      obtain ⟨_, _, -, h⟩ := run_bind_eq_ok.1 h
      dsimp only at h
      split_ifs at h
      · cases h
      · exact hwritten h
  · rw [if_pos hlen] at h
    cases h

/-- Strings that differ within four consecutive bytes have different checksums. A page that has been
written and whose payload has been changed only there is not read, whatever else has happened to the
file. -/
theorem burst_errors :
    (∀ (a b : Bytes) (i : Nat), AgreeOutside i 4 a b → a ≠ b → crc32 a ≠ crc32 b) ∧
    ∀ (p p' : Pager) (target : Option PageId) (data : Bytes) (id : PageId),
      (writePage target data).run p = .ok id p' → ∃ written, p'.file[id.toNat]? = some written ∧
        ∀ (q : Pager) (found : RawPage), q.file[id.toNat]? = some found →
          PayloadBurst written found → q.readPage id = none := by
  refine ⟨fun a b i => crc32_ne_of_agreeOutside, fun p p' target data id hwrite => ?_⟩
  obtain ⟨hlen, hfile⟩ := getElem?_file_of_writePage hwrite
  refine ⟨_, hfile, fun q found hfound hburst => ?_⟩
  obtain ⟨i, hwindow⟩ := hburst.window
  have hcrc : found.storedCrc ≠ crc32 found.payload := by
    rw [hburst.storedCrc_eq, storedCrc_dataPage]
    have hne := crc32_ne_of_agreeOutside hwindow hburst.changed
    rw [payload_dataPage hlen] at hne
    exact hne.symm
  rw [readPage]
  split_ifs
  · rfl
  · cases hraw : q.readRaw id with
    | none => rfl
    | some raw =>
      rw [readRaw] at hraw
      split_ifs at hraw
      rw [hfound] at hraw
      cases hraw
      exact if_neg hcrc

/-- Another last byte. -/
theorem payloadBurst_last {written : RawPage} {front : Bytes} {x y : UInt8}
    (hpayload : written.payload = front ++ [x]) (hne : x ≠ y) :
    ∃ found, PayloadBurst written found ∧ found.payload = front ++ [y] := by
  have hhead : (written.bytes.take dataPageHeaderSize).length = dataPageHeaderSize := by
    rw [List.length_take, written.size]
    rfl
  have hsize : (written.bytes.take dataPageHeaderSize ++ (front ++ [y])).length = pageSize := by
    have hwhole : (written.bytes.take dataPageHeaderSize ++ (front ++ [x])).length = pageSize := by
      rw [← hpayload, RawPage.payload, List.take_append_drop, written.size]
    rwa [List.length_append, List.length_append, List.length_singleton] at hwhole ⊢
  have hfound : RawPage.payload ⟨_, hsize⟩ = front ++ [y] := List.drop_left' hhead
  refine ⟨⟨_, hsize⟩, ⟨List.take_left' hhead, ?_, front.length, ?_, ?_⟩, hfound⟩
  · rw [hfound, hpayload]
    intro h
    exact hne (List.cons.inj (List.append_cancel_left h)).1.symm
  · rw [hfound, hpayload, List.length_append, List.length_append, List.length_singleton,
      List.length_singleton]
  · intro j hj
    rw [hfound, hpayload]
    rcases hj with hj | hj
    · rw [List.getElem?_append_left hj, List.getElem?_append_left hj]
    · have hend : ∀ z : UInt8, (front ++ [z])[j]? = none := fun z => by
        rw [List.getElem?_eq_none_iff, List.length_append, List.length_singleton]
        omega
      rw [hend, hend]

/-- A page of zeros is written, and its last byte is changed. -/
theorem burst_errors_last_byte : ∃ (p p' : Pager) (id : PageId) (data : Bytes) (written found : RawPage),
    (writePage (some id) data).run p = .ok id p' ∧ p'.file[id.toNat]? = some written ∧
      PayloadBurst written found ∧
        ∀ q : Pager, q.file[id.toNat]? = some found → q.readPage id = none := by
  have hlen : (List.replicate 4087 (0 : UInt8) ++ [0]).length = dataPagePayloadSize := by
    rw [List.length_append, List.length_replicate]
    rfl
  have hwrite := run_writePage (p := ⟨[RawPage.zero, RawPage.zero], ⟨magic, version, 2, invalidPage⟩,
    BuddyPageAllocator.new, 16, by decide⟩) hlen (show (1 : PageId) ≠ 0 by decide) (by decide)
  obtain ⟨written, hfile, hreject⟩ := burst_errors.2 _ _ _ _ _ hwrite
  have hdata : written = dataPage (List.replicate 4087 0 ++ [0]) := by
    rw [(getElem?_file_of_writePage hwrite).2] at hfile
    exact (Option.some.inj hfile).symm
  obtain ⟨found, hburst, -⟩ := payloadBurst_last (hdata ▸ payload_dataPage hlen) (show (0 : UInt8) ≠ 1 by decide)
  exact ⟨_, _, 1, _, written, found, hwrite, hfile, hburst, fun q hq => hreject q _ hq hburst⟩

end Pager

end OpenDB
