import VmmSim.Faults

/-!
# The slots of the pagefile

The bitmap of a pagefile as a set of slots. `vmp_pagefile_alloc` returns a slot that was free and
takes it, or fails and leaves the pagefile as it was (`wp_vmpPagefileAlloc`).
-/

namespace VmmSim

open Lib

namespace Pagefile

/-- A slot has been handed out. -/
def taken (pf : Pagefile) (slot : ℕ) : Bool :=
  match pf.bitmap[slot / 8]? with
  | some byte => byte.getLsbD (slot % 8)
  | none => false

/-- The bitmap has a bit for every slot, and the file is one that a `size_t` can measure. -/
structure Ok (pf : Pagefile) : Prop where
  total : pf.totalSlots ≤ 2 ^ 52
  bitmap : pf.totalSlots ≤ 8 * pf.bitmap.length

end Pagefile

theorem getLsbD_bit {k : ℕ} (hk : k < 8) (j : ℕ) :
    ((1 <<< k : ℕ) : BitVec 8).getLsbD j = decide (j = k) := by
  have hcast : ((1 <<< k : ℕ) : BitVec 8) = BitVec.ofNat 8 (2 ^ k) := by
    rw [Nat.one_shiftLeft]
    rfl
  rw [hcast, BitVec.getLsbD_ofNat, Nat.testBit_two_pow]
  by_cases h : j = k
  · simp [h, hk]
  · simp [h, Ne.symm h]

/-- A test of one bit of a byte of the bitmap. -/
theorem and_bit_eq_zero {byte : BitVec 8} {k : ℕ} (hk : k < 8) :
    byte &&& (1 <<< k : ℕ) = 0 ↔ byte.getLsbD k = false := by
  constructor
  · intro h
    have := congrArg (BitVec.getLsbD · k) h
    rw [BitVec.getLsbD_and, getLsbD_bit hk, decide_eq_true rfl, Bool.and_true] at this
    exact this.trans BitVec.getLsbD_zero
  · intro h
    refine BitVec.eq_of_getLsbD_eq fun j hj => ?_
    rw [BitVec.getLsbD_and, getLsbD_bit hk]
    by_cases hjk : j = k
    · simp [hjk, h]
    · simp [hjk]

/-- Setting one bit of a byte of the bitmap. -/
theorem getLsbD_or_bit {byte : BitVec 8} {k : ℕ} (hk : k < 8) (j : ℕ) :
    (byte ||| (1 <<< k : ℕ)).getLsbD j = (byte.getLsbD j || decide (j = k)) := by
  rw [BitVec.getLsbD_or, getLsbD_bit hk]

/-- The pagefile when a slot has been taken. -/
def Pagefile.take (pf : Pagefile) (slot : ℕ) : Pagefile :=
  { pf with
    bitmap := pf.bitmap.set (slot / 8) ((pf.bitmap[slot / 8]?.getD 0) ||| (1 <<< (slot % 8) : ℕ))
    freeSlots := pf.freeSlots - 1
    nextFree := (slot + 1) % pf.totalSlots }

/-- Taking a slot sets exactly its bit. -/
theorem Pagefile.taken_take {pf : Pagefile} {slot : ℕ} (h : slot / 8 < pf.bitmap.length) (i : ℕ) :
    (pf.take slot).taken i = (pf.taken i || decide (i = slot)) := by
  have hbit : slot % 8 < 8 := Nat.mod_lt _ (by decide)
  simp only [take, taken]
  by_cases hi : i / 8 = slot / 8
  · have his : i % 8 = slot % 8 ↔ i = slot := by omega
    rw [hi, List.getElem?_set_self h, List.getElem?_eq_getElem h]
    simp only [Option.getD_some, getLsbD_or_bit hbit, his]
  · have his : i ≠ slot := by
      rintro rfl
      exact hi rfl
    rw [List.getElem?_set_ne (Ne.symm hi)]
    simp [his]

/-- What the scan returns: the first slot that is free, which it takes, or -1 when none is. -/
inductive Scanned (pf : Pagefile) (start i left : ℕ) : ℕ × Pagefile → Prop
  | full (h : ∀ j, i ≤ j → j < i + left → pf.taken ((start + j) % pf.totalSlots) = true) :
      Scanned pf start i left (noSlot, pf)
  | slot (k : ℕ) (hi : i ≤ k) (hk : k < i + left)
      (hfree : pf.taken ((start + k) % pf.totalSlots) = false)
      (hfirst : ∀ j, i ≤ j → j < k → pf.taken ((start + j) % pf.totalSlots) = true) :
      Scanned pf start i left
        ((start + k) % pf.totalSlots, pf.take ((start + k) % pf.totalSlots))

/-- The scan finds the first free slot, and stays within the bitmap. -/
theorem wp_pagefileScan {pf : Pagefile} (h : pf.totalSlots ≤ 8 * pf.bitmap.length)
    (start i left : ℕ) (hl : left ≤ pf.totalSlots) :
    Wp (fun _ => False) (pagefileScan pf start i left) (Scanned pf start i left) := by
  induction left generalizing i with
  | zero => exact .full fun j hi hj => absurd hj (by omega)
  | succ left ih =>
    have hidx : (start + i) % pf.totalSlots < pf.totalSlots := Nat.mod_lt _ (by omega)
    have hbyte : (start + i) % pf.totalSlots / 8 < pf.bitmap.length := by omega
    have hbit : (start + i) % pf.totalSlots % 8 < 8 := Nat.mod_lt _ (by decide)
    have htaken : pf.taken ((start + i) % pf.totalSlots) =
        pf.bitmap[(start + i) % pf.totalSlots / 8].getLsbD ((start + i) % pf.totalSlots % 8) := by
      simp only [Pagefile.taken, List.getElem?_eq_getElem hbyte]
    simp only [pagefileScan, List.getElem?_eq_getElem hbyte]
    split
    · rename_i hzero
      have hfree := htaken.trans ((and_bit_eq_zero hbit).1 hzero)
      have : Scanned pf start i (left + 1) _ := .slot i le_rfl (by omega) hfree
        fun j hi hj => absurd hj (by omega)
      simpa only [Wp.ok_iff, Pagefile.take, List.getElem?_eq_getElem hbyte, Option.getD_some] using this
    · rename_i hset
      have hhead : pf.taken ((start + i) % pf.totalSlots) = true := by
        rw [htaken, ← Bool.not_eq_false]
        exact fun e => hset ((and_bit_eq_zero hbit).2 e)
      have cover : ∀ {m : ℕ}, (∀ j, i + 1 ≤ j → j < m → pf.taken ((start + j) % pf.totalSlots) = true) →
          ∀ j, i ≤ j → j < m → pf.taken ((start + j) % pf.totalSlots) = true := fun hm j hi hj => by
        rcases Nat.eq_or_lt_of_le hi with rfl | hi
        · exact hhead
        · exact hm j hi hj
      refine (ih (i + 1) (by omega)).mono fun r hr => ?_
      cases hr with
      | full hall => exact .full (cover fun j hi hj => hall j hi (by omega))
      | slot k hi hk hfree hfirst => exact .slot k (by omega) (by omega) hfree (cover hfirst)

/-- What `vmp_pagefile_alloc` returns: a slot that was free and is not any more, or -1. -/
inductive SlotAlloc (pf : Pagefile) : ℕ → Pagefile → Prop
  | full : SlotAlloc pf noSlot pf
  | slot {n : ℕ} {pf' : Pagefile} (hn : n < pf.totalSlots) (hfree : pf.taken n = false)
      (htotal : pf'.totalSlots = pf.totalSlots) (hlen : pf'.bitmap.length = pf.bitmap.length)
      (htaken : ∀ i, pf'.taken i = (pf.taken i || decide (i = n))) : SlotAlloc pf n pf'

/-- `vmp_pagefile_alloc` returns a slot that was free and takes it, or fails. -/
theorem wp_vmpPagefileAlloc {pf : Pagefile} (h : pf.Ok) :
    Wp (fun _ => False) (vmpPagefileAlloc pf) fun r => SlotAlloc pf r.1 r.2 := by
  unfold vmpPagefileAlloc
  split
  · exact .full
  · refine (wp_pagefileScan h.bitmap _ 0 _ le_rfl).mono fun r hr => ?_
    cases hr with
    | full => exact .full
    | slot k hi hk hfree =>
      have hn : (pf.nextFree + k) % pf.totalSlots < pf.totalSlots := Nat.mod_lt _ (by omega)
      have := h.bitmap
      exact .slot hn hfree rfl (List.length_set ..) (Pagefile.taken_take (by omega))

theorem initVmpPagefile_ok {length : ℕ} (h : length < 2 ^ 64) : (initVmpPagefile length).Ok := by
  constructor
  · simp only [initVmpPagefile, pgSize]
    omega
  · simp only [initVmpPagefile, List.length_replicate]
    omega

theorem initVmpPagefile_taken (length slot : ℕ) : (initVmpPagefile length).taken slot = false := by
  simp only [initVmpPagefile, Pagefile.taken, List.getElem?_replicate]
  split
  · rename_i h
    split at h
    · cases h
      simp
    · cases h
  · rfl

end VmmSim
