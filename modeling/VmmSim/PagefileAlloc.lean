import VmmSim.WslOrder

/-!
# The slot allocator of the pagefile

`vmp_pagefile_alloc` scans the bitmap from `next_free` and around. Its counter says whether a slot is
free, so that it fails exactly when none is, and otherwise takes the first free slot in cyclic order
(`pagefile_alloc_exact`). From the start on, it returns every slot once and then only -1.
-/

namespace VmmSim

open Lib

namespace Pagefile

/-- The slots that are free. -/
def free (pf : Pagefile) : Finset ℕ := (Finset.range pf.totalSlots).filter fun i => pf.taken i = false

/-- What `init_vmp_pagefile` establishes: a bit for every slot in whole bytes, the counter of the free
slots, and a place in the file to go on from. -/
structure Counted (pf : Pagefile) : Prop where
  total : pf.totalSlots ≤ 2 ^ 52
  bitmap : pf.bitmap.length = (pf.totalSlots + 7) / 8
  freeSlots : pf.freeSlots = pf.free.card
  nextFree : pf.nextFree < pf.totalSlots ∨ pf.totalSlots = 0

theorem mem_free {pf : Pagefile} {i : ℕ} :
    i ∈ pf.free ↔ i < pf.totalSlots ∧ pf.taken i = false := by simp [free]

/-- Every slot is met in a scan around the file. -/
theorem exists_offset {total start i : ℕ} (hs : start < total) (hi : i < total) :
    ∃ j < total, (start + j) % total = i := by
  rcases Nat.lt_or_ge i start with hlt | hge
  · exact ⟨i + total - start, by omega, by
      rw [show start + (i + total - start) = i + total by omega, Nat.add_mod_right, Nat.mod_eq_of_lt hi]⟩
  · exact ⟨i - start, by omega, by rw [show start + (i - start) = i by omega, Nat.mod_eq_of_lt hi]⟩

end Pagefile

/-- What a call of `vmp_pagefile_alloc` does. -/
structure AllocExact (pf : Pagefile) (r : ℕ × Pagefile) : Prop where
  /-- It fails exactly when every slot is taken. -/
  full : r.1 = noSlot ↔ ∀ i < pf.totalSlots, pf.taken i = true
  /-- Then it changes nothing. -/
  unchanged : r.1 = noSlot → r.2 = pf
  /-- Otherwise it returns the first free slot in cyclic order from `next_free`. -/
  first : r.1 ≠ noSlot → ∃ k < pf.totalSlots, r.1 = (pf.nextFree + k) % pf.totalSlots ∧
    pf.taken r.1 = false ∧ ∀ j < k, pf.taken ((pf.nextFree + j) % pf.totalSlots) = true
  /-- It sets exactly that bit, and counts it. -/
  taken : r.1 ≠ noSlot → (∀ i, r.2.taken i = (pf.taken i || decide (i = r.1))) ∧
    r.2.freeSlots + 1 = pf.freeSlots ∧ r.2.totalSlots = pf.totalSlots
  /-- The state condition is kept. -/
  counted : r.2.Counted
  /-- It divides by the number of slots only when there are some. -/
  divides : pf.freeSlots ≠ 0 → pf.totalSlots ≠ 0

theorem Pagefile.Counted.take {pf : Pagefile} (h : pf.Counted) {slot : ℕ} (hs : slot ∈ pf.free) :
    (pf.take slot).Counted ∧ (pf.take slot).freeSlots + 1 = pf.freeSlots := by
  obtain ⟨hlt, hfree⟩ := mem_free.1 hs
  have hlen := h.bitmap
  have herase : (pf.take slot).free = pf.free.erase slot := by
    ext i
    rw [mem_free, Finset.mem_erase, mem_free, taken_take (by omega)]
    change i < pf.totalSlots ∧ _ ↔ _
    by_cases hi : i = slot
    · simp [hi]
    · simp [hi]
  have hcard : pf.free.card ≠ 0 := Finset.card_ne_zero_of_mem hs
  have hfs := h.freeSlots
  have hcount : (pf.take slot).freeSlots = pf.freeSlots - 1 := rfl
  refine ⟨⟨h.total, (List.length_set ..).trans h.bitmap, ?_, .inl (Nat.mod_lt _ (by omega))⟩, by omega⟩
  rw [herase, Finset.card_erase_of_mem hs, hcount, hfs]

theorem wp_pagefileAlloc {pf : Pagefile} (h : pf.Counted) :
    Wp (fun _ => False) (vmpPagefileAlloc pf) (AllocExact pf) := by
  have htotal := h.total
  have hfs := h.freeSlots
  have hdiv : pf.freeSlots ≠ 0 → pf.totalSlots ≠ 0 := fun h0 ht => by
    rw [hfs, Pagefile.free, ht] at h0
    exact h0 rfl
  have full : (∀ i < pf.totalSlots, pf.taken i = true) → AllocExact pf (noSlot, pf) := fun hall =>
    ⟨iff_of_true rfl hall, fun _ => rfl, fun hne => absurd rfl hne, fun hne => absurd rfl hne, h, hdiv⟩
  unfold vmpPagefileAlloc
  split
  · rename_i h0
    refine full fun i hi => ?_
    by_contra hf
    have := Finset.card_ne_zero_of_mem (Pagefile.mem_free.2 ⟨hi, Bool.eq_false_of_not_eq_true hf⟩)
    omega
  · rename_i h0
    have hpos := hdiv h0
    have hnext : pf.nextFree < pf.totalSlots := h.nextFree.resolve_right hpos
    have hlen := h.bitmap
    refine (wp_pagefileScan (by omega) pf.nextFree 0 _ le_rfl).mono fun r hr => ?_
    cases hr with
    | full hall =>
      refine full fun i hi => ?_
      obtain ⟨j, hj, rfl⟩ := Pagefile.exists_offset hnext hi
      exact hall j (Nat.zero_le _) (by omega)
    | slot k _ hk hfree hfirst =>
      have hslot : (pf.nextFree + k) % pf.totalSlots < pf.totalSlots := Nat.mod_lt _ (by omega)
      have hne : (pf.nextFree + k) % pf.totalSlots ≠ noSlot := by
        unfold noSlot
        omega
      obtain ⟨hcounted, hcount⟩ := h.take (Pagefile.mem_free.2 ⟨hslot, hfree⟩)
      refine ⟨iff_of_false hne fun hall => ?_, fun e => absurd e hne, fun _ => ?_, fun _ => ?_, hcounted, hdiv⟩
      · rw [hall _ hslot] at hfree
        cases hfree
      · exact ⟨k, by omega, rfl, hfree, fun j hj => hfirst j (Nat.zero_le _) hj⟩
      · exact ⟨Pagefile.taken_take (by omega), hcount, rfl⟩

/-! ## Calls in a row -/

/-- `n` calls of `vmp_pagefile_alloc`. -/
def allocSlots : ℕ → Pagefile → Res (List ℕ × Pagefile)
  | 0, pf => .ok ([], pf)
  | n + 1, pf => do
    let (slot, pf) ← vmpPagefileAlloc pf
    let (slots, pf) ← allocSlots n pf
    return (slot :: slots, pf)

/-- What calls in a row return: different free slots, and -1 when there are no more. -/
structure AllocRow (pf : Pagefile) (n : ℕ) (slots : List ℕ) : Prop where
  exists_got : ∃ got : List ℕ, slots = got ++ List.replicate (n - pf.free.card) noSlot ∧
    got.length = min n pf.free.card ∧ got.Nodup ∧ ∀ i ∈ got, i ∈ pf.free

theorem wp_allocSlots (n : ℕ) : ∀ {pf : Pagefile}, pf.Counted →
    Wp (fun _ => False) (allocSlots n pf) fun r => AllocRow pf n r.1 := by
  induction n with
  | zero => exact fun _ => ⟨[], by simp⟩
  | succ n ih =>
    intro pf h
    refine Wp.bind (wp_pagefileAlloc h) ?_
    rintro ⟨slot, pf'⟩ hr
    refine Wp.bind (ih hr.counted) ?_
    rintro ⟨slots, pf''⟩ ⟨got, hgot, hlen, hnodup, hmem⟩
    simp only at hgot hlen hmem
    by_cases hfull : slot = noSlot
    · obtain rfl : pf' = pf := hr.unchanged hfull
      have hcard : pf'.free.card = 0 := by
        refine Finset.card_eq_zero.2 (Finset.eq_empty_of_forall_notMem fun i hi => ?_)
        obtain ⟨hlt, hfree⟩ := Pagefile.mem_free.1 hi
        rw [hr.full.1 hfull i hlt] at hfree
        cases hfree
      obtain rfl : got = [] := List.length_eq_zero_iff.1 (by omega)
      exact ⟨[], by simp [hgot, hfull, hcard, List.replicate_succ], by simp [hcard], by simp, by simp⟩
    · obtain ⟨k, hk, hslot, hfree, -⟩ := hr.first hfull
      obtain ⟨htaken, hcount, htotal⟩ := hr.taken hfull
      simp only at hslot hfree htaken hcount htotal
      have hlt : slot < pf.totalSlots := hslot ▸ Nat.mod_lt _ (by omega)
      have hin : slot ∈ pf.free := Pagefile.mem_free.2 ⟨hlt, hfree⟩
      have herase : ∀ i, i ∈ pf'.free ↔ i ∈ pf.free ∧ i ≠ slot := fun i => by
        rw [Pagefile.mem_free, Pagefile.mem_free, htotal, htaken, Bool.or_eq_false_iff,
          decide_eq_false_iff_not, and_assoc]
      have hcard : pf'.free.card + 1 = pf.free.card := by
        rw [← hr.counted.freeSlots, ← h.freeSlots]
        exact hcount
      refine ⟨slot :: got, ?_, ?_, ?_, fun i hi => ?_⟩
      · rw [hgot, List.cons_append, ← hcard, Nat.add_sub_add_right]
      · rw [List.length_cons, hlen]
        omega
      · exact List.nodup_cons.2 ⟨fun hs => ((herase slot).1 (hmem slot hs)).2 rfl, hnodup⟩
      · rcases List.mem_cons.1 hi with rfl | hi
        · exact hin
        · exact ((herase i).1 (hmem i hi)).1

theorem initVmpPagefile_free (length : ℕ) :
    (initVmpPagefile length).free = Finset.range (length / pgSize) := by
  ext i
  rw [Pagefile.mem_free, initVmpPagefile_taken, Finset.mem_range]
  exact and_iff_left rfl

theorem initVmpPagefile_counted {length : ℕ} (h : length < 2 ^ 64) :
    (initVmpPagefile length).Counted := by
  refine ⟨(initVmpPagefile_ok h).total, List.length_replicate, ?_, (Nat.eq_zero_or_pos _).symm⟩
  rw [initVmpPagefile_free, Finset.card_range]
  rfl

/-- **The slot allocator is sound and complete.** A call runs to its end, within the bitmap, and does
what it should; and the calls from the start on return every slot once, and then only -1. -/
theorem pagefile_alloc_exact :
    (∀ pf : Pagefile, pf.Counted → ∃ r, vmpPagefileAlloc pf = .ok r ∧ AllocExact pf r) ∧
      ∀ length < 2 ^ 64, ∀ n, ∃ (got : List ℕ) (pf : Pagefile),
        allocSlots n (initVmpPagefile length) =
          .ok (got ++ List.replicate (n - length / pgSize) noSlot, pf) ∧
        got.length = min n (length / pgSize) ∧ got.Nodup ∧ ∀ i ∈ got, i < length / pgSize := by
  refine ⟨fun pf h => wp_false_iff.1 (wp_pagefileAlloc h), fun length hlt n => ?_⟩
  obtain ⟨⟨slots, pf⟩, hok, got, hgot, hlen, hnodup, hmem⟩ :=
    wp_false_iff.1 (wp_allocSlots n (initVmpPagefile_counted hlt))
  rw [initVmpPagefile_free, Finset.card_range] at hgot hlen
  simp only [initVmpPagefile_free, Finset.mem_range] at hmem
  exact ⟨got, pf, by rw [hok, ← hgot], hlen, hnodup, hmem⟩

/-- A file of two pages has two slots. -/
theorem pagefile_alloc_exact_twoSlots : AllocExact (initVmpPagefile 8192) (0, (initVmpPagefile 8192).take 0) ∧
    ∃ (got : List ℕ) (pf : Pagefile),
      allocSlots 3 (initVmpPagefile 8192) = .ok (got ++ List.replicate 1 noSlot, pf) ∧
      got.length = 2 ∧ got.Nodup ∧ ∀ i ∈ got, i < 2 := by
  obtain ⟨r, hr, hexact⟩ := pagefile_alloc_exact.1 (initVmpPagefile 8192)
    (initVmpPagefile_counted (by decide))
  obtain rfl : (0, (initVmpPagefile 8192).take 0) = r := Except.ok.inj (Eq.trans (by rfl) hr)
  exact ⟨hexact, pagefile_alloc_exact.2 8192 (by decide) 3⟩

end VmmSim
