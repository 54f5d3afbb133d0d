import VmmSim.Consistency

/-!
# Page tables that are counted and reclaimed

`nonzero_ptes` of a table counts its entries that are not zero and its wirings, as long as slot 0
of the pagefile is free or a frame in core has it (`tables_counted_iff`): when that frame is stolen,
the swap entry of slot 0 is the zero word, and its table keeps a count for an entry that it no
longer has (`slotZero_stolen`).
-/

namespace VmmSim

open Lib

/-- The number of entries of a table that are not zero. -/
def State.nonzeroCount (s : State) (t : Pfn) : ℕ := countWhere Pte.isNonzero fun i => s.entry (t, i)

/-- Page tables are counted and reclaimed exactly. -/
structure TablesCounted (x : Sys) : Prop where
  /-- `nonzero_ptes` counts the entries that are not zero and the wirings. -/
  counted : ∀ t, x.vm.IsTable t → (x.vm.pages t).nonzeroPtes = x.vm.nonzeroCount t + x.wiredBy t
  /-- A table other than the root has an entry or a wiring. -/
  live : ∀ t, x.vm.IsTable t → t ≠ x.vm.pml4Page → 0 < x.vm.nonzeroCount t + x.wiredBy t
  /-- A page that was freed holds no entry. -/
  freed : ∀ p, (x.vm.pages p).use = .free → ∀ i, x.vm.entry (p, i) = .zero

/-- Slot 0 of the pagefile is free, or a frame in core has it. -/
def SlotZeroKept (x : Sys) : Prop :=
  x.vm.pagefile.taken 0 = true → ∃ p, (x.vm.pages p).use = .anonPrivate ∧ (x.vm.pages p).drumslot = 0

theorem Slots.drift_le {c : Core} {g : Ledger} (h : Slots c g) (t : Pfn) : g.drift t ≤ 1 := by
  have hsum : g.drift t ≤ ∑ p, g.drift p := Finset.single_le_sum (fun _ _ => Nat.zero_le _)
    (Finset.mem_univ t)
  have hzero := h.zero
  have hle := Bool.toNat_le c.pagefile.slotZeroTaken
  omega

/-- The frames whose slot makes the zero word are those that have slot 0. -/
theorem Slots.hasSlotZero_iff {c : Core} {g : Ledger} (h : Slots c g) (hg : g.Settled) (p : Pfn) :
    c.HasSlotZero g p ↔ c.use p = .anonPrivate ∧ (c.pages p).drumslot = 0 := by
  constructor
  · rintro ⟨hu, -, h0⟩
    refine ⟨hu, ?_⟩
    rcases h.range p hu with hlt | hn
    · omega
    · exact absurd (hn ▸ h0) noSlot_mod
  · rintro ⟨hu, h0⟩
    exact ⟨hu, by rw [hg.loose]; nofun, by rw [h0, Nat.zero_mod]⟩

/-- No entry was lost if and only if slot 0 is free or kept. -/
theorem Sys.Good.drift_eq_zero_iff {y : Sys} {g : Ledger} (hy : y.Good g) :
    (∀ t, g.drift t = 0) ↔ SlotZeroKept y.narrow := by
  have hs := hy.good.inv.slots
  have hzero := hs.zero
  rw [← Pagefile.taken_zero] at hzero
  have hcard := Finset.card_pos (s := Finset.univ.filter (y.vm.core.HasSlotZero g))
  have hex : (Finset.univ.filter (y.vm.core.HasSlotZero g)).Nonempty ↔
      ∃ p, y.vm.core.use p = .anonPrivate ∧ (y.vm.pages p).drumslot = 0 := by
    simp only [Finset.Nonempty, Finset.mem_filter, Finset.mem_univ, true_and]
    exact exists_congr fun p => hs.hasSlotZero_iff hy.settled p
  constructor
  · intro hd ht
    have ht' : y.vm.core.pagefile.taken 0 = true := ht
    rw [Finset.sum_eq_zero fun p _ => hd p, ht'] at hzero
    exact hex.1 (hcard.1 (by rw [Bool.toNat_true] at hzero; omega))
  · intro hk t
    have hle : g.drift t ≤ ∑ p, g.drift p := Finset.single_le_sum (fun _ _ => Nat.zero_le _)
      (Finset.mem_univ t)
    cases ht : y.vm.core.pagefile.taken 0 with
    | false =>
      rw [ht, Bool.toNat_false] at hzero
      omega
    | true =>
      have hpos := hcard.2 (hex.2 (hk ht))
      rw [ht, Bool.toNat_true] at hzero
      omega

/-- **Page tables are counted exactly** in a reachable state if and only if slot 0 of the pagefile
is free or a frame in core has it, and no table has 2^16 entries and wirings. -/
theorem tables_counted_iff {x : Sys} (h : Reachable x) : TablesCounted x ↔
    SlotZeroKept x ∧ ∀ t, x.vm.IsTable t → x.vm.nonzeroCount t + x.wiredBy t < 2 ^ 16 := by
  obtain ⟨y, g, rfl, hy⟩ := h.standing
  have hi := hy.good.inv
  have hcount : ∀ t, 1 ≤ y.vm.core.level t → (y.vm.pages t).nonzeroPtes =
      (y.narrow.vm.nonzeroCount t + y.wiredBy t + g.drift t) % 2 ^ 16 := fun t ht => by
    have := hi.tables.nonzero t ht
    rw [hy.nz] at this
    exact this
  have hdrift := fun t => hi.slots.drift_le t
  constructor
  · intro hc
    have hlt : ∀ t, 1 ≤ y.vm.core.level t →
        y.narrow.vm.nonzeroCount t + y.wiredBy t < 2 ^ 16 := fun t ht => by
      have h₁ := hcount t ht
      have h₂ : (y.vm.pages t).nonzeroPtes = y.narrow.vm.nonzeroCount t + y.wiredBy t :=
        hc.counted t ht
      omega
    refine ⟨hy.drift_eq_zero_iff.1 fun t => ?_, hlt⟩
    rcases Nat.eq_zero_or_pos (g.drift t) with hd | hd
    · exact hd
    · have ht := hi.tables.drift_table t hd
      have h₁ := hcount t ht
      have h₂ : (y.vm.pages t).nonzeroPtes = y.narrow.vm.nonzeroCount t + y.wiredBy t :=
        hc.counted t ht
      have := hdrift t
      omega
  · rintro ⟨hk, hlt⟩
    have hzero := hy.drift_eq_zero_iff.2 hk
    refine ⟨fun t ht => ?_, fun t ht hne => ?_, fun p hu i => (hi.idle.cleared p (.inl hu)).2 i⟩
    · have h₁ := hcount t ht
      rw [hzero t, add_zero] at h₁
      exact h₁.trans (Nat.mod_eq_of_lt (hlt t ht))
    · have h4 := (y.vm.core.use t).level_le
      have hroot : y.vm.core.level t ≠ 4 := fun e => hne (hi.dirs.root_only t e)
      have hlive := hi.tables.live t ht (by unfold Core.level at *; omega)
        (by rw [hy.settled.loose]; nofun)
      rw [hzero t, hy.nz, add_zero] at hlive
      exact hlive

/-- A state with one page of data. -/
theorem tables_counted_twoPages :
    ∃ x, simulate mainConfig twoPages = .ok x ∧ (TablesCounted x ↔
      SlotZeroKept x ∧ ∀ t, x.vm.IsTable t → x.vm.nonzeroCount t + x.wiredBy t < 2 ^ 16) := by
  obtain ⟨x, hx⟩ := exists_of_returns (r := simulate mainConfig twoPages) (by decide +kernel)
  exact ⟨x, hx, tables_counted_iff (reachable_of_simulate hx)⟩

/-- A page is evicted and written to slot 0, and then stolen when no page is free. -/
def stealSlotZero : List Op :=
  [.fault 0 true none, .faultMain 8, .trim] ++ List.replicate 4 .pgwriter ++
    List.replicate 28 (.alloc .kWired true)

/-- The table of level 1 keeps a count of 1 with no entry left. -/
theorem slotZero_stolen :
    ∃ x, simulate mainConfig stealSlotZero = .ok x ∧ Reachable x ∧ ¬ TablesCounted x := by
  obtain ⟨x, hx, hr⟩ := exists_of_readBack (r := simulate mainConfig stealSlotZero)
    (f := fun x => ((x.vm.pages 3).use, (x.vm.pages 3).nonzeroPtes, x.vm.nonzeroCount 3, x.wiredBy 3))
    (a := (.pml1, 1, 0, 0)) (by decide +kernel)
  simp only [Prod.mk.injEq] at hr
  obtain ⟨hu, hn, hc, hw⟩ := hr
  refine ⟨x, hx, reachable_of_simulate hx, fun h => ?_⟩
  have := h.counted 3 (by rw [State.IsTable, hu]; decide)
  omega

end VmmSim
