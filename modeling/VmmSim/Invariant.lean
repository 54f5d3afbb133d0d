import VmmSim.Core

/-!
# The invariants of the memory manager

What holds of a core between any two of its primitive changes (`VmmSim.Move`): how entries of page
tables and pages name each other (`Dirs`, `Leaves`), what the counters of pages count
(`TableCounts`, `FrameCounts`), and that the working set list mirrors the tables (`Mirror`). A
`Ledger` says what is owed at that moment: the references held outside the page tables, and which
page or entry is half way into them. Between two operations nothing is half way
(`Ledger.Settled`).
-/

namespace VmmSim

open Lib

/-- A swap-in that has made its entry busy: the address, the entry and the page being read. -/
structure Swapping where
  vaddr : ℕ
  pte : PtePtr
  page : Pfn
  deriving DecidableEq

/-- What is owed outside the page tables. -/
structure Ledger where
  /-- References of a table that count in `nonswap_ptes` and are no entry of it. -/
  ns : Pfn → ℕ
  /-- The same for `nonzero_ptes`. -/
  nz : Pfn → ℕ
  /-- Entries of a table that were overwritten with the swap entry of slot 0. -/
  drift : Pfn → ℕ
  /-- References of a page of data that are not its entry's. -/
  held : Pfn → ℕ
  /-- The swap-ins under way. -/
  busy : List Swapping
  /-- A page that was allocated and that no entry's address is in yet. -/
  loose : Option Pfn
  /-- The entry that already names the loose page. -/
  unref : Option PtePtr
  /-- A table that has no working set entry yet. -/
  fresh : Option Pfn
  /-- A mapped entry that has no working set entry yet. -/
  absent : Option PtePtr

/-- Nothing is half way into the tables. -/
structure Ledger.Settled (g : Ledger) : Prop where
  loose : g.loose = none
  unref : g.unref = none
  fresh : g.fresh = none
  absent : g.absent = none

/-- `x` plus and minus one at a page. -/
def incAt (f : Pfn → ℕ) (p : Pfn) : Pfn → ℕ := Function.update f p (f p + 1)

def decAt (f : Pfn → ℕ) (p : Pfn) : Pfn → ℕ := Function.update f p (f p - 1)

theorem incAt_apply (f : Pfn → ℕ) (p q : Pfn) :
    incAt f p q = if q = p then f p + 1 else f q := by simp [incAt, Function.update_apply]

theorem decAt_apply (f : Pfn → ℕ) (p q : Pfn) :
    decAt f p q = if q = p then f p - 1 else f q := by simp [decAt, Function.update_apply]

/-! ## How entries and pages name each other -/

/-- The entries of the directories name the tables one level down, and each table has the address
of the entry that names it. -/
structure Dirs (c : Core) (g : Ledger) : Prop where
  level_root : c.level c.root = vmpTableLevels
  root_only : ∀ p, c.level p = vmpTableLevels → p = c.root
  dir : ∀ ptr : PtePtr, 2 ≤ c.level ptr.1 → c.entry ptr = .zero ∨
    ∃ p : Pfn, c.entry ptr = .valid p.val true ∧ c.level p + 1 = c.level ptr.1 ∧
      (c.pages p).referentPte = ptePaddr ptr ∧ g.loose ≠ some p
  dir_back : ∀ p, 1 ≤ c.level p → c.level p ≤ 3 → g.loose ≠ some p →
    ∃ ptr : PtePtr, (c.pages p).referentPte = ptePaddr ptr ∧ c.entry ptr = .valid p.val true ∧
      c.level ptr.1 = c.level p + 1

/-- The entries of the level 1 tables name the pages of data, and each of these has the address of
the entry that names it. -/
structure Leaves (c : Core) (g : Ledger) : Prop where
  frame : ∀ (ptr : PtePtr) (n : ℕ), c.level ptr.1 = 1 → (c.entry ptr).frame = some n →
    ∃ p : Pfn, n = p.val ∧ c.use p = .anonPrivate ∧
      ((c.pages p).referentPte = ptePaddr ptr ∧ g.loose ≠ some p ∨
        g.unref = some ptr ∧ g.loose = some p)
  busy : ∀ (ptr : PtePtr) (a : ℕ), c.level ptr.1 = 1 → c.entry ptr = .busy a →
    ∃ r ∈ g.busy, r.pte = ptr
  ok : ∀ ptr : PtePtr, c.level ptr.1 = 1 → c.entry ptr ≠ .bad
  frame_back : ∀ p, c.use p = .anonPrivate → g.loose ≠ some p →
    ∃ ptr : PtePtr, c.level ptr.1 = 1 ∧ (c.pages p).referentPte = ptePaddr ptr ∧
      ((c.entry ptr).frame = some p.val ∨ ∃ r ∈ g.busy, r.pte = ptr ∧ r.page = p)
  busy_back : ∀ r ∈ g.busy, c.level r.pte.1 = 1 ∧ (∃ a, c.entry r.pte = .busy a) ∧
    c.use r.page = .anonPrivate ∧ (c.pages r.page).referentPte = ptePaddr r.pte ∧
      g.loose ≠ some r.page
  busy_nodup : (g.busy.map (·.pte)).Nodup

/-- A page that an entry maps or keeps in core is not being read. -/
theorem Leaves.page_ne {c : Core} {g : Ledger} (h : Leaves c g) {ptr : PtePtr} {p : Pfn}
    (hl : c.level ptr.1 = 1) (he : (c.entry ptr).frame = some p.val) {r : Swapping}
    (hr : r ∈ g.busy) : r.page ≠ p := by
  rintro rfl
  obtain ⟨q, hq, -, hf⟩ := h.frame ptr _ hl he
  obtain rfl : r.page = q := Fin.ext hq
  obtain ⟨-, ⟨a, ha⟩, -, href, hloose⟩ := h.busy_back r hr
  rcases hf with ⟨hptr, -⟩ | ⟨-, hlo⟩
  · obtain rfl : ptr = r.pte := ptePaddr_injective (hptr.symm.trans href)
    rw [ha] at he
    cases he
  · exact hloose hlo

namespace Dirs

variable {c c' : Core} {g : Ledger}

/-- A valid entry of a directory names a table one level down. -/
theorem child (h : Dirs c g) {ptr : PtePtr} {p : Pfn} {wr : Bool} (hl : 2 ≤ c.level ptr.1)
    (he : c.entry ptr = .valid p.val wr) :
    c.level p + 1 = c.level ptr.1 ∧ (c.pages p).referentPte = ptePaddr ptr ∧
      g.loose ≠ some p := by
  obtain hz | ⟨q, hq, hlq, hr, hn⟩ := h.dir ptr hl
  · rw [hz] at he
    cases he
  · rw [hq] at he
    simp only [Pte.valid.injEq] at he
    obtain rfl : q = p := Fin.ext he.1
    exact ⟨hlq, hr, hn⟩

theorem level_of_descends (h : Dirs c g) {vaddr n : ℕ} {t : Pfn} {ptr : PtePtr}
    (hl : c.level t = n) (hd : Descends c.entry vaddr n t ptr) : c.level ptr.1 = 1 := by
  induction n generalizing t with
  | zero => exact hd.elim
  | succ n ih =>
    rcases Nat.eq_zero_or_pos n with rfl | hn
    · obtain rfl : ptr = _ := hd
      exact hl
    · obtain ⟨p, wr, he, hd⟩ := (Descends.succ_iff hn).1 hd
      have hp := (h.child (by simp only; omega) he).1
      exact ih (by simp only at hp; omega) hd

/-- A walk ends in a table of level 1. -/
theorem level_of_walks (h : Dirs c g) {vaddr : ℕ} {ptr : PtePtr} (hw : c.Walks vaddr ptr) :
    c.level ptr.1 = 1 := h.level_of_descends h.level_root hw

theorem descends_congr (h : Dirs c g)
    (hdir : ∀ ptr : PtePtr, 2 ≤ c.level ptr.1 → c'.entry ptr = c.entry ptr) {vaddr n : ℕ} {t : Pfn}
    {ptr : PtePtr} (hl : c.level t = n) :
    Descends c'.entry vaddr n t ptr ↔ Descends c.entry vaddr n t ptr := by
  induction n generalizing t with
  | zero => exact Iff.rfl
  | succ n ih =>
    rcases Nat.eq_zero_or_pos n with rfl | hn
    · exact Iff.rfl
    · rw [Descends.succ_iff hn, Descends.succ_iff hn, hdir _ (by simp only; omega)]
      refine exists_congr fun p => exists_congr fun wr => and_congr_right fun he => ?_
      have hp := (h.child (by simp only; omega) he).1
      exact ih (by simp only at hp; omega)

/-- Walks depend on the directories alone. -/
theorem walks_congr (h : Dirs c g)
    (hdir : ∀ ptr : PtePtr, 2 ≤ c.level ptr.1 → c'.entry ptr = c.entry ptr)
    (hroot : c'.root = c.root) {vaddr : ℕ} {ptr : PtePtr} :
    c'.Walks vaddr ptr ↔ c.Walks vaddr ptr := by
  rw [Core.Walks, hroot]
  exact h.descends_congr hdir h.level_root

end Dirs

/-- A walk survives changes that leave alone the valid entries on its way. `P` is a property of
the tables on the way. -/
theorem Descends.mono {entry entry' : PtePtr → Pte} {vaddr n : ℕ} {t : Pfn} {ptr : PtePtr}
    {P : Pfn → Prop} (hP : ∀ (q : PtePtr) (p : Pfn) (wr : Bool), entry q = .valid p.val wr → P q.1)
    (hlast : P ptr.1)
    (hdir : ∀ (q : PtePtr) (p : Pfn) (wr : Bool), entry q = .valid p.val wr → P p →
      entry' q = entry q)
    (hd : Descends entry vaddr n t ptr) : Descends entry' vaddr n t ptr := by
  induction n generalizing t with
  | zero => exact hd.elim
  | succ n ih =>
    rcases Nat.eq_zero_or_pos n with rfl | hn
    · exact hd
    · obtain ⟨p, wr, he, hd⟩ := (succ_iff hn).1 hd
      have hp : P p := by
        obtain ⟨m, rfl⟩ := Nat.exists_eq_add_of_le' hn
        rcases Nat.eq_zero_or_pos m with rfl | hm
        · obtain rfl : ptr = _ := hd
          exact hlast
        · obtain ⟨p', wr', he', -⟩ := (succ_iff hm).1 hd
          exact hP _ p' wr' he'
      exact (succ_iff hn).2 ⟨p, wr, (hdir _ p wr he hp).trans he, ih hd⟩

/-! ## What the counters count -/

/-- The counters of a table count its entries and what is owed to it. -/
structure TableCounts (c : Core) (g : Ledger) : Prop where
  nonswap : ∀ t, 1 ≤ c.level t → (c.pages t).nonswapPtes = c.count Pte.isNonswap t + g.ns t
  nonzero : ∀ t, 1 ≤ c.level t →
    (c.pages t).nonzeroPtes = (c.count Pte.isNonzero t + g.nz t + g.drift t) % 2 ^ 16
  refcnt : ∀ t, 1 ≤ c.level t → (c.pages t).refcnt = (c.pages t).nonswapPtes + 1
  live : ∀ t, 1 ≤ c.level t → c.level t ≤ 3 → g.loose ≠ some t →
    0 < c.count Pte.isNonzero t + g.nz t + g.drift t
  nz_le : ∀ t, g.nz t ≤ g.ns t
  ns_table : ∀ t, 0 < g.ns t → 1 ≤ c.level t
  drift_table : ∀ t, 0 < g.drift t → 1 ≤ c.level t

/-- The references of a page of data are its entry's and what is owed to it. -/
structure FrameCounts (c : Core) (g : Ledger) : Prop where
  valid : ∀ (ptr : PtePtr) (p : Pfn) (wr : Bool), c.level ptr.1 = 1 →
    c.entry ptr = .valid p.val wr → (c.pages p).refcnt = g.held p + 1
  trans : ∀ (ptr : PtePtr) (p : Pfn), c.level ptr.1 = 1 → c.entry ptr = .trans p.val →
    (c.pages p).refcnt = g.held p
  busy : ∀ r ∈ g.busy, (c.pages r.page).refcnt = g.held r.page + 1
  loose : ∀ p, g.loose = some p → c.use p = .anonPrivate → g.unref = none →
    (c.pages p).refcnt = g.held p
  held_frame : ∀ p, 0 < g.held p → c.use p = .anonPrivate

/-- Pages that are no tables count no entries, and a free page is empty. -/
structure Idle (c : Core) : Prop where
  plain : ∀ p, c.use p = .free ∨ c.use p = .anonPrivate →
    (c.pages p).nonzeroPtes = 0 ∧ (c.pages p).nonswapPtes = 0
  free : ∀ p, c.use p = .free → (c.pages p).refcnt = 0 ∧ (c.pages p).referentPte = 0
  cleared : ∀ p, c.use p = .free ∨ c.use p = .deleted →
    (c.pages p).nonzeroPtes = 0 ∧ ∀ i, c.entry (p, i) = .zero

/-! ## The working set list -/

/-- The entries of the working set list are those of the tables and of the mapped entries; the
queue has those that are not locked. -/
structure Mirror (c : Core) (g : Ledger) : Prop where
  keys : (c.tree.map (·.vaddr)).Nodup
  nodup : c.queue.Nodup
  sub : ∀ e ∈ c.queue, e ∈ c.tree
  nlocked : c.nlocked + c.queue.length = c.tree.length
  table : ∀ e ∈ c.tree, e.isPagetable = true →
    ∃ p, 1 ≤ c.level p ∧ c.level p ≤ 3 ∧ g.fresh ≠ some p ∧ e = c.tableWsle p
  table_back : ∀ p, 1 ≤ c.level p → c.level p ≤ 3 → g.fresh ≠ some p → c.tableWsle p ∈ c.tree
  table_queue : ∀ p, 1 ≤ c.level p → c.level p ≤ 3 → g.fresh ≠ some p →
    (c.tableWsle p ∈ c.queue ↔ (c.pages p).nonswapPtes = 0)
  leaf : ∀ e ∈ c.tree, e.isPagetable = false → ∃ ptr, c.Walks e.vaddr ptr ∧ g.absent ≠ some ptr ∧
    (c.entry ptr).isMapped = true ∧ (e ∈ c.queue ↔ (c.entry ptr).isValid = true)
  leaf_unique : ∀ e ∈ c.tree, ∀ e' ∈ c.tree, e.isPagetable = false → e'.isPagetable = false →
    ∀ ptr, c.Walks e.vaddr ptr → c.Walks e'.vaddr ptr → e = e'
  leaf_back : ∀ ptr : PtePtr, c.level ptr.1 = 1 → (c.entry ptr).isMapped = true →
    g.absent ≠ some ptr → ∃ e ∈ c.tree, e.isPagetable = false ∧ c.Walks e.vaddr ptr
  busy : ∀ r ∈ g.busy, c.Walks r.vaddr r.pte ∧
    (g.absent = some r.pte ∨ ⟨r.vaddr, false⟩ ∈ c.tree)

/-! ## Slot 0 of the pagefile -/

/-- Slot 0 of a pagefile has been handed out. -/
def Pagefile.slotZeroTaken (pf : Pagefile) : Bool :=
  match pf.bitmap.head? with
  | some byte => byte.getLsbD 0
  | none => false

/-- A page of data in the tables whose drum slot makes the zero word of a swap entry. -/
def Core.HasSlotZero (c : Core) (g : Ledger) (p : Pfn) : Prop :=
  c.use p = .anonPrivate ∧ g.loose ≠ some p ∧ (c.pages p).drumslot % 2 ^ 61 = 0

instance (c : Core) (g : Ledger) : DecidablePred (c.HasSlotZero g) := fun _ =>
  inferInstanceAs (Decidable (_ ∧ _))

/-- Slot 0 is free, or a page has it, or the page that had it was stolen. -/
structure Slots (c : Core) (g : Ledger) : Prop where
  total : c.pagefile.totalSlots ≤ 2 ^ 52
  bitmap : c.pagefile.totalSlots ≤ 8 * c.pagefile.bitmap.length
  range : ∀ p, c.use p = .anonPrivate → (c.pages p).drumslot < 2 ^ 52 ∨
    (c.pages p).drumslot = noSlot
  loose : ∀ p, g.loose = some p → c.use p = .anonPrivate →
    (c.pages p).refcnt = 0 ∨ (c.pages p).drumslot = noSlot
  zero : (∑ p, g.drift p) + (Finset.univ.filter (c.HasSlotZero g)).card =
    c.pagefile.slotZeroTaken.toNat

/-- The invariants together. -/
structure Inv (c : Core) (g : Ledger) : Prop where
  dirs : Dirs c g
  leaves : Leaves c g
  tables : TableCounts c g
  frames : FrameCounts c g
  idle : Idle c
  mirror : Mirror c g
  slots : Slots c g

end VmmSim
