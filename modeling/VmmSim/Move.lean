import VmmSim.Invariant

/-!
# Primitive changes

The functions of the memory manager change tables, pages and the working set list in a few
primitive ways, which `Move` lists with the state each one needs and what it does to the ledger.
Every function that allocates, faults, trims or wires makes a sequence of moves (`Moves`). Each
invariant is shown once to survive every move.
-/

namespace VmmSim

/-! ## Changes of a page -/

/-- One more reference, which counts as an entry. -/
def VmPage.bump (isNew : Bool) (pg : VmPage) : VmPage :=
  { pg with
    refcnt := pg.refcnt + 1
    nonzeroPtes := if isNew then inc16 pg.nonzeroPtes else pg.nonzeroPtes
    nonswapPtes := inc16 pg.nonswapPtes }

/-- One reference less, which counted as an entry in core. -/
def VmPage.drop (pg : VmPage) : VmPage :=
  { pg with
    refcnt := dec16 pg.refcnt
    nonswapPtes := dec16 pg.nonswapPtes }

@[simp] theorem VmPage.bump_use (isNew : Bool) (pg : VmPage) : (pg.bump isNew).use = pg.use := by
  cases pg; rfl

@[simp] theorem VmPage.drop_use (pg : VmPage) : pg.drop.use = pg.use := by
  cases pg; rfl

theorem VmPage.drop_referentPte (pg : VmPage) : pg.drop.referentPte = pg.referentPte := by
  cases pg; rfl

theorem VmPage.drop_drumslot (pg : VmPage) : pg.drop.drumslot = pg.drumslot := by
  cases pg; rfl

theorem VmPage.drop_nonzeroPtes (pg : VmPage) : pg.drop.nonzeroPtes = pg.nonzeroPtes := by
  cases pg; rfl

theorem VmPage.bump_drumslot (isNew : Bool) (pg : VmPage) :
    (pg.bump isNew).drumslot = pg.drumslot := by
  cases pg; rfl

/-- A page that was handed out. -/
def VmPage.handedOut (use : PageUse) : VmPage := ⟨use, false, 0, 0, 1, 0, noSlot⟩

namespace Core

variable (c : Core)

/-- `vmp_pagetable_page_nonswap_pte_created`. -/
def bump (t : Pfn) (isNew : Bool) : Core :=
  { c.setPage t ((c.pages t).bump isNew) with
    queue := if (c.pages t).nonswapPtes = 0 ∧ c.level t ≠ 4 then c.queue.erase (c.tableWsle t)
      else c.queue
    nlocked := if (c.pages t).nonswapPtes = 0 ∧ c.level t ≠ 4 then c.nlocked + 1
      else c.nlocked }

/-- `vmp_pagetable_page_pte_became_swap`. -/
def drop (t : Pfn) : Core :=
  { c.setPage t (c.pages t).drop with
    queue := if (c.pages t).nonswapPtes = 1 ∧ c.level t ≠ 4 then c.queue ++ [c.tableWsle t]
      else c.queue
    nlocked := if (c.pages t).nonswapPtes = 1 ∧ c.level t ≠ 4 then c.nlocked - 1
      else c.nlocked }

/-- An entry that joins the working set list. -/
def enter (e : Wsle) (locked : Bool) : Core :=
  { c with
    tree := c.tree ++ [e]
    queue := if locked then c.queue else c.queue ++ [e]
    nlocked := if locked then c.nlocked + 1 else c.nlocked }

end Core

/-- What is owed for a page that was handed out: its one reference, or its place in the tables. -/
def Ledger.handedOut (g : Ledger) (p : Pfn) (use : PageUse) : Ledger :=
  { g with
    held := if use = .anonPrivate then incAt g.held p else g.held
    loose := if use = .anonPrivate ∨ 1 ≤ use.level then some p else none
    fresh := if 1 ≤ use.level then some p else none }

/-- What moves are allowed: which pages of data may be stolen, which slots may be swapped in,
which entries may become writeable, whether entries may come to map a page, or cease to name a
table, and which swap-ins may end. -/
structure Guard where
  steal : Core → Pfn → Prop
  swapIn : Core → ℕ → Prop
  write : Core → PtePtr → Prop
  maps : Prop
  finish : Swapping → Prop

/-- The primitive changes. -/
inductive Move (K : Guard) (c : Core) (g : Ledger) : Core → Ledger → Prop
  /-- A reference to a table that counts as one of its entries. -/
  | bump (t : Pfn) (isNew : Bool) (hl : 1 ≤ c.level t) (hf : g.fresh ≠ some t)
      (hr : (c.pages t).refcnt < 2 ^ 16) :
      Move K c g (c.bump t isNew)
        { g with ns := incAt g.ns t, nz := if isNew then incAt g.nz t else g.nz }
  /-- The end of such a reference. -/
  | drop (t : Pfn) (hl : 1 ≤ c.level t) (hf : g.fresh ≠ some t) (hn : g.nz t < g.ns t)
      (hr : (c.pages t).refcnt ≤ 2 ^ 16) :
      Move K c g (c.drop t) { g with ns := decAt g.ns t }
  /-- Its end for `nonzero_ptes`. -/
  | decNonzero (t : Pfn) (hl : 1 ≤ c.level t) (hn : 1 ≤ g.nz t)
      (hk : c.level t = 4 ∨ (c.pages t).nonzeroPtes ≠ 1) :
      Move K c g (c.setPage t { c.pages t with nonzeroPtes := dec16 (c.pages t).nonzeroPtes })
        { g with nz := decAt g.nz t }
  /-- Eviction of the oldest entry of the working set. -/
  | evict (e : Wsle) (q : List Wsle) (ptr : PtePtr) (p : Pfn) (wr : Bool) (hq : c.queue = e :: q)
      (he : e.isPagetable = false) (hw : c.Walks e.vaddr ptr)
      (hv : c.entry ptr = .valid p.val wr) (hd : wr = true → (c.pages p).dirty = true) :
      Move K c g { c.setWord ptr (vmpPteTransCreate p.val) with tree := c.tree.erase e, queue := q }
        { g with held := incAt g.held p }
  /-- A mapped entry joins the working set. -/
  | enterLeaf (vaddr : ℕ) (ptr : PtePtr) (locked : Bool) (ha : g.absent = some ptr)
      (hw : c.Walks vaddr ptr) (hk : ∀ e ∈ c.tree, e.vaddr ≠ vaddr)
      (hm : (c.entry ptr).isMapped = true) (hv : locked = !(c.entry ptr).isValid)
      (hb : ∀ r ∈ g.busy, r.pte = ptr → r.vaddr = vaddr) :
      Move K c g (c.enter ⟨vaddr, false⟩ locked) { g with absent := none }
  /-- A table joins the working set. -/
  | enterTable (t : Pfn) (hf : g.fresh = some t) (h₁ : 1 ≤ c.level t) (h₃ : c.level t ≤ 3)
      (hk : ∀ e ∈ c.tree, e.vaddr ≠ (c.tableWsle t).vaddr) (hn : 0 < (c.pages t).nonswapPtes) :
      Move K c g (c.enter (c.tableWsle t) true) { g with fresh := none }
  /-- A zero entry maps the loose page. -/
  | mapZero (ptr : PtePtr) (p : Pfn) (wr : Bool) (hl : c.level ptr.1 = 1)
      (he : c.entry ptr = .zero) (hp : g.loose = some p) (hu : c.use p = .anonPrivate)
      (hr : g.unref = none) (ha : g.absent = none) (hh : 1 ≤ g.held p) (hn : 1 ≤ g.nz ptr.1)
      (hwr : wr = true → K.write c ptr) (hc : K.maps) :
      Move K c g (c.setWord ptr (vmpPteHwCreate p.val wr))
        { g with
          ns := decAt g.ns ptr.1
          nz := decAt g.nz ptr.1
          held := decAt g.held p
          unref := some ptr
          absent := some ptr }
  /-- The loose page gets the address of the entry that maps it. -/
  | setReferent (ptr : PtePtr) (p : Pfn) (wr : Bool) (hl : c.level ptr.1 = 1)
      (he : c.entry ptr = .valid p.val wr) (hp : g.loose = some p) (hr : g.unref = some ptr)
      (hc : K.maps) :
      Move K c g (c.setReferent p ptr) { g with loose := none, unref := none }
  /-- A transition entry maps its page again. -/
  | mapSoft (ptr : PtePtr) (p : Pfn) (hl : c.level ptr.1 = 1) (he : c.entry ptr = .trans p.val)
      (hp : g.loose = none) (ha : g.absent = none) (hh : 1 ≤ g.held p) (hc : K.maps) :
      Move K c g (c.setWord ptr (vmpPteHwCreate p.val false))
        { g with held := decAt g.held p, absent := some ptr }
  /-- A swap entry becomes busy, for the loose page. -/
  | mapBusy (ptr : PtePtr) (p : Pfn) (state slot vaddr : ℕ) (hl : c.level ptr.1 = 1)
      (hw : c.Walks vaddr ptr) (he : c.entry ptr = .swap slot) (hp : g.loose = some p)
      (hu : c.use p = .anonPrivate) (hr : g.unref = none) (ha : g.absent = none)
      (hh : 1 ≤ g.held p) (hn : g.nz ptr.1 < g.ns ptr.1) (hk : K.swapIn c slot) (hc : K.maps) :
      Move K c g
        ((c.setReferent p ptr).setWord ptr (vmpPteBusyCreate state))
        { g with
          ns := decAt g.ns ptr.1
          held := decAt g.held p
          busy := g.busy ++ [⟨vaddr, ptr, p⟩]
          loose := none
          absent := some ptr }
  /-- A valid entry becomes writeable. -/
  | writeable (ptr : PtePtr) (p : Pfn) (wr : Bool) (hl : c.level ptr.1 = 1)
      (he : c.entry ptr = .valid p.val wr) (hwr : K.write c ptr) (hc : K.maps) :
      Move K c g (c.setWord ptr (hwSetWriteable (c.mem ptr.1 ptr.2))) g
  /-- A busy entry becomes valid. -/
  | finish (r : Swapping) (hr : r ∈ g.busy) (ha : g.absent = none) (hc : K.finish r) :
      Move K c g
        { c.setWord r.pte (vmpPteHwCreate r.page.val false) with
          queue := c.queue ++ [⟨r.vaddr, false⟩]
          nlocked := c.nlocked - 1 }
        { g with busy := g.busy.erase r }
  /-- The transition entry of a page that is being stolen becomes a swap entry. -/
  | unmap (ptr : PtePtr) (p : Pfn) (hl : c.level ptr.1 = 1) (he : c.entry ptr = .trans p.val)
      (h0 : (c.pages p).refcnt = 0) (hd : (c.pages p).dirty = false) (hp : g.loose = none)
      (hk : K.steal c p) :
      Move K c g (c.setWord ptr (vmpPteSwapCreate (c.pages p).drumslot))
        { g with
          ns := incAt g.ns ptr.1
          drift := if (c.pages p).drumslot % 2 ^ 61 = 0 then incAt g.drift ptr.1 else g.drift
          loose := some p }
  /-- A free page is taken. -/
  | pick (p : Pfn) (hu : c.use p = .free) (hp : g.loose = none) :
      Move K c g c { g with loose := some p }
  /-- A page that was taken or stolen is handed out. -/
  | handOut (p : Pfn) (use : PageUse) (hu : c.use p = .free ∨ c.use p = .anonPrivate)
      (h0 : (c.pages p).refcnt = 0) (hp : g.loose = some p) (hr : g.unref = none)
      (hf : g.fresh = none) (ha : g.absent = none) (hn : use ≠ .free) (hd : use ≠ .deleted)
      (h₃ : use.level ≤ 3) :
      Move K c g
        { (c.setPage p (VmPage.handedOut use)).setWords p 0 with
          unsaved := Function.update c.unsaved p false }
        (g.handedOut p use)
  /-- The wiring of a new table. -/
  | initTable (p : Pfn) (ptr : PtePtr) (hl : 1 ≤ c.level p) (hp : g.loose = some p)
      (hf : g.fresh = some p) (h1 : (c.pages p).refcnt = 1) (hc : K.maps) :
      Move K c g (c.setPage p { (c.pages p).bump true with referentPte := ptePaddr ptr })
        { g with ns := incAt g.ns p, nz := incAt g.nz p }
  /-- A zero entry of a directory names the new table. -/
  | attach (ptr : PtePtr) (p : Pfn) (hl : 1 ≤ c.level p) (hd : c.level ptr.1 = c.level p + 1)
      (he : c.entry ptr = .zero) (hp : g.loose = some p) (hf : g.fresh = none)
      (hpr : (c.pages p).referentPte = ptePaddr ptr) (hn : 1 ≤ g.nz ptr.1) (hz : 0 < g.nz p)
      (hc : K.maps) :
      Move K c g (c.setWord ptr (vmpPteHwCreate p.val true))
        { g with ns := decAt g.ns ptr.1, nz := decAt g.nz ptr.1, loose := none }
  /-- A table without entries is deleted: it leaves the working set and its directory. -/
  | delete (t : Pfn) (ptr : PtePtr) (hl : 1 ≤ c.level t) (h₃ : c.level t ≤ 3) (hg : g.Settled)
      (hz : (c.pages t).nonzeroPtes = 1) (hs : g.ns t = 1) (hn : g.nz t = 1)
      (hr : (c.pages t).referentPte = ptePaddr ptr) (hc : K.maps) :
      Move K c g
        { (c.setPage t { c.pages t with use := .deleted, nonzeroPtes := 0 }).setWord ptr
            vmpPteZeroCreate with
          tree := c.tree.erase (c.tableWsle t)
          nlocked := c.nlocked - 1 }
        { g with
          ns := incAt (decAt g.ns t) ptr.1
          nz := incAt (decAt g.nz t) ptr.1 }
  /-- A deleted table becomes a free page. -/
  | free (t : Pfn) (hu : c.use t = .deleted) (hc : K.maps) :
      Move K c g
        (c.setPage t { c.pages t with use := .free, refcnt := 0, nonswapPtes := 0, referentPte := 0 })
        g
  /-- A reference to a page of data; a page that is being read gets it at the end of its
  swap-in. -/
  | hold (p : Pfn) (hu : c.use p = .anonPrivate) (hp : g.loose ≠ some p)
      (hb : ∀ r ∈ g.busy, r.page = p → K.finish r) :
      Move K c g (c.setPage p { c.pages p with refcnt := (c.pages p).refcnt + 1 })
        { g with held := incAt g.held p }
  /-- The end of such a reference. -/
  | unhold (p : Pfn) (hh : 1 ≤ g.held p) (h0 : 0 < (c.pages p).refcnt)
      (hr : (c.pages p).refcnt ≤ 2 ^ 16) :
      Move K c g (c.setPage p { c.pages p with refcnt := dec16 (c.pages p).refcnt })
        { g with held := decAt g.held p }
  /-- A page was found dirty. -/
  | markDirty (p : Pfn) (b : Bool) (hu : c.use p = .anonPrivate) :
      Move K c g (c.setPage p { c.pages p with dirty := (c.pages p).dirty || b }) g

end VmmSim
