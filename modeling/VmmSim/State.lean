import VmmSim.Pte

/-!
# The state of the memory manager

The data of `vm.h`, `vmp.h` and `executive.h`: the PFN database, the contents of the simulated
pages, the three page queues and their counters, the working set list of the one process
`kernel_ps`, the VAD tree and the pagefile. A page of the PFN database is named by its page
number, a tail queue is the list of its members, and the red-black tree of working set entries is
the list of its entries.
-/

namespace VmmSim

/-- `PGSIZE`. -/
abbrev pgSize : ℕ := 4096

/-- `SOFT_NPAGES`. -/
abbrev softNPages : ℕ := 32

instance : NeZero softNPages := ⟨by decide⟩

/-- Number of entries in a page table, which is also the number of words in a page. -/
abbrev tableEntries : ℕ := 512

/-- `VMP_TABLE_LEVELS`. -/
abbrev vmpTableLevels : ℕ := 4

/-- A `vm_page_t *` into the PFN database, by its page number. -/
abbrev Pfn := Fin softNPages

/-- The words of one page. -/
abbrev Contents := Fin tableEntries → Word

/-- A `pte_t *` into the simulated pages: the page and the index of the word. -/
abbrev PtePtr := Pfn × Fin tableEntries

/-- The value -1 of a `uintptr_t`: the drum slot of a page that has none, and what
`vmp_pagefile_alloc` returns when it fails. -/
abbrev noSlot : ℕ := 2 ^ 64 - 1

/-- `x++` on a `uint16_t`. -/
def inc16 (x : ℕ) : ℕ := (x + 1) % 2 ^ 16

/-- `x--` on a `uint16_t`. -/
def dec16 (x : ℕ) : ℕ := (x + (2 ^ 16 - 1)) % 2 ^ 16

theorem inc16_of_lt {x : ℕ} (h : x + 1 < 2 ^ 16) : inc16 x = x + 1 := Nat.mod_eq_of_lt h

theorem dec16_of_pos {x : ℕ} (h : 0 < x) (h' : x ≤ 2 ^ 16) : dec16 x = x - 1 := by
  unfold dec16
  omega

theorem inc16_lt (x : ℕ) : inc16 x < 2 ^ 16 := Nat.mod_lt _ (by decide)

theorem dec16_lt (x : ℕ) : dec16 x < 2 ^ 16 := Nat.mod_lt _ (by decide)

/-- `enum vm_page_use`. -/
inductive PageUse
  | invalid
  | pfndb
  | free
  | deleted
  | kWired
  | anonPrivate
  | anonShared
  | fileShared
  | forkPage
  | pml1
  | pml2
  | pml3
  | pml4
  deriving DecidableEq, Repr

/-- `kPageUsePML1 + (level - 1)`. -/
def PageUse.ofLevel : ℕ → PageUse
  | 1 => .pml1
  | 2 => .pml2
  | 3 => .pml3
  | 4 => .pml4
  | _ => .invalid

/-- `struct vm_page`, less the fields that the functions modelled here do not read. -/
structure VmPage where
  use : PageUse
  dirty : Bool
  nonzeroPtes : ℕ
  nonswapPtes : ℕ
  refcnt : ℕ
  /-- Physical address of the page table entry that refers to this page. -/
  referentPte : ℕ
  drumslot : ℕ
  deriving DecidableEq, Repr

/-- `struct vm_stat`. -/
structure VmStat where
  nfree : ℕ
  nmodified : ℕ
  nstandby : ℕ
  nactive : ℕ
  deriving DecidableEq, Repr

/-- `struct vm_param`. -/
structure VmParam where
  wsPageExpansionCount : ℕ
  minAvailForExpansion : ℕ
  minAvailForAlloc : ℕ
  deriving DecidableEq, Repr

/-- `struct vmp_wsle`. -/
structure Wsle where
  vaddr : ℕ
  isPagetable : Bool
  deriving DecidableEq, Repr

/-- `eprocess_t::wsl`. A locked entry is in the tree and not on the queue. -/
structure Wsl where
  queue : List Wsle
  tree : List Wsle
  nlocked : ℕ
  nentries : ℕ
  max : ℕ
  deriving DecidableEq, Repr

/-- `struct vm_vad`. -/
structure Vad where
  start : ℕ
  stop : ℕ
  writeable : Bool
  maxProtection : Bool
  inheritShared : Bool
  cow : Bool
  offset : ℕ
  /-- The section object, if there is one. -/
  sect : Option ℕ
  deriving DecidableEq, Repr

/-- The shape of the VAD tree: `RB_LEFT`, the entry and `RB_RIGHT`. -/
inductive VadTree
  | nil
  | node (left : VadTree) (vad : Vad) (right : VadTree)

/-- `vmp_pagefile_t`, less its vnode. -/
structure Pagefile where
  bitmap : List (BitVec 8)
  totalSlots : ℕ
  freeSlots : ℕ
  nextFree : ℕ
  deriving DecidableEq, Repr

/-- The variables of the memory manager. -/
structure State where
  /-- `mypages`. -/
  pages : Pfn → VmPage
  /-- `SOFT_pages`: the words of the simulated pages. -/
  mem : Pfn → Contents
  freePgq : List Pfn
  standbyPgq : List Pfn
  modifiedPgq : List Pfn
  vmstat : VmStat
  vmparam : VmParam
  wasShortage : Bool
  sufficientPagesEvent : Bool
  pgwriterEvent : Bool
  balancerEvent : Bool
  wsl : Wsl
  /-- The address of `SOFT_pages`. -/
  softPages : ℕ
  /-- `kernel_ps.pml4_page`; `kernel_ps.pml4` is the address of its words. -/
  pml4Page : Pfn
  vadTree : VadTree
  pagefile : Pagefile
  /-- The page slots of the file behind the pagefile. -/
  drum : ℕ → Contents
  /-- History variable, read by no function: the page was stored to since the last completed
  pagefile write of it, or since it was allocated. -/
  unsaved : Pfn → Bool

namespace State

/-- Assign to fields of a page of the PFN database. -/
def modifyPage (s : State) (p : Pfn) (f : VmPage → VmPage) : State :=
  { s with pages := Function.update s.pages p (f (s.pages p)) }

/-- Assign to the word a `pte_t *` points to. -/
def setPte (s : State) (ptr : PtePtr) (w : Word) : State :=
  { s with mem := Function.update s.mem ptr.1 (Function.update (s.mem ptr.1) ptr.2 w) }

/-- The word a `pte_t *` points to. -/
def pte (s : State) (ptr : PtePtr) : Word := s.mem ptr.1 ptr.2

/-- Assign to all the words of a page. -/
def setContents (s : State) (p : Pfn) (c : Contents) : State :=
  { s with mem := Function.update s.mem p c }

/-- `P2V`. -/
def p2v (s : State) (paddr : ℕ) : ℕ := paddr + s.softPages

/-- `V2P`. -/
def v2p (s : State) (vaddr : ℕ) : ℕ := vaddr - s.softPages

end State

/-- `vmp_page_paddr`. -/
def vmpPagePaddr (p : Pfn) : ℕ := p.val * pgSize

/-- The physical address of an entry, `V2P(pte)`. -/
def ptePaddr (ptr : PtePtr) : ℕ := ptr.1.val * pgSize + ptr.2.val * 8

/-- The entry at a physical address, `(pte_t *)P2V(paddr)`, when it lies in the simulated
pages. -/
def pteAt (paddr : ℕ) : Res PtePtr :=
  if h : paddr / pgSize < softNPages then
    .ok (⟨paddr / pgSize, h⟩, ⟨paddr % pgSize / 8,
      Nat.div_lt_of_lt_mul (Nat.mod_lt paddr (by decide))⟩)
  else .error .wild

/-- `vmp_paddr_to_page`. -/
def vmpPaddrToPage (paddr : ℕ) : Res Pfn := do
  kassert (paddr % pgSize = 0)
  if h : paddr / pgSize < softNPages then return ⟨paddr / pgSize, h⟩ else .error .kassert

/-- `vmp_pte_hw_page`, through `vmp_pfn_to_paddr` and `vmp_paddr_to_page`. -/
def vmpPteHwPage (w : Word) : Res Pfn := vmpPaddrToPage (vmpPteHwPfn w * pgSize)

/-- `vmp_pte_trans_page`; the shift of the 61-bit page number drops what leaves 64 bits. -/
def vmpPteTransPage (w : Word) : Res Pfn :=
  vmpPaddrToPage ((softPayload w).toNat * pgSize % 2 ^ 64)

/-- The table at `P2V(vmp_pte_hw_paddr(pte))`, when it lies in the simulated pages. -/
def hwTable (w : Word) : Res Pfn :=
  if h : vmpPteHwPfn w < softNPages then .ok ⟨vmpPteHwPfn w, h⟩ else .error .wild

/-- The index at a level (1 to 4) of the tables, from `vmp_addr_unpack`. -/
def vmpAddrUnpack (vaddr level : ℕ) : Fin tableEntries :=
  ⟨vaddr / 2 ^ (12 + 9 * (level - 1)) % tableEntries, Nat.mod_lt _ (by decide)⟩

/-- `TAILQ_REMOVE`. Removing an element that is not on the queue is undefined. -/
def tailqRemove {α : Type} [DecidableEq α] (q : List α) (a : α) : Res (List α) :=
  if a ∈ q then .ok (q.erase a) else .error .wild

theorem tailqRemove_of_mem {α : Type} [DecidableEq α] {q : List α} {a : α} (h : a ∈ q) :
    tailqRemove q a = .ok (q.erase a) := if_pos h

/-! ## Reading back an assignment -/

namespace State

variable (s : State) (p q : Pfn) (f : VmPage → VmPage) (ptr : PtePtr) (w : Word) (c : Contents)

theorem modifyPage_pages :
    (s.modifyPage p f).pages q = if q = p then f (s.pages p) else s.pages q := by
  simp [modifyPage, Function.update_apply]

@[simp] theorem modifyPage_pages_self : (s.modifyPage p f).pages p = f (s.pages p) := by
  simp [modifyPage]

theorem modifyPage_pages_ne {p q : Pfn} (h : q ≠ p) :
    (s.modifyPage p f).pages q = s.pages q := by
  simp [modifyPage, h]

@[simp] theorem modifyPage_mem : (s.modifyPage p f).mem = s.mem := rfl

@[simp] theorem modifyPage_pte : (s.modifyPage p f).pte = s.pte := rfl

@[simp] theorem modifyPage_wsl : (s.modifyPage p f).wsl = s.wsl := rfl

@[simp] theorem modifyPage_freePgq : (s.modifyPage p f).freePgq = s.freePgq := rfl

@[simp] theorem modifyPage_standbyPgq : (s.modifyPage p f).standbyPgq = s.standbyPgq := rfl

@[simp] theorem modifyPage_modifiedPgq : (s.modifyPage p f).modifiedPgq = s.modifiedPgq := rfl

@[simp] theorem modifyPage_vmstat : (s.modifyPage p f).vmstat = s.vmstat := rfl

@[simp] theorem modifyPage_softPages : (s.modifyPage p f).softPages = s.softPages := rfl

@[simp] theorem modifyPage_pml4Page : (s.modifyPage p f).pml4Page = s.pml4Page := rfl

theorem setPte_pte (r : PtePtr) : (s.setPte ptr w).pte r = if r = ptr then w else s.pte r := by
  obtain ⟨t, i⟩ := ptr
  obtain ⟨t', i'⟩ := r
  by_cases ht : t' = t
  · subst ht
    by_cases hi : i' = i <;> simp [pte, setPte, hi]
  · simp [pte, setPte, ht]

theorem setPte_pte_ne {r : PtePtr} (h : r ≠ ptr) : (s.setPte ptr w).pte r = s.pte r := by
  simp [setPte_pte, h]

@[simp] theorem setPte_pages : (s.setPte ptr w).pages = s.pages := rfl

@[simp] theorem setPte_wsl : (s.setPte ptr w).wsl = s.wsl := rfl

@[simp] theorem setPte_softPages : (s.setPte ptr w).softPages = s.softPages := rfl

@[simp] theorem setPte_pml4Page : (s.setPte ptr w).pml4Page = s.pml4Page := rfl

theorem setPte_mem_self (t : Pfn) (i : Fin tableEntries) :
    (s.setPte (t, i) w).mem t = Function.update (s.mem t) i w := by simp [setPte]

theorem setPte_mem_ne {t : Pfn} (h : t ≠ ptr.1) : (s.setPte ptr w).mem t = s.mem t := by
  simp [setPte, h]

end State

/-! ## Addresses of entries and pages -/

theorem ptePaddr_div (ptr : PtePtr) : ptePaddr ptr / pgSize = ptr.1.val := by
  have := ptr.2.isLt
  simp only [ptePaddr, pgSize, tableEntries] at *
  omega

theorem ptePaddr_mod (ptr : PtePtr) : ptePaddr ptr % pgSize = ptr.2.val * 8 := by
  have := ptr.2.isLt
  simp only [ptePaddr, pgSize, tableEntries] at *
  omega

/-- An entry is found again from its physical address. -/
@[simp] theorem pteAt_ptePaddr (ptr : PtePtr) : pteAt (ptePaddr ptr) = .ok ptr := by
  obtain ⟨t, i⟩ := ptr
  have h : ptePaddr (t, i) / pgSize < softNPages := by
    rw [ptePaddr_div]
    exact t.isLt
  rw [pteAt, dif_pos h]
  congr 1
  refine Prod.ext (Fin.ext (ptePaddr_div (t, i))) (Fin.ext ?_)
  change ptePaddr (t, i) % pgSize / 8 = i.val
  rw [ptePaddr_mod]
  simp

theorem ptePaddr_injective : Function.Injective ptePaddr := fun a b h => by
  have h' : pteAt (ptePaddr a) = pteAt (ptePaddr b) := congrArg pteAt h
  simpa using h'

/-- The page of a page-aligned address. -/
theorem vmpPaddrToPage_mul (p : Pfn) : vmpPaddrToPage (p.val * pgSize) = .ok p := by
  have hm : p.val * pgSize % pgSize = 0 := by
    simp only [pgSize]
    omega
  have hd : p.val * pgSize / pgSize = p.val := by
    simp only [pgSize]
    omega
  have h : p.val * pgSize / pgSize < softNPages := by
    rw [hd]
    exact p.isLt
  rw [vmpPaddrToPage, kassert_of hm, Lib.ok_bind, dif_pos h]
  exact congrArg Except.ok (Fin.ext hd)

/-- `steal_page` rounds the address of an entry down to its table's. -/
theorem vmpPaddrToPage_round (ptr : PtePtr) :
    vmpPaddrToPage (ptePaddr ptr / pgSize * pgSize) = .ok ptr.1 := by
  rw [ptePaddr_div, vmpPaddrToPage_mul]

/-- Without the rounding, only the first entry of a table passes the alignment assertion. -/
theorem vmpPaddrToPage_ptePaddr (ptr : PtePtr) :
    vmpPaddrToPage (ptePaddr ptr) =
      if ptr.2.val = 0 then .ok ptr.1 else .error .kassert := by
  split
  · rename_i h
    have e : ptePaddr ptr = ptr.1.val * pgSize := by simp [ptePaddr, h]
    rw [e, vmpPaddrToPage_mul]
  · rename_i h
    have hm : ¬ ptePaddr ptr % pgSize = 0 := by
      rw [ptePaddr_mod]
      omega
    rw [vmpPaddrToPage, kassert_of_not hm, Lib.error_bind]

theorem vmpPagePaddr_injective : Function.Injective vmpPagePaddr := fun a b h =>
  Fin.ext (Nat.eq_of_mul_eq_mul_right (by decide) h)

theorem vmpPteHwPage_of_view {w : Word} {p : Pfn} {wr : Bool} (h : view w = .valid p.val wr) :
    vmpPteHwPage w = .ok p := by
  rw [view_of_valid (hwValid_of_view h)] at h
  simp only [Pte.valid.injEq] at h
  rw [vmpPteHwPage, h.1, vmpPaddrToPage_mul]

theorem vmpPteTransPage_of_view {w : Word} {p : Pfn} (h : view w = .trans p.val) :
    vmpPteTransPage w = .ok p := by
  have hp : (softPayload w).toNat = p.val := by
    rw [view_eq] at h
    split_ifs at h
    exact Pte.trans.inj h
  have hlt : p.val * pgSize % 2 ^ 64 = p.val * pgSize := by
    have := p.isLt
    simp only [softNPages, pgSize] at *
    omega
  rw [vmpPteTransPage, hp, hlt, vmpPaddrToPage_mul]

end VmmSim
