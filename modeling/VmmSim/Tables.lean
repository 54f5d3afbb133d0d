import VmmSim.WorkingSet

/-!
# Counters of page tables

From `tables.c`: the counters of a page table page and what their changes do to its reference
count, its working set lock and its life. `vmp_pagetable_page_pte_deleted` and
`vmp_md_delete_table_pointers` call each other up the directories; the first takes the number of
calls it may still nest, which `VmmSim.vmpPagetablePagePteDeleted` sets above the number of
pages.
-/

namespace VmmSim

/-- `page_is_root_table`. -/
def pageIsRootTable (pg : VmPage) : Bool := pg.use = .ofLevel vmpTableLevels

/-- `vmp_pagetable_page_nonswap_pte_created`. -/
def vmpPagetablePageNonswapPteCreated (s : State) (page : Pfn) (isNew : Bool) : Res State := do
  let s ← vmpPageRetainLocked s page
  let s := if isNew then
      s.modifyPage page fun pg => { pg with nonzeroPtes := inc16 pg.nonzeroPtes }
    else s
  let nonswap := (s.pages page).nonswapPtes
  let s := s.modifyPage page fun pg => { pg with nonswapPtes := inc16 pg.nonswapPtes }
  if nonswap = 0 ∧ ¬ pageIsRootTable (s.pages page) then
    vmpWslLockEntry s (s.tableVaddr page)
  else return s

/-- `if (page->nonswap_ptes-- == 1 && !page_is_root_table(page)) vmp_wsl_unlock_entry(...)`. -/
def dropNonswap (s : State) (page : Pfn) : Res State :=
  let nonswap := (s.pages page).nonswapPtes
  let s := s.modifyPage page fun pg => { pg with nonswapPtes := dec16 pg.nonswapPtes }
  if nonswap = 1 ∧ ¬ pageIsRootTable (s.pages page) then
    vmpWslUnlockEntry s (s.tableVaddr page)
  else .ok s

/-- `vmp_pagetable_page_pte_became_swap`. -/
def vmpPagetablePagePteBecameSwap (s : State) (page : Pfn) : Res State := do
  let s ← dropNonswap s page
  vmpPageReleaseLocked s page

/-- `vmp_md_delete_table_pointers`, given `vmp_pagetable_page_pte_deleted`. -/
def vmpMdDeleteTablePointers (pteDeleted : State → Pfn → Bool → Res State) (s : State)
    (dirpage : Pfn) (dirpte : PtePtr) : Res State := do
  let kind ← vmpPteCharacterise (s.pte dirpte)
  kassert (kind = .valid ∨ kind = .trans)
  pteDeleted (s.setPte dirpte vmpPteZeroCreate) dirpage false

/-- The working set part of deleting a table: unlock its entry if it is locked, and remove it. -/
def removeTableWsle (s : State) (page : Pfn) : Res State :=
  if (s.pages page).nonswapPtes = 1 then do
    let s ← vmpWslUnlockEntry s (s.tableVaddr page)
    vmpWslRemove s (s.tableVaddr page)
  else if (s.pages page).nonswapPtes = 0 then
    vmpWslRemove s (s.tableVaddr page)
  else .error .kfatal

/-- `vmp_pagetable_page_pte_deleted`, with the number of nested calls allowed. -/
def pteDeletedNested : ℕ → State → Pfn → Bool → Res State
  | 0, _, _, _ => .error .wild
  | depth + 1, s, page, wasSwap => do
    let nonzero := (s.pages page).nonzeroPtes
    let s := s.modifyPage page fun pg => { pg with nonzeroPtes := dec16 pg.nonzeroPtes }
    if nonzero = 1 ∧ ¬ pageIsRootTable (s.pages page) then
      let s := s.modifyPage page fun pg => { pg with use := .deleted }
      let s ← removeTableWsle s page
      -- the address of the directory's entry is taken for the directory's own
      let dirpage ← vmpPaddrToPage (s.pages page).referentPte
      let dirpte ← pteAt (s.pages page).referentPte
      let s ← vmpMdDeleteTablePointers (pteDeletedNested depth) s dirpage dirpte
      let s := s.modifyPage page fun pg => { pg with nonswapPtes := 0, referentPte := 0 }
      -- once for the working set removal, and once for the zeroing of the entry
      let s ← vmpPageReleaseLocked s page
      vmpPageReleaseLocked s page
    else
      let s ← (if wasSwap then .ok s else dropNonswap s page)
      vmpPageReleaseLocked s page

/-- `vmp_pagetable_page_pte_deleted`. -/
def vmpPagetablePagePteDeleted (s : State) (page : Pfn) (wasSwap : Bool) : Res State :=
  pteDeletedNested (softNPages + 1) s page wasSwap

/-- `vmp_md_setup_table_pointers`. -/
def vmpMdSetupTablePointers (s : State) (dirpage tablepage : Pfn) (dirpte : PtePtr)
    (isNew : Bool) : Res State := do
  let s ← vmpPagetablePageNonswapPteCreated s dirpage isNew
  return s.setPte dirpte (vmpPteHwCreate tablepage.val true)

/-- The levels of `vmp_fetch_pte` from `level` down, in `table`. -/
def fetchPteFrom (s : State) (vaddr : ℕ) : ℕ → Pfn → Res (Option PtePtr)
  | 0, _ => .error .kfatal
  | 1, table => .ok (some (table, vmpAddrUnpack vaddr 1))
  | level + 1, table => do
    let pte := s.pte (table, vmpAddrUnpack vaddr (level + 1))
    if (← vmpPteCharacterise pte) ≠ .valid then return none
    else
      let table ← hwTable pte
      fetchPteFrom s vaddr level table

/-- `vmp_fetch_pte`. -/
def vmpFetchPte (s : State) (vaddr : ℕ) : Res (Option PtePtr) :=
  fetchPteFrom s vaddr vmpTableLevels s.pml4Page

end VmmSim
