import VmmSim.Alloc

/-!
# Eviction from the working set

`wsl_evict`, `wsl_trim_1`, `vmp_wsl_insert` and `vmp_wsl_trim_n` of `ws.c`.
-/

namespace VmmSim

/-- `wsl_evict`. Page tables end in `kfatal`, at the latest in
`vmp_md_transition_table_pointers`. -/
def wslEvict (s : State) (page : Pfn) (pte : PtePtr) : Res State :=
  match (s.pages page).use with
  | .anonPrivate =>
    let dirty := vmpPteHwIsWriteable (s.pte pte)
    let s := s.modifyPage page fun pg => { pg with dirty := pg.dirty || dirty }
    let s := s.setPte pte (vmpPteTransCreate (vmpPteHwPfn (s.pte pte)))
    vmpPageReleaseLocked s page
  | .pml1 | .pml2 | .pml3 | .pml4 => do
    let _dirpage ← vmpPaddrToPage (ptePaddr pte)
    .error .kfatal
  | _ => .error .kfatal

/-- The page that an entry stands for, and the page table entry that maps it. The result of
`vmp_fetch_pte` is not looked at, and without one the entry is an uninitialised pointer. -/
def wsleTarget (s : State) (wsle : Wsle) : Res (Pfn × PtePtr) :=
  if wsle.isPagetable then do
    let page ← vmpPaddrToPage (s.v2p wsle.vaddr)
    let pte ← pteAt (s.pages page).referentPte
    return (page, pte)
  else do
    match ← vmpFetchPte s wsle.vaddr with
    | none => .error .wild
    | some pte =>
      let page ← vmpPteHwPage (s.pte pte)
      return (page, pte)

/-- `wsl_trim_1`: the evicted entry, if the queue had one. -/
def wslTrim1 (s : State) : Res (Option Wsle × State) :=
  match s.wsl.queue with
  | [] => .ok (none, s)
  | wsle :: q => do
    let s := { s with
      wsl.queue := q
      wsl.tree := s.wsl.tree.erase wsle
      wsl.nentries := s.wsl.nentries - 1 }
    let (page, pte) ← wsleTarget s wsle
    let s ← wslEvict s page pte
    return (some wsle, s)

/-- `wsl_try_expand`. -/
def wslTryExpand (s : State) : Bool × State :=
  if s.vmstat.nfree + s.vmstat.nstandby > s.vmparam.minAvailForExpansion then
    (true, { s with wsl.max := s.wsl.max + s.vmparam.wsPageExpansionCount })
  else (false, s)

/-- The first half of `vmp_wsl_insert`: expand a full working set, or evict its oldest page. -/
def wslMakeRoom (s : State) : Res State :=
  if s.wsl.nentries = s.wsl.max then
    let (expanded, s) := wslTryExpand s
    if expanded then .ok s
    else do
      let (wsle, s) ← wslTrim1 s
      kassert (wsle ≠ none)
      return s
  else .ok s

/-- The second half of `vmp_wsl_insert`. -/
def wslAdd (s : State) (wsle : Wsle) (locked : Bool) : State :=
  { s with
    wsl.nentries := s.wsl.nentries + 1
    wsl.nlocked := if locked then s.wsl.nlocked + 1 else s.wsl.nlocked
    wsl.queue := if locked then s.wsl.queue else s.wsl.queue ++ [wsle]
    wsl.tree := s.wsl.tree ++ [wsle] }

/-- `vmp_wsl_insert`. -/
def vmpWslInsert (s : State) (vaddr : ℕ) (isPagetable locked : Bool) : Res State := do
  kassert (vmpWslFind s vaddr = none)
  kassert (s.wsl.nentries ≤ s.wsl.max)
  let s ← wslMakeRoom s
  return wslAdd s ⟨vaddr, isPagetable⟩ locked

/-- The rounds of `vmp_wsl_trim_n`, `count` of them still to go after `i`. -/
def wslTrimFrom (i : ℕ) : ℕ → State → Res (ℕ × State)
  | 0, s => .ok (i, s)
  | count + 1, s => do
    let (wsle, s) ← wslTrim1 s
    if wsle = none then return (i, s) else wslTrimFrom (i + 1) count s

/-- `vmp_wsl_trim_n`. -/
def vmpWslTrimN (s : State) (count : ℕ) : Res (ℕ × State) := wslTrimFrom 0 count s

end VmmSim
