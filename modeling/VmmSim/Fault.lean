import VmmSim.Wire

/-!
# Page faults

`do_fault` of `fault.c`, with `vmp_ps_vad_find` and the reads and writes of `io.c`. `do_fault`
holds the working set lock from its start to its end or to its sleep; the lock of the PFN database
is dropped after the wiring, and both locks while a page is read. Its text is cut at these
places: `faultWire`, `faultMain`, the read, and `swapInFinish`.
-/

namespace VmmSim

/-- `RB_FIND` with `vmp_vad_cmp`, on a key of which only `start` is set. -/
def VadTree.find (vaddr : ℕ) : VadTree → Option Vad
  | nil => none
  | node left vad right =>
    if vaddr < vad.start then left.find vaddr
    else if vad.stop ≤ vaddr then right.find vaddr
    else some vad

/-- `vmp_ps_vad_find`. -/
def vmpPsVadFind (s : State) (vaddr : ℕ) : Option Vad := s.vadTree.find vaddr

/-! ## Memory descriptor lists and transfers -/

/-- `vm_mdl_t`. -/
structure Mdl where
  nentries : ℕ
  offset : ℕ
  pages : List (Option Pfn)
  deriving DecidableEq, Repr

/-- `vm_mdl_alloc`. -/
def vmMdlAlloc (npages : ℕ) : Mdl := ⟨npages, 0, List.replicate npages none⟩

/-- The code of each branch of `do_fault` that fills a slot of `out`: a reference for the list,
the page in the slot, and `PGSIZE` more in `offset`. -/
def fillMdl (s : State) (page : Pfn) (out : Mdl) : Res (Mdl × State) := do
  let s ← vmpPageRetainLocked s page
  if out.offset / pgSize < out.pages.length then
    return ({ out with
      pages := out.pages.set (out.offset / pgSize) (some page)
      offset := out.offset + pgSize }, s)
  else .error .wild

/-- The same, when `out` may be null. -/
def fillOut (s : State) (page : Pfn) : Option Mdl → Res (Option Mdl × State)
  | none => .ok (none, s)
  | some out => do
    let (out, s) ← fillMdl s page out
    return (some out, s)

/-- The same, for the page of a valid entry. -/
def fillFromPte (s : State) (pte : PtePtr) : Option Mdl → Res (Option Mdl × State)
  | none => .ok (none, s)
  | some out => do
    let page ← vmpPteHwPage (s.pte pte)
    fillOut s page (some out)

/-- The slot of the pagefile at an offset of the file, if the offset is in range. -/
def slotAt (s : State) (offset : ℕ) : Option ℕ :=
  if offset % pgSize = 0 ∧ offset / pgSize < s.pagefile.totalSlots then some (offset / pgSize)
  else none

/-- A `pread` of one page. -/
def preadPage (s : State) (page : Pfn) (offset : ℕ) : State :=
  match slotAt s offset with
  | some slot => s.setContents page (s.drum slot)
  | none => s

/-- A `pwrite` of one page. -/
def pwritePage (s : State) (page : Pfn) (offset : ℕ) : State :=
  match slotAt s offset with
  | some slot => { s with
      drum := Function.update s.drum slot (s.mem page)
      unsaved := Function.update s.unsaved page false }
  | none => s

/-- The file offset of a page's drum slot, `page->drumslot * PGSIZE`. -/
def drumOffset (s : State) (page : Pfn) : ℕ := (s.pages page).drumslot * pgSize % 2 ^ 64

/-! ## The fault handler -/

/-- A `do_fault` that is asleep in the read of a page: what its frame remembers. -/
structure SwapIn where
  vaddr : ℕ
  pte : PtePtr
  page : Pfn
  /-- The address of the pager state in the busy entry. -/
  pagerState : ℕ
  /-- The caller's list, if there is one. -/
  out : Option ℕ
  /-- Whether the read has been done. -/
  wasRead : Bool
  deriving DecidableEq, Repr

/-- How the second part of `do_fault` ends: with a result, or asleep with a page to read. -/
inductive FaultEnd
  | ret (r : ℤ)
  | sleep (page : Pfn)
  deriving DecidableEq, Repr

/-- `do_fault` up to the end of `vmp_wire_pte`. -/
def faultWire (s : State) (vaddr : ℕ) : Res (Vad × WireState × State) :=
  match vmpPsVadFind s vaddr with
  | none => .error .kassert
  | some vad => do
    let (state, s) ← vmpWirePte s vaddr
    return (vad, state, s)

/-- Leave `do_fault` through `out`: release the wiring and return. -/
def faultOut (s : State) (state : WireState) (out : Option Mdl) (r : ℤ) :
    Res (FaultEnd × Option Mdl × State) := do
  let s ← vmpPteWireStateRelease s state
  return (.ret r, out, s)

/-- A write to a valid entry that is not writeable. -/
def faultWriteable (s : State) (vad : Vad) (state : WireState) (out : Option Mdl) :
    Res (FaultEnd × Option Mdl × State) :=
  if vad.cow then .error .kfatal
  else do
    let s := s.setPte state.pte (hwSetWriteable (s.pte state.pte))
    let (out, s) ← fillFromPte s state.pte out
    faultOut s state out 0

/-- The table of a wired entry, `pte_state.pages[0]`. -/
def wiredTable (state : WireState) : Res Pfn :=
  match state.pages with
  | some page :: _ => .ok page
  | _ => .error .wild

/-- Demand-zero memory: map a new page. -/
def faultZeroFill (s : State) (vaddr : ℕ) (write : Bool) (vad : Vad) (state : WireState)
    (page : Pfn) : Res State := do
  let s := s.setPte state.pte (vmpPteHwCreate page.val (write && vad.writeable))
  let table ← wiredTable state
  let s ← vmpPagetablePageNonswapPteCreated s table true
  let s ← vmpWslInsert s vaddr false false
  return s.modifyPage page fun pg => { pg with referentPte := ptePaddr state.pte }

/-- A fault on a zero entry. -/
def faultZero (s : State) (vaddr : ℕ) (write : Bool) (vad : Vad) (state : WireState)
    (out : Option Mdl) : Res (FaultEnd × Option Mdl × State) :=
  if vad.sect.isSome then .error .kfatal
  else do
    let (page, s) ← vmpPageAllocLocked s .anonPrivate false
    match page with
    | none => faultOut s state out (-1)
    | some page =>
      let s ← faultZeroFill s vaddr write vad state page
      let (out, s) ← fillOut s page out
      faultOut s state out 0

/-- A fault on a transition entry: the page is still in core. -/
def faultSoft (s : State) (vaddr : ℕ) (write : Bool) (state : WireState) (out : Option Mdl) :
    Res (FaultEnd × Option Mdl × State) := do
  let page ← vmpPteTransPage (s.pte state.pte)
  let s ← vmpPageRetainLocked s page
  let s := s.setPte state.pte (vmpPteHwCreate page.val false)
  let s ← vmpWslInsert s vaddr false false
  let (out, s) ← (if write then .ok (out, s) else fillOut s page out)
  faultOut s state out 0

/-- A fault on a valid entry that permits the access. -/
def faultResident (s : State) (state : WireState) (out : Option Mdl) :
    Res (FaultEnd × Option Mdl × State) := do
  let (out, s) ← fillFromPte s state.pte out
  faultOut s state out 0

/-- Make the entry of a page to be read busy, and lock it into the working set. -/
def faultBusy (s : State) (vaddr : ℕ) (state : WireState) (page : Pfn) (pagerState : ℕ) :
    Res State := do
  let s := s.modifyPage page fun pg => { pg with referentPte := ptePaddr state.pte }
  kassert (pagerState ≠ 0)
  let s := s.setPte state.pte (vmpPteBusyCreate pagerState)
  let table ← wiredTable state
  let s ← vmpPagetablePageNonswapPteCreated s table false
  vmpWslInsert s vaddr false true

/-- A fault on a swap entry, up to the sleep. -/
def faultSwap (s : State) (vaddr : ℕ) (state : WireState) (out : Option Mdl) (pagerState : ℕ) :
    Res (FaultEnd × Option Mdl × State) := do
  let (page, s) ← vmpPageAllocLocked s .anonPrivate false
  match page with
  | none => faultOut s state out (-1)
  | some page =>
    let s ← faultBusy s vaddr state page pagerState
    let s ← vmpPteWireStateRelease s state
    return (.sleep page, out, s)

/-- `do_fault` from its second acquisition of the PFN lock to its end or its sleep. The address
of the pager state it allocates is an input. -/
def faultMain (s : State) (vaddr : ℕ) (write : Bool) (vad : Vad) (state : WireState)
    (out : Option Mdl) (pagerState : ℕ) : Res (FaultEnd × Option Mdl × State) := do
  let kind ← vmpPteCharacterise (s.pte state.pte)
  if kind = .valid ∧ ¬ vmpPteHwIsWriteable (s.pte state.pte) ∧ write then
    faultWriteable s vad state out
  else match kind with
    | .zero => faultZero s vaddr write vad state out
    | .trans => faultSoft s vaddr write state out
    | .valid => faultResident s state out
    | .swap => faultSwap s vaddr state out pagerState
    | .busy => .error .kfatal

/-- `do_fault` from its reacquisition of the locks after the read. -/
def swapInFinish (s : State) (sw : SwapIn) (out : Option Mdl) : Res (Option Mdl × State) := do
  let (out, s) ← fillOut s sw.page out
  let s := s.setPte sw.pte (vmpPteHwCreate sw.page.val false)
  let s ← vmpWslUnlockEntry s sw.vaddr
  return (out, s)

end VmmSim
