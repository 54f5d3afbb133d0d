import VmmSim.Tables

/-!
# Page allocation

`steal_page` and `vmp_page_alloc_locked` of `resident.c`.
-/

namespace VmmSim

/-- The fields of a page that is handed out. -/
def VmPage.handOut (use : PageUse) (pg : VmPage) : VmPage :=
  { pg with refcnt := 1, use := use, dirty := false, drumslot := noSlot }

/-- The `memset` of a page that is handed out. Its history starts again. -/
def clearPage (s : State) (p : Pfn) : State :=
  { s.setContents p 0 with unsaved := Function.update s.unsaved p false }

section ClearPage

variable (s : State) (p : Pfn)

@[simp] theorem clearPage_pages : (clearPage s p).pages = s.pages := rfl

@[simp] theorem clearPage_freePgq : (clearPage s p).freePgq = s.freePgq := rfl

@[simp] theorem clearPage_standbyPgq : (clearPage s p).standbyPgq = s.standbyPgq := rfl

@[simp] theorem clearPage_modifiedPgq : (clearPage s p).modifiedPgq = s.modifiedPgq := rfl

@[simp] theorem clearPage_vmstat : (clearPage s p).vmstat = s.vmstat := rfl

@[simp] theorem clearPage_wsl : (clearPage s p).wsl = s.wsl := rfl

@[simp] theorem clearPage_softPages : (clearPage s p).softPages = s.softPages := rfl

@[simp] theorem clearPage_pml4Page : (clearPage s p).pml4Page = s.pml4Page := rfl

theorem clearPage_mem : (clearPage s p).mem = Function.update s.mem p 0 := rfl

end ClearPage

/-- The switch of `steal_page`: the entry that refers to the page becomes a swap entry. -/
def unmapStolen (s : State) (p : Pfn) : Res State :=
  match (s.pages p).use with
  | .anonPrivate => do
    let pte ← pteAt (s.pages p).referentPte
    let tablePage ← vmpPaddrToPage ((s.pages p).referentPte / pgSize * pgSize)
    let s := s.setPte pte (vmpPteSwapCreate (s.pages p).drumslot)
    vmpPagetablePagePteBecameSwap s tablePage
  | _ => .error .kfatal

/-- `steal_page`. -/
def stealPage (s : State) (use : PageUse) : Res (Option Pfn × State) :=
  match s.standbyPgq with
  | [] => .ok (none, s)
  | p :: q => do
    let s ← unmapStolen { s with standbyPgq := q } p
    kassert ((s.pages p).refcnt = 0)
    kassert ((s.pages p).nonzeroPtes = 0)
    let s := s.modifyPage p fun pg => { pg.handOut use with referentPte := 0 }
    let s := { s with
      vmstat.nstandby := s.vmstat.nstandby - 1
      vmstat.nactive := s.vmstat.nactive + 1 }
    return (some p, clearPage s p)

/-- The free path of `vmp_page_alloc_locked`. -/
def takeFree (s : State) (p : Pfn) (q : List Pfn) (use : PageUse) : Res State := do
  let s := { s with freePgq := q }
  kassert ((s.pages p).refcnt = 0)
  kassert ((s.pages p).nonzeroPtes = 0)
  kassert ((s.pages p).referentPte = 0)
  let s := s.modifyPage p (VmPage.handOut use)
  let s := { s with
    vmstat.nfree := s.vmstat.nfree - 1
    vmstat.nactive := s.vmstat.nactive + 1 }
  return clearPage s p

/-- `vmp_page_alloc_locked`: the page, or `none` for the result -1. -/
def vmpPageAllocLocked (s : State) (use : PageUse) (must : Bool) : Res (Option Pfn × State) :=
  let (short, s) := checkShortage s
  if short ∧ ¬ must then .ok (none, s)
  else match s.freePgq with
    | [] => do
      let (page, s) ← stealPage s use
      if page.isNone ∧ must then .error .kfatal else return (page, s)
    | p :: q => do
      let s ← takeFree s p q use
      return (some p, s)

end VmmSim
