import VmmSim.State

/-!
# Resident pages

The reference counts of pages and the queues of the unreferenced ones, from `resident.c`:
`check_shortage`, `vmp_page_retain_locked` and `vmp_page_release_locked`. Allocation is in
`VmmSim.Alloc`, since stealing a page reaches into the page tables.
-/

namespace VmmSim

namespace State

/-- `vmp_page_shortage`. -/
def vmpPageShortage (s : State) : Bool :=
  s.vmstat.nfree + s.vmstat.nstandby ≤ s.vmparam.minAvailForAlloc

/-- `vmp_page_sufficience`; the product is a `size_t`. -/
def vmpPageSufficience (s : State) : Bool :=
  s.vmparam.minAvailForAlloc * 2 % 2 ^ 64 ≤ s.vmstat.nfree + s.vmstat.nstandby

end State

/-- `check_shortage`: whether pages are short, with the flag and the events it sets. -/
def checkShortage (s : State) : Bool × State :=
  if s.vmpPageShortage then
    let s := { s with wasShortage := true, sufficientPagesEvent := false }
    let s := if s.vmstat.nmodified > 4 then { s with pgwriterEvent := true } else s
    let s :=
      if s.vmstat.nmodified + s.vmstat.nstandby < s.vmparam.minAvailForAlloc * 2 % 2 ^ 64 then
        { s with balancerEvent := true }
      else s
    (true, s)
  else (false, s)

/-- `vmp_page_retain_locked`. A page that goes from inactive to active leaves the queue that its
dirty flag names. -/
def vmpPageRetainLocked (s : State) (p : Pfn) : Res State := do
  let refcnt := (s.pages p).refcnt
  let s := s.modifyPage p fun pg => { pg with refcnt := inc16 pg.refcnt }
  if refcnt = 0 then
    kassert ((s.pages p).use ≠ .deleted)
    if (s.pages p).dirty then
      let q ← tailqRemove s.modifiedPgq p
      return { s with
        modifiedPgq := q
        vmstat.nmodified := s.vmstat.nmodified - 1
        vmstat.nactive := s.vmstat.nactive + 1 }
    else
      let q ← tailqRemove s.standbyPgq p
      return { s with
        standbyPgq := q
        vmstat.nstandby := s.vmstat.nstandby - 1
        vmstat.nactive := s.vmstat.nactive + 1 }
  else return s

/-- A pageable page that nobody refers to goes to the tail of the queue its dirty flag names. -/
def enqueuePageable (s : State) (p : Pfn) : State :=
  if (s.pages p).dirty then
    { s with
      modifiedPgq := s.modifiedPgq ++ [p]
      vmstat.nmodified := s.vmstat.nmodified + 1 }
  else
    { s with
      standbyPgq := s.standbyPgq ++ [p]
      vmstat.nstandby := s.vmstat.nstandby + 1 }

/-- The end of `vmp_page_release_locked`: look for a shortage, then for the end of one. -/
def releaseSufficience (s : State) : State :=
  let s := (checkShortage s).2
  if s.wasShortage ∧ s.vmpPageSufficience then
    { s with wasShortage := false, sufficientPagesEvent := true }
  else s

/-- The part of `vmp_page_release_locked` taken when the last reference goes. -/
def releaseLast (s : State) (p : Pfn) : Res State :=
  let s := { s with vmstat.nactive := s.vmstat.nactive - 1 }
  match (s.pages p).use with
  | .deleted =>
    let s := { s with
      freePgq := p :: s.freePgq
      vmstat.nfree := s.vmstat.nfree + 1 }
    .ok (s.modifyPage p fun pg => { pg with use := .free })
  | .anonPrivate => .ok (releaseSufficience (enqueuePageable s p))
  | _ => .error .kfatal

/-- `vmp_page_release_locked`. -/
def vmpPageReleaseLocked (s : State) (p : Pfn) : Res State := do
  kassert ((s.pages p).refcnt > 0)
  kassert ((s.pages p).use ≠ .free)
  let refcnt := (s.pages p).refcnt
  let s := s.modifyPage p fun pg => { pg with refcnt := dec16 pg.refcnt }
  if refcnt = 1 then releaseLast s p else return s

/-! ## References that do not move a page -/

theorem vmpPageRetainLocked_of_ne {s : State} {p : Pfn} (h : (s.pages p).refcnt ≠ 0) :
    vmpPageRetainLocked s p =
      .ok (s.modifyPage p fun pg => { pg with refcnt := inc16 pg.refcnt }) := by
  simp only [vmpPageRetainLocked, if_neg h]
  rfl

theorem vmpPageReleaseLocked_of_gt {s : State} {p : Pfn} (h : 1 < (s.pages p).refcnt)
    (hu : (s.pages p).use ≠ .free) :
    vmpPageReleaseLocked s p =
      .ok (s.modifyPage p fun pg => { pg with refcnt := dec16 pg.refcnt }) := by
  have h0 : (s.pages p).refcnt > 0 := by omega
  have h1 : (s.pages p).refcnt ≠ 1 := by omega
  simp only [vmpPageReleaseLocked, kassert_of h0, kassert_of hu, Lib.ok_bind, if_neg h1]
  rfl

end VmmSim
