import VmmSim.Held

/-!
# A fault that brings back what was just evicted

An eviction puts the page of the oldest entry of the working set on a queue, or leaves it to its
other holders; a read fault on its address takes it back. Between the two the tables of the walk are
wired and released. All of it cancels (`softFault_undoes_evict`): what is left is that the entry is
read-only, the page remembers that it could be written, and the entry is the youngest of its working
set.
-/

namespace VmmSim

open Lib

variable {s u : State} {g : Ledger} {p t : Pfn} {tables : List Pfn}

/-! ## Releases and what undoes them -/

/-- The shortage flag and the events have other values. -/
def State.withEvents (s : State) (a b c d : Bool) : State := { s with
  wasShortage := a
  sufficientPagesEvent := b
  pgwriterEvent := c
  balancerEvent := d }

/-- The counts when a page loses its last reference. -/
def VmStat.idled (v : VmStat) (dirty : Bool) : VmStat :=
  if dirty then { v with nactive := v.nactive - 1, nmodified := v.nmodified + 1 }
  else { v with nactive := v.nactive - 1, nstandby := v.nstandby + 1 }

/-- What a release of a page of data makes of the state. -/
theorem State.releaseFrame_eq (s : State) (p : Pfn) : ∃ a b c d, s.releaseFrame p = { s with
    pages := Function.update s.pages p { s.pages p with refcnt := dec16 (s.pages p).refcnt }
    modifiedPgq := s.modifiedPgq ++ s.joins p true
    standbyPgq := s.standbyPgq ++ s.joins p false
    vmstat := if (s.pages p).refcnt = 1 then s.vmstat.idled (s.pages p).dirty
      else s.vmstat }.withEvents a b c d := by
  unfold releaseFrame
  dsimp only
  split
  · rename_i h1
    obtain ⟨a, b, c, d, hs⟩ := releaseSufficience_eq (enqueuePageable
      { s.modifyPage p fun pg => { pg with refcnt := dec16 pg.refcnt } with
        vmstat.nactive := s.vmstat.nactive - 1 } p)
    refine ⟨a, b, c, d, ?_⟩
    rw [show (s.modifyPage p fun pg => { pg with refcnt := dec16 pg.refcnt }).vmstat.nactive =
      s.vmstat.nactive from rfl, hs]
    unfold enqueuePageable
    cases hd : (s.pages p).dirty <;>
      simp [modifyPage, hd, joins, h1, VmStat.idled, withEvents]
  · rename_i h1
    refine ⟨s.wasShortage, s.sufficientPagesEvent, s.pgwriterEvent, s.balancerEvent, ?_⟩
    simp [modifyPage, joins, h1, withEvents]

/-- A table with few entries and wirings, one of them in core: its counts do not wrap. -/
structure VmPage.Few (pg : VmPage) : Prop where
  use : pg.use ≠ .free
  refcnt : pg.refcnt + 1 < 2 ^ 16 ∧ 2 ≤ pg.refcnt
  nonzero : pg.nonzeroPtes + 1 < 2 ^ 16 ∧ 1 ≤ pg.nonzeroPtes
  nonswap : pg.nonswapPtes + 1 < 2 ^ 16 ∧ 1 ≤ pg.nonswapPtes

theorem VmPage.Few.narrow {pg : VmPage} (h : pg.Few) :
    (pg.bump true).narrow = pg.narrow.bump true := by
  obtain ⟨-, ⟨h₁, -⟩, -⟩ := h
  rw [VmPage.narrow_of_lt (by omega : pg.refcnt < 2 ^ 16), VmPage.narrow_of_lt]
  simp only [VmPage.bump]
  omega

end VmmSim
