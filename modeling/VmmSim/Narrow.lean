import VmmSim.Lib.Follow
import VmmSim.Queues

/-!
# Reference counts that do not wrap

`refcnt` is a `uint16_t`, and its invariants are about the number of references. A state may
therefore be one of exact counts, and `State.narrow` is the state that the code has for it: a count
of `2 ^ 16` has wrapped to 0. A page whose count has wrapped is on no queue, so that the code
cannot retain it, and a release of it fails its first assertion. Everything else the code does
to the narrow state it does to the exact one (`Follows`).
-/

namespace VmmSim

open Lib

/-- The reference count as the `uint16_t` has it. -/
def VmPage.narrow (pg : VmPage) : VmPage :=
  { pg with refcnt := if pg.refcnt < 2 ^ 16 then pg.refcnt else 0 }

/-- The state that the code has for one of exact reference counts. -/
def State.narrow (s : State) : State := { s with pages := fun p => (s.pages p).narrow }

/-- `y` does to the narrow state what `x` does to the exact one. -/
abbrev Narrows (x y : Res State) : Prop := Follows (· = .kassert) State.narrow x y

/-- The same for a computation with another result. -/
abbrev NarrowsWith {α : Type} (x y : Res (α × State)) : Prop :=
  Follows (· = .kassert) (Prod.map id State.narrow) x y

namespace VmPage

variable (pg : VmPage)

@[simp] theorem narrow_use : pg.narrow.use = pg.use := rfl

@[simp] theorem narrow_dirty : pg.narrow.dirty = pg.dirty := rfl

@[simp] theorem narrow_nonzeroPtes : pg.narrow.nonzeroPtes = pg.nonzeroPtes := rfl

@[simp] theorem narrow_nonswapPtes : pg.narrow.nonswapPtes = pg.nonswapPtes := rfl

@[simp] theorem narrow_referentPte : pg.narrow.referentPte = pg.referentPte := rfl

@[simp] theorem narrow_drumslot : pg.narrow.drumslot = pg.drumslot := rfl

theorem narrow_nonzero (n : ℕ) :
    ({ pg with nonzeroPtes := n } : VmPage).narrow = { pg.narrow with nonzeroPtes := n } := by
  cases pg; rfl

theorem narrow_nonswap (n : ℕ) :
    ({ pg with nonswapPtes := n } : VmPage).narrow = { pg.narrow with nonswapPtes := n } := by
  cases pg; rfl

theorem narrow_counters (m n a : ℕ) :
    ({ pg with nonzeroPtes := m, nonswapPtes := n, referentPte := a } : VmPage).narrow =
      { pg.narrow with nonzeroPtes := m, nonswapPtes := n, referentPte := a } := by
  cases pg; rfl

theorem narrow_succ {pg : VmPage} (h : pg.refcnt < 2 ^ 16) :
    ({ pg with refcnt := pg.refcnt + 1 } : VmPage).narrow =
      { pg with refcnt := inc16 pg.refcnt } := by
  rcases Nat.lt_or_ge (pg.refcnt + 1) (2 ^ 16) with hlt | hge
  · simp only [narrow, if_pos hlt, inc16_of_lt hlt]
  · have h0 : inc16 pg.refcnt = 0 := by
      rw [inc16]
      omega
    simp only [narrow, if_neg (by omega : ¬ pg.refcnt + 1 < 2 ^ 16), h0]

theorem narrow_of_lt {pg : VmPage} (h : pg.refcnt < 2 ^ 16) : pg.narrow = pg := by
  cases pg
  simp_all [narrow]

theorem narrow_refcnt_of_lt {pg : VmPage} (h : pg.refcnt < 2 ^ 16) :
    pg.narrow.refcnt = pg.refcnt := if_pos h

theorem narrow_refcnt_mod {pg : VmPage} (h : pg.refcnt ≤ 2 ^ 16) :
    pg.narrow.refcnt = pg.refcnt % 2 ^ 16 := by
  simp only [narrow]
  split <;> omega

theorem narrow_refcnt_of_le {pg : VmPage} (h : 2 ^ 16 ≤ pg.refcnt) : pg.narrow.refcnt = 0 :=
  if_neg (by omega)

end VmPage

namespace State

variable (s : State) (p : Pfn)

@[simp] theorem narrow_pages : s.narrow.pages p = (s.pages p).narrow := rfl

@[simp] theorem narrow_mem : s.narrow.mem = s.mem := rfl

@[simp] theorem narrow_pte : s.narrow.pte = s.pte := rfl

@[simp] theorem narrow_wsl : s.narrow.wsl = s.wsl := rfl

@[simp] theorem narrow_freePgq : s.narrow.freePgq = s.freePgq := rfl

@[simp] theorem narrow_standbyPgq : s.narrow.standbyPgq = s.standbyPgq := rfl

@[simp] theorem narrow_modifiedPgq : s.narrow.modifiedPgq = s.modifiedPgq := rfl

@[simp] theorem narrow_vmstat : s.narrow.vmstat = s.vmstat := rfl

@[simp] theorem narrow_vmparam : s.narrow.vmparam = s.vmparam := rfl

@[simp] theorem narrow_softPages : s.narrow.softPages = s.softPages := rfl

@[simp] theorem narrow_pml4Page : s.narrow.pml4Page = s.pml4Page := rfl

@[simp] theorem narrow_tableVaddr : s.narrow.tableVaddr p = s.tableVaddr p := rfl

@[simp] theorem narrow_v2p (vaddr : ℕ) : s.narrow.v2p vaddr = s.v2p vaddr := rfl

/-- An assignment that the narrow count does not see. -/
theorem narrow_modifyPage {f k : VmPage → VmPage}
    (h : (f (s.pages p)).narrow = k (s.pages p).narrow) :
    s.narrow.modifyPage p k = (s.modifyPage p f).narrow := by
  simp only [modifyPage, narrow, State.mk.injEq, and_true]
  funext q
  by_cases hq : q = p
  · subst hq
    simp [h]
  · simp [hq]

theorem narrow_setPte (ptr : PtePtr) (w : Word) :
    s.narrow.setPte ptr w = (s.setPte ptr w).narrow := rfl

/-- A state whose counts all fit is its own narrow state. -/
theorem narrow_of_lt (h : ∀ q, (s.pages q).refcnt < 2 ^ 16) : s.narrow = s := by
  cases s
  simp only [narrow, State.mk.injEq, and_true]
  exact funext fun q => VmPage.narrow_of_lt (h q)

end State

/-! ## Queues and counts -/

theorem checkShortage_narrow (s : State) :
    checkShortage s.narrow = ((checkShortage s).1, (checkShortage s).2.narrow) := by
  unfold checkShortage
  rw [show s.narrow.vmpPageShortage = s.vmpPageShortage from rfl]
  split
  · refine Prod.ext rfl ?_
    by_cases hm : s.vmstat.nmodified > 4 <;>
    by_cases hn : s.vmstat.nmodified + s.vmstat.nstandby <
      s.vmparam.minAvailForAlloc * 2 % 2 ^ 64 <;>
    simp only [State.narrow_vmstat, State.narrow_vmparam, hm, hn, if_true, if_false] <;> rfl
  · rfl

theorem releaseSufficience_narrow (s : State) :
    releaseSufficience s.narrow = (releaseSufficience s).narrow := by
  unfold releaseSufficience
  simp only [checkShortage_narrow]
  rw [show (checkShortage s).2.narrow.vmpPageSufficience = (checkShortage s).2.vmpPageSufficience
    from rfl, show (checkShortage s).2.narrow.wasShortage = (checkShortage s).2.wasShortage from rfl]
  split <;> rfl

theorem enqueuePageable_narrow (s : State) (p : Pfn) :
    enqueuePageable s.narrow p = (enqueuePageable s p).narrow := by
  unfold enqueuePageable
  rw [State.narrow_pages, VmPage.narrow_dirty]
  split <;> rfl

theorem releaseLast_narrow (s : State) (p : Pfn) : Narrows (releaseLast s p) (releaseLast s.narrow p) := by
  have hs : ({ s.narrow with vmstat.nactive := s.narrow.vmstat.nactive - 1 } : State) =
      ({ s with vmstat.nactive := s.vmstat.nactive - 1 } : State).narrow := rfl
  cases hu : (s.pages p).use with
  | deleted =>
    have hu' : (s.narrow.pages p).use = .deleted := hu
    simp only [releaseLast, hu, hu']
    refine .of_eq (congrArg Except.ok ?_)
    exact State.narrow_modifyPage ({ s with
      vmstat.nactive := s.vmstat.nactive - 1
      freePgq := p :: s.freePgq
      vmstat.nfree := s.vmstat.nfree + 1 } : State) p rfl
  | anonPrivate =>
    have hu' : (s.narrow.pages p).use = .anonPrivate := hu
    simp only [releaseLast, hu, hu', hs, enqueuePageable_narrow, releaseSufficience_narrow]
    exact .ok _
  | _ =>
    simp only [releaseLast, hu, State.narrow_pages, VmPage.narrow_use]
    exact .error _

/-- A release of a page whose count has wrapped fails its assertion. -/
theorem vmpPageReleaseLocked_narrow (s : State) (p : Pfn) :
    Narrows (vmpPageReleaseLocked s p) (vmpPageReleaseLocked s.narrow p) := by
  unfold vmpPageReleaseLocked
  rcases Nat.lt_or_ge (s.pages p).refcnt (2 ^ 16) with hlt | hge
  · have heq : (s.pages p).narrow = s.pages p := VmPage.narrow_of_lt hlt
    rw [State.narrow_pages, heq]
    refine .bind_same fun _ => .bind_same fun _ => ?_
    have hset : s.narrow.modifyPage p (fun pg => { pg with refcnt := dec16 pg.refcnt }) =
        (s.modifyPage p fun pg => { pg with refcnt := dec16 pg.refcnt }).narrow := by
      refine State.narrow_modifyPage s p ?_
      rw [heq]
      exact VmPage.narrow_of_lt (dec16_lt _)
    rw [hset]
    exact .ite (fun _ => releaseLast_narrow _ p) fun _ => .ok _
  · have h0 : ¬ (s.narrow.pages p).refcnt > 0 := by
      rw [State.narrow_pages, VmPage.narrow_refcnt_of_le hge]
      decide
    rw [kassert_of_not h0]
    exact .halt rfl

/-- A reference to a page whose count does not wrap by it. -/
theorem vmpPageRetainLocked_narrow {s : State} {p : Pfn} (h : (s.pages p).refcnt + 1 < 2 ^ 16) :
    Follows (fun _ => False) State.narrow (vmpPageRetainLocked s p)
      (vmpPageRetainLocked s.narrow p) := by
  unfold vmpPageRetainLocked
  have heq : (s.pages p).narrow = s.pages p := VmPage.narrow_of_lt (by omega)
  have hset : s.narrow.modifyPage p (fun pg => { pg with refcnt := inc16 pg.refcnt }) =
      (s.modifyPage p fun pg => { pg with refcnt := inc16 pg.refcnt }).narrow := by
    refine State.narrow_modifyPage s p ?_
    rw [heq]
    exact VmPage.narrow_of_lt (inc16_lt _)
  dsimp only
  rw [hset, State.narrow_pages, heq]
  refine .ite (fun _ => .bind_same fun _ => ?_) fun _ => .ok _
  simp only [State.narrow_pages, VmPage.narrow_dirty]
  exact .ite (fun _ => .bind_same fun _ => .ok _) fun _ => .bind_same fun _ => .ok _

/-! ## The working set list and the tables -/

theorem vmpWslUnlockEntry_narrow (s : State) (vaddr : ℕ) :
    Narrows (vmpWslUnlockEntry s vaddr) (vmpWslUnlockEntry s.narrow vaddr) := by
  unfold vmpWslUnlockEntry
  rw [show vmpWslFind s.narrow vaddr = vmpWslFind s vaddr from rfl]
  split
  · exact .error _
  · exact .ok _

theorem vmpWslRemove_narrow (s : State) (vaddr : ℕ) :
    Narrows (vmpWslRemove s vaddr) (vmpWslRemove s.narrow vaddr) := by
  unfold vmpWslRemove
  rw [show vmpWslFind s.narrow vaddr = vmpWslFind s vaddr from rfl]
  split
  · exact .error _
  · exact .bind_same fun _ => .ok _

theorem vmpWslLockEntry_narrow (s : State) (vaddr : ℕ) :
    Narrows (vmpWslLockEntry s vaddr) (vmpWslLockEntry s.narrow vaddr) := by
  unfold vmpWslLockEntry
  rw [show vmpWslFind s.narrow vaddr = vmpWslFind s vaddr from rfl]
  split
  · exact .error _
  · exact .bind_same fun _ => .ok _

theorem dropNonswap_narrow (s : State) (page : Pfn) :
    Narrows (dropNonswap s page) (dropNonswap s.narrow page) := by
  unfold dropNonswap
  dsimp only
  rw [State.narrow_modifyPage s page
    (f := fun pg => { pg with nonswapPtes := dec16 pg.nonswapPtes }) (VmPage.narrow_nonswap _ _)]
  exact .ite (fun _ => vmpWslUnlockEntry_narrow _ _) fun _ => .ok _

theorem vmpPagetablePagePteBecameSwap_narrow (s : State) (page : Pfn) :
    Narrows (vmpPagetablePagePteBecameSwap s page)
      (vmpPagetablePagePteBecameSwap s.narrow page) :=
  (dropNonswap_narrow s page).bind fun _ => vmpPageReleaseLocked_narrow _ _

theorem removeTableWsle_narrow (s : State) (page : Pfn) :
    Narrows (removeTableWsle s page) (removeTableWsle s.narrow page) := by
  unfold removeTableWsle
  refine .ite (fun _ => ?_) fun _ => .ite (fun _ => vmpWslRemove_narrow _ _) fun _ => .error _
  exact (vmpWslUnlockEntry_narrow _ _).bind fun _ => vmpWslRemove_narrow _ _

theorem vmpMdDeleteTablePointers_narrow {f : State → Pfn → Bool → Res State}
    (hf : ∀ s page wasSwap, Narrows (f s page wasSwap) (f s.narrow page wasSwap)) (s : State)
    (dirpage : Pfn) (dirpte : PtePtr) :
    Narrows (vmpMdDeleteTablePointers f s dirpage dirpte)
      (vmpMdDeleteTablePointers f s.narrow dirpage dirpte) :=
  .bind_same fun _ => .bind_same fun _ => hf _ _ _

theorem pteDeletedNested_narrow (depth : ℕ) : ∀ (s : State) (page : Pfn) (wasSwap : Bool),
    Narrows (pteDeletedNested depth s page wasSwap)
      (pteDeletedNested depth s.narrow page wasSwap) := by
  induction depth with
  | zero => exact fun _ _ _ => .error _
  | succ depth ih =>
    intro s page wasSwap
    unfold pteDeletedNested
    dsimp only
    rw [State.narrow_modifyPage s page
      (f := fun pg => { pg with nonzeroPtes := dec16 pg.nonzeroPtes }) (VmPage.narrow_nonzero _ _)]
    refine .ite (fun _ => ?_) fun _ => ?_
    · rw [State.narrow_modifyPage _ page (f := fun pg => { pg with use := .deleted }) rfl]
      refine (removeTableWsle_narrow _ _).bind fun s => .bind_same fun d => .bind_same fun ptr => ?_
      refine (vmpMdDeleteTablePointers_narrow ih s d ptr).bind fun s => ?_
      rw [State.narrow_modifyPage s page
        (f := fun pg => { pg with nonswapPtes := 0, referentPte := 0 }) rfl]
      exact (vmpPageReleaseLocked_narrow _ _).bind fun _ => vmpPageReleaseLocked_narrow _ _
    · refine Follows.bind ?_ fun _ => vmpPageReleaseLocked_narrow _ _
      exact .ite (fun _ => .ok _) fun _ => dropNonswap_narrow _ _

theorem releaseWired_narrow (pages : List (Option Pfn)) : ∀ s : State,
    Narrows (releaseWired s pages) (releaseWired s.narrow pages) := by
  induction pages with
  | nil => exact fun s => .ok s
  | cons page pages ih =>
    intro s
    cases page with
    | none => exact ih s
    | some page => exact (pteDeletedNested_narrow _ s page false).bind fun _ => ih _

/-! ## Eviction and insertion -/

theorem fetchPteFrom_narrow (s : State) (vaddr level : ℕ) : ∀ table : Pfn,
    fetchPteFrom s.narrow vaddr level table = fetchPteFrom s vaddr level table := by
  induction level with
  | zero => exact fun _ => rfl
  | succ level ih =>
    cases level with
    | zero => exact fun _ => rfl
    | succ level =>
      intro table
      simp only [fetchPteFrom, State.narrow_pte, ih]

theorem vmpFetchPte_narrow (s : State) (vaddr : ℕ) :
    vmpFetchPte s.narrow vaddr = vmpFetchPte s vaddr := fetchPteFrom_narrow _ _ _ _

theorem wsleTarget_narrow (s : State) (wsle : Wsle) : wsleTarget s.narrow wsle = wsleTarget s wsle := by
  unfold wsleTarget
  rw [vmpFetchPte_narrow]
  rfl

theorem wslEvict_narrow (s : State) (page : Pfn) (pte : PtePtr) :
    Narrows (wslEvict s page pte) (wslEvict s.narrow page pte) := by
  unfold wslEvict
  rw [State.narrow_pages, VmPage.narrow_use]
  split
  · dsimp only
    rw [State.narrow_modifyPage s page
      (f := fun pg => { pg with dirty := pg.dirty || vmpPteHwIsWriteable (s.pte pte) }) rfl,
      State.narrow_setPte]
    exact vmpPageReleaseLocked_narrow _ _
  all_goals first
    | exact .bind_same fun _ => .error _
    | exact .error _

theorem wslTrim1_narrow (s : State) : NarrowsWith (wslTrim1 s) (wslTrim1 s.narrow) := by
  unfold wslTrim1
  rw [State.narrow_wsl]
  split
  · exact .ok (_, s)
  · rename_i e q _
    have htarget := wsleTarget_narrow { s with
      wsl.queue := q
      wsl.tree := s.wsl.tree.erase e
      wsl.nentries := s.wsl.nentries - 1 } e
    refine Follows.bind (f := id) (.of_eq ?_) fun r =>
      (wslEvict_narrow _ _ _).bind fun s => .pure (some e, s)
    exact htarget.trans (congrFun Except.map_id _).symm

theorem wslTryExpand_narrow (s : State) :
    wslTryExpand s.narrow = ((wslTryExpand s).1, (wslTryExpand s).2.narrow) := by
  unfold wslTryExpand
  rw [State.narrow_vmstat, State.narrow_vmparam]
  split <;> rfl

theorem wslMakeRoom_narrow (s : State) : Narrows (wslMakeRoom s) (wslMakeRoom s.narrow) := by
  unfold wslMakeRoom
  simp only [wslTryExpand_narrow]
  refine .ite (fun _ => .ite (fun _ => .ok _) fun _ => ?_) fun _ => .ok _
  exact (wslTrim1_narrow _).bind fun _ => .bind_same fun _ => .pure _

theorem vmpWslInsert_narrow (s : State) (vaddr : ℕ) (isPagetable locked : Bool) :
    Narrows (vmpWslInsert s vaddr isPagetable locked)
      (vmpWslInsert s.narrow vaddr isPagetable locked) :=
  .bind_same fun _ => .bind_same fun _ => (wslMakeRoom_narrow s).bind fun _ => .pure _

/-! ## Allocation -/

theorem unmapStolen_narrow (s : State) (p : Pfn) :
    Narrows (unmapStolen s p) (unmapStolen s.narrow p) := by
  unfold unmapStolen
  rw [State.narrow_pages, VmPage.narrow_use]
  split
  · exact .bind_same fun _ => .bind_same fun _ => vmpPagetablePagePteBecameSwap_narrow _ _
  · exact .error _

/-- The free path, for a page without references. -/
theorem takeFree_narrow {s : State} {p : Pfn} (h0 : (s.pages p).refcnt = 0) (q : List Pfn)
    (use : PageUse) : Narrows (takeFree s p q use) (takeFree s.narrow p q use) := by
  have heq : (s.pages p).narrow = s.pages p := VmPage.narrow_of_lt (by omega)
  have hset := State.narrow_modifyPage { s with freePgq := q } p (f := VmPage.handOut use)
    (k := VmPage.handOut use) (by
      change _ = VmPage.handOut use (s.pages p).narrow
      rw [heq]
      exact VmPage.narrow_of_lt (by simp [VmPage.handOut]))
  unfold takeFree
  simp only [State.narrow_pages, heq]
  refine .bind_same fun _ => .bind_same fun _ => .bind_same fun _ => .of_eq ?_
  exact congrArg (fun t : State => (.ok (clearPage { t with
    vmstat.nfree := t.vmstat.nfree - 1
    vmstat.nactive := t.vmstat.nactive + 1 } p) : Res State)) hset

/-- The steal path, when the exact state takes it to its end. -/
theorem stealPage_narrow {s : State} {use : PageUse} {r : Option Pfn × State}
    (hok : stealPage s use = .ok r) : NarrowsWith (stealPage s use) (stealPage s.narrow use) := by
  cases hq : s.standbyPgq with
  | nil =>
    simp only [stealPage, State.narrow_standbyPgq, hq]
    exact .ok (none, s)
  | cons p q =>
    simp only [stealPage, hq] at hok
    obtain ⟨s₁, hs₁, hok⟩ := bind_eq_ok.1 hok
    obtain ⟨_, hassert, -⟩ := bind_eq_ok.1 hok
    have h0 : (s₁.pages p).refcnt = 0 := by
      by_contra hne
      rw [kassert_of_not hne] at hassert
      cases hassert
    have heq : (s₁.pages p).narrow = s₁.pages p := VmPage.narrow_of_lt (by omega)
    have hset := State.narrow_modifyPage s₁ p
      (f := fun pg => { pg.handOut use with referentPte := 0 })
      (k := fun pg => { pg.handOut use with referentPte := 0 }) (by
        rw [heq]
        exact VmPage.narrow_of_lt (by simp [VmPage.handOut]))
    simp only [stealPage, State.narrow_standbyPgq, hq]
    refine (unmapStolen_narrow { s with standbyPgq := q } p).bind_ok hs₁ ?_
    simp only [State.narrow_pages, heq]
    refine .bind_same fun _ => .bind_same fun _ => .of_eq ?_
    exact congrArg (fun t : State => (.ok (some p, clearPage { t with
      vmstat.nstandby := t.vmstat.nstandby - 1
      vmstat.nactive := t.vmstat.nactive + 1 } p) : Res (Option Pfn × State))) hset

end VmmSim
