import VmmSim.Conservation

/-!
# Shortage and sufficiency

A thread whose allocation was refused waits for `vmp_sufficient_pages_event`, which
`vmp_page_release_locked` signals when it finds enough pages after a shortage. The flag
`vmp_was_shortage` and the event are kept in step with the counters (`Watched`) by every
operation but one: the release of a deleted page table frees the page and returns without looking
(`releaseLast`). As long as no such release crosses the threshold, no waiter is stranded
(`never_stranded`); one that does strands it (`stranded_by_deleted`).
-/

namespace VmmSim

open Lib

/-- The available pages. -/
def State.avail (s : State) : ℕ := s.vmstat.nfree + s.vmstat.nstandby

/-- Operations on the page database, with a record of whether an allocation was ever refused. -/
def watchStep (op : PageOp) (x : State × Bool) : Res (State × Bool) :=
  match op with
  | .alloc use must => do
    let (page, s) ← vmpPageAllocLocked x.1 use must
    return (s, x.2 || page.isNone)
  | op => do
    let s ← pageStep op x.1
    return (s, x.2)

/-- While enough pages are available the shortage is over, and if an allocation was refused the
event is signalled. -/
def NotStranded (x : State × Bool) : Prop :=
  2 * x.1.vmparam.minAvailForAlloc ≤ x.1.avail →
    x.1.wasShortage = false ∧ (x.2 = true → x.1.sufficientPagesEvent = true)

/-- The operation does not, during a shortage, drop the last reference to a deleted page that
makes the available pages sufficient. -/
def ReleaseChecked (op : PageOp) (x : State × Bool) : Prop :=
  ∀ p, op = .release p → (x.1.pages p).refcnt = 1 → (x.1.pages p).use = .deleted →
    x.1.wasShortage = true → x.1.avail + 1 < 2 * x.1.vmparam.minAvailForAlloc

/-! ## The invariant -/

/-- The counters of the available pages are the lengths of their queues; during a shortage they
are below the threshold, and after one the event is signalled. `taken` counts a page that is being
stolen, and `slack` one that a nested release may have freed. -/
structure Watched (m : ℕ) (refused : Bool) (taken slack : ℕ) (s : State) : Prop where
  min : s.vmparam.minAvailForAlloc = m
  nfree : s.vmstat.nfree = s.freePgq.length
  nstandby : s.vmstat.nstandby = s.standbyPgq.length + taken
  short : s.wasShortage = true → s.avail < 2 * m + slack
  signalled : s.wasShortage = false → refused = true → s.sufficientPagesEvent = true

namespace Watched

variable {m : ℕ} {refused : Bool} {taken slack : ℕ} {s : State}

/-- Assignments to pages, memory and the working set list are not looked at. -/
theorem of_eq {s' : State} (h : Watched m refused taken slack s) (h₁ : s'.vmparam = s.vmparam)
    (h₂ : s'.vmstat = s.vmstat) (h₃ : s'.freePgq = s.freePgq) (h₄ : s'.standbyPgq = s.standbyPgq)
    (h₅ : s'.wasShortage = s.wasShortage)
    (h₆ : s'.sufficientPagesEvent = s.sufficientPagesEvent) :
    Watched m refused taken slack s' where
  min := by rw [h₁, h.min]
  nfree := by rw [h₂, h₃, h.nfree]
  nstandby := by rw [h₂, h₄, h.nstandby]
  short := by
    rw [h₅, State.avail, h₂]
    exact h.short
  signalled := by
    rw [h₅, h₆]
    exact h.signalled

theorem modifyPage (h : Watched m refused taken slack s) (p : Pfn) (f : VmPage → VmPage) :
    Watched m refused taken slack (s.modifyPage p f) :=
  h.of_eq rfl rfl rfl rfl rfl rfl

theorem checkShortage (hm : 1 ≤ m) (h : Watched m refused taken 0 s) :
    Watched m refused taken 0 (VmmSim.checkShortage s).2 := by
  unfold VmmSim.checkShortage
  split
  · rename_i hs
    have hle : s.avail ≤ m := by
      simpa [State.vmpPageShortage, State.avail, h.min] using hs
    have base : Watched m refused taken 0
        { s with wasShortage := true, sufficientPagesEvent := false } :=
      ⟨h.min, h.nfree, h.nstandby, fun _ => by change s.avail < _; omega, fun hf => nomatch hf⟩
    dsimp only
    split <;> split <;> exact base.of_eq rfl rfl rfl rfl rfl rfl
  · exact h

/-- The check at the end of a release restores the invariant whatever the release did to the
counters. -/
theorem releaseSufficience (hm : 1 ≤ m) (hmin : s.vmparam.minAvailForAlloc = m)
    (hf : s.vmstat.nfree = s.freePgq.length) (hs : s.vmstat.nstandby = s.standbyPgq.length + taken)
    (ho : s.wasShortage = false → refused = true → s.sufficientPagesEvent = true) :
    Watched m refused taken 0 (VmmSim.releaseSufficience s) := by
  have hmod : m * 2 % 2 ^ 64 ≤ 2 * m := by omega
  have below : ∀ t : State, t.vmparam.minAvailForAlloc = m →
      ¬ (t.wasShortage = true ∧ t.vmpPageSufficience = true) → t.wasShortage = true →
      t.avail < 2 * m + 0 := fun t ht hn hw => by
    have : ¬ t.vmpPageSufficience = true := fun hv => hn ⟨hw, hv⟩
    simp only [State.vmpPageSufficience, ht, decide_eq_true_eq, not_le] at this
    unfold State.avail
    omega
  have hc : (VmmSim.checkShortage s).2.vmparam = s.vmparam ∧
      (VmmSim.checkShortage s).2.vmstat = s.vmstat ∧
      (VmmSim.checkShortage s).2.freePgq = s.freePgq ∧
      (VmmSim.checkShortage s).2.standbyPgq = s.standbyPgq ∧
      ((VmmSim.checkShortage s).2.wasShortage = false → refused = true →
        (VmmSim.checkShortage s).2.sufficientPagesEvent = true) := by
    unfold VmmSim.checkShortage
    split
    · dsimp only
      split <;> split <;> exact ⟨rfl, rfl, rfl, rfl, fun hf => nomatch hf⟩
    · exact ⟨rfl, rfl, rfl, rfl, ho⟩
  obtain ⟨c₁, c₂, c₃, c₄, c₅⟩ := hc
  unfold VmmSim.releaseSufficience
  dsimp only
  split
  · exact ⟨by rw [← hmin, ← c₁], by rw [← c₂, ← c₃] at hf; exact hf,
      by rw [← c₂, ← c₄] at hs; exact hs, (fun hf => nomatch hf), fun _ _ => rfl⟩
  · rename_i hn
    exact ⟨by rw [← hmin, ← c₁], by rw [← c₂, ← c₃] at hf; exact hf,
      by rw [← c₂, ← c₄] at hs; exact hs, below _ (by rw [c₁, hmin]) hn, c₅⟩

end Watched

section Operations

variable {m : ℕ} {refused : Bool} {taken : ℕ} {s : State}

theorem wp_vmpPageRetainLocked_watched (h : Watched m refused taken 0 s) (p : Pfn) :
    Wp (fun _ => True) (vmpPageRetainLocked s p) (Watched m refused taken 0) := by
  unfold vmpPageRetainLocked
  dsimp only
  split
  · simp only [Wp.bind_iff, wp_kassert]
    refine ⟨fun _ => ?_, fun _ => trivial⟩
    split
    · refine Wp.bind (wp_true _) fun q _ => ?_
      exact ⟨h.min, h.nfree, h.nstandby, h.short, h.signalled⟩
    · unfold tailqRemove
      split
      · rename_i hm
        have hlen := List.length_erase_of_mem hm
        have hpos := List.length_pos_of_mem hm
        have hn := h.nstandby
        simp only [State.modifyPage_standbyPgq] at hlen hpos
        refine ⟨h.min, h.nfree, ?_, fun hw => ?_, h.signalled⟩
        · simp only [State.modifyPage_standbyPgq, State.modifyPage_vmstat, hlen, hn]
          omega
        · have := h.short hw
          simp only [State.avail, State.modifyPage_vmstat] at this ⊢
          omega
      · trivial
  · exact h.modifyPage p _

/-- A release keeps the invariant, up to the page freed when the last reference to a deleted page
goes. -/
theorem wp_vmpPageReleaseLocked_watched (hm : 1 ≤ m) (h : Watched m refused taken 0 s) (p : Pfn)
    (slack : ℕ)
    (hd : (s.pages p).refcnt = 1 → (s.pages p).use = .deleted → s.wasShortage = true →
      s.avail + 1 < 2 * m + slack) :
    Wp (fun _ => True) (vmpPageReleaseLocked s p) (Watched m refused taken slack) := by
  have loose : ∀ t, Watched m refused taken 0 t → Watched m refused taken slack t :=
    fun t ht => ⟨ht.min, ht.nfree, ht.nstandby, fun hw => by have := ht.short hw; omega, ht.signalled⟩
  simp only [vmpPageReleaseLocked, Wp.bind_iff, wp_kassert]
  refine ⟨fun _ => ⟨fun _ => ?_, fun _ => trivial⟩, fun _ => trivial⟩
  split
  · rename_i h1
    cases huse : (s.pages p).use with
    | deleted =>
      simp only [releaseLast, State.modifyPage_pages_self, huse, Wp.ok_iff]
      refine ⟨h.min, ?_, h.nstandby, fun hw => ?_, h.signalled⟩
      · simpa using h.nfree
      · have := hd h1 huse hw
        simp only [State.avail, State.modifyPage_vmstat] at this ⊢
        omega
    | anonPrivate =>
      simp only [releaseLast, State.modifyPage_pages_self, huse, Wp.ok_iff]
      refine loose _ ?_
      simp only [enqueuePageable, State.modifyPage_pages_self]
      split
      · exact Watched.releaseSufficience hm h.min h.nfree h.nstandby h.signalled
      · refine Watched.releaseSufficience hm h.min h.nfree ?_ h.signalled
        have := h.nstandby
        simp only [State.modifyPage_vmstat, State.modifyPage_standbyPgq, List.length_append,
          List.length_singleton]
        omega
    | _ =>
      simp only [releaseLast, State.modifyPage_pages_self, huse]
      trivial
  · exact loose _ (h.modifyPage p _)

theorem wp_unmapStolen_watched (hm : 1 ≤ m) (h : Watched m refused taken 0 s) (p : Pfn) :
    Wp (fun _ => True) (unmapStolen s p) (Watched m refused taken 1) := by
  have drop : ∀ (t : State) (q : Pfn), Watched m refused taken 0 t →
      Wp (fun _ => True) (dropNonswap t q) (Watched m refused taken 0) := fun t q ht => by
    unfold dropNonswap
    dsimp only
    split
    · unfold vmpWslUnlockEntry
      split
      · trivial
      · exact ht.of_eq rfl rfl rfl rfl rfl rfl
    · exact ht.modifyPage q _
  unfold unmapStolen
  split
  · refine Wp.bind (wp_true _) fun pte _ => ?_
    refine Wp.bind (wp_true _) fun table _ => ?_
    refine Wp.bind (drop (s.setPte pte _) table (h.of_eq rfl rfl rfl rfl rfl rfl)) fun t ht => ?_
    exact wp_vmpPageReleaseLocked_watched hm ht table 1 fun _ _ hw => by
      have := ht.short hw
      omega
  · trivial

theorem wp_stealPage_watched (hm : 1 ≤ m) (h : Watched m refused 0 0 s) (use : PageUse) :
    Wp (fun _ => True) (stealPage s use) fun r => Watched m refused 0 0 r.2 ∧
      (r.1 = none → s.standbyPgq = []) := by
  unfold stealPage
  split
  · rename_i hq
    exact ⟨h, fun _ => hq⟩
  · rename_i p q hq
    have taken : Watched m refused 1 0 { s with standbyPgq := q } :=
      ⟨h.min, h.nfree, by simpa [hq] using h.nstandby, h.short, h.signalled⟩
    refine Wp.bind (wp_unmapStolen_watched hm taken p) fun t ht => ?_
    simp only [Wp.bind_iff, wp_kassert]
    refine ⟨fun _ => ⟨fun _ => ?_, fun _ => trivial⟩, fun _ => trivial⟩
    have hn := ht.nstandby
    refine ⟨⟨ht.min, ht.nfree, ?_, fun hw => ?_, ht.signalled⟩, fun hf => nomatch hf⟩
    · simp [hn]
    · have hlt := ht.short hw
      change t.vmstat.nfree + (t.vmstat.nstandby - 1) < 2 * m + 0
      unfold State.avail at hlt
      omega

theorem wp_takeFree_watched (h : Watched m refused 0 0 s) {p : Pfn} {q : List Pfn}
    (hq : s.freePgq = p :: q) (use : PageUse) :
    Wp (fun _ => True) (takeFree s p q use) (Watched m refused 0 0) := by
  unfold takeFree
  simp only [Wp.bind_iff, wp_kassert]
  refine ⟨fun _ => ⟨fun _ => ⟨fun _ => ?_, fun _ => trivial⟩, fun _ => trivial⟩, fun _ => trivial⟩
  have hn := h.nfree
  rw [hq] at hn
  refine ⟨h.min, ?_, h.nstandby, fun hw => ?_, h.signalled⟩
  · simp [hn]
  · have := h.short hw
    simp only [State.avail, clearPage_vmstat, State.modifyPage_vmstat] at this ⊢
    omega

/-- Allocation keeps the invariant, and is refused only during a shortage. -/
theorem wp_vmpPageAllocLocked_watched (hm : 1 ≤ m) (h : Watched m refused 0 0 s) (use : PageUse)
    (must : Bool) :
    Wp (fun _ => True) (vmpPageAllocLocked s use must) fun r =>
      Watched m (refused || r.1.isNone) 0 0 r.2 := by
  have hc := h.checkShortage hm
  have hshort : (checkShortage s).1 = true → (checkShortage s).2.wasShortage = true := by
    unfold checkShortage
    split
    · dsimp only
      split <;> split <;> exact fun _ => rfl
    · exact fun hf => nomatch hf
  have hlong : (checkShortage s).1 = false → (checkShortage s).2 = s ∧ m < s.avail := by
    unfold checkShortage
    split
    · exact fun hf => nomatch hf
    · rename_i hs
      refine fun _ => ⟨rfl, ?_⟩
      simpa [State.vmpPageShortage, State.avail, h.min] using hs
  have keep : ∀ t r, Watched m refused 0 0 t → t.wasShortage = true →
      Watched m r 0 0 t := fun t r ht hw =>
    ⟨ht.min, ht.nfree, ht.nstandby, ht.short, fun hf => by rw [hw] at hf; cases hf⟩
  unfold vmpPageAllocLocked
  dsimp only
  split
  · rename_i hs
    exact keep _ _ hc (hshort hs.1)
  · rename_i hs
    split
    · rename_i hfree
      refine Wp.bind (wp_stealPage_watched hm hc use) fun r hr => ?_
      obtain ⟨hr, hempty⟩ := hr
      split
      · trivial
      · rename_i hmust
        change Watched m (refused || r.1.isNone) 0 0 r.2
        cases hr1 : r.1 with
        | some p => simpa using hr
        | none =>
          -- with both queues empty there is a shortage, and the allocation was one that must not fail
          have hm' : must = false := by simpa [hr1] using hmust
          have hl : (checkShortage s).1 = false := by simpa [hm'] using hs
          obtain ⟨hcs, hav⟩ := hlong hl
          have h₁ := hempty hr1
          rw [hcs] at hfree h₁
          have := h.nfree
          have := h.nstandby
          simp only [hfree, h₁, List.length_nil] at *
          unfold State.avail at hav
          omega
    · rename_i p q hq
      refine Wp.bind (wp_takeFree_watched hc hq use) fun t ht => ?_
      simpa using ht

end Operations

/-! ## Runs -/

theorem pagesInit_watched (c : Config) :
    Watched c.vmparam.minAvailForAlloc false 0 0 (pagesInit c) where
  min := rfl
  nfree := (List.length_finRange).symm
  nstandby := rfl
  short hw := nomatch hw
  signalled _ hr := nomatch hr

/-- The invariant of a run, with its record of refused allocations. -/
def WatchedRun (m : ℕ) (x : State × Bool) : Prop := Watched m x.2 0 0 x.1

theorem watchStep_watched {m : ℕ} (hm : 1 ≤ m) {op : PageOp} {x y : State × Bool}
    (h : WatchedRun m x) (hc : ReleaseChecked op x) (hs : watchStep op x = .ok y) :
    WatchedRun m y := by
  suffices Wp (fun _ => True) (watchStep op x) (WatchedRun m) from this.of_ok hs
  cases op with
  | alloc use must => exact Wp.bind (wp_vmpPageAllocLocked_watched hm h use must) fun _ hr => hr
  | retain p =>
    refine Wp.bind (R := Watched m x.2 0 0) ?_ fun _ ht => ht
    simp only [pageStep]
    split
    · trivial
    · exact wp_vmpPageRetainLocked_watched h p
  | release p =>
    refine Wp.bind (wp_vmpPageReleaseLocked_watched hm h p 0 fun h1 hd hw => ?_) fun _ ht => ht
    have := hc p rfl h1 hd hw
    rwa [h.min] at this
  | caller w =>
    refine Wp.bind (R := Watched m x.2 0 0) ?_ fun _ ht => ht
    exact h.of_eq rfl rfl rfl rfl rfl rfl

theorem notStranded_of_watched {m : ℕ} {x : State × Bool} (h : WatchedRun m x) :
    NotStranded x := by
  intro hle
  rw [h.min] at hle
  have hw : x.1.wasShortage = false := by
    by_contra hw
    have := h.short (by simpa using hw)
    omega
  exact ⟨hw, h.signalled hw⟩

/-- A release that is not checked leaves the flag of the shortage up. -/
theorem stranded_of_unchecked {op : PageOp} {x y : State × Bool} (hc : ¬ ReleaseChecked op x)
    (hs : watchStep op x = .ok y) : ¬ NotStranded y := by
  unfold ReleaseChecked at hc
  push Not at hc
  obtain ⟨p, rfl, h1, hd, hw, hle⟩ := hc
  have hgt : (x.1.pages p).refcnt > 0 := by omega
  have hu : (x.1.pages p).use ≠ .free := by simp [hd]
  change (vmpPageReleaseLocked x.1 p >>= fun s => .ok (s, x.2)) = .ok y at hs
  rw [vmpPageReleaseLocked, kassert_of hgt, kassert_of hu] at hs
  simp only [h1, if_true, releaseLast, State.modifyPage_pages_self, hd, ok_bind] at hs
  cases hs
  intro hn
  have enough : 2 * x.1.vmparam.minAvailForAlloc ≤ x.1.vmstat.nfree + 1 + x.1.vmstat.nstandby := by
    unfold State.avail at hle
    omega
  have hdown : x.1.wasShortage = false := (hn enough).1
  rw [hw] at hdown
  cases hdown

/-- **No waiter is stranded**, in every run in which no deleted page is released across the
threshold during a shortage; and such a release, after such a run, strands. -/
theorem never_stranded {c : Config} (hm : 1 ≤ c.vmparam.minAvailForAlloc) {x : State × Bool}
    (h : Run watchStep ReleaseChecked (pagesInit c, false) x) :
    NotStranded x ∧ ∀ op y, watchStep op x = .ok y → ¬ ReleaseChecked op x → ¬ NotStranded y :=
  ⟨notStranded_of_watched (h.invariant (pagesInit_watched c)
    fun _ _ _ ha hc hs => watchStep_watched hm ha hc hs),
    fun _ _ hs hc => stranded_of_unchecked hc hs⟩

/-- `main`'s configuration, with the least that the shortage test can look for. -/
def scarceConfig : Config := { mainConfig with vmparam := ⟨4, 8, 1⟩ }

/-- Page tables are allocated until an allocation is refused; then one of them is deleted. -/
def deleteTable : List PageOp :=
  List.replicate 31 (.alloc .pml1 true) ++
    [.alloc .pml1 false,
      .caller ⟨fun p => ⟨if p = 0 then .deleted else .pml1, false, 0, 0, 0, 0, noSlot⟩,
        fun _ => 0, ⟨[], [], 0, 0, 4⟩, 0⟩,
      .release 0]

/-- Two pages are available, twice the least, and the waiter has not been woken. -/
theorem stranded_by_deleted :
    ∃ x, runSteps watchStep deleteTable (pagesInit scarceConfig, false) = .ok x ∧
      x.1.avail = 2 ∧ x.1.wasShortage = true ∧ x.1.sufficientPagesEvent = false ∧
      ¬ NotStranded x := by
  have run : ∃ x, runSteps watchStep deleteTable (pagesInit scarceConfig, false) = .ok x ∧
      x.1.vmparam.minAvailForAlloc = 1 ∧
      x.1.avail = 2 ∧ x.1.wasShortage = true ∧ x.1.sufficientPagesEvent = false :=
    ⟨_, rfl, rfl, rfl, rfl, rfl⟩
  obtain ⟨x, hx, hm, ha, hw, he⟩ := run
  refine ⟨x, hx, ha, hw, he, fun hn => ?_⟩
  have hd := (hn (by rw [hm, ha])).1
  rw [hw] at hd
  cases hd

/-- Pages are handed out until an allocation is refused. -/
def handOutAll : List PageOp := List.replicate 31 (.alloc .anonPrivate true) ++ [.alloc .anonPrivate false]

/-- One page is given back after that; the release is checked and wakes the waiter. -/
theorem never_stranded_handOutAll :
    ∃ x y, runSteps watchStep handOutAll (pagesInit scarceConfig, false) = .ok x ∧
      watchStep (.release 0) x = .ok y ∧ y.2 = true ∧ y.1.avail = 2 ∧ NotStranded y := by
  have run : ∃ x y, runSteps watchStep handOutAll (pagesInit scarceConfig, false) = .ok x ∧
      watchStep (.release 0) x = .ok y ∧ (x.1.pages 0).use = .anonPrivate ∧
      y.2 = true ∧ y.1.avail = 2 := ⟨_, _, rfl, rfl, rfl, rfl, rfl⟩
  obtain ⟨x, y, hx, hy, hu, hr, ha⟩ := run
  have first : Run watchStep ReleaseChecked (pagesInit scarceConfig, false) x :=
    run_of_steps hx fun op hop a p hp => by
      subst hp
      simp [handOutAll] at hop
  have checked : ReleaseChecked (.release 0) x := fun p hp _ hd => by
    cases hp
    rw [hu] at hd
    cases hd
  exact ⟨x, y, hx, hy, hr, ha, (never_stranded (by decide) (first.step _ checked hy)).1⟩

end VmmSim
