import VmmSim.Narrow

/-!
# Page conservation

The page database on its own: allocations, retains and releases in any order, with its callers
writing what they like into the fields that are theirs. Every page is in one of four classes, and
`vmstat` counts the classes (`Conserved`), as long as no page is referred to 2^16 times
(`pages_conserved`); with 2^16 references to one page the count wraps to 0 (`refcnt_wraps`).
-/

namespace VmmSim

open Lib

/-! ## Callers of the page database -/

/-- What callers may have written: the fields of the pages, the simulated memory and the working
set list. -/
structure CallerWrites where
  pages : Pfn → VmPage
  mem : Pfn → Contents
  wsl : Wsl
  pml4Page : Pfn

/-- A caller's writes. The reference count is not a caller's to write, and the use and the dirty
flag are a caller's only while the page has a reference. -/
def callerWrite (s : State) (w : CallerWrites) : State :=
  { s with
    pages := fun p => { w.pages p with
      refcnt := (s.pages p).refcnt
      use := if (s.pages p).refcnt = 0 then (s.pages p).use else (w.pages p).use
      dirty := if (s.pages p).refcnt = 0 then (s.pages p).dirty else (w.pages p).dirty }
    mem := w.mem
    wsl := w.wsl
    pml4Page := w.pml4Page }

/-- Operations on the page database. -/
inductive PageOp
  | alloc (use : PageUse) (must : Bool)
  | retain (p : Pfn)
  | release (p : Pfn)
  | caller (w : CallerWrites)

/-- One operation. Callers retain a page without references only when it is on the standby or the
modified queue. -/
def pageStep (op : PageOp) (s : State) : Res State :=
  match op with
  | .alloc use must => do
    let (_, s) ← vmpPageAllocLocked s use must
    return s
  | .retain p =>
    if (s.pages p).refcnt = 0 ∧ p ∉ s.standbyPgq ∧ p ∉ s.modifiedPgq then .error .wait
    else vmpPageRetainLocked s p
  | .release p => vmpPageReleaseLocked s p
  | .caller w => .ok (callerWrite s w)

/-- `SIM_pages_init`, with the parameters set. -/
def pagesInit (c : Config) : State := { simPagesInit c with vmparam := c.vmparam }

theorem pagesInit_queues (c : Config) : (pagesInit c).Queues none where
  mem_free p := by simp [pagesInit, simPagesInit]
  mem_standby p := by simp [pagesInit, simPagesInit]
  mem_modified p := by simp [pagesInit, simPagesInit]
  skipped p hp := nomatch hp
  idle p _ := .inl rfl
  nodup_free := List.nodup_finRange _
  nodup_standby := List.nodup_nil
  nodup_modified := List.nodup_nil
  nfree := (List.length_finRange).symm
  nstandby := rfl
  nmodified := rfl
  nactive := (countWhere_eq_zero.2 fun _ => rfl).symm
  refcnt_le p := by simp [pagesInit, simPagesInit]

theorem callerWrite_queues {s : State} (h : s.Queues none) (w : CallerWrites) :
    (callerWrite s w).Queues none :=
  h.congr (fun _ => rfl) (fun _ hp => if_pos hp) (fun _ hp => if_pos hp)

/-- The operation does not make the 2^16-th reference to a page. -/
def BelowLimit (op : PageOp) (s : State) : Prop :=
  ∀ p, op = .retain p → (s.pages p).refcnt + 1 < 2 ^ 16

/-- A page that a caller may retain is not free. -/
theorem not_free_of_retainable {s : State} (h : s.Queues none) {p : Pfn}
    (hr : ¬ ((s.pages p).refcnt = 0 ∧ p ∉ s.standbyPgq ∧ p ∉ s.modifiedPgq))
    (h0 : (s.pages p).refcnt = 0) : (s.pages p).use ≠ .free := by
  intro hu
  refine hr ⟨h0, fun hm => ?_, fun hm => ?_⟩
  · simpa [hu] using (h.mem_standby p).1 hm
  · simpa [hu] using (h.mem_modified p).1 hm

theorem pageStep_queues {op : PageOp} {s s' : State} (h : s.Queues none) (hb : BelowLimit op s)
    (hs : pageStep op s = .ok s') : s'.Queues none := by
  cases op with
  | alloc use must =>
    have alloc : Wp (fun _ => True) (pageStep (.alloc use must) s) fun s' => s'.Queues none :=
      Wp.bind (wp_vmpPageAllocLocked_queues h use must) fun _ hr => hr
    exact alloc.of_ok hs
  | retain p =>
    simp only [pageStep] at hs
    split at hs
    · cases hs
    · rename_i hr
      exact (wp_vmpPageRetainLocked h (by simp) (not_free_of_retainable h hr) (hb p rfl)).of_ok hs
  | release p => exact (wp_vmpPageReleaseLocked h).of_ok hs
  | caller w =>
    cases hs
    exact callerWrite_queues h w

/-- The queue invariant holds in every state of a run below the limit. -/
theorem run_queues {c : Config} {s : State} (h : Run pageStep BelowLimit (pagesInit c) s) :
    s.Queues none :=
  h.invariant (pagesInit_queues c) fun _ _ _ ha hc hs => pageStep_queues ha hc hs

/-! ## The four classes -/

/-- The classes a page can be in. -/
inductive PageClass
  | free
  | standby
  | modified
  | active
  deriving DecidableEq, Repr

/-- Membership in a class: the queue the page is on, and what its fields are there. -/
def InClass (s : State) (c : PageClass) (p : Pfn) : Prop :=
  match c with
  | .free => s.freePgq.count p = 1 ∧ s.standbyPgq.count p = 0 ∧ s.modifiedPgq.count p = 0 ∧
      (s.pages p).refcnt = 0 ∧ (s.pages p).use = .free
  | .standby => s.freePgq.count p = 0 ∧ s.standbyPgq.count p = 1 ∧ s.modifiedPgq.count p = 0 ∧
      (s.pages p).refcnt = 0 ∧ (s.pages p).use = .anonPrivate ∧ (s.pages p).dirty = false
  | .modified => s.freePgq.count p = 0 ∧ s.standbyPgq.count p = 0 ∧ s.modifiedPgq.count p = 1 ∧
      (s.pages p).refcnt = 0 ∧ (s.pages p).use = .anonPrivate ∧ (s.pages p).dirty = true
  | .active => s.freePgq.count p = 0 ∧ s.standbyPgq.count p = 0 ∧ s.modifiedPgq.count p = 0 ∧
      0 < (s.pages p).refcnt

instance (s : State) (c : PageClass) : DecidablePred (InClass s c) := fun p => by
  cases c <;> exact inferInstanceAs (Decidable (_ ∧ _))

/-- The number of pages in a class. -/
def classSize (s : State) (c : PageClass) : ℕ := (Finset.univ.filter (InClass s c)).card

/-- Every page is in exactly one class, and `vmstat` counts the classes. -/
structure Conserved (s : State) : Prop where
  classes : ∀ p, ∃! c, InClass s c p
  nfree : s.vmstat.nfree = classSize s .free
  nstandby : s.vmstat.nstandby = classSize s .standby
  nmodified : s.vmstat.nmodified = classSize s .modified
  nactive : s.vmstat.nactive = classSize s .active
  total : s.vmstat.nfree + s.vmstat.nstandby + s.vmstat.nmodified + s.vmstat.nactive = softNPages

section Classes

variable {s : State} (h : s.Queues none)

include h

theorem inClass_free_iff (p : Pfn) : InClass s .free p ↔ p ∈ s.freePgq := by
  constructor
  · intro hp
    exact List.count_pos_iff.1 (by rw [hp.1]; decide)
  · intro hp
    obtain ⟨h0, hu⟩ := (h.mem_free p).1 hp
    refine ⟨List.count_eq_one_of_mem h.nodup_free hp, List.count_eq_zero.2 fun hm => ?_,
      List.count_eq_zero.2 fun hm => ?_, h0, hu⟩
    · simpa [hu] using (h.mem_standby p).1 hm
    · simpa [hu] using (h.mem_modified p).1 hm

theorem inClass_standby_iff (p : Pfn) : InClass s .standby p ↔ p ∈ s.standbyPgq := by
  constructor
  · intro hp
    exact List.count_pos_iff.1 (by rw [hp.2.1]; decide)
  · intro hp
    obtain ⟨-, h0, hu, hd⟩ := (h.mem_standby p).1 hp
    refine ⟨List.count_eq_zero.2 fun hm => ?_, List.count_eq_one_of_mem h.nodup_standby hp,
      List.count_eq_zero.2 fun hm => ?_, h0, hu, hd⟩
    · simpa [hu] using (h.mem_free p).1 hm
    · simpa [hd] using (h.mem_modified p).1 hm

theorem inClass_modified_iff (p : Pfn) : InClass s .modified p ↔ p ∈ s.modifiedPgq := by
  constructor
  · intro hp
    exact List.count_pos_iff.1 (by rw [hp.2.2.1]; decide)
  · intro hp
    obtain ⟨h0, hu, hd⟩ := (h.mem_modified p).1 hp
    refine ⟨List.count_eq_zero.2 fun hm => ?_, List.count_eq_zero.2 fun hm => ?_,
      List.count_eq_one_of_mem h.nodup_modified hp, h0, hu, hd⟩
    · simpa [hu] using (h.mem_free p).1 hm
    · simpa [hd] using (h.mem_standby p).1 hm

theorem inClass_active_iff (p : Pfn) : InClass s .active p ↔ 0 < (s.pages p).refcnt := by
  refine ⟨fun hp => hp.2.2.2, fun hp => ?_⟩
  obtain ⟨hf, hs, hm⟩ := h.not_mem (p := p) (by omega)
  exact ⟨List.count_eq_zero.2 hf, List.count_eq_zero.2 hs, List.count_eq_zero.2 hm, hp⟩

/-- The class of a page, by its reference count, use and dirty flag. -/
theorem exists_inClass (p : Pfn) : ∃ c, InClass s c p := by
  by_cases h0 : (s.pages p).refcnt = 0
  · rcases h.idle p h0 with hu | hu
    · exact ⟨.free, (inClass_free_iff h p).2 ((h.mem_free p).2 ⟨h0, hu⟩)⟩
    · cases hd : (s.pages p).dirty with
      | false =>
        exact ⟨.standby, (inClass_standby_iff h p).2
          ((h.mem_standby p).2 ⟨by simp, h0, hu, hd⟩)⟩
      | true =>
        exact ⟨.modified, (inClass_modified_iff h p).2 ((h.mem_modified p).2 ⟨h0, hu, hd⟩)⟩
  · exact ⟨.active, (inClass_active_iff h p).2 (by omega)⟩

end Classes

/-- The counts of a page in the three queues, which differ between classes. -/
theorem inClass_unique {s : State} {p : Pfn} {c d : PageClass} (hc : InClass s c p)
    (hd : InClass s d p) : c = d := by
  cases c <;> cases d <;> first | rfl | (simp only [InClass] at hc hd; omega)

/-- The queue invariant is conservation of pages. -/
theorem conserved_of_queues {s : State} (h : s.Queues none) : Conserved s := by
  have card : ∀ (c : PageClass) (q : List Pfn), q.Nodup → (∀ p, InClass s c p ↔ p ∈ q) →
      classSize s c = q.length := fun c q hq hmem => by
    rw [classSize, ← List.toFinset_card_of_nodup hq]
    congr 1
    ext p
    simp [hmem]
  have hf := card .free _ h.nodup_free (inClass_free_iff h)
  have hs := card .standby _ h.nodup_standby (inClass_standby_iff h)
  have hm := card .modified _ h.nodup_modified (inClass_modified_iff h)
  have ha : s.vmstat.nactive = classSize s .active := by
    rw [h.nactive, countWhere, classSize]
    congr 1
    ext p
    simp [inClass_active_iff h]
  have hst : s.vmstat.nstandby = s.standbyPgq.length := by simpa using h.nstandby
  -- the classes are the fibres of the map that gives each page its class
  have hcl : ∀ p, ∃ c, InClass s c p := exists_inClass h
  choose cls hcls using hcl
  have hfib : ∀ c, classSize s c = (Finset.univ.filter fun p => cls p = c).card := fun c => by
    rw [classSize]
    congr 1
    ext p
    simp only [Finset.mem_filter, Finset.mem_univ, true_and]
    exact ⟨fun hp => inClass_unique (hcls p) hp, fun hp => hp ▸ hcls p⟩
  have hsum : softNPages = ∑ c ∈ ({.free, .standby, .modified, .active} : Finset PageClass),
      (Finset.univ.filter fun p => cls p = c).card := by
    rw [← Finset.card_eq_sum_card_fiberwise (s := Finset.univ) (f := cls)]
    · simp
    · intro p _
      cases cls p <;> simp
  simp only [← hfib] at hsum
  rw [Finset.sum_insert (by decide), Finset.sum_insert (by decide), Finset.sum_insert (by decide),
    Finset.sum_singleton] at hsum
  refine ⟨fun p => ⟨cls p, hcls p, fun c hc => inClass_unique hc (hcls p)⟩, h.nfree.trans hf.symm,
    hst.trans hs.symm, h.nmodified.trans hm.symm, ha, ?_⟩
  have hnf := h.nfree
  have hnm := h.nmodified
  omega

/-! ## Conservation over runs -/

/-- A page that may be retained is taken off the queue it is on. -/
theorem retain_defined {s : State} (h : s.Queues none) (p : Pfn) :
    pageStep (.retain p) s ≠ .error .wild := by
  simp only [pageStep]
  split
  · simp
  · rename_i hr
    by_cases hlt : (s.pages p).refcnt + 1 < 2 ^ 16
    · have total := wp_vmpPageRetainLocked h (by simp) (not_free_of_retainable h hr) hlt
      obtain ⟨s', hs', -⟩ := wp_false_iff.1 total
      simp [hs']
    · rw [vmpPageRetainLocked_of_ne (by omega)]
      simp

/-- **Page conservation.** From `SIM_pages_init` on, as long as no page gets 2^16 references,
every page is in exactly one class and the counters are the sizes of the classes; and a page that
is retained is unlinked from the queue it is on. -/
theorem pages_conserved {c : Config} {s : State}
    (h : Run pageStep BelowLimit (pagesInit c) s) :
    Conserved s ∧ ∀ p, pageStep (.retain p) s ≠ .error .wild :=
  ⟨conserved_of_queues (run_queues h), retain_defined (run_queues h)⟩

/-- A configuration with the parameters of `main` and one VAD. -/
def mainConfig : Config where
  softPages := 0x555555560000
  vmparam := ⟨4, 8, 4⟩
  wslMax := 4
  pagefileLength := 1024 * 1024
  vads := .node .nil ⟨0, 4294967296 * 32, true, true, false, false, 0, none⟩ .nil
  drum _ := 0

/-- The first page, allocated, given to a program, dirtied and released. -/
def releaseDirty : List PageOp :=
  [.alloc .anonPrivate false,
    .caller ⟨fun _ => ⟨.anonPrivate, true, 0, 0, 0, 0, 0⟩, fun _ => 0, ⟨[], [], 0, 0, 4⟩, 0⟩,
    .release 0]

theorem pages_conserved_releaseDirty :
    ∃ s, runSteps pageStep releaseDirty (pagesInit mainConfig) = .ok s ∧
      s.modifiedPgq = [0] ∧ Conserved s := by
  have run : ∃ s, runSteps pageStep releaseDirty (pagesInit mainConfig) = .ok s ∧
      s.modifiedPgq = [0] := ⟨_, rfl, rfl⟩
  obtain ⟨s, hs, hq⟩ := run
  have hb : ∀ op ∈ releaseDirty, ∀ a, BelowLimit op a := by
    intro op hop a p hp
    subst hp
    simp [releaseDirty] at hop
  exact ⟨s, hs, hq, (pages_conserved (run_of_steps hs hb)).1⟩

/-! ## The limit of the reference count -/

/-- Retaining a referenced page below the limit only counts. -/
theorem runSteps_retain (p : Pfn) (n : ℕ) {s : State} (h0 : (s.pages p).refcnt ≠ 0)
    (hlt : (s.pages p).refcnt + n < 2 ^ 16) :
    runSteps pageStep (List.replicate n (.retain p)) s =
      .ok (s.modifyPage p fun pg => { pg with refcnt := pg.refcnt + n }) := by
  induction n generalizing s with
  | zero => simp [runSteps, State.modifyPage]
  | succ n ih =>
    have hinc : inc16 (s.pages p).refcnt = (s.pages p).refcnt + 1 := inc16_of_lt (by omega)
    have first : pageStep (.retain p) s =
        .ok (s.modifyPage p fun pg => { pg with refcnt := inc16 pg.refcnt }) := by
      rw [pageStep, if_neg (by simp [h0]), vmpPageRetainLocked_of_ne h0]
    rw [List.replicate_succ, runSteps, first]
    dsimp only
    rw [ih (by simp [hinc]) (by simp [hinc]; omega)]
    simp only [State.modifyPage, Function.update_self, Function.update_idem, hinc]
    congr 4
    omega

/-- A reference count that wraps: the first page, allocated once and retained 65535 times, has
no reference and is on no queue. -/
theorem refcnt_wraps :
    ∃ s, runSteps pageStep (.alloc .kWired true :: List.replicate 65535 (.retain 0))
      (pagesInit mainConfig) = .ok s ∧ ¬ Conserved s := by
  have alloc : ∃ s, pageStep (.alloc .kWired true) (pagesInit mainConfig) = .ok s ∧
      (s.pages 0).refcnt = 1 ∧ (s.pages 0).use = .kWired := ⟨_, rfl, rfl, rfl⟩
  obtain ⟨s, hs, hr, hu⟩ := alloc
  have many := runSteps_retain 0 65534 (s := s) (by omega) (by omega)
  have last : ∃ t, pageStep (.retain 0)
      (s.modifyPage 0 fun pg => { pg with refcnt := pg.refcnt + 65534 }) = .ok t ∧
      (t.pages 0).refcnt = 0 ∧ (t.pages 0).use = .kWired := by
    have hne : ((s.modifyPage 0 fun pg => { pg with refcnt := pg.refcnt + 65534 }).pages 0).refcnt
        ≠ 0 := by simp
    refine ⟨_, by rw [pageStep, if_neg (by simp), vmpPageRetainLocked_of_ne hne], ?_, ?_⟩
    · simp [hr, inc16]
    · simp [hu]
  obtain ⟨t, ht, htr, htu⟩ := last
  refine ⟨t, ?_, fun hc => ?_⟩
  · rw [runSteps, hs]
    dsimp only
    rw [List.replicate_succ' (n := 65534), runSteps_append, many]
    simp only [runSteps, ht]
  · obtain ⟨cls, hcls, -⟩ := hc.classes 0
    cases cls with
    | free => exact absurd (htu.symm.trans hcls.2.2.2.2) (by decide)
    | standby => exact absurd (htu.symm.trans hcls.2.2.2.2.1) (by decide)
    | modified => exact absurd (htu.symm.trans hcls.2.2.2.2.1) (by decide)
    | active => exact absurd htr (by have := hcls.2.2.2; omega)

end VmmSim
