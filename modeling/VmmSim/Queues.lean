import VmmSim.Lib.Count
import VmmSim.System

/-!
# The page queues

What the reference count, the use and the dirty flag of a page say about the queue it is on, and
that the counters of `vmstat` count the queues (`QueuesOf`). Retaining, releasing and allocating a
page keep this. While a page is being stolen it is on no queue and still counted as standby; the
invariant has a parameter for that page.
-/

namespace VmmSim

open Lib

/-- Reasons to halt other than undefined behaviour. -/
def Halt.Defined (h : Halt) : Prop := h ≠ .wild

@[simp] theorem Halt.defined_kassert : Halt.kassert.Defined := by simp [Halt.Defined]

@[simp] theorem Halt.defined_kfatal : Halt.kfatal.Defined := by simp [Halt.Defined]

@[simp] theorem Halt.defined_wait : Halt.wait.Defined := by simp [Halt.Defined]

/-- Each queue holds the pages its members' reference count, use and dirty flag call for, once
each, and the counters count them. `skip` is a page that is being stolen. -/
structure QueuesOf (skip : Option Pfn) (pages : Pfn → VmPage) (freeq standbyq modifiedq : List Pfn)
    (stat : VmStat) : Prop where
  mem_free : ∀ p, p ∈ freeq ↔ (pages p).refcnt = 0 ∧ (pages p).use = .free
  mem_standby : ∀ p, p ∈ standbyq ↔
    skip ≠ some p ∧ (pages p).refcnt = 0 ∧ (pages p).use = .anonPrivate ∧ (pages p).dirty = false
  mem_modified : ∀ p, p ∈ modifiedq ↔
    (pages p).refcnt = 0 ∧ (pages p).use = .anonPrivate ∧ (pages p).dirty = true
  skipped : ∀ p, skip = some p →
    (pages p).refcnt = 0 ∧ (pages p).use = .anonPrivate ∧ (pages p).dirty = false
  idle : ∀ p, (pages p).refcnt = 0 → (pages p).use = .free ∨ (pages p).use = .anonPrivate
  nodup_free : freeq.Nodup
  nodup_standby : standbyq.Nodup
  nodup_modified : modifiedq.Nodup
  nfree : stat.nfree = freeq.length
  nstandby : stat.nstandby = standbyq.length + skip.toList.length
  nmodified : stat.nmodified = modifiedq.length
  nactive : stat.nactive = countWhere (fun pg => decide (0 < pg.refcnt)) pages
  refcnt_le : ∀ p, (pages p).refcnt ≤ 2 ^ 16

/-- The queue invariant of a state. -/
abbrev State.Queues (s : State) (skip : Option Pfn) : Prop :=
  QueuesOf skip s.pages s.freePgq s.standbyPgq s.modifiedPgq s.vmstat

/-- Flags and events are not part of the queues. -/
theorem State.Queues.checkShortage {s : State} {skip : Option Pfn} (h : s.Queues skip) :
    (VmmSim.checkShortage s).2.Queues skip := by
  unfold VmmSim.checkShortage
  split
  · dsimp only
    split <;> split <;> exact h
  · exact h

theorem State.Queues.releaseSufficience {s : State} {skip : Option Pfn} (h : s.Queues skip) :
    (VmmSim.releaseSufficience s).Queues skip := by
  unfold VmmSim.releaseSufficience
  dsimp only
  split <;> exact h.checkShortage

namespace QueuesOf

variable {skip : Option Pfn} {pages : Pfn → VmPage} {fq sq mq : List Pfn} {st : VmStat}

/-- Assignments that leave alone the fields the queues depend on. -/
theorem congr {pages' : Pfn → VmPage} (h : QueuesOf skip pages fq sq mq st)
    (hr : ∀ p, (pages' p).refcnt = (pages p).refcnt)
    (hu : ∀ p, (pages p).refcnt = 0 → (pages' p).use = (pages p).use)
    (hd : ∀ p, (pages p).refcnt = 0 → (pages' p).dirty = (pages p).dirty) :
    QueuesOf skip pages' fq sq mq st := by
  obtain ⟨h₁, h₂, h₃, h₄, h₅, h₆, h₇, h₈, h₉, h₁₀, h₁₁, h₁₂, h₁₃⟩ := h
  refine ⟨fun p => ?_, fun p => ?_, fun p => ?_, fun p hp => ?_, fun p hp => ?_, h₆, h₇, h₈, h₉,
    h₁₀, h₁₁, ?_, fun p => ?_⟩
  · rw [h₁, hr]
    exact and_congr_right fun h0 => by rw [hu p h0]
  · rw [h₂, hr]
    exact and_congr_right fun _ => and_congr_right fun h0 => by rw [hu p h0, hd p h0]
  · rw [h₃, hr]
    exact and_congr_right fun h0 => by rw [hu p h0, hd p h0]
  · have h0 := (h₄ p hp).1
    rw [hr, hu p h0, hd p h0]
    exact h₄ p hp
  · rw [hr] at hp
    rw [hu p hp]
    exact h₅ p hp
  · rw [h₁₂]
    exact countWhere_congr fun p => by rw [hr]
  · rw [hr]
    exact h₁₃ p

/-- A page with a reference is on no queue. -/
theorem not_mem (h : QueuesOf skip pages fq sq mq st) {p : Pfn} (hp : (pages p).refcnt ≠ 0) :
    p ∉ fq ∧ p ∉ sq ∧ p ∉ mq := by
  rw [h.mem_free, h.mem_standby, h.mem_modified]
  simp [hp]

/-- Moving one page: the other pages keep their queues, and the moved page is where its new fields
call for. -/
theorem move (h : QueuesOf skip pages fq sq mq st) (p : Pfn) (pg : VmPage) {skip' : Option Pfn}
    {fq' sq' mq' : List Pfn} {st' : VmStat}
    (hskip : ∀ q, q ≠ p → (skip' = some q ↔ skip = some q))
    (hf : ∀ q, q ≠ p → (q ∈ fq' ↔ q ∈ fq)) (hs : ∀ q, q ≠ p → (q ∈ sq' ↔ q ∈ sq))
    (hm : ∀ q, q ≠ p → (q ∈ mq' ↔ q ∈ mq))
    (pf : p ∈ fq' ↔ pg.refcnt = 0 ∧ pg.use = .free)
    (ps : p ∈ sq' ↔ skip' ≠ some p ∧ pg.refcnt = 0 ∧ pg.use = .anonPrivate ∧ pg.dirty = false)
    (pm : p ∈ mq' ↔ pg.refcnt = 0 ∧ pg.use = .anonPrivate ∧ pg.dirty = true)
    (pskip : skip' = some p → pg.refcnt = 0 ∧ pg.use = .anonPrivate ∧ pg.dirty = false)
    (pidle : pg.refcnt = 0 → pg.use = .free ∨ pg.use = .anonPrivate)
    (nf : fq'.Nodup) (ns : sq'.Nodup) (nm : mq'.Nodup) (lf : st'.nfree = fq'.length)
    (ls : st'.nstandby = sq'.length + skip'.toList.length) (lm : st'.nmodified = mq'.length)
    (la : st'.nactive + (decide (0 < (pages p).refcnt)).toNat =
      st.nactive + (decide (0 < pg.refcnt)).toNat) (hle : pg.refcnt ≤ 2 ^ 16) :
    QueuesOf skip' (Function.update pages p pg) fq' sq' mq' st' := by
  have heq : ∀ q, q ≠ p → Function.update pages p pg q = pages q :=
    fun q hq => Function.update_of_ne hq _ _
  refine ⟨fun q => ?_, fun q => ?_, fun q => ?_, fun q hq => ?_, fun q hq => ?_, nf, ns, nm, lf,
    ls, lm, ?_, fun q => ?_⟩
  · by_cases hq : q = p
    · subst hq
      rwa [Function.update_self]
    · rw [hf q hq, heq q hq, h.mem_free]
  · by_cases hq : q = p
    · subst hq
      rwa [Function.update_self]
    · rw [hs q hq, heq q hq, h.mem_standby, ne_eq, ne_eq, hskip q hq]
  · by_cases hq : q = p
    · subst hq
      rwa [Function.update_self]
    · rw [hm q hq, heq q hq, h.mem_modified]
  · by_cases hqp : q = p
    · subst hqp
      rw [Function.update_self]
      exact pskip hq
    · rw [heq q hqp]
      exact h.skipped q ((hskip q hqp).1 hq)
  · by_cases hqp : q = p
    · subst hqp
      rw [Function.update_self] at hq ⊢
      exact pidle hq
    · rw [heq q hqp] at hq ⊢
      exact h.idle q hq
  · have := countWhere_update (fun pg : VmPage => decide (0 < pg.refcnt)) pages p pg
    have := h.nactive
    omega
  · by_cases hq : q = p
    · subst hq
      rwa [Function.update_self]
    · rw [heq q hq]
      exact h.refcnt_le q

/-- Changing a referenced page, which stays referenced. -/
theorem update_active (h : QueuesOf skip pages fq sq mq st) {p : Pfn} {pg : VmPage}
    (hp : (pages p).refcnt ≠ 0) (hr : pg.refcnt ≠ 0) (hle : pg.refcnt ≤ 2 ^ 16) :
    QueuesOf skip (Function.update pages p pg) fq sq mq st := by
  obtain ⟨nf, ns, nm⟩ := h.not_mem hp
  refine h.move p pg (fun _ _ => Iff.rfl) (fun _ _ => Iff.rfl) (fun _ _ => Iff.rfl)
    (fun _ _ => Iff.rfl) (by simp [nf, hr]) (by simp [ns, hr]) (by simp [nm, hr])
    (fun hs => absurd (h.skipped p hs).1 hp) (fun h0 => absurd h0 hr) h.nodup_free
    h.nodup_standby h.nodup_modified h.nfree h.nstandby h.nmodified ?_ hle
  simp [Nat.pos_of_ne_zero hp, Nat.pos_of_ne_zero hr]

end QueuesOf

/-! ## Retaining and releasing -/

/-- Retaining a page takes it off the queue its dirty flag names, and off no other. -/
theorem wp_vmpPageRetainLocked {s : State} {skip : Option Pfn} {p : Pfn} (h : s.Queues skip)
    (hskip : skip ≠ some p) (hfree : (s.pages p).refcnt = 0 → (s.pages p).use ≠ .free)
    (hlt : (s.pages p).refcnt + 1 < 2 ^ 16) :
    Wp (fun _ => False) (vmpPageRetainLocked s p) fun s' => s'.Queues skip := by
  by_cases h0 : (s.pages p).refcnt = 0
  · have hu : (s.pages p).use = .anonPrivate := (h.idle p h0).resolve_left (hfree h0)
    have hnf : p ∉ s.freePgq := fun hf => hfree h0 ((h.mem_free p).1 hf).2
    have hinc : inc16 0 = 1 := rfl
    have hact := h.nactive
    cases hd : (s.pages p).dirty with
    | false =>
      have hm : p ∈ s.standbyPgq := (h.mem_standby p).2 ⟨hskip, h0, hu, hd⟩
      have hnm : p ∉ s.modifiedPgq := fun hm => by simpa [hd] using (h.mem_modified p).1 hm
      have hlen := List.length_pos_of_mem hm
      simp only [vmpPageRetainLocked, h0, if_true, State.modifyPage_pages_self, hu, hd,
        State.modifyPage_standbyPgq, tailqRemove_of_mem hm]
      refine h.move p _ (fun _ _ => Iff.rfl) (fun _ _ => Iff.rfl)
        (fun q hq => List.mem_erase_of_ne hq) (fun _ _ => Iff.rfl) (by simp [hnf, h0, hinc])
        (by simp [h0, hinc, h.nodup_standby.mem_erase_iff]) (by simp [hnm, h0, hinc])
        (fun hs => absurd hs hskip) (by simp [h0, hinc]) h.nodup_free (h.nodup_standby.erase p)
        h.nodup_modified h.nfree ?_ h.nmodified ?_ (by simp [h0, hinc])
      · simp only [State.modifyPage_vmstat, h.nstandby, List.length_erase_of_mem hm]
        omega
      · simp [h0, hinc]
    | true =>
      have hm : p ∈ s.modifiedPgq := (h.mem_modified p).2 ⟨h0, hu, hd⟩
      have hns : p ∉ s.standbyPgq := fun hm => by simpa [hd] using (h.mem_standby p).1 hm
      simp only [vmpPageRetainLocked, h0, if_true, State.modifyPage_pages_self, hu, hd,
        State.modifyPage_modifiedPgq, tailqRemove_of_mem hm]
      refine h.move p _ (fun _ _ => Iff.rfl) (fun _ _ => Iff.rfl) (fun _ _ => Iff.rfl)
        (fun q hq => List.mem_erase_of_ne hq) (by simp [hnf, h0, hinc])
        (by simp [hns, h0, hinc]) (by simp [h0, hinc, h.nodup_modified.mem_erase_iff])
        (fun hs => absurd hs hskip) (by simp [h0, hinc]) h.nodup_free h.nodup_standby
        (h.nodup_modified.erase p) h.nfree h.nstandby ?_ ?_ (by simp [h0, hinc])
      · simp only [State.modifyPage_vmstat, h.nmodified, List.length_erase_of_mem hm]
      · simp [h0, hinc]
  · rw [vmpPageRetainLocked_of_ne h0, Wp.ok_iff]
    exact h.update_active h0 (by simp [inc16_of_lt hlt]) (by simpa using (inc16_lt _).le)

/-- Releasing a page puts it on the queue its use and dirty flag name when the last reference
goes. -/
theorem wp_vmpPageReleaseLocked {s : State} {skip : Option Pfn} {p : Pfn} (h : s.Queues skip) :
    Wp (fun e => e = .kassert ∨ e = .kfatal) (vmpPageReleaseLocked s p)
      fun s' => s'.Queues skip := by
  simp only [vmpPageReleaseLocked, Wp.bind_iff, wp_kassert]
  refine ⟨fun h0 => ⟨fun hu => ?_, fun _ => .inl trivial⟩, fun _ => .inl trivial⟩
  have hne : (s.pages p).refcnt ≠ 0 := by omega
  have hle := h.refcnt_le p
  have hdec : dec16 (s.pages p).refcnt = (s.pages p).refcnt - 1 := dec16_of_pos h0 hle
  obtain ⟨hnf, hns, hnm⟩ := h.not_mem hne
  have hskip : skip ≠ some p := fun hs => hne (h.skipped p hs).1
  split
  · rename_i h1
    have hdec1 : dec16 (s.pages p).refcnt = 0 := by omega
    have hact := h.nactive
    have hpos : 0 < s.vmstat.nactive := by
      rw [hact]
      exact countWhere_pos (by simpa using h0)
    cases huse : (s.pages p).use with
    | deleted =>
      simp only [releaseLast, State.modifyPage_pages_self, huse, Wp.ok_iff]
      simp only [State.modifyPage, Function.update_self, Function.update_idem]
      refine h.move p _ (fun _ _ => Iff.rfl) (fun q hq => by simp [hq]) (fun _ _ => Iff.rfl)
        (fun _ _ => Iff.rfl) (by simp [hdec1]) (by simp [hns]) (by simp [hnm])
        (fun hs => absurd hs hskip) (by simp) (List.nodup_cons.2 ⟨hnf, h.nodup_free⟩)
        h.nodup_standby h.nodup_modified ?_ h.nstandby h.nmodified ?_ (by simp [hdec1])
      · simp [h.nfree]
      · simp [hdec1, h0]
        omega
    | anonPrivate =>
      simp only [releaseLast, State.modifyPage_pages_self, huse, Wp.ok_iff]
      refine State.Queues.releaseSufficience ?_
      simp only [enqueuePageable, State.modifyPage_pages_self]
      cases hd : (s.pages p).dirty with
      | false =>
        refine h.move p _ (fun _ _ => Iff.rfl) (fun _ _ => Iff.rfl) (fun q hq => by simp [hq])
          (fun _ _ => Iff.rfl) (by simp [hnf, huse]) (by simp [hdec1, huse, hd, hskip])
          (by simp [hnm, hd]) (fun hs => absurd hs hskip) (by simp [huse]) h.nodup_free
          (List.nodup_append.2 ⟨h.nodup_standby, by simp, by simpa using fun q hq => ne_of_mem_of_not_mem hq hns⟩) h.nodup_modified
          h.nfree ?_ h.nmodified ?_ (by simp [hdec1])
        · simp [h.nstandby]
          omega
        · simp [hdec1, h0]
          omega
      | true =>
        refine h.move p _ (fun _ _ => Iff.rfl) (fun _ _ => Iff.rfl) (fun _ _ => Iff.rfl)
          (fun q hq => by simp [hq]) (by simp [hnf, huse]) (by simp [hns, hd])
          (by simp [hdec1, huse, hd]) (fun hs => absurd hs hskip) (by simp [huse])
          h.nodup_free h.nodup_standby
          (List.nodup_append.2 ⟨h.nodup_modified, by simp, by simpa using fun q hq => ne_of_mem_of_not_mem hq hnm⟩)
          h.nfree h.nstandby ?_ ?_ (by simp [hdec1])
        · simp [h.nmodified]
        · simp [hdec1, h0]
          omega
    | _ =>
      simp only [releaseLast, State.modifyPage_pages_self, huse]
      exact .inr rfl
  · rename_i h1
    exact h.update_active hne (by simp only; omega) (by simpa using (dec16_lt _).le)

/-! ## Allocating -/

theorem wp_vmpWslUnlockEntry_queues {s : State} {skip : Option Pfn} (h : s.Queues skip)
    (vaddr : ℕ) : Wp (fun _ => True) (vmpWslUnlockEntry s vaddr) fun s' => s'.Queues skip := by
  unfold vmpWslUnlockEntry
  split
  · trivial
  · exact h

theorem wp_dropNonswap_queues {s : State} {skip : Option Pfn} (h : s.Queues skip) (page : Pfn) :
    Wp (fun _ => True) (dropNonswap s page) fun s' => s'.Queues skip := by
  have hdec : (s.modifyPage page fun pg => { pg with nonswapPtes := dec16 pg.nonswapPtes }).Queues
      skip := by
    refine h.congr ?_ ?_ ?_ <;>
      · intro p
        rw [State.modifyPage_pages]
        split <;> simp_all
  unfold dropNonswap
  dsimp only
  split
  · exact wp_vmpWslUnlockEntry_queues hdec _
  · exact hdec

theorem wp_vmpPagetablePagePteBecameSwap_queues {s : State} {skip : Option Pfn}
    (h : s.Queues skip) (page : Pfn) :
    Wp (fun _ => True) (vmpPagetablePagePteBecameSwap s page) fun s' => s'.Queues skip :=
  Wp.bind (wp_dropNonswap_queues h page) fun _ h' => (wp_vmpPageReleaseLocked h').weaken

theorem wp_unmapStolen_queues {s : State} {skip : Option Pfn} (h : s.Queues skip) (p : Pfn) :
    Wp (fun _ => True) (unmapStolen s p) fun s' => s'.Queues skip := by
  unfold unmapStolen
  split
  · refine Wp.bind (wp_true _) fun pte _ => ?_
    refine Wp.bind (wp_true _) fun table _ => ?_
    exact wp_vmpPagetablePagePteBecameSwap_queues
      (s := s.setPte pte (vmpPteSwapCreate (s.pages p).drumslot)) h table
  · trivial

/-- The page at the head of the standby queue, taken off it. -/
theorem State.Queues.skipStandby {s : State} {p : Pfn} {q : List Pfn} (h : s.Queues none)
    (hq : s.standbyPgq = p :: q) : ({ s with standbyPgq := q } : State).Queues (some p) := by
  obtain ⟨h₁, h₂, h₃, h₄, h₅, h₆, h₇, h₈, h₉, h₁₀, h₁₁, h₁₂, h₁₃⟩ := h
  rw [hq] at h₇ h₁₀
  have hp := (h₂ p).1 (by simp [hq])
  refine ⟨h₁, fun r => ?_, h₃, ?_, h₅, h₆, (List.nodup_cons.1 h₇).2, h₈, h₉, ?_, h₁₁, h₁₂, h₁₃⟩
  · by_cases hr : r = p
    · subst hr
      simp [(List.nodup_cons.1 h₇).1]
    · have := h₂ r
      simp only [hq, List.mem_cons, hr, false_or] at this
      rw [this]
      simp [Ne.symm hr]
  · rintro r ⟨⟩
    exact hp.2
  · simpa using h₁₀

theorem wp_stealPage_queues {s : State} (h : s.Queues none) (use : PageUse) :
    Wp (fun _ => True) (stealPage s use) fun r => r.2.Queues none := by
  unfold stealPage
  split
  · exact h
  · rename_i p q hq
    refine Wp.bind (wp_unmapStolen_queues (h.skipStandby hq) p) fun s' h' => ?_
    simp only [Wp.bind_iff, wp_kassert]
    refine ⟨fun _ => ⟨fun _ => ?_, fun _ => trivial⟩, fun _ => trivial⟩
    obtain ⟨h0, hu, hd⟩ := h'.skipped p rfl
    have hns : p ∉ s'.standbyPgq := fun hm => ((h'.mem_standby p).1 hm).1 rfl
    have hnm : p ∉ s'.modifiedPgq := fun hm => by simpa [hd] using (h'.mem_modified p).1 hm
    have hnf : p ∉ s'.freePgq := fun hm => by simpa [hu] using (h'.mem_free p).1 hm
    refine h'.move p _ (fun r hr => by simp [Ne.symm hr]) (fun _ _ => Iff.rfl)
      (fun _ _ => Iff.rfl) (fun _ _ => Iff.rfl) (by simp [hnf, VmPage.handOut])
      (by simp [hns, VmPage.handOut]) (by simp [hnm, VmPage.handOut])
      (by simp) (by simp [VmPage.handOut]) h'.nodup_free h'.nodup_standby h'.nodup_modified
      h'.nfree ?_ h'.nmodified ?_ (by simp [VmPage.handOut])
    · simp [h'.nstandby]
    · simp [h0, VmPage.handOut]

theorem wp_takeFree_queues {s : State} (h : s.Queues none) {p : Pfn} {q : List Pfn}
    (hq : s.freePgq = p :: q) (use : PageUse) :
    Wp (fun _ => True) (takeFree s p q use) fun s' => s'.Queues none := by
  unfold takeFree
  simp only [Wp.bind_iff, wp_kassert]
  refine ⟨fun h0 => ⟨fun _ => ⟨fun _ => ?_, fun _ => trivial⟩, fun _ => trivial⟩,
    fun _ => trivial⟩
  have hu := ((h.mem_free p).1 (by simp [hq])).2
  have hnd := h.nodup_free
  have hlen := h.nfree
  rw [hq] at hnd hlen
  have hns : p ∉ s.standbyPgq := fun hm => by simpa [hu] using (h.mem_standby p).1 hm
  have hnm : p ∉ s.modifiedPgq := fun hm => by simpa [hu] using (h.mem_modified p).1 hm
  refine h.move p _ (fun _ _ => Iff.rfl) (fun r hr => by simp [hq, hr]) (fun _ _ => Iff.rfl)
    (fun _ _ => Iff.rfl) (by simp [(List.nodup_cons.1 hnd).1, VmPage.handOut])
    (by simp [hns, VmPage.handOut]) (by simp [hnm, VmPage.handOut]) (by simp)
    (by simp [VmPage.handOut]) (List.nodup_cons.1 hnd).2 h.nodup_standby h.nodup_modified ?_
    h.nstandby h.nmodified ?_ (by simp [VmPage.handOut])
  · simp [hlen]
  · simp [h0, VmPage.handOut]

/-- Allocating a page, from the free queue or by stealing, keeps the queues. -/
theorem wp_vmpPageAllocLocked_queues {s : State} (h : s.Queues none) (use : PageUse)
    (must : Bool) :
    Wp (fun _ => True) (vmpPageAllocLocked s use must) fun r => r.2.Queues none := by
  have hc := h.checkShortage
  unfold vmpPageAllocLocked
  dsimp only
  split
  · exact hc
  · split
    · refine Wp.bind (wp_stealPage_queues hc use) fun r hr => ?_
      split
      · trivial
      · exact hr
    · rename_i p q hq
      refine Wp.bind (wp_takeFree_queues hc hq use) fun s' h' => ?_
      exact h'

end VmmSim
