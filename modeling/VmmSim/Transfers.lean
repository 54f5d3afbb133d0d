import VmmSim.DrumSlots

/-!
# Transfers

What the page writer, the reads and the programs do to a core without touching a table: a page of
data gets new words, a slot of the pagefile, or a clean flag. The invariants survive.
-/

namespace VmmSim

open Lib

variable {c c' : Core} {g g' : Ledger}

theorem Pagefile.taken_zero (pf : Pagefile) : pf.taken 0 = pf.slotZeroTaken := by
  obtain ⟨bitmap, -, -, -⟩ := pf
  cases bitmap with
  | nil => rfl
  | cons byte bytes => rfl

theorem Slots.pagefile_ok (h : Slots c g) : c.pagefile.Ok := ⟨h.total, h.bitmap⟩

/-- A page gets a slot from the pagefile. -/
def Core.assign (c : Core) (p : Pfn) (slot : ℕ) (pf : Pagefile) : Core :=
  { c.setPage p { c.pages p with drumslot := slot } with pagefile := pf }

section Assign

variable (c) (p q : Pfn) (slot : ℕ) (pf : Pagefile)

theorem Core.assign_pages : (c.assign p slot pf).pages q =
    if q = p then { c.pages p with drumslot := slot } else c.pages q :=
  c.setPage_pages p q _

@[simp] theorem Core.assign_use : (c.assign p slot pf).use q = c.use q :=
  Core.setPage_use_of (by dsimp only [Core.use]) q

@[simp] theorem Core.assign_entry (ptr : PtePtr) : (c.assign p slot pf).entry ptr = c.entry ptr :=
  rfl

theorem Core.assign_drumslot : ((c.assign p slot pf).pages q).drumslot =
    if q = p then slot else (c.pages q).drumslot := by
  rw [assign_pages]
  split <;> rfl

end Assign

/-- The page that gets slot 0 is the one that has it. -/
theorem Slots.assign (h : Slots c g) {p : Pfn} (hu : c.use p = .anonPrivate) (hp : g.loose = none)
    (hd : (c.pages p).drumslot = noSlot) {slot : ℕ} {pf : Pagefile}
    (ha : SlotAlloc c.pagefile slot pf) : Slots (c.assign p slot pf) g := by
  cases ha with
  | full =>
    have hpu : ({ c.pages p with drumslot := noSlot } : VmPage).use = c.use p := by
      dsimp only [Core.use]
    exact (h.setPage hpu hd.symm fun hlo => absurd hlo (by rw [hp]; nofun)).of_eq rfl rfl rfl rfl
  | slot hn hfree htotal hlen htaken =>
    refine ⟨htotal.trans_le h.total, (htotal.trans_le h.bitmap).trans_eq (by rw [← hlen]; rfl),
      fun q hq => ?_, fun q hlo => absurd hlo (by rw [hp]; nofun), ?_⟩
    · rw [Core.assign_drumslot]
      split
      · exact .inl (hn.trans_le h.total)
      · exact h.range q (by rwa [Core.assign_use] at hq)
    · have hzero := h.zero
      have htotal52 := h.total
      have hnot : ¬ c.HasSlotZero g p := fun hz => noSlot_mod (hd ▸ hz.2.2)
      rw [← Pagefile.taken_zero] at hzero ⊢
      rw [show (c.assign p slot pf).pagefile = pf from rfl, htaken]
      by_cases h0 : slot = 0
      · subst h0
        have hfilter : (Finset.univ.filter ((c.assign p 0 pf).HasSlotZero g)) =
            insert p (Finset.univ.filter (c.HasSlotZero g)) := by
          ext q
          simp only [Finset.mem_filter, Finset.mem_univ, true_and, Finset.mem_insert,
            Core.HasSlotZero, Core.assign_use, Core.assign_drumslot]
          by_cases hq : q = p
          · simp [hq, hu, hp]
          · simp [hq]
        rw [hfilter, Finset.card_insert_of_notMem (by simp [hnot])]
        rw [hfree] at hzero
        simp only [hfree, decide_true, Bool.or_true, Bool.toNat_true, Bool.toNat_false] at hzero ⊢
        omega
      · have hmod : ¬ slot % 2 ^ 61 = 0 := by omega
        have hfilter : (Finset.univ.filter ((c.assign p slot pf).HasSlotZero g)) =
            Finset.univ.filter (c.HasSlotZero g) := by
          ext q
          simp only [Finset.mem_filter, Finset.mem_univ, true_and, Core.HasSlotZero,
            Core.assign_use, Core.assign_drumslot]
          by_cases hq : q = p
          · simp only [hq, hd, if_pos, hmod, noSlot_mod, and_false]
          · simp only [if_neg hq]
        rw [hfilter, hzero]
        simp [Ne.symm h0]

namespace Inv

/-- Only the pages, the words and the lists matter. -/
theorem of_eq (h : Inv c g) (hp : c'.pages = c.pages) (hm : c'.mem = c.mem) (ht : c'.tree = c.tree)
    (hq : c'.queue = c.queue) (hn : c'.nlocked = c.nlocked) (hr : c'.root = c.root)
    (hs : c'.softPages = c.softPages) (hf : c'.pagefile = c.pagefile) : Inv c' g :=
  ⟨h.dirs.of_eq hp hm hr rfl, h.leaves.of_eq hp hm rfl rfl rfl, h.tables.of_eq hp hm rfl rfl rfl rfl,
    h.frames.of_eq h.leaves hp hm rfl rfl rfl rfl, h.idle.of_eq hp hm,
    h.mirror.of_eq h.dirs ht hq hn hs hr hp hm rfl rfl rfl, h.slots.of_eq hp hf rfl rfl⟩

/-- The words of a page of data are no entries. -/
theorem setWords (h : Inv c g) {p : Pfn} (hu : c.use p = .anonPrivate) (d : Contents) :
    Inv (c.setWords p d) g := by
  have h0 : c.level p = 0 := c.level_of_plain (.inr hu)
  have he : ∀ ptr : PtePtr, 1 ≤ c.level ptr.1 → (c.setWords p d).entry ptr = c.entry ptr :=
    fun ptr hl => Core.setWords_entry_ne _ _ _ _ fun e => by
      rw [e] at hl
      omega
  refine ⟨?_, ?_, ?_, ?_, ⟨h.idle.plain, h.idle.free, fun q hq => ⟨(h.idle.cleared q hq).1, fun i => ?_⟩⟩,
    ?_, h.slots.of_eq rfl rfl rfl rfl⟩
  · exact h.dirs.congr (fun _ => rfl) (fun _ _ _ => rfl) (fun x hx => he x (by omega)) rfl
      fun _ _ => Iff.rfl
  · exact h.leaves.congr (fun _ => Iff.rfl) (fun _ => Iff.rfl) (fun _ _ => rfl)
      (fun x hx => he x hx.ge) rfl rfl fun _ _ => Iff.rfl
  · exact h.tables.congr (fun _ => rfl) (fun _ _ => rfl) (fun _ _ => rfl) (fun _ _ => rfl) he rfl rfl
      rfl fun _ _ => id
  · exact h.frames.congr h.leaves (fun _ => id) (fun _ => Iff.rfl) (fun _ _ => rfl)
      (fun x hx => he x (Nat.le_of_eq hx.symm)) rfl rfl fun _ _ => And.intro
  · rw [Core.setWords_entry_ne _ _ _ _ fun e => ?_]
    · exact (h.idle.cleared q hq).2 i
    · obtain rfl : q = p := e
      rcases hq with hq | hq <;>
      · rw [Core.setWords_use, hu] at hq
        cases hq
  · exact h.mirror.congr h.dirs rfl rfl rfl rfl rfl (fun _ => rfl) (fun _ _ _ _ => Iff.rfl)
      (fun x hx => he x (by omega))
      (fun x hx => by rw [he x (Nat.le_of_eq hx.symm)]; exact ⟨rfl, rfl⟩) rfl rfl rfl

/-- A page of data is made clean. -/
theorem clean (h : Inv c g) {p : Pfn} (hu : c.use p = .anonPrivate) (hp : g.loose = none) :
    Inv (c.setPage p { c.pages p with dirty := false }) g := by
  have := h.setFrame { c.pages p with dirty := false } hu
    (by dsimp only [Core.use]) rfl rfl rfl rfl (by rw [hp]; nofun) rfl fun _ _ => rfl
  exact this

/-- A page of data gets a slot of the pagefile. -/
theorem assign (h : Inv c g) {p : Pfn} (hu : c.use p = .anonPrivate) (hp : g.loose = none)
    (hd : (c.pages p).drumslot = noSlot) {slot : ℕ} {pf : Pagefile}
    (ha : SlotAlloc c.pagefile slot pf) :
    Inv (c.assign p slot pf) g := by
  have hpu : ({ c.pages p with drumslot := slot } : VmPage).use = c.use p := by dsimp only [Core.use]
  have hpl : ∀ {P : Prop}, 1 ≤ c.level p → P := fun hq => by
    rw [c.level_of_plain (.inr hu)] at hq
    omega
  have frames : FrameCounts (c.assign p slot pf) g := by
    refine h.frames.congr h.leaves (fun q hq => (Core.setPage_level_of hpu q).symm.trans hq)
      (fun q => by rw [Core.assign_use]) (fun q _ => ?_) (fun _ _ => rfl) rfl rfl fun _ _ => And.intro
    rw [Core.assign_pages]
    split
    · rw [‹q = p›]
    · rfl
  exact ⟨(h.dirs.setPage hpu hpl).of_eq rfl rfl rfl rfl,
    (h.leaves.setPage hpu fun _ => rfl).of_eq rfl rfl rfl rfl rfl,
    (h.tables.setPage hpu hpl).of_eq rfl rfl rfl rfl rfl rfl, frames,
    (h.idle.setPage_of_use hpu (.inl ⟨hu, rfl, rfl⟩)).of_eq rfl rfl,
    (h.mirror.setPage h.dirs hpu hpl).of_eq (h.dirs.setPage hpu hpl) rfl rfl rfl rfl rfl rfl rfl
      rfl rfl rfl, h.slots.assign hu hp hd ha⟩

end Inv

/-! ## The page writer takes a page -/

variable {s : State}

theorem Good.of_core {s s' : State} {skip : Option Pfn} (h : Good skip s g) (hi : Inv s'.core g')
    (hr : ∀ p, (s'.pages p).refcnt = (s.pages p).refcnt)
    (hu : ∀ p, (s'.pages p).use = (s.pages p).use)
    (hd : ∀ p, (s.pages p).refcnt = 0 → (s'.pages p).dirty = (s.pages p).dirty)
    (hq : s'.freePgq = s.freePgq ∧ s'.standbyPgq = s.standbyPgq ∧ s'.modifiedPgq = s.modifiedPgq ∧
      s'.vmstat = s.vmstat) : Good skip s' g' := by
  refine ⟨?_, hi⟩
  have := h.queues.congr hr (fun p _ => hu p) hd
  rwa [State.Queues, hq.1, hq.2.1, hq.2.2.1, hq.2.2.2]

/-- The page writer has taken a page: it holds a reference, the page is clean, and the write goes
to the slot that it had, or that it got. -/
structure Picked (s : State) (g : Ledger) (p : Pfn) (offset : ℕ) (s' : State) : Prop where
  good : Good none s' { g with held := incAt g.held p }
  use : s.core.use p = .anonPrivate
  refcnt : (s.pages p).refcnt = 0
  dirty : (s.pages p).dirty = true
  core : ∃ slot pf, offset = slot * pgSize % 2 ^ 64 ∧
    s'.core = { s.core.setPage p
      { s.pages p with refcnt := 1, dirty := false, drumslot := slot } with pagefile := pf } ∧
    ((s.pages p).drumslot ≠ noSlot ∧ slot = (s.pages p).drumslot ∧ pf = s.pagefile ∨
      (s.pages p).drumslot = noSlot ∧ vmpPagefileAlloc s.pagefile = .ok (slot, pf) ∧
        SlotAlloc s.pagefile slot pf)
  sizes : Sizes s s'

theorem State.narrow_drum (s : State) (p : Pfn) (n : ℕ) :
    s.narrow.modifyPage p (fun pg => { pg with drumslot := n }) =
      (s.modifyPage p fun pg => { pg with drumslot := n }).narrow :=
  s.narrow_modifyPage p (f := fun pg => { pg with drumslot := n })
    (k := fun pg => { pg with drumslot := n }) (by cases s.pages p; rfl)

theorem State.narrow_clean (s : State) (p : Pfn) :
    s.narrow.modifyPage p (fun pg => { pg with dirty := false }) =
      (s.modifyPage p fun pg => { pg with dirty := false }).narrow :=
  s.narrow_modifyPage p (f := fun pg => { pg with dirty := false })
    (k := fun pg => { pg with dirty := false }) (by cases s.pages p; rfl)

/-- A page of data that has references is made clean. -/
theorem Good.clean (h : Good none s g) (hg : g.Settled) {p : Pfn} (hu : s.core.use p = .anonPrivate)
    (h0 : (s.pages p).refcnt ≠ 0) :
    Good none (s.modifyPage p fun pg => { pg with dirty := false }) g :=
  ⟨h.queues.update_active h0 h0 (h.queues.refcnt_le p), h.inv.clean hu hg.loose⟩

/-- `cluster_anon`, on a page that the page writer holds. -/
theorem wp_clusterAnon (h : Good none s g) (hg : g.Settled) {p : Pfn}
    (hu : s.core.use p = .anonPrivate) (h0 : (s.pages p).refcnt ≠ 0) :
    Wp (fun _ => False) (clusterAnon s.narrow p) fun r => ∃ s' slot pf, r.2 = s'.narrow ∧
      Good none s' g ∧ r.1 = slot * pgSize % 2 ^ 64 ∧
      s'.core = { s.core.setPage p { s.pages p with dirty := false, drumslot := slot } with
        pagefile := pf } ∧
      ((s.pages p).drumslot ≠ noSlot ∧ slot = (s.pages p).drumslot ∧ pf = s.pagefile ∨
        (s.pages p).drumslot = noSlot ∧ vmpPagefileAlloc s.pagefile = .ok (slot, pf) ∧
          SlotAlloc s.pagefile slot pf) ∧ s.SameWsl s' := by
  unfold clusterAnon assignSlot
  by_cases hd : (s.pages p).drumslot = noSlot
  · obtain ⟨⟨slot, pf⟩, hok, hslot⟩ : ∃ r, vmpPagefileAlloc s.pagefile = .ok r ∧
        SlotAlloc s.pagefile r.1 r.2 := wp_false_iff.1 (wp_vmpPagefileAlloc h.inv.slots.pagefile_ok)
    have hassigned : Good none
        ({ s with pagefile := pf }.modifyPage p fun pg => { pg with drumslot := slot }) g :=
      ⟨h.queues.update_active h0 h0 (h.queues.refcnt_le p), h.inv.assign hu hg.loose hd hslot⟩
    have hu' : ({ s with pagefile := pf }.modifyPage p
        fun pg => { pg with drumslot := slot } : State).core.use p = .anonPrivate := by
      simpa [Core.use, State.core] using hu
    have hclean := hassigned.clean hg hu' (by simpa using h0)
    refine (Wp.bind_iff).2 ?_
    rw [State.narrow_pages, VmPage.narrow_drumslot, if_pos hd,
      show s.narrow.pagefile = s.pagefile from rfl, hok]
    refine ⟨_, slot, pf, ?_, hclean, ?_, ?_, .inr ⟨hd, rfl, hslot⟩, rfl, rfl⟩
    · rw [← State.narrow_clean, ← State.narrow_drum]
      rfl
    · simp [drumOffset, State.modifyPage]
    · simp [State.core, State.modifyPage, Core.setPage, Function.update_idem]
  · have hclean := h.clean hg hu h0
    refine (Wp.bind_iff).2 ?_
    rw [State.narrow_pages, VmPage.narrow_drumslot, if_neg hd]
    refine ⟨_, _, s.pagefile, s.narrow_clean p, hclean, ?_, ?_,
      .inl ⟨hd, rfl, rfl⟩, rfl, rfl⟩
    · simp [drumOffset, State.modifyPage]
    · rfl

/-- **The page writer takes a page.** -/
theorem wp_pgwriterPick (h : Good none s g) (hg : g.Settled) {p : Pfn} (hp : p ∈ s.modifiedPgq) :
    Wp (fun _ => False) (pgwriterPick s.narrow p) fun r => ∃ s', r.2 = s'.narrow ∧
      Picked s g p r.1 s' := by
  obtain ⟨h0, hu, hd⟩ := (h.queues.mem_modified p).1 hp
  unfold pgwriterPick
  refine Wp.bind (wp_vmpPageRetainLocked_hold (K := ⟨fun _ _ => True, fun _ _ => True,
    fun _ _ => True, True, fun _ => True⟩) h (by nofun) hu (by rw [hg.loose]; nofun)
    (fun _ _ _ => trivial) (by omega)) ?_
  rintro r ⟨s₁, rfl, hm, hc⟩
  have hgood := hm.good h
  have hpage : s₁.pages p = { s.pages p with refcnt := 1 } := by
    have := congrArg (fun c : Core => c.pages p) hc
    simpa [Core.setPage, State.core, h0] using this
  have hu₁ : s₁.core.use p = .anonPrivate := by
    rw [Core.use, show s₁.core.pages p = s₁.pages p from rfl, hpage]
    exact hu
  have huse : (s₁.narrow.pages p).use = .anonPrivate := hu₁
  simp only [huse]
  refine (wp_clusterAnon hgood ⟨hg.loose, hg.unref, hg.fresh, hg.absent⟩ hu₁
    (by rw [hpage]; exact one_ne_zero)).mono ?_
  rintro ⟨offset, r⟩ ⟨s', slot, pf, rfl, hg', ho, hcore, hslot, hwsl⟩
  have hpf : s₁.pagefile = s.pagefile := congrArg Core.pagefile hc
  rw [hpage, hpf] at hslot
  refine ⟨s', rfl, hg', hu, h0, hd, ⟨slot, pf, ho, ?_, hslot⟩, hm.sizes.trans hwsl.sizes⟩
  rw [hcore, hpage, hc]
  simp [Core.setPage, Function.update_idem]

end VmmSim
