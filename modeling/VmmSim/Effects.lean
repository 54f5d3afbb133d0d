import VmmSim.Moves

/-!
# References and counters as moves

What retaining, releasing, locking and unlocking do to the core of a state, and that the functions
of `resident.c` and `tables.c` which take and drop references make moves. `Good` is what they need
of a state, and `Made` what they give back.
-/

namespace VmmSim

open Lib

variable {K : Guard} {skip : Option Pfn} {s s' s'' : State} {g g' g'' : Ledger}

/-- A state with its invariants. `skip` is a page that is being stolen. -/
structure Good (skip : Option Pfn) (s : State) (g : Ledger) : Prop where
  queues : s.Queues skip
  inv : Inv s.core g

/-- What no operation does to the size of the working set: there are never more entries than
`nentries` says, and, if the working set can expand, never more than `max`. -/
structure Sizes (s s' : State) : Prop where
  vmparam : s'.vmparam = s.vmparam
  entries : s.wsl.nentries + s'.wsl.tree.length ≤ s'.wsl.nentries + s.wsl.tree.length
  max : 1 ≤ s.vmparam.wsPageExpansionCount → s.wsl.tree.length ≤ s.wsl.nentries →
    s.wsl.nentries ≤ s.wsl.max → s'.wsl.nentries ≤ s'.wsl.max

namespace Sizes

theorem refl (s : State) : Sizes s s := ⟨rfl, le_rfl, fun _ _ => id⟩

theorem trans (h : Sizes s s') (h' : Sizes s' s'') : Sizes s s'' where
  vmparam := h'.vmparam.trans h.vmparam
  entries := by
    have := h.entries
    have := h'.entries
    omega
  max hc ht hm := by
    have := h.entries
    exact h'.max (h.vmparam ▸ hc) (by omega) (h.max hc ht hm)

/-- An operation that leaves the working set list alone. -/
theorem of_wsl (hp : s'.vmparam = s.vmparam) (hw : s'.wsl = s.wsl) : Sizes s s' :=
  ⟨hp, by rw [hw], fun _ _ => by rw [hw]; exact id⟩

/-- One that moves entries on and off the queue. -/
theorem of_tree (hp : s'.vmparam = s.vmparam) (ht : s'.wsl.tree = s.wsl.tree)
    (hn : s'.wsl.nentries = s.wsl.nentries) (hm : s'.wsl.max = s.wsl.max) : Sizes s s' :=
  ⟨hp, by rw [ht, hn], fun _ _ => by rw [hn, hm]; exact id⟩

theorem narrow (s : State) : Sizes s s.narrow := of_wsl rfl rfl

end Sizes

/-- There are no more working set entries than `nentries` says, and, if the working set can expand,
no more than `max`. -/
structure State.Sized (s : State) : Prop where
  entries : s.wsl.tree.length ≤ s.wsl.nentries
  max : 1 ≤ s.vmparam.wsPageExpansionCount → s.wsl.nentries ≤ s.wsl.max

theorem State.Sized.of_sizes (h : s.Sized) (hz : Sizes s s') : s'.Sized where
  entries := by
    have := h.entries
    have := hz.entries
    omega
  max hc := by
    rw [hz.vmparam] at hc
    exact hz.max hc h.entries (h.max hc)

/-- A state that was made from another by moves, with its queues in order. -/
structure Made (K : Guard) (skip : Option Pfn) (s : State) (g : Ledger) (s' : State)
    (g' : Ledger) : Prop where
  moves : Moves K s.core g s'.core g'
  queues : s'.Queues skip
  sizes : Sizes s s'

namespace Made

theorem refl (h : Good skip s g) : Made K skip s g s g :=
  ⟨.refl, h.queues, .refl s⟩

theorem trans {skip' : Option Pfn} (h : Made K skip s g s' g') (h' : Made K skip' s' g' s'' g'') :
    Made K skip' s g s'' g'' :=
  ⟨Relation.ReflTransGen.trans h.moves h'.moves, h'.queues, h.sizes.trans h'.sizes⟩

theorem good {skip' : Option Pfn} (h : Made K skip' s g s' g') (hg : Good skip s g) :
    Good skip' s' g' :=
  ⟨h.queues, h.moves.inv hg.inv⟩

theorem cast (h : Made K skip s g s' g') (e : g' = g'') : Made K skip s g s' g'' := e ▸ h

theorem mono (h : Made K.calm skip s g s' g') : Made K skip s g s' g' :=
  ⟨h.moves.mono K.calm_le, h.queues, h.sizes⟩

theorem calm (h : Made K.calm skip s g s' g') (hg : Inv s.core g) : Calm s.core s'.core :=
  h.moves.calm hg

/-- One move. -/
theorem of_move {c' : Core} (h : Move K s.core g c' g') (hc : s'.core = c')
    (hq : s'.Queues skip) (hz : Sizes s s') : Made K skip s g s' g' := by
  subst hc
  exact ⟨h.moves, hq, hz⟩

end Made

theorem decAt_incAt (f : Pfn → ℕ) (p : Pfn) : decAt (incAt f p) p = f := by
  funext q
  by_cases h : q = p <;> simp [decAt_apply, incAt_apply, h]

/-- `k` more references fit every page. -/
def Room (k : ℕ) (s : State) : Prop := ∀ p, (s.pages p).refcnt + k < 2 ^ 16

/-! ## References -/

theorem core_modifyPage (s : State) (p : Pfn) (f : VmPage → VmPage) :
    (s.modifyPage p f).core = s.core.setPage p (f (s.pages p)) := rfl

theorem core_setPte (s : State) (ptr : PtePtr) (w : Word) :
    (s.setPte ptr w).core = s.core.setWord ptr w := rfl

/-- The counters of the queues are not part of the core. -/
theorem core_vmstat (s : State) (v : VmStat) : ({ s with vmstat := v } : State).core = s.core := rfl

@[simp] theorem checkShortage_core (s : State) : (checkShortage s).2.core = s.core := by
  unfold checkShortage
  split
  · dsimp only
    split <;> split <;> rfl
  · rfl

@[simp] theorem releaseSufficience_core (s : State) : (releaseSufficience s).core = s.core := by
  unfold releaseSufficience
  dsimp only
  split
  · exact checkShortage_core s
  · exact checkShortage_core s

@[simp] theorem enqueuePageable_core (s : State) (p : Pfn) : (enqueuePageable s p).core = s.core := by
  unfold enqueuePageable
  split <;> rfl

/-- The working set list and the parameters are as they were. -/
def State.SameWsl (s s' : State) : Prop := s'.wsl = s.wsl ∧ s'.vmparam = s.vmparam

theorem State.SameWsl.sizes (h : s.SameWsl s') : Sizes s s' := .of_wsl h.2 h.1

theorem checkShortage_wsl (s : State) : s.SameWsl (checkShortage s).2 := by
  unfold checkShortage
  split
  · dsimp only
    split <;> split <;> exact ⟨rfl, rfl⟩
  · exact ⟨rfl, rfl⟩

theorem releaseSufficience_wsl (s : State) : s.SameWsl (releaseSufficience s) := by
  unfold releaseSufficience
  dsimp only
  split
  · exact checkShortage_wsl s
  · exact checkShortage_wsl s

theorem enqueuePageable_wsl (s : State) (p : Pfn) : s.SameWsl (enqueuePageable s p) := by
  unfold enqueuePageable
  split <;> exact ⟨rfl, rfl⟩

theorem wp_vmpPageRetainLocked_wsl (s : State) (p : Pfn) :
    Wp (fun _ => True) (vmpPageRetainLocked s p) s.SameWsl := by
  unfold vmpPageRetainLocked
  dsimp only
  split
  · refine Wp.bind (wp_true _) fun _ _ => ?_
    split
    · exact Wp.bind (wp_true _) fun q _ => ⟨rfl, rfl⟩
    · exact Wp.bind (wp_true _) fun q _ => ⟨rfl, rfl⟩
  · exact ⟨rfl, rfl⟩

theorem wp_releaseLast_wsl (s : State) (p : Pfn) :
    Wp (fun _ => True) (releaseLast s p) s.SameWsl := by
  cases huse : (s.pages p).use with
  | deleted =>
    simp only [releaseLast, huse, Wp.ok_iff]
    exact ⟨rfl, rfl⟩
  | anonPrivate =>
    simp only [releaseLast, huse, Wp.ok_iff]
    have hq := enqueuePageable_wsl { s with vmstat.nactive := s.vmstat.nactive - 1 } p
    have hr := releaseSufficience_wsl
      (enqueuePageable { s with vmstat.nactive := s.vmstat.nactive - 1 } p)
    exact ⟨hr.1.trans hq.1, hr.2.trans hq.2⟩
  | _ =>
    simp only [releaseLast, huse]
    trivial

theorem wp_vmpPageReleaseLocked_wsl (s : State) (p : Pfn) :
    Wp (fun _ => True) (vmpPageReleaseLocked s p) s.SameWsl := by
  refine Wp.bind (wp_true _) fun _ _ => Wp.bind (wp_true _) fun _ _ => Wp.ite (fun _ => ?_)
    fun _ => ⟨rfl, rfl⟩
  exact (wp_releaseLast_wsl (s.modifyPage p fun pg => { pg with refcnt := dec16 pg.refcnt }) p).mono
    fun _ => id

theorem wp_vmpPageRetainLocked_core (s : State) (p : Pfn) :
    Wp (fun _ => True) (vmpPageRetainLocked s p) fun s' => s'.core =
      s.core.setPage p { s.pages p with refcnt := inc16 (s.pages p).refcnt } := by
  unfold vmpPageRetainLocked
  dsimp only
  split
  · simp only [Wp.bind_iff, wp_kassert]
    refine ⟨fun _ => ?_, fun _ => trivial⟩
    split
    · exact Wp.bind (wp_true _) fun q _ => rfl
    · exact Wp.bind (wp_true _) fun q _ => rfl
  · rfl

theorem wp_vmpPageReleaseLocked_core (s : State) (p : Pfn) (hu : (s.pages p).use ≠ .deleted) :
    Wp (fun _ => True) (vmpPageReleaseLocked s p) fun s' => 0 < (s.pages p).refcnt ∧ s'.core =
      s.core.setPage p { s.pages p with refcnt := dec16 (s.pages p).refcnt } := by
  simp only [vmpPageReleaseLocked, Wp.bind_iff, wp_kassert]
  refine ⟨fun h0 => ⟨fun hf => ?_, fun _ => trivial⟩, fun _ => trivial⟩
  split
  · cases huse : (s.pages p).use with
    | deleted => exact absurd huse hu
    | anonPrivate =>
      simp only [releaseLast, State.modifyPage_pages_self, huse, Wp.ok_iff,
        releaseSufficience_core, enqueuePageable_core, core_vmstat]
      refine ⟨h0, ?_⟩
      rw [← huse]
      exact core_modifyPage s p fun pg => { pg with refcnt := dec16 pg.refcnt }
    | _ =>
      simp only [releaseLast, State.modifyPage_pages_self, huse]
      trivial
  · exact ⟨h0, core_modifyPage s p fun pg => { pg with refcnt := dec16 pg.refcnt }⟩

/-- A page whose count has wrapped is on no queue, so that the code cannot retain it. -/
theorem vmpPageRetainLocked_wrapped (h : s.Queues skip) {p : Pfn} (hr : 2 ^ 16 ≤ (s.pages p).refcnt)
    {s' : State} : vmpPageRetainLocked s.narrow p ≠ .ok s' := by
  obtain ⟨-, hns, hnm⟩ := h.not_mem (p := p) (by omega)
  have h0 : (s.narrow.pages p).refcnt = 0 := VmPage.narrow_refcnt_of_le hr
  unfold vmpPageRetainLocked
  simp only [h0, if_true]
  intro hok
  obtain ⟨-, -, hok⟩ := bind_eq_ok.1 hok
  split at hok
  · obtain ⟨q, hq, -⟩ := bind_eq_ok.1 hok
    rw [tailqRemove, if_neg] at hq
    · cases hq
    · exact hnm
  · obtain ⟨q, hq, -⟩ := bind_eq_ok.1 hok
    rw [tailqRemove, if_neg] at hq
    · cases hq
    · exact hns

/-- A reference to a page that has one already. -/
theorem vmpPageRetainLocked_active {p : Pfn} (h0 : (s.pages p).refcnt ≠ 0)
    (hr : (s.pages p).refcnt < 2 ^ 16) : vmpPageRetainLocked s.narrow p =
      .ok (s.modifyPage p fun pg => { pg with refcnt := pg.refcnt + 1 }).narrow := by
  have heq : (s.pages p).narrow = s.pages p := VmPage.narrow_of_lt hr
  have hne : (s.narrow.pages p).refcnt ≠ 0 := by
    rw [State.narrow_pages, heq]
    exact h0
  rw [vmpPageRetainLocked_of_ne hne]
  refine congrArg Except.ok (State.narrow_modifyPage s p ?_)
  rw [heq]
  exact VmPage.narrow_succ hr

/-- A reference to a page of data. -/
theorem wp_vmpPageRetainLocked_hold (h : Good skip s g) {p : Pfn} (hs : skip ≠ some p)
    (hu : s.core.use p = .anonPrivate) (hp : g.loose ≠ some p)
    (hb : ∀ r ∈ g.busy, r.page = p → K.finish r)
    (hr : (s.pages p).refcnt < 2 ^ 16) :
    Wp (fun _ => False) (vmpPageRetainLocked s.narrow p) fun r => ∃ s', r = s'.narrow ∧
      Made K skip s g s' { g with held := incAt g.held p } ∧ s'.core =
        s.core.setPage p { s.pages p with refcnt := (s.pages p).refcnt + 1 } := by
  have hmove : Move K s.core g
      (s.core.setPage p { s.pages p with refcnt := (s.pages p).refcnt + 1 })
      { g with held := incAt g.held p } := .hold p hu hp hb
  by_cases h0 : (s.pages p).refcnt = 0
  · have hf : (s.pages p).refcnt = 0 → (s.pages p).use ≠ .free := fun _ e => by
      rw [Core.use] at hu
      rw [show (s.pages p).use = .anonPrivate from hu] at e
      cases e
    have hinc : inc16 (s.pages p).refcnt = (s.pages p).refcnt + 1 := inc16_of_lt (by omega)
    have exactly := ((wp_vmpPageRetainLocked h.queues hs hf (by omega)).and_weak
      (wp_vmpPageRetainLocked_core s p)).and_weak (wp_vmpPageRetainLocked_wsl s p)
    have follows : Follows (fun _ => False) State.narrow (vmpPageRetainLocked s p)
        (vmpPageRetainLocked s.narrow p) := vmpPageRetainLocked_narrow (by omega)
    refine (follows.wp exactly fun _ => id).mono ?_
    rintro r ⟨s', rfl, ⟨hq, hc⟩, hw⟩
    rw [hinc] at hc
    exact ⟨s', rfl, .of_move hmove hc hq hw.sizes, hc⟩
  · rw [vmpPageRetainLocked_active h0 hr]
    exact ⟨_, rfl, .of_move hmove rfl (h.queues.update_active h0 (by dsimp only; omega)
      (by dsimp only; omega)) (.of_wsl rfl rfl), rfl⟩

/-- The same for a page whose count may have wrapped. -/
theorem wp_vmpPageRetainLocked_hold_wrapped (h : Good skip s g) {p : Pfn} (hs : skip ≠ some p)
    (hu : s.core.use p = .anonPrivate) (hp : g.loose ≠ some p)
    (hb : ∀ r ∈ g.busy, r.page = p → K.finish r) :
    Wp (fun _ => True) (vmpPageRetainLocked s.narrow p) fun r => ∃ s', r = s'.narrow ∧
      Made K skip s g s' { g with held := incAt g.held p } ∧ s'.core =
        s.core.setPage p { s.pages p with refcnt := (s.pages p).refcnt + 1 } := by
  rcases Nat.lt_or_ge (s.pages p).refcnt (2 ^ 16) with hr | hr
  · exact (wp_vmpPageRetainLocked_hold h hs hu hp hb hr).weaken
  · exact Wp.intro (fun r hok => absurd hok (vmpPageRetainLocked_wrapped h.queues hr))
      fun _ _ => trivial

theorem setPage_dec_refcnt_le {c : Core} {p : Pfn} (h0 : 0 < (c.pages p).refcnt)
    (hle : (c.pages p).refcnt ≤ 2 ^ 16) (q : Pfn) :
    ((c.setPage p { c.pages p with refcnt := dec16 (c.pages p).refcnt }).pages q).refcnt ≤
      (c.pages q).refcnt := by
  rw [Core.setPage_pages]
  split
  · subst_vars
    simp only [dec16_of_pos h0 hle]
    omega
  · exact le_rfl

/-- The end of such a reference. -/
theorem wp_vmpPageReleaseLocked_unhold (h : Good skip s g) {p : Pfn} (hh : 1 ≤ g.held p) :
    Wp Halt.Defined (vmpPageReleaseLocked s p) fun s' =>
      Made K skip s g s' { g with held := decAt g.held p } ∧ s'.core =
        s.core.setPage p { s.pages p with refcnt := dec16 (s.pages p).refcnt } ∧
          ∀ q, (s'.pages q).refcnt ≤ (s.pages q).refcnt := by
  have hu := h.inv.frames.held_frame p hh
  have hd : (s.pages p).use ≠ .deleted := fun e => absurd (e.symm.trans hu) nofun
  have release : Wp Halt.Defined (vmpPageReleaseLocked s p) _ :=
    (wp_vmpPageReleaseLocked h.queues).mono_halt (by rintro e (rfl | rfl) <;> simp)
  refine ((release.and_weak (wp_vmpPageReleaseLocked_core s p hd)).and_weak
    (wp_vmpPageReleaseLocked_wsl s p)).mono ?_
  rintro s' ⟨⟨hq, h0, hc⟩, hw⟩
  refine ⟨.of_move (.unhold p hh h0 (h.queues.refcnt_le p)) hc hq hw.sizes, hc, fun q => ?_⟩
  rw [show s'.pages = s'.core.pages from rfl, hc]
  exact setPage_dec_refcnt_le h0 (h.queues.refcnt_le p) q

/-! ## The working set list -/

theorem Mirror.find (h : Mirror s.core g) {e : Wsle} (he : e ∈ s.wsl.tree) :
    vmpWslFind s e.vaddr = some e := by
  unfold vmpWslFind
  have hf : (s.wsl.tree.find? fun x => x.vaddr = e.vaddr).isSome := by
    rw [List.find?_isSome]
    exact ⟨e, he, by simp⟩
  obtain ⟨x, hx⟩ := Option.isSome_iff_exists.1 hf
  have hxe : x.vaddr = e.vaddr := by simpa using List.find?_some hx
  rw [hx, h.entry_unique (List.mem_of_find?_eq_some hx) he hxe]

theorem vmpWslFind_eq_none {s : State} {vaddr : ℕ} :
    vmpWslFind s vaddr = none ↔ ∀ e ∈ s.wsl.tree, e.vaddr ≠ vaddr := by
  simp [vmpWslFind, List.find?_eq_none]

/-- The assignments of `vmp_wsl_lock_entry`. -/
def State.lockWsle (s : State) (e : Wsle) : State :=
  { s with
    wsl.queue := s.wsl.queue.erase e
    wsl.nlocked := s.wsl.nlocked + 1 }

/-- The assignments of `vmp_wsl_unlock_entry`. -/
def State.unlockWsle (s : State) (e : Wsle) : State :=
  { s with
    wsl.queue := s.wsl.queue ++ [e]
    wsl.nlocked := s.wsl.nlocked - 1 }

theorem core_lockWsle (s : State) (e : Wsle) : (s.lockWsle e).core = s.core.lock e := rfl

theorem core_unlockWsle (s : State) (e : Wsle) : (s.unlockWsle e).core = s.core.unlock e := rfl

theorem vmpWslLockEntry_of_find {s : State} {e : Wsle} (hf : vmpWslFind s e.vaddr = some e)
    (hq : e ∈ s.wsl.queue) : vmpWslLockEntry s e.vaddr = .ok (s.lockWsle e) := by
  simp only [vmpWslLockEntry, hf, tailqRemove_of_mem hq]
  rfl

theorem vmpWslUnlockEntry_of_find {s : State} {e : Wsle} (hf : vmpWslFind s e.vaddr = some e) :
    vmpWslUnlockEntry s e.vaddr = .ok (s.unlockWsle e) := by
  simp only [vmpWslUnlockEntry, hf]
  rfl

/-! ## The counters of a table -/

theorem pageIsRootTable_iff (s : State) (p : Pfn) :
    pageIsRootTable (s.pages p) = true ↔ s.core.level p = 4 := by
  rw [Core.level, PageUse.level_eq_four]
  simp [pageIsRootTable, PageUse.ofLevel, Core.use, State.core]

/-- Assignments to a page that has a reference, and keeps one, do not move it. -/
theorem State.Queues.modifyActive (h : s.Queues skip) {t : Pfn} {f : VmPage → VmPage}
    (h0 : (s.pages t).refcnt ≠ 0) (hr : (f (s.pages t)).refcnt ≠ 0)
    (hle : (f (s.pages t)).refcnt ≤ 2 ^ 16) : (s.modifyPage t f).Queues skip :=
  h.update_active h0 hr hle

/-- A table has a reference besides those that count as entries. -/
theorem Good.refcnt_table (h : Good skip s g) {t : Pfn} (hl : 1 ≤ s.core.level t) :
    (s.pages t).refcnt = (s.pages t).nonswapPtes + 1 := h.inv.tables.refcnt t hl

theorem Good.table_mem (h : Good skip s g) {t : Pfn} (hl : 1 ≤ s.core.level t)
    (h4 : s.core.level t ≠ 4) (hf : g.fresh ≠ some t) : s.tableWsle t ∈ s.wsl.tree :=
  h.inv.mirror.table_back t hl (by have := (s.core.use t).level_le; unfold Core.level at *; omega)
    hf

/-- The three assignments of `vmp_pagetable_page_nonswap_pte_created`. -/
theorem nonswapPteCreated_eq {t : Pfn} {isNew : Bool} (h0 : (s.pages t).refcnt ≠ 0)
    (hr : (s.pages t).refcnt < 2 ^ 16) : vmpPagetablePageNonswapPteCreated s.narrow t isNew =
      if (s.pages t).nonswapPtes = 0 ∧ s.core.level t ≠ 4 then
        vmpWslLockEntry (s.modifyPage t (VmPage.bump isNew)).narrow (s.tableVaddr t)
      else .ok (s.modifyPage t (VmPage.bump isNew)).narrow := by
  have hroot : ∀ n r m, pageIsRootTable { s.pages t with
      nonzeroPtes := n, refcnt := m, nonswapPtes := r } = pageIsRootTable (s.pages t) :=
    fun _ _ _ => rfl
  simp only [vmpPagetablePageNonswapPteCreated, vmpPageRetainLocked_active h0 hr, ok_bind]
  cases isNew with
  | false =>
    simp only [Bool.false_eq_true, if_false]
    rw [State.narrow_modifyPage _ t (f := fun pg => { pg with nonswapPtes := inc16 pg.nonswapPtes })
      (VmPage.narrow_nonswap _ _)]
    simp only [State.modifyPage, Function.update_self, Function.update_idem, State.narrow_pages,
      VmPage.bump, Bool.false_eq_true, if_false, ne_eq, ← pageIsRootTable_iff, pageIsRootTable,
      VmPage.narrow_nonswapPtes, VmPage.narrow_use]
    rfl
  | true =>
    simp only [if_true]
    rw [State.narrow_modifyPage _ t (f := fun pg => { pg with nonzeroPtes := inc16 pg.nonzeroPtes })
      (VmPage.narrow_nonzero _ _),
      State.narrow_modifyPage _ t (f := fun pg => { pg with nonswapPtes := inc16 pg.nonswapPtes })
      (VmPage.narrow_nonswap _ _)]
    simp only [State.modifyPage, Function.update_self, Function.update_idem, State.narrow_pages,
      VmPage.bump, if_true, ne_eq, ← pageIsRootTable_iff, pageIsRootTable,
      VmPage.narrow_nonswapPtes, VmPage.narrow_use]
    rfl

/-- A table with one more entry in core. -/
def State.bumpTable (s : State) (t : Pfn) (isNew : Bool) : State :=
  if (s.pages t).nonswapPtes = 0 ∧ s.core.level t ≠ 4 then
    (s.modifyPage t (VmPage.bump isNew)).lockWsle (s.tableWsle t)
  else s.modifyPage t (VmPage.bump isNew)

theorem core_bumpTable (s : State) (t : Pfn) (isNew : Bool) :
    (s.bumpTable t isNew).core = s.core.bump t isNew := by
  by_cases hc : (s.pages t).nonswapPtes = 0 ∧ s.core.level t ≠ 4
  · have hc' : (s.core.pages t).nonswapPtes = 0 ∧ s.core.level t ≠ 4 := hc
    rw [State.bumpTable, Core.bump, if_pos hc, if_pos hc', if_pos hc']
    rfl
  · have hc' : ¬ ((s.core.pages t).nonswapPtes = 0 ∧ s.core.level t ≠ 4) := hc
    rw [State.bumpTable, Core.bump, if_neg hc, if_neg hc', if_neg hc']
    rfl

/-- `vmp_pagetable_page_nonswap_pte_created` on a table in the working set. -/
theorem nonswapPteCreated_of_good (h : Good skip s g) {t : Pfn} (isNew : Bool)
    (hl : 1 ≤ s.core.level t) (hf : g.fresh ≠ some t) (hr : (s.pages t).refcnt < 2 ^ 16) :
    vmpPagetablePageNonswapPteCreated s.narrow t isNew = .ok (s.bumpTable t isNew).narrow := by
  have hrc := h.refcnt_table hl
  rw [nonswapPteCreated_eq (by omega) hr, State.bumpTable]
  split
  · rename_i hc
    have hl3 : s.core.level t ≤ 3 := by
      have := (s.core.use t).level_le
      unfold Core.level at *
      omega
    have hqueue : s.tableWsle t ∈ s.wsl.queue := (h.inv.mirror.table_queue t hl hl3 hf).2 hc.1
    have hfind : vmpWslFind (s.modifyPage t (VmPage.bump isNew)).narrow (s.tableWsle t).vaddr =
        some (s.tableWsle t) := h.inv.mirror.find (h.table_mem hl hc.2 hf)
    rw [show s.tableVaddr t = (s.tableWsle t).vaddr from rfl,
      vmpWslLockEntry_of_find hfind hqueue]
    rfl
  · rfl

theorem made_bumpTable (h : Good skip s g) {t : Pfn} (isNew : Bool)
    (hl : 1 ≤ s.core.level t) (hf : g.fresh ≠ some t) (hr : (s.pages t).refcnt < 2 ^ 16) :
    Made K skip s g (s.bumpTable t isNew)
      { g with ns := incAt g.ns t, nz := if isNew then incAt g.nz t else g.nz } := by
  have hrc := h.refcnt_table hl
  have hq : (s.modifyPage t (VmPage.bump isNew)).Queues skip :=
    h.queues.modifyActive (by omega) (by simp only [VmPage.bump]; omega)
      (by simp only [VmPage.bump]; omega)
  refine .of_move (.bump t isNew hl hf hr) (core_bumpTable s t isNew) ?_ ?_ <;>
    unfold State.bumpTable
  · split <;> exact hq
  · split
    · exact .of_tree rfl rfl rfl rfl
    · exact .of_wsl rfl rfl

/-- `vmp_pagetable_page_nonswap_pte_created` is a move. -/
theorem wp_nonswapPteCreated (h : Good skip s g) {t : Pfn} (isNew : Bool)
    (hl : 1 ≤ s.core.level t) (hf : g.fresh ≠ some t) (hr : (s.pages t).refcnt < 2 ^ 16) :
    Wp (fun _ => False) (vmpPagetablePageNonswapPteCreated s.narrow t isNew) fun r =>
      ∃ s', r = s'.narrow ∧
        Made K skip s g s'
          { g with ns := incAt g.ns t, nz := if isNew then incAt g.nz t else g.nz } ∧
        s'.core = s.core.bump t isNew := by
  rw [nonswapPteCreated_of_good h isNew hl hf hr]
  exact ⟨_, rfl, made_bumpTable h isNew hl hf hr, core_bumpTable s t isNew⟩

/-- The same for a table whose count may have wrapped. -/
theorem wp_nonswapPteCreated_wrapped (h : Good skip s g) {t : Pfn} (isNew : Bool)
    (hl : 1 ≤ s.core.level t) (hf : g.fresh ≠ some t) :
    Wp (fun _ => True) (vmpPagetablePageNonswapPteCreated s.narrow t isNew) fun r =>
      ∃ s', r = s'.narrow ∧
        Made K skip s g s'
          { g with ns := incAt g.ns t, nz := if isNew then incAt g.nz t else g.nz } ∧
        s'.core = s.core.bump t isNew := by
  rcases Nat.lt_or_ge (s.pages t).refcnt (2 ^ 16) with hr | hr
  · exact (wp_nonswapPteCreated h isNew hl hf hr).weaken
  · refine Wp.intro (fun r hok => ?_) fun _ _ => trivial
    obtain ⟨s', hret, -⟩ := bind_eq_ok.1 hok
    exact absurd hret (vmpPageRetainLocked_wrapped h.queues hr)

/-- A table with one entry in core less. -/
def State.dropTable (s : State) (t : Pfn) : State :=
  if (s.pages t).nonswapPtes = 1 ∧ s.core.level t ≠ 4 then
    (s.modifyPage t VmPage.drop).unlockWsle (s.tableWsle t)
  else s.modifyPage t VmPage.drop

theorem core_dropTable (s : State) (t : Pfn) : (s.dropTable t).core = s.core.drop t := by
  by_cases hc : (s.pages t).nonswapPtes = 1 ∧ s.core.level t ≠ 4
  · have hc' : (s.core.pages t).nonswapPtes = 1 ∧ s.core.level t ≠ 4 := hc
    rw [State.dropTable, Core.drop, if_pos hc, if_pos hc', if_pos hc']
    rfl
  · have hc' : ¬ ((s.core.pages t).nonswapPtes = 1 ∧ s.core.level t ≠ 4) := hc
    rw [State.dropTable, Core.drop, if_neg hc, if_neg hc', if_neg hc']
    rfl

/-- `if (page->nonswap_ptes-- == 1 && ...) vmp_wsl_unlock_entry(...)`, with the release after it. -/
theorem dropNonswap_release_eq (h : Good skip s g) {t : Pfn} (hl : 1 ≤ s.core.level t)
    (hf : g.fresh ≠ some t) (h2 : 2 ≤ (s.pages t).refcnt) :
    (dropNonswap s t >>= fun s => vmpPageReleaseLocked s t) = .ok (s.dropTable t) := by
  have hnf : (s.pages t).use ≠ .free := fun e => by
    rw [s.core.level_of_plain (.inl e)] at hl
    omega
  have hroot : pageIsRootTable { s.pages t with nonswapPtes := dec16 (s.pages t).nonswapPtes } =
      pageIsRootTable (s.pages t) := by simp only [pageIsRootTable]
  have hdrop : ∀ pg : VmPage, ({ { pg with nonswapPtes := dec16 pg.nonswapPtes } with
      refcnt := dec16 pg.refcnt } : VmPage) = pg.drop := fun pg => by cases pg; rfl
  simp only [dropNonswap, State.dropTable, State.modifyPage_pages_self, hroot, pageIsRootTable_iff]
  split
  · rename_i hc
    have hfind : vmpWslFind (s.modifyPage t fun pg =>
        { pg with nonswapPtes := dec16 pg.nonswapPtes }) (s.tableWsle t).vaddr =
          some (s.tableWsle t) := h.inv.mirror.find (h.table_mem hl hc.2 hf)
    rw [show (s.modifyPage t fun pg => { pg with nonswapPtes := dec16 pg.nonswapPtes }).tableVaddr t
      = (s.tableWsle t).vaddr from rfl, vmpWslUnlockEntry_of_find hfind, ok_bind,
      vmpPageReleaseLocked_of_gt]
    · simp only [State.modifyPage, State.unlockWsle, Function.update_self, Function.update_idem,
        hdrop]
    · simp only [State.unlockWsle, State.modifyPage_pages_self]
      omega
    · simpa only [State.unlockWsle, State.modifyPage_pages_self] using hnf
  · rw [ok_bind, vmpPageReleaseLocked_of_gt]
    · simp only [State.modifyPage, Function.update_self, Function.update_idem, hdrop]
    · simp only [State.modifyPage_pages_self]
      omega
    · simpa only [State.modifyPage_pages_self] using hnf

/-- They are a move. -/
theorem wp_dropNonswap_release (h : Good skip s g) {t : Pfn} (hl : 1 ≤ s.core.level t)
    (hf : g.fresh ≠ some t) (hn : g.nz t < g.ns t) :
    Wp (fun _ => False) (dropNonswap s t >>= fun s => vmpPageReleaseLocked s t) fun s' =>
      Made K skip s g s' { g with ns := decAt g.ns t } ∧ s'.core = s.core.drop t := by
  have hrc := h.refcnt_table hl
  have hns0 : (s.pages t).nonswapPtes = s.core.count Pte.isNonswap t + g.ns t :=
    h.inv.tables.nonswap t hl
  have hlt := h.queues.refcnt_le t
  have hq : (s.modifyPage t VmPage.drop).Queues skip := by
    refine h.queues.modifyActive (by omega) ?_ (dec16_lt _).le
    simp only [VmPage.drop, dec16_of_pos (show 0 < (s.pages t).refcnt by omega) hlt]
    omega
  rw [dropNonswap_release_eq h hl hf (by omega), Wp.ok_iff]
  refine ⟨.of_move (.drop t hl hf hn hlt) (core_dropTable s t) ?_ ?_, core_dropTable s t⟩ <;>
    unfold State.dropTable
  · split <;> exact hq
  · split
    · exact .of_tree rfl rfl rfl rfl
    · exact .of_wsl rfl rfl

/-- The end of a reference makes no page have more references. -/
theorem Core.drop_refcnt_le {c : Core} {t : Pfn} (h0 : 0 < (c.pages t).refcnt)
    (hle : (c.pages t).refcnt ≤ 2 ^ 16) (q : Pfn) :
    ((c.drop t).pages q).refcnt ≤ (c.pages q).refcnt := by
  change ((c.setPage t _).pages q).refcnt ≤ _
  rw [Core.setPage_pages]
  split
  · subst_vars
    simp only [VmPage.drop, dec16_of_pos h0 hle]
    omega
  · exact le_rfl

/-- `vmp_pagetable_page_pte_became_swap` is a move. -/
theorem wp_vmpPagetablePagePteBecameSwap (h : Good skip s g) {t : Pfn} (hl : 1 ≤ s.core.level t)
    (hf : g.fresh ≠ some t) (hn : g.nz t < g.ns t) :
    Wp (fun _ => False) (vmpPagetablePagePteBecameSwap s t) fun s' =>
      Made K skip s g s' { g with ns := decAt g.ns t } ∧ s'.core = s.core.drop t :=
  wp_dropNonswap_release h hl hf hn

end VmmSim
