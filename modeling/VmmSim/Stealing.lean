import VmmSim.Effects

/-!
# Allocations as moves

`vmp_page_alloc_locked` takes a free page or steals the oldest page of the standby queue. Both
paths make moves that map nothing, and leave a page that was handed out
(`wp_vmpPageAllocLocked`).
-/

namespace VmmSim

open Lib

variable {K : Guard} {skip : Option Pfn} {s s' : State} {g g' : Ledger}

/-- The page that the next allocation steals, if there is no free page, may be stolen. -/
def StealOk (K : Guard) (s : State) : Prop :=
  ∀ p, s.freePgq = [] → s.standbyPgq.head? = some p → K.steal s.core p

/-- A use that pages are allocated for by the fault handler. -/
structure PageUse.Handed (use : PageUse) : Prop where
  free : use ≠ .free
  deleted : use ≠ .deleted
  level : use.level ≤ 3

/-- What an allocation leaves: the page that was handed out. -/
structure Alloced (K : Guard) (use : PageUse) (s : State) (g : Ledger) (p : Pfn) (s' : State) :
    Prop where
  made : ∃ d, Made K.calm none s g s' (({ g with drift := d } : Ledger).handedOut p use)
  level : s.core.level p = 0
  page : s'.pages p = VmPage.handedOut use
  mem : s'.mem p = 0
  refcnt : ∀ q, (s'.pages q).refcnt ≤ max 1 (s.pages q).refcnt

theorem Idle.handOut_eq {c : Core} (h : Idle c) {p : Pfn} (hu : c.use p = .free ∨ c.use p = .anonPrivate)
    (use : PageUse) : ({ (c.pages p).handOut use with referentPte := 0 } : VmPage) =
      VmPage.handedOut use := by
  obtain ⟨h1, h2⟩ := h.plain p hu
  simp only [VmPage.handOut, VmPage.handedOut, h1, h2]

theorem refcnt_update_le (pages : Pfn → VmPage) (p : Pfn) (use : PageUse) (q : Pfn) :
    (Function.update pages p (VmPage.handedOut use) q).refcnt ≤ max 1 (pages q).refcnt := by
  by_cases hq : q = p
  · subst hq
    simp [VmPage.handedOut]
  · simp [hq]

/-- The free path of `vmp_page_alloc_locked`. -/
theorem wp_takeFree (h : Good none s g) (hg : g.Settled) {p : Pfn} {q : List Pfn}
    (hq : s.freePgq = p :: q) {use : PageUse} (hu : use.Handed) :
    Wp (fun _ => False) (takeFree s p q use) fun s' => Alloced K use s g p s' := by
  obtain ⟨h0, hf⟩ := (h.queues.mem_free p).1 (by simp [hq])
  have hfree : s.core.use p = .free := hf
  have hz : (s.pages p).nonzeroPtes = 0 := (h.inv.idle.plain p (.inl hf)).1
  have hr : (s.pages p).referentPte = 0 := (h.inv.idle.free p hf).2
  have hpage : (s.pages p).handOut use = VmPage.handedOut use := by
    have := h.inv.idle.handOut_eq (.inl hf) use
    rw [← this]
    simp only [VmPage.handOut, State.core, hr]
  have queues := wp_takeFree_queues h.queues hq use
  unfold takeFree at queues ⊢
  simp only [kassert_of h0, kassert_of hz, kassert_of hr, ok_bind, Wp.pure_iff] at queues ⊢
  have hmoves : Moves K.calm s.core g
      { (s.core.setPage p (VmPage.handedOut use)).setWords p 0 with
        unsaved := Function.update s.core.unsaved p false } (g.handedOut p use) := by
    refine (Move.pick p hfree hg.loose).moves.tail ?_
    exact .handOut p use (.inl hfree) h0 rfl hg.unref hg.fresh hg.absent hu.free hu.deleted hu.level
  refine ⟨⟨g.drift, ⟨?_, queues, .of_wsl rfl rfl⟩⟩, s.core.level_of_plain (.inl hf), ?_, ?_,
    fun q => ?_⟩
  · rw [← hpage] at hmoves
    exact hmoves
  · rw [← hpage]
    exact Function.update_self p _ _
  · exact Function.update_self p _ _
  · have := refcnt_update_le s.pages p use q
    rw [← hpage] at this
    exact this

/-- A page on the standby queue is mapped by a transition entry. -/
theorem Good.standby (h : Good none s g) (hg : g.Settled) {p : Pfn} (hp : p ∈ s.standbyPgq) :
    ∃ ptr : PtePtr, s.core.level ptr.1 = 1 ∧ (s.pages p).referentPte = ptePaddr ptr ∧
      s.core.entry ptr = .trans p.val := by
  obtain ⟨-, h0, hu, -⟩ := (h.queues.mem_standby p).1 hp
  have h0' : (s.core.pages p).refcnt = 0 := h0
  obtain ⟨ptr, hl, hr, hf⟩ := h.inv.leaves.frame_back p hu (by rw [hg.loose]; nofun)
  refine ⟨ptr, hl, hr, ?_⟩
  rcases hf with hf | ⟨r, hrm, rfl, rfl⟩
  · cases he : s.core.entry ptr with
    | valid n wr =>
      rw [he] at hf
      obtain rfl := Option.some.inj hf
      have := h.inv.frames.valid ptr p wr hl he
      omega
    | trans n =>
      rw [he] at hf
      rw [Option.some.inj hf]
    | _ =>
      rw [he] at hf
      cases hf
  · have := h.inv.frames.busy r hrm
    omega

/-- Taking the entry of a page on the standby queue away from it. -/
theorem wp_unmapStolen (h : Good none s g) (hg : g.Settled) {p : Pfn} {q : List Pfn}
    (hq : s.standbyPgq = p :: q) (hk : K.steal s.core p) :
    Wp (fun _ => False) (unmapStolen { s with standbyPgq := q } p) fun s' => ∃ d,
      Made K.calm (some p) s g s' { g with drift := d, loose := some p } ∧
        s'.pages p = s.pages p ∧ ∀ q, (s'.pages q).refcnt ≤ (s.pages q).refcnt := by
  have hp : p ∈ s.standbyPgq := by simp [hq]
  obtain ⟨-, h0, hu, hd⟩ := (h.queues.mem_standby p).1 hp
  obtain ⟨ptr, hl, hr, he⟩ := h.standby hg hp
  have hpt : p ≠ ptr.1 := fun e => by
    have := s.core.level_of_plain (p := p) (.inr hu)
    rw [e, hl] at this
    omega
  have hun : Move K.calm s.core g
      (s.core.setWord ptr (vmpPteSwapCreate (s.core.pages p).drumslot))
      { g with
        ns := incAt g.ns ptr.1
        drift := if (s.core.pages p).drumslot % 2 ^ 61 = 0 then incAt g.drift ptr.1 else g.drift
        loose := some p } := .unmap ptr p hl he h0 hd hg.loose hk
  have hmade : Made K.calm (some p) s g
      (({ s with standbyPgq := q } : State).setPte ptr (vmpPteSwapCreate (s.pages p).drumslot))
      { g with
        ns := incAt g.ns ptr.1
        drift := if (s.core.pages p).drumslot % 2 ^ 61 = 0 then incAt g.drift ptr.1 else g.drift
        loose := some p } :=
    .of_move hun rfl (h.queues.skipStandby hq) (.of_wsl rfl rfl)
  have hle := h.inv.tables.nz_le ptr.1
  have drop := wp_vmpPagetablePagePteBecameSwap (K := K.calm) (hmade.good h) (t := ptr.1)
    (by rw [core_setPte, Core.setWord_level]; exact hl.ge) (by dsimp only; rw [hg.fresh]; nofun)
    (by simp only [incAt_apply, if_true]; omega)
  simp only [unmapStolen, hu, hr, pteAt_ptePaddr, vmpPaddrToPage_round, ok_bind]
  refine drop.mono fun s' hs' =>
    ⟨if (s.core.pages p).drumslot % 2 ^ 61 = 0 then incAt g.drift ptr.1 else g.drift, ?_, ?_, fun q => ?_⟩
  · have := hmade.trans hs'.1
    simp only [decAt_incAt] at this
    exact this
  · rw [show s'.pages = s'.core.pages from rfl, hs'.2]
    change ((Core.setPage _ ptr.1 _).pages p) = _
    rw [Core.setPage_pages, if_neg hpt]
    rfl
  · rw [show s'.pages = s'.core.pages from rfl, hs'.2]
    have hpos : 0 < (s.pages ptr.1).refcnt := by
      have := h.refcnt_table (t := ptr.1) hl.ge
      omega
    exact Core.drop_refcnt_le hpos (h.queues.refcnt_le _) q

/-- The steal path of `vmp_page_alloc_locked`. -/
theorem wp_stealPage (h : Good none s g) (hg : g.Settled) {p : Pfn} {q : List Pfn}
    (hq : s.standbyPgq = p :: q) (hk : K.steal s.core p) {use : PageUse} (hu : use.Handed) :
    Wp (fun _ => False) (stealPage s use) fun r => r.1 = some p ∧ Alloced K use s g p r.2 := by
  have hp : p ∈ s.standbyPgq := by simp [hq]
  obtain ⟨-, h0, hup, -⟩ := (h.queues.mem_standby p).1 hp
  have hz : (s.pages p).nonzeroPtes = 0 := (h.inv.idle.plain p (.inr hup)).1
  have queues := wp_stealPage_queues h.queues use
  unfold stealPage at queues ⊢
  rw [hq] at queues ⊢
  simp only [Wp.bind_iff] at queues ⊢
  refine ((wp_unmapStolen h hg hq hk).and_weak queues).mono ?_
  rintro s₁ ⟨⟨d, hmade, hpage, hrefs⟩, queues⟩
  have h0' : (s₁.pages p).refcnt = 0 := by rw [hpage, h0]
  have hz' : (s₁.pages p).nonzeroPtes = 0 := by rw [hpage, hz]
  have hup' : s₁.core.use p = .anonPrivate := (congrArg VmPage.use hpage).trans hup
  simp only [kassert_of h0', kassert_of hz', Wp.ok_iff, Wp.pure_iff] at queues ⊢
  have heq := (hmade.good h).inv.idle.handOut_eq (.inr hup') use
  have hmove : Move K.calm s₁.core { g with drift := d, loose := some p }
      { (s₁.core.setPage p (VmPage.handedOut use)).setWords p 0 with
        unsaved := Function.update s₁.core.unsaved p false }
      (({ g with drift := d } : Ledger).handedOut p use) :=
    .handOut p use (.inr hup') h0' rfl hg.unref hg.fresh hg.absent hu.free hu.deleted hu.level
  refine ⟨trivial, ⟨d, ⟨?_, queues, hmade.sizes.trans (.of_wsl rfl rfl)⟩⟩,
    s.core.level_of_plain (.inr hup), ?_, ?_, fun q => ?_⟩
  · rw [← heq] at hmove
    exact hmade.moves.tail hmove
  · rw [← heq]
    exact Function.update_self p _ _
  · exact Function.update_self p _ _
  · have := refcnt_update_le s₁.pages p use q
    rw [← heq] at this
    exact this.trans (max_le_max le_rfl (hrefs q))

theorem checkShortage_freePgq (s : State) : (checkShortage s).2.freePgq = s.freePgq := by
  unfold checkShortage
  split
  · dsimp only
    split <;> split <;> rfl
  · rfl

theorem checkShortage_standbyPgq (s : State) :
    (checkShortage s).2.standbyPgq = s.standbyPgq := by
  unfold checkShortage
  split
  · dsimp only
    split <;> split <;> rfl
  · rfl

/-- Allocating a page makes moves that map nothing. -/
theorem wp_vmpPageAllocLocked (h : Good none s g) (hg : g.Settled) (hk : StealOk K s)
    {use : PageUse} (hu : use.Handed) (must : Bool) :
    Wp Halt.Defined (vmpPageAllocLocked s use must) fun r => match r.1 with
      | none => r.2.core = s.core ∧ r.2.Queues none ∧ s.SameWsl r.2
      | some p => Alloced K use s g p r.2 := by
  have hc : Good none (checkShortage s).2 g :=
    ⟨h.queues.checkShortage, by rw [checkShortage_core]; exact h.inv⟩
  have hfree := checkShortage_freePgq s
  have hstandby := checkShortage_standbyPgq s
  have hback : ∀ p s', Alloced K use (checkShortage s).2 g p s' → Alloced K use s g p s' := by
    rintro p s' ⟨⟨d, hm, hq, hz⟩, hl, hpg, hmem, hrc⟩
    rw [checkShortage_core] at hm hl
    rw [show (checkShortage s).2.pages = (checkShortage s).2.core.pages from rfl,
      checkShortage_core] at hrc
    exact ⟨⟨d, hm, hq, (checkShortage_wsl s).sizes.trans hz⟩, hl, hpg, hmem, hrc⟩
  unfold vmpPageAllocLocked
  dsimp only
  split
  · exact ⟨checkShortage_core s, hc.queues, checkShortage_wsl s⟩
  · split
    · rename_i hf
      cases hs : (checkShortage s).2.standbyPgq with
      | nil =>
        simp only [stealPage, hs, ok_bind]
        split
        · exact Halt.defined_kfatal
        · exact ⟨checkShortage_core s, hc.queues, checkShortage_wsl s⟩
      | cons p q =>
        have hkp : K.steal (checkShortage s).2.core p := by
          rw [checkShortage_core]
          exact hk p (hfree.symm.trans hf) (by rw [← hstandby, hs]; rfl)
        refine Wp.bind ((wp_stealPage hc hg hs hkp hu).mono_halt fun _ e => e.elim) fun r hr => ?_
        obtain ⟨page, s₁⟩ := r
        obtain ⟨rfl, ha⟩ := hr
        simp only [Option.isNone_some, Bool.false_eq_true, false_and, if_false]
        exact hback p s₁ ha
    · rename_i p q hf
      refine Wp.bind ((wp_takeFree (K := K) hc hg hf hu).mono_halt fun _ e => e.elim) fun s₁ hs₁ => ?_
      exact hback p s₁ hs₁

/-- The allocation does to the narrow state what it does to the exact one. -/
theorem vmpPageAllocLocked_narrow (h : Good none s g) (hg : g.Settled) (hk : StealOk K s)
    {use : PageUse} (hu : use.Handed) (must : Bool) :
    NarrowsWith (vmpPageAllocLocked s use must) (vmpPageAllocLocked s.narrow use must) := by
  have hc : Good none (checkShortage s).2 g :=
    ⟨h.queues.checkShortage, by rw [checkShortage_core]; exact h.inv⟩
  unfold vmpPageAllocLocked
  simp only [checkShortage_narrow]
  refine .ite (fun _ => .ok (none, _)) fun _ => ?_
  simp only [State.narrow_freePgq]
  split
  · rename_i hf
    refine Follows.bind (f := Prod.map id State.narrow) ?_ fun r =>
      .ite (fun _ => .error _) fun _ => .ok r
    cases hs : (checkShortage s).2.standbyPgq with
    | nil =>
      exact stealPage_narrow (r := (none, (checkShortage s).2)) (by simp only [stealPage, hs])
    | cons p q =>
      have hkp : K.steal (checkShortage s).2.core p := by
        rw [checkShortage_core]
        exact hk p ((checkShortage_freePgq s).symm.trans hf) (by
          rw [← checkShortage_standbyPgq, hs]
          rfl)
      obtain ⟨r, hr, -⟩ := wp_false_iff.1 (wp_stealPage hc hg hs hkp hu)
      exact stealPage_narrow hr
  · rename_i p q hf
    have h0 := ((hc.queues.mem_free p).1 (by simp [hf])).1
    exact (takeFree_narrow h0 q use).bind fun s => .ok (some p, s)

/-- **Allocating a page makes moves that map nothing**, in the state that the code has. -/
theorem wp_alloc (h : Good none s g) (hg : g.Settled) (hk : StealOk K s) {use : PageUse}
    (hu : use.Handed) (must : Bool) :
    Wp Halt.Defined (vmpPageAllocLocked s.narrow use must) fun r => ∃ s', r.2 = s'.narrow ∧
      match r.1 with
      | none => s'.core = s.core ∧ s'.Queues none ∧ s.SameWsl s'
      | some p => Alloced K use s g p s' := by
  refine ((vmpPageAllocLocked_narrow h hg hk hu must).wp (wp_vmpPageAllocLocked h hg hk hu must)
    (by rintro e rfl; exact Halt.defined_kassert)).mono ?_
  rintro r ⟨⟨page, s'⟩, rfl, hr⟩
  exact ⟨s', rfl, hr⟩

end VmmSim
