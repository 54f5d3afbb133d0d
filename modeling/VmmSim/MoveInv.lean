import VmmSim.MoveSlots

/-!
# The invariants survive every move

One lemma for each move, put together from the lemmas of the single invariants, and from them
`Inv.move`.
-/

namespace VmmSim

open Lib

variable {c c' : Core} {g g' : Ledger} {p : Pfn}

theorem noSlot_mod : noSlot % 2 ^ 61 ≠ 0 := by decide

namespace Inv

/-- At most one entry of a table was overwritten with the swap entry of slot 0. -/
theorem drift_le (h : Inv c g) (t : Pfn) : g.drift t ≤ 1 := by
  have h₁ : g.drift t ≤ ∑ p, g.drift p :=
    Finset.single_le_sum (f := g.drift) (fun _ _ => Nat.zero_le _) (Finset.mem_univ t)
  have h₂ := h.slots.zero
  have h₃ : c.pagefile.slotZeroTaken.toNat ≤ 1 := Bool.toNat_le _
  omega

/-- A table with one entry to count and one reference of a wiring is empty. -/
theorem empty_of_last (h : Inv c g) {t : Pfn} (hl : 1 ≤ c.level t)
    (hz : (c.pages t).nonzeroPtes = 1) (hn : g.nz t = 1) : ∀ i, c.entry (t, i) = .zero := by
  have hcount : c.count Pte.isNonzero t = 0 := by
    have h₁ := h.tables.nonzero t hl
    have h₂ := h.drift_le t
    have h₃ : c.count Pte.isNonzero t ≤ 512 := (countWhere_le _ _).trans (by simp)
    rw [hz, hn] at h₁
    omega
  intro i
  have := (Core.count_eq_zero c).1 hcount i
  simpa [Pte.isNonzero] using this

theorem not_anon_of_level (hl : 1 ≤ c.level p) : c.use p ≠ .anonPrivate := fun e => by
  rw [c.level_of_plain (.inr e)] at hl
  omega

/-- An assignment to a page table: only its counters are affected. -/
theorem setTable (h : Inv c g) {t : Pfn} {pg : VmPage} (hl : 1 ≤ c.level t)
    (hu : pg.use = c.use t)
    (hr : g.loose ≠ some t → pg.referentPte = (c.pages t).referentPte)
    (hs : pg.drumslot = (c.pages t).drumslot) :
    Dirs (c.setPage t pg) g ∧ Leaves (c.setPage t pg) g ∧ FrameCounts (c.setPage t pg) g ∧
      Idle (c.setPage t pg) ∧ Slots (c.setPage t pg) g := by
  have hnot := not_anon_of_level hl
  refine ⟨h.dirs.setPage hu fun _ => hr, h.leaves.setPage hu fun e => (hnot e).elim, ?_,
    h.idle.setPage_of_use hu (.inr hl), h.slots.setPage hu hs fun _ e => (hnot e).elim⟩
  refine h.frames.congr h.leaves (fun q hq => ?_) (fun q => ?_) (fun q hq => ?_) (fun _ _ => rfl)
    rfl rfl (fun _ _ => And.intro)
  · exact (Core.setPage_level_of hu q).symm.trans hq
  · rw [Core.setPage_use_of hu]
  · rw [Core.setPage_pages, if_neg fun e : q = t => hnot (by rw [← e]; exact hq)]

theorem bump (h : Inv c g) {t : Pfn} {isNew : Bool} (hl : 1 ≤ c.level t) (hf : g.fresh ≠ some t)
    (hr : (c.pages t).refcnt < 2 ^ 16) :
    Inv (c.bump t isNew)
      { g with ns := incAt g.ns t, nz := if isNew then incAt g.nz t else g.nz } := by
  have hrc := h.tables.refcnt t hl
  have hin : inc16 (c.pages t).nonswapPtes = (c.pages t).nonswapPtes + 1 :=
    inc16_of_lt (by omega)
  have hu : ((c.pages t).bump isNew).use = c.use t := VmPage.bump_use ..
  have tables : TableCounts (c.setPage t ((c.pages t).bump isNew))
      { g with ns := incAt g.ns t, nz := if isNew then incAt g.nz t else g.nz } := by
    refine h.tables.setTable hl hu ?_ ?_ ?_ ?_ ?_ rfl ?_ ?_ rfl
    · simp only [VmPage.bump, incAt_apply, if_true]
      omega
    · intro n hn
      cases isNew
      · exact hn
      · simp only [VmPage.bump, incAt_apply, if_true, hn, inc16]
        omega
    · simp only [VmPage.bump]
      omega
    · exact fun q hq => by simp [incAt_apply, hq]
    · intro q hq
      cases isNew <;> simp [incAt_apply, hq]
    · have := h.tables.nz_le t
      cases isNew <;> (simp [incAt_apply]; omega)
    · intro h3 hn
      have := h.tables.live t hl h3 hn
      cases isNew
      · simpa using this
      · simp [incAt_apply]
  obtain ⟨dirs, leaves, frames, idle, slots⟩ := h.setTable hl hu (fun _ => rfl) rfl
  exact ⟨dirs.of_eq rfl rfl rfl rfl, leaves.of_eq rfl rfl rfl rfl rfl,
    tables.of_eq rfl rfl rfl rfl rfl rfl, frames.of_eq leaves rfl rfl rfl rfl rfl rfl,
    idle.of_eq rfl rfl, h.mirror.bump h.dirs hl hf (by omega) rfl rfl rfl,
    slots.of_eq rfl rfl rfl rfl⟩

theorem drop (h : Inv c g) {t : Pfn} (hl : 1 ≤ c.level t) (hf : g.fresh ≠ some t)
    (hn : g.nz t < g.ns t) (hr : (c.pages t).refcnt ≤ 2 ^ 16) :
    Inv (c.drop t) { g with ns := decAt g.ns t } := by
  have hrc := h.tables.refcnt t hl
  have hns := h.tables.nonswap t hl
  have hdr : dec16 (c.pages t).refcnt = (c.pages t).refcnt - 1 := dec16_of_pos (by omega) hr
  have hdn : dec16 (c.pages t).nonswapPtes = (c.pages t).nonswapPtes - 1 :=
    dec16_of_pos (by omega) (by omega)
  have hu : (c.pages t).drop.use = c.use t := VmPage.drop_use ..
  have tables : TableCounts (c.setPage t (c.pages t).drop) { g with ns := decAt g.ns t } := by
    refine h.tables.setTable hl hu ?_ (fun _ hn => by rwa [VmPage.drop_nonzeroPtes]) ?_ ?_
      (fun _ _ => rfl) rfl ?_
      (fun h3 => h.tables.live t hl h3) rfl
    · simp only [VmPage.drop, decAt_apply, if_true]
      omega
    · simp only [VmPage.drop]
      omega
    · exact fun q hq => by simp [decAt_apply, hq]
    · simp only [decAt_apply, if_true]
      omega
  obtain ⟨dirs, leaves, frames, idle, slots⟩ := h.setTable hl hu
    (fun _ => VmPage.drop_referentPte _) (VmPage.drop_drumslot _)
  exact ⟨dirs.of_eq rfl rfl rfl rfl, leaves.of_eq rfl rfl rfl rfl rfl,
    tables.of_eq rfl rfl rfl rfl rfl rfl, frames.of_eq leaves rfl rfl rfl rfl rfl rfl,
    idle.of_eq rfl rfl, h.mirror.drop h.dirs hl hf (by omega) (by omega) rfl rfl rfl,
    slots.of_eq rfl rfl rfl rfl⟩

theorem decNonzero (h : Inv c g) {t : Pfn} (hl : 1 ≤ c.level t) (hn : 1 ≤ g.nz t)
    (hk : c.level t = 4 ∨ (c.pages t).nonzeroPtes ≠ 1) :
    Inv (c.setPage t { c.pages t with nonzeroPtes := dec16 (c.pages t).nonzeroPtes })
      { g with nz := decAt g.nz t } := by
  have hle := h.tables.nz_le t
  have hnz := h.tables.nonzero t hl
  have hu : ({ c.pages t with nonzeroPtes := dec16 (c.pages t).nonzeroPtes } : VmPage).use =
      c.use t := by dsimp only [Core.use]
  have tables : TableCounts (c.setPage t
      { c.pages t with nonzeroPtes := dec16 (c.pages t).nonzeroPtes })
      { g with nz := decAt g.nz t } := by
    refine h.tables.setTable hl hu (by dsimp only) ?_ (h.tables.refcnt t hl) (fun _ _ => rfl) ?_ rfl ?_ ?_ rfl
    · intro n hn'
      simp only [decAt_apply, if_true, hn', dec16]
      omega
    · exact fun q hq => by simp [decAt_apply, hq]
    · simp only [decAt_apply, if_true]
      omega
    · intro h3 hlo
      have hlive := h.tables.live t hl h3 hlo
      simp only [decAt_apply, if_true]
      rcases hk with hk | hk <;> omega
  obtain ⟨dirs, leaves, frames, idle, slots⟩ := h.setTable hl hu (fun _ => by dsimp only)
    (by dsimp only)
  exact ⟨dirs.of_eq rfl rfl rfl rfl, leaves.of_eq rfl rfl rfl rfl rfl, tables,
    frames.of_eq leaves rfl rfl rfl rfl rfl rfl, idle,
    (h.mirror.setPage h.dirs hu fun _ _ => by simp only).of_eq dirs rfl rfl rfl rfl rfl rfl rfl rfl rfl
      rfl, slots.of_eq rfl rfl rfl rfl⟩

theorem evict (h : Inv c g) {e : Wsle} {q : List Wsle} {ptr : PtePtr} {p : Pfn} {wr : Bool}
    (hq : c.queue = e :: q) (he : e.isPagetable = false) (hw : c.Walks e.vaddr ptr)
    (hv : c.entry ptr = .valid p.val wr) :
    Inv { c.setWord ptr (vmpPteTransCreate p.val) with tree := c.tree.erase e, queue := q }
      { g with held := incAt g.held p } := by
  have hl := h.dirs.level_of_walks hw
  have hview := view_transCreate_pfn p
  have hfr : (c.entry ptr).frame = some p.val := by rw [hv]; rfl
  have hpage := h.leaves.frame_page hl hfr
  have frames : FrameCounts (c.setWord ptr (vmpPteTransCreate p.val))
      { g with held := incAt g.held p } := by
    refine h.frames.setWord (p := p) (fun x hx hlx hfx => hx (h.leaves.frame_unique hlx hl hfx hfr))
      (fun x wr' hx => ?_) (fun x hx => ?_) (fun x hx => by simp [incAt_apply, hx])
      (fun _ => hpage.1) (fun r hr => .inl ⟨hr, h.leaves.busy_page_ne hr hl hfr⟩)
      (fun x hx hux hun => ?_)
    · rw [hview] at hx
      cases hx
    · rw [hview] at hx
      simp only [Pte.trans.injEq] at hx
      refine ⟨Fin.ext hx.symm, ?_⟩
      simpa [incAt_apply] using h.frames.valid ptr p wr hl hv
    · have hxp : x ≠ p := by
        rintro rfl
        rcases hpage.2 with hp | hp
        · exact hp.2 hx
        · rw [hp.1] at hun
          cases hun
      simpa [incAt_apply, hxp] using h.frames.loose x hx hux hun
  have tables : TableCounts (c.setWord ptr (vmpPteTransCreate p.val))
      { g with held := incAt g.held p } :=
    h.tables.setWord (by rw [hview, hv]; rfl) (by rw [hview, hv]; rfl) (fun _ _ => rfl)
      (fun _ _ => rfl) (fun _ _ => rfl) (by omega) (h.tables.nz_le _) (fun _ _ => .inl)
  exact ⟨(h.dirs.setWord hl).of_eq rfl rfl rfl rfl,
    (h.leaves.setWord_frame hfr (by rw [hview]; rfl)).of_eq rfl rfl rfl rfl rfl,
    tables.of_eq rfl rfl rfl rfl rfl rfl,
    frames.of_eq ((h.leaves.setWord_frame hfr (by rw [hview]; rfl)).of_eq rfl rfl rfl rfl rfl)
      rfl rfl rfl rfl rfl rfl,
    (h.idle.setWord (by omega)).of_eq rfl rfl,
    h.mirror.evict h.dirs h.leaves hq he hw hv (by rw [hview]; rfl) rfl rfl rfl,
    h.slots.of_eq rfl rfl rfl rfl⟩

theorem enterLeaf (h : Inv c g) {vaddr : ℕ} {ptr : PtePtr} {locked : Bool}
    (ha : g.absent = some ptr) (hw : c.Walks vaddr ptr) (hk : ∀ e ∈ c.tree, e.vaddr ≠ vaddr)
    (hm : (c.entry ptr).isMapped = true) (hv : locked = !(c.entry ptr).isValid)
    (hb : ∀ r ∈ g.busy, r.pte = ptr → r.vaddr = vaddr) :
    Inv (c.enter ⟨vaddr, false⟩ locked) { g with absent := none } :=
  ⟨h.dirs.of_eq rfl rfl rfl rfl, h.leaves.of_eq rfl rfl rfl rfl rfl,
    h.tables.of_eq rfl rfl rfl rfl rfl rfl, h.frames.of_eq h.leaves rfl rfl rfl rfl rfl rfl,
    h.idle.of_eq rfl rfl, h.mirror.enterLeaf ha hw hk hm hv hb rfl rfl rfl,
    h.slots.of_eq rfl rfl rfl rfl⟩

theorem enterTable (h : Inv c g) {t : Pfn} (hf : g.fresh = some t) (h₁ : 1 ≤ c.level t)
    (h₃ : c.level t ≤ 3) (hk : ∀ e ∈ c.tree, e.vaddr ≠ (c.tableWsle t).vaddr)
    (hn : 0 < (c.pages t).nonswapPtes) :
    Inv (c.enter (c.tableWsle t) true) { g with fresh := none } :=
  ⟨h.dirs.of_eq rfl rfl rfl rfl, h.leaves.of_eq rfl rfl rfl rfl rfl,
    h.tables.of_eq rfl rfl rfl rfl rfl rfl, h.frames.of_eq h.leaves rfl rfl rfl rfl rfl rfl,
    h.idle.of_eq rfl rfl, h.mirror.enterTable hf h₁ h₃ hk hn rfl rfl rfl,
    h.slots.of_eq rfl rfl rfl rfl⟩

theorem mapZero (h : Inv c g) {ptr : PtePtr} {p : Pfn} {wr : Bool} (hl : c.level ptr.1 = 1)
    (he : c.entry ptr = .zero) (hp : g.loose = some p) (hu : c.use p = .anonPrivate)
    (hr : g.unref = none) (ha : g.absent = none) (hh : 1 ≤ g.held p) (hn : 1 ≤ g.nz ptr.1) :
    Inv (c.setWord ptr (vmpPteHwCreate p.val wr))
      { g with
        ns := decAt g.ns ptr.1
        nz := decAt g.nz ptr.1
        held := decAt g.held p
        unref := some ptr
        absent := some ptr } := by
  have hview := view_hwCreate_pfn p wr
  have hle := h.tables.nz_le ptr.1
  refine ⟨(h.dirs.setWord hl).of_eq rfl rfl rfl rfl, h.leaves.mapZero he hp hu hr rfl rfl rfl,
    ?_, ?_, h.idle.setWord (by omega), ?_, h.slots.of_eq rfl rfl rfl rfl⟩
  · refine h.tables.setWord ?_ ?_ (fun t ht => by simp [decAt_apply, ht])
      (fun t ht => by simp [decAt_apply, ht]) (fun _ _ => rfl) (by omega) ?_ (fun _ _ => .inl)
    · rw [hview, he]
      simp only [Pte.isNonswap, decAt_apply, if_true, Bool.toNat_true, Bool.toNat_false]
      omega
    · rw [hview, he]
      simp only [Pte.isNonzero, decAt_apply, if_true]
      simp
      omega
    · simp only [decAt_apply, if_true]
      omega
  · refine h.frames.setWord (p := p) (fun x _ hlx hfx => ?_) (fun x wr' hx => ?_)
      (fun x hx => ?_) (fun x hx => by simp [decAt_apply, hx]) (fun _ => hu)
      (fun r hr' => .inl ⟨hr', fun e => ?_⟩) (fun x _ _ hun => nomatch hun)
    · rcases (h.leaves.frame_page hlx hfx).2 with hx | hx
      · exact hx.2 hp
      · rw [hr] at hx
        cases hx.1
    · rw [hview] at hx
      simp only [Pte.valid.injEq] at hx
      refine ⟨Fin.ext hx.1.symm, ?_⟩
      simp only [decAt_apply, if_true]
      rw [h.frames.loose p hp hu hr]
      omega
    · rw [hview] at hx
      cases hx
    · exact (h.leaves.busy_back r hr').2.2.2.2 (by rw [e]; exact hp)
  · exact h.mirror.setLeaf h.dirs hl (by rw [he]; rfl) ha (fun _ => rfl) (fun _ => rfl) rfl rfl
      (fun r hr => .inl hr)

/-- The address of an entry in a page of data is a matter of `Leaves` alone. -/
theorem setReferent_rest (h : Inv c g) {p : Pfn} (hu : c.use p = .anonPrivate) (ptr : PtePtr) :
    Dirs (c.setReferent p ptr) g ∧ TableCounts (c.setReferent p ptr) g ∧
      FrameCounts (c.setReferent p ptr) g ∧ Idle (c.setReferent p ptr) ∧
        Mirror (c.setReferent p ptr) g ∧ (g.loose = some p → 0 < (c.pages p).refcnt →
          ∀ g' : Ledger, g'.drift = g.drift → g'.loose = none →
            Slots (c.setReferent p ptr) g') := by
  have h0 : c.level p = 0 := c.level_of_plain (.inr hu)
  have hpl : ∀ {P : Prop}, 1 ≤ c.level p → P := fun hq => by omega
  refine ⟨h.dirs.setPage (by rfl) hpl, h.tables.setPage (by rfl) hpl, ?_,
    h.idle.setPage_of_use (by rfl) (.inl ⟨hu, rfl, rfl⟩), h.mirror.setPage h.dirs (by rfl) hpl,
    fun hp hr g' gd gl => ?_⟩
  · exact h.frames.setRefcnt (v := { c.pages p with referentPte := ptePaddr ptr }) (by rfl) rfl
      (fun _ _ => rfl) (fun _ => hu) rfl rfl rfl
  · have hslot := (h.slots.loose p hp hu).resolve_left (by omega)
    have slots : Slots (c.setReferent p ptr) g := h.slots.setPage (by rfl) (by rfl) (h.slots.loose p)
    refine slots.setLedger gd (fun q _ e => ?_) (fun q _ e => .inr ?_)
    · rw [gl] at e
      cases e
    · obtain rfl := Option.some.inj (hp.symm.trans e)
      rw [Core.setReferent, Core.setPage_pages, if_pos rfl]
      simp only [hslot]
      exact noSlot_mod

theorem setReferent (h : Inv c g) {ptr : PtePtr} {p : Pfn} {wr : Bool} (hl : c.level ptr.1 = 1)
    (he : c.entry ptr = .valid p.val wr) (hp : g.loose = some p) (hr : g.unref = some ptr) :
    Inv (c.setReferent p ptr) { g with loose := none, unref := none } := by
  have hfr : (c.entry ptr).frame = some p.val := by rw [he]; rfl
  have hu := (h.leaves.frame_page hl hfr).1
  have hrc := h.frames.valid ptr p wr hl he
  have hloose : ∀ q, 1 ≤ (c.setReferent p ptr).level q → g.loose ≠ some q := fun q hq e => by
    obtain rfl := Option.some.inj (hp.symm.trans e)
    rw [Core.setReferent_level, c.level_of_plain (.inr hu)] at hq
    omega
  obtain ⟨dirs, tables, frames, idle, mirror, slots⟩ := h.setReferent_rest hu ptr
  have leaves : Leaves (c.setReferent p ptr) { g with loose := none, unref := none } :=
    h.leaves.setReferent hl hfr hp hr rfl rfl
  refine ⟨dirs.setLedger fun q hq => iff_of_false nofun (hloose q hq), leaves, ?_, ?_, idle,
    mirror.of_eq dirs rfl rfl rfl rfl rfl rfl rfl rfl rfl rfl, slots hp (by omega) _ rfl rfl⟩
  · exact tables.congr (fun _ => rfl) (fun _ _ => rfl) (fun _ _ => rfl) (fun _ _ => rfl)
      (fun _ _ => rfl) rfl rfl rfl fun t ht e => absurd e (hloose t ht)
  · exact ⟨frames.valid, frames.trans, frames.busy, fun q e => (nomatch e), frames.held_frame⟩

theorem mapSoft (h : Inv c g) {ptr : PtePtr} {p : Pfn} (hl : c.level ptr.1 = 1)
    (he : c.entry ptr = .trans p.val) (hp : g.loose = none) (ha : g.absent = none)
    (hh : 1 ≤ g.held p) :
    Inv (c.setWord ptr (vmpPteHwCreate p.val false))
      { g with held := decAt g.held p, absent := some ptr } := by
  have hview := view_hwCreate_pfn p false
  have hfr : (c.entry ptr).frame = some p.val := by rw [he]; rfl
  have hu := (h.leaves.frame_page hl hfr).1
  refine ⟨(h.dirs.setWord hl).of_eq rfl rfl rfl rfl,
    (h.leaves.setWord_frame hfr (by rw [hview]; rfl)).of_eq rfl rfl rfl rfl rfl,
    h.tables.setWord (by rw [hview, he]; rfl) (by rw [hview, he]; rfl) (fun _ _ => rfl)
      (fun _ _ => rfl) (fun _ _ => rfl) (by omega) (h.tables.nz_le _) (fun _ _ => .inl),
    ?_, h.idle.setWord (by omega), ?_, h.slots.of_eq rfl rfl rfl rfl⟩
  · refine h.frames.setWord (p := p)
      (fun x hx hlx hfx => hx (h.leaves.frame_unique hlx hl hfx hfr)) (fun x wr' hx => ?_)
      (fun x hx => ?_) (fun x hx => by simp [decAt_apply, hx]) (fun _ => hu)
      (fun r hr => .inl ⟨hr, h.leaves.busy_page_ne hr hl hfr⟩)
      (fun x hx => by rw [hp] at hx; cases hx)
    · rw [hview] at hx
      simp only [Pte.valid.injEq] at hx
      refine ⟨Fin.ext hx.1.symm, ?_⟩
      simp only [decAt_apply, if_true]
      rw [h.frames.trans ptr p hl he]
      omega
    · rw [hview] at hx
      cases hx
  · exact h.mirror.setLeaf h.dirs hl (by rw [he]; rfl) ha (fun _ => rfl) (fun _ => rfl) rfl rfl
      (fun r hr => .inl hr)

theorem mapBusy (h : Inv c g) {ptr : PtePtr} {p : Pfn} {state slot vaddr : ℕ}
    (hl : c.level ptr.1 = 1) (hw : c.Walks vaddr ptr) (he : c.entry ptr = .swap slot)
    (hp : g.loose = some p) (hu : c.use p = .anonPrivate) (hr : g.unref = none)
    (ha : g.absent = none) (hh : 1 ≤ g.held p) (hn : g.nz ptr.1 < g.ns ptr.1) :
    Inv ((c.setReferent p ptr).setWord ptr (vmpPteBusyCreate state))
      { g with
        ns := decAt g.ns ptr.1
        held := decAt g.held p
        busy := g.busy ++ [⟨vaddr, ptr, p⟩]
        loose := none
        absent := some ptr } := by
  obtain ⟨a, hview⟩ := view_busyCreate_busy state
  have hrc := h.frames.loose p hp hu hr
  have hloose : ∀ q, 1 ≤ c.level q → g.loose ≠ some q := fun q hq e => by
    obtain rfl := Option.some.inj (hp.symm.trans e)
    rw [c.level_of_plain (.inr hu)] at hq
    omega
  obtain ⟨dirs, tables, frames, idle, mirror, slots⟩ := h.setReferent_rest hu ptr
  have hl' : (c.setReferent p ptr).level ptr.1 = 1 := by rw [Core.setReferent_level, hl]
  have he' : (c.setReferent p ptr).entry ptr = .swap slot := he
  have hrc' : ((c.setReferent p ptr).pages p).refcnt = g.held p := by
    rw [Core.setReferent, Core.setPage_pages, if_pos rfl, ← hrc]
  refine ⟨?_, h.leaves.mapBusy hl he hp hu hr rfl rfl, ?_, ?_, idle.setWord (by omega), ?_,
    (slots hp (by omega) { g with loose := none } rfl rfl).of_eq rfl rfl rfl rfl⟩
  · refine (dirs.setWord hl').setLedger fun q hq => iff_of_false (Option.some_ne_none _).symm (hloose q ?_)
    rwa [Core.setWord_level, Core.setReferent_level] at hq
  · refine tables.setWord ?_ ?_ (fun t ht => by simp [decAt_apply, ht]) (fun _ _ => rfl)
      (fun _ _ => rfl) (by omega) ?_ (fun t ht e => ?_)
    · rw [hview, he']
      simp only [Pte.isNonswap, decAt_apply, if_true, Bool.toNat_true, Bool.toNat_false]
      omega
    · rw [hview, he']
      rfl
    · simp only [decAt_apply, if_true]
      omega
    · rw [Core.setReferent_level] at ht
      exact absurd e (hloose t ht)
  · refine frames.setWord (p := p) (fun x _ hlx hfx => ?_) (fun x wr' hx => ?_)
      (fun x hx => ?_) (fun x hx => by simp [decAt_apply, hx]) (fun _ => ?_) (fun r hr' => ?_)
      (fun x hx => absurd hx (Option.some_ne_none _).symm)
    · rw [Core.setReferent_level] at hlx
      rcases (h.leaves.frame_page hlx hfx).2 with hx | hx
      · exact hx.2 hp
      · rw [hr] at hx
        cases hx.1
    · rw [hview] at hx
      cases hx
    · rw [hview] at hx
      cases hx
    · rw [Core.setReferent_use, hu]
    · rcases List.mem_append.1 hr' with hr' | hr'
      · exact .inl ⟨hr', fun e => (h.leaves.busy_back r hr').2.2.2.2 (by rw [e]; exact hp)⟩
      · obtain rfl := List.mem_singleton.1 hr'
        refine .inr ⟨rfl, ?_⟩
        simp only [decAt_apply, if_true]
        omega
  · refine (h.mirror.setLeaf h.dirs (f := (c.setReferent p ptr).pages) hl (by rw [he]; rfl) ha
      (fun q => Core.setReferent_use c p q ptr) (fun q => ?_) rfl rfl fun r hr' => ?_)
    · rw [Core.setReferent, Core.setPage_pages]
      split
      · rw [‹q = p›]
      · rfl
    · rcases List.mem_append.1 hr' with hr' | hr'
      · exact .inl hr'
      · obtain rfl := List.mem_singleton.1 hr'
        exact .inr ⟨rfl, hw⟩

theorem writeable (h : Inv c g) {ptr : PtePtr} {p : Pfn} {wr : Bool} (hl : c.level ptr.1 = 1)
    (he : c.entry ptr = .valid p.val wr) :
    Inv (c.setWord ptr (hwSetWriteable (c.mem ptr.1 ptr.2))) g := by
  have hview : view (hwSetWriteable (c.mem ptr.1 ptr.2)) = .valid p.val true :=
    view_hwSetWriteable he
  have hfr : (c.entry ptr).frame = some p.val := by rw [he]; rfl
  have hpage := h.leaves.frame_page hl hfr
  refine ⟨h.dirs.setWord hl, h.leaves.setWord_frame hfr (by rw [hview]; rfl),
    h.tables.setWord (by rw [hview, he]; rfl) (by rw [hview, he]; rfl) (fun _ _ => rfl)
      (fun _ _ => rfl) (fun _ _ => rfl) (by omega) (h.tables.nz_le _) (fun _ _ => .inl),
    ?_, h.idle.setWord (by omega), ?_, h.slots.of_eq rfl rfl rfl rfl⟩
  · refine h.frames.setWord (p := p)
      (fun x hx hlx hfx => hx (h.leaves.frame_unique hlx hl hfx hfr)) (fun x wr' hx => ?_)
      (fun x hx => ?_) (fun _ _ => rfl) (fun _ => hpage.1)
      (fun r hr => .inl ⟨hr, h.leaves.busy_page_ne hr hl hfr⟩) h.frames.loose
    · rw [hview] at hx
      simp only [Pte.valid.injEq] at hx
      exact ⟨Fin.ext hx.1.symm, h.frames.valid ptr p wr hl he⟩
    · rw [hview] at hx
      cases hx
  · refine h.mirror.congr h.dirs rfl rfl rfl rfl rfl (fun _ => rfl) (fun _ _ _ _ => Iff.rfl)
      (fun x hx => Core.setWord_entry_ne _ _ _ _ fun e => ?_) (fun x _ => ?_) rfl rfl rfl
    · rw [e] at hx
      omega
    · rw [Core.setWord_entry]
      split
      · subst_vars
        rw [hview, he]
        exact ⟨rfl, rfl⟩
      · exact ⟨rfl, rfl⟩

theorem finish (h : Inv c g) {r : Swapping} (hr : r ∈ g.busy) (ha : g.absent = none) :
    Inv
      { c.setWord r.pte (vmpPteHwCreate r.page.val false) with
        queue := c.queue ++ [⟨r.vaddr, false⟩]
        nlocked := c.nlocked - 1 }
      { g with busy := g.busy.erase r } := by
  have hview := view_hwCreate_pfn r.page false
  obtain ⟨hl, ⟨a, he⟩, hu, -, hlo⟩ := h.leaves.busy_back r hr
  have hother : ∀ x ∈ g.busy.erase r, x ∈ g.busy ∧ x ≠ r := fun x hx =>
    ⟨List.mem_of_mem_erase hx, fun e => by
      rw [e] at hx
      exact (List.Nodup.of_map _ h.leaves.busy_nodup).not_mem_erase hx⟩
  have leaves : Leaves (c.setWord r.pte (vmpPteHwCreate r.page.val false))
      { g with busy := g.busy.erase r } := h.leaves.finish hr rfl rfl rfl
  have tables : TableCounts (c.setWord r.pte (vmpPteHwCreate r.page.val false))
      { g with busy := g.busy.erase r } :=
    h.tables.setWord (by rw [hview, he]; rfl) (by rw [hview, he]; rfl) (fun _ _ => rfl)
      (fun _ _ => rfl) (fun _ _ => rfl) (by omega) (h.tables.nz_le _) (fun _ _ => .inl)
  have frames : FrameCounts (c.setWord r.pte (vmpPteHwCreate r.page.val false))
      { g with busy := g.busy.erase r } := by
    refine h.frames.setWord (p := r.page)
      (fun x _ hlx hfx => h.leaves.busy_page_ne hr hlx hfx rfl) (fun x wr' hx => ?_)
      (fun x hx => ?_) (fun _ _ => rfl) (fun _ => hu) (fun x hx => .inl ?_) h.frames.loose
    · rw [hview] at hx
      simp only [Pte.valid.injEq] at hx
      exact ⟨Fin.ext hx.1.symm, h.frames.busy r hr⟩
    · rw [hview] at hx
      cases hx
    · obtain ⟨hx, hne⟩ := hother x hx
      exact ⟨hx, fun e => hne (h.leaves.busy_page_unique hx hr e)⟩
  exact ⟨(h.dirs.setWord hl).of_eq rfl rfl rfl rfl, leaves.of_eq rfl rfl rfl rfl rfl,
    tables.of_eq rfl rfl rfl rfl rfl rfl, frames.of_eq leaves rfl rfl rfl rfl rfl rfl,
    (h.idle.setWord (by omega)).of_eq rfl rfl,
    h.mirror.finish h.dirs h.leaves hr ha rfl ha fun x hx =>
      ⟨(hother x hx).1, fun e => (hother x hx).2 (h.leaves.busy_unique (hother x hx).1 hr e)⟩,
    h.slots.of_eq rfl rfl rfl rfl⟩

theorem unmap (h : Inv c g) {ptr : PtePtr} {p : Pfn} (hl : c.level ptr.1 = 1)
    (he : c.entry ptr = .trans p.val) (h0 : (c.pages p).refcnt = 0) (hp : g.loose = none) :
    Inv (c.setWord ptr (vmpPteSwapCreate (c.pages p).drumslot))
      { g with
        ns := incAt g.ns ptr.1
        drift := if (c.pages p).drumslot % 2 ^ 61 = 0 then incAt g.drift ptr.1 else g.drift
        loose := some p } := by
  have hview := view_swapCreate (c.pages p).drumslot
  have hfr : (c.entry ptr).frame = some p.val := by rw [he]; rfl
  have hpage := h.leaves.frame_page hl hfr
  have hle := h.tables.nz_le ptr.1
  have hnf : (view (vmpPteSwapCreate (c.pages p).drumslot)).frame = none := by
    rw [hview]
    split <;> rfl
  refine ⟨?_, h.leaves.unmap hl he hp rfl rfl, ?_, ?_, h.idle.setWord (by omega), ?_,
    h.slots.unmap hpage.1 h0 hp rfl rfl⟩
  · refine (h.dirs.setWord hl).setLedger fun q hq => ?_
    refine iff_of_false (fun e => ?_) (by rw [hp]; nofun)
    obtain rfl := Option.some.inj e
    rw [Core.setWord_level, c.level_of_plain (.inr hpage.1)] at hq
    omega
  · refine h.tables.setWord ?_ ?_ (fun t ht => by simp [incAt_apply, ht]) (fun _ _ => rfl)
      (fun t ht => ?_) (by omega) ?_ (fun t _ e => by rw [hp] at e; cases e)
    · rw [hview, he]
      simp only [incAt_apply, if_true]
      split <;>
      · simp only [Pte.isNonswap, Bool.toNat_true, Bool.toNat_false]
        omega
    · rw [hview, he]
      by_cases hz : (c.pages p).drumslot % 2 ^ 61 = 0
      · rw [if_pos hz, if_pos hz]
        simp only [incAt_apply, if_true]
        simp [Pte.isNonzero]
        omega
      · rw [if_neg hz, if_neg hz]
        simp [Pte.isNonzero]
    · dsimp only
      split
      · simp [incAt_apply, ht]
      · rfl
    · simp only [incAt_apply, if_true]
      omega
  · refine h.frames.setWord (p := p)
      (fun x hx hlx hfx => hx (h.leaves.frame_unique hlx hl hfx hfr)) (fun x wr' hx => ?_)
      (fun x hx => ?_) (fun _ _ => rfl) (fun _ => hpage.1)
      (fun r hr => .inl ⟨hr, h.leaves.busy_page_ne hr hl hfr⟩) (fun x hx _ _ => ?_)
    · rw [hx] at hnf
      cases hnf
    · rw [hx] at hnf
      cases hnf
    · obtain rfl := Option.some.inj hx
      exact h.frames.trans ptr p hl he
  · refine h.mirror.congr h.dirs rfl rfl rfl rfl rfl (fun _ => rfl) (fun _ _ _ _ => Iff.rfl)
      (fun x hx => Core.setWord_entry_ne _ _ _ _ fun e => ?_) (fun x _ => ?_) rfl rfl rfl
    · rw [e] at hx
      omega
    · rw [Core.setWord_entry]
      split
      · subst_vars
        rw [hview, he]
        split <;> exact ⟨rfl, rfl⟩
      · exact ⟨rfl, rfl⟩

theorem pick (h : Inv c g) {p : Pfn} (hu : c.use p = .free) (hp : g.loose = none) :
    Inv c { g with loose := some p } := by
  have h0 : c.level p = 0 := c.level_of_plain (.inl hu)
  have hno : ∀ q, c.use q = .anonPrivate → p ≠ q := fun q hq e => by
    rw [e, hq] at hu
    cases hu
  have hnone : ∀ q, g.loose ≠ some q := fun q e => by rw [hp] at e; cases e
  refine ⟨h.dirs.setLedger fun q hq => iff_of_false (fun e => ?_) (hnone q),
    h.leaves.congr (fun _ => Iff.rfl) (fun _ => Iff.rfl) (fun _ _ => rfl) (fun _ _ => rfl) rfl rfl
      fun q hq => iff_of_false (fun e => hno q hq (Option.some.inj e)) (hnone q),
    h.tables.congr (fun _ => rfl) (fun _ _ => rfl) (fun _ _ => rfl) (fun _ _ => rfl)
      (fun _ _ => rfl) rfl rfl rfl (fun q _ e => absurd e (hnone q)),
    ⟨h.frames.valid, h.frames.trans, h.frames.busy,
      fun q e hq => absurd (Option.some.inj e) (hno q hq), h.frames.held_frame⟩,
    h.idle, h.mirror.of_eq h.dirs rfl rfl rfl rfl rfl rfl rfl rfl rfl rfl,
    h.slots.setLedger rfl (fun q hq e => absurd (Option.some.inj e) (hno q hq))
      fun q _ e => absurd e (hnone q)⟩
  obtain rfl := Option.some.inj e
  omega

theorem handOut (h : Inv c g) {p : Pfn} {use : PageUse}
    (hu : c.use p = .free ∨ c.use p = .anonPrivate) (h0 : (c.pages p).refcnt = 0)
    (hp : g.loose = some p) (hr : g.unref = none) (hf : g.fresh = none) (hn : use ≠ .free)
    (hd : use ≠ .deleted) (h₃ : use.level ≤ 3) :
    Inv
      { (c.setPage p (VmPage.handedOut use)).setWords p 0 with
        unsaved := Function.update c.unsaved p false }
      (g.handedOut p use) := by
  have hl0 := c.level_of_plain hu
  have hlo : ∀ q, (g.handedOut p use).loose = some q → q = p := fun q hq => by
    simp only [Ledger.handedOut] at hq
    split at hq
    · exact (Option.some.inj hq).symm
    · cases hq
  have hlo' : use = .anonPrivate ∨ 1 ≤ use.level → (g.handedOut p use).loose = some p := fun e =>
    if_pos e
  have leaves : Leaves ((c.setPage p (VmPage.handedOut use)).setWords p 0) (g.handedOut p use) :=
    h.leaves.handOut hl0 hp hr rfl hlo fun e => hlo' (.inl e)
  have dirs : Dirs ((c.setPage p (VmPage.handedOut use)).setWords p 0) (g.handedOut p use) :=
    h.dirs.handOut hl0 hp h₃ hlo fun e => hlo' (.inr e)
  have tables : TableCounts ((c.setPage p (VmPage.handedOut use)).setWords p 0)
      (g.handedOut p use) :=
    h.tables.handOut hl0 rfl rfl rfl (fun e => hlo' (.inr e))
      fun t e => (Option.some.inj (e.symm.trans hp))
  have mirror : Mirror ((c.setPage p (VmPage.handedOut use)).setWords p 0) (g.handedOut p use) :=
    h.mirror.handOut h.dirs hl0 hf rfl rfl rfl
  exact ⟨dirs.of_eq rfl rfl rfl rfl, leaves.of_eq rfl rfl rfl rfl rfl,
    tables.of_eq rfl rfl rfl rfl rfl rfl,
    (h.frames.handOut h.leaves hu h0 hp hr).of_eq leaves rfl rfl rfl rfl rfl rfl,
    (h.idle.handOut hn hd).of_eq rfl rfl,
    mirror.of_eq dirs rfl rfl rfl rfl rfl rfl rfl rfl rfl rfl,
    (h.slots.handOut hp).of_eq rfl rfl rfl rfl⟩

theorem initTable (h : Inv c g) {p : Pfn} {ptr : PtePtr} (hl : 1 ≤ c.level p)
    (hp : g.loose = some p) (hf : g.fresh = some p) (h1 : (c.pages p).refcnt = 1) :
    Inv (c.setPage p { (c.pages p).bump true with referentPte := ptePaddr ptr })
      { g with ns := incAt g.ns p, nz := incAt g.nz p } := by
  have hrc := h.tables.refcnt p hl
  have hle := h.tables.nz_le p
  have hn0 : (c.pages p).nonswapPtes = 0 := by omega
  have hu : ({ (c.pages p).bump true with referentPte := ptePaddr ptr } : VmPage).use = c.use p :=
    VmPage.bump_use true (c.pages p)
  have tables : TableCounts (c.setPage p
      { (c.pages p).bump true with referentPte := ptePaddr ptr })
      { g with ns := incAt g.ns p, nz := incAt g.nz p } := by
    refine h.tables.setTable hl hu ?_ ?_ ?_ ?_ ?_ rfl ?_ (fun _ hlo => absurd hp hlo) rfl
    · simp only [VmPage.bump, incAt_apply, if_true, hn0, inc16]
      omega
    · intro n hn
      simp only [VmPage.bump, incAt_apply, if_true, hn, inc16]
      omega
    · simp only [VmPage.bump, h1, hn0]
      decide
    · exact fun q hq => by simp [incAt_apply, hq]
    · exact fun q hq => by simp [incAt_apply, hq]
    · simp only [incAt_apply, if_true]
      omega
  obtain ⟨dirs, leaves, frames, idle, slots⟩ := h.setTable hl hu (fun hlo => absurd hp hlo)
    (VmPage.bump_drumslot true (c.pages p))
  exact ⟨dirs.of_eq rfl rfl rfl rfl, leaves.of_eq rfl rfl rfl rfl rfl, tables,
    frames.of_eq leaves rfl rfl rfl rfl rfl rfl, idle,
    (h.mirror.setPage h.dirs hu fun _ hfr => absurd hf hfr).of_eq dirs rfl rfl rfl rfl rfl rfl rfl
      rfl rfl rfl, slots.of_eq rfl rfl rfl rfl⟩

theorem attach (h : Inv c g) {ptr : PtePtr} {p : Pfn} (hl : 1 ≤ c.level p)
    (hd : c.level ptr.1 = c.level p + 1) (he : c.entry ptr = .zero) (hp : g.loose = some p)
    (hpr : (c.pages p).referentPte = ptePaddr ptr) (hn : 1 ≤ g.nz ptr.1)
    (hz : 0 < g.nz p) :
    Inv (c.setWord ptr (vmpPteHwCreate p.val true))
      { g with ns := decAt g.ns ptr.1, nz := decAt g.nz ptr.1, loose := none } := by
  have hview := view_hwCreate_pfn p true
  have hle := h.tables.nz_le ptr.1
  have hne : ∀ x : PtePtr, c.level x.1 = 1 → x ≠ ptr := fun x hx e => by
    rw [e] at hx
    omega
  have hloose : ∀ q, c.use q = .anonPrivate → g.loose ≠ some q := fun q hq e => by
    obtain rfl := Option.some.inj (hp.symm.trans e)
    exact not_anon_of_level hl hq
  have hpne : p ≠ ptr.1 := fun e => by
    rw [← e] at hd
    omega
  refine ⟨h.dirs.attach hl hd he hp hpr rfl,
    h.leaves.congr (fun _ => Iff.rfl) (fun _ => Iff.rfl) (fun _ _ => rfl)
      (fun x hx => Core.setWord_entry_ne _ _ _ _ (hne x hx)) rfl rfl
      fun q hq => iff_of_false nofun (hloose q hq),
    ?_,
    h.frames.congr h.leaves (fun _ => id) (fun _ => Iff.rfl) (fun _ _ => rfl)
      (fun x hx => Core.setWord_entry_ne _ _ _ _ (hne x hx)) rfl rfl (fun _ _ e => nomatch e),
    h.idle.setWord (by omega), h.mirror.attach h.dirs h.leaves (by omega) he rfl rfl rfl, ?_⟩
  · refine h.tables.setWord ?_ ?_ (fun t ht => by simp [decAt_apply, ht])
      (fun t ht => by simp [decAt_apply, ht]) (fun _ _ => rfl) (by omega) ?_ (fun t _ e => ?_)
    · rw [hview, he]
      simp only [Pte.isNonswap, decAt_apply, if_true, Bool.toNat_true, Bool.toNat_false]
      omega
    · rw [hview, he]
      simp only [Pte.isNonzero, decAt_apply, if_true]
      simp
      omega
    · simp only [decAt_apply, if_true]
      omega
    · obtain rfl := Option.some.inj (hp.symm.trans e)
      refine .inr ?_
      simpa [decAt_apply, hpne] using hz
  · have slots : Slots (c.setWord ptr (vmpPteHwCreate p.val true)) g := h.slots.of_eq rfl rfl rfl rfl
    exact slots.setLedger rfl (fun _ _ e => nomatch e) fun q hq e => absurd e (hloose q hq)

theorem delete (h : Inv c g) {t : Pfn} {ptr : PtePtr} (hl : 1 ≤ c.level t) (h₃ : c.level t ≤ 3)
    (hg : g.Settled) (hz : (c.pages t).nonzeroPtes = 1) (hs : g.ns t = 1) (hn : g.nz t = 1)
    (hr : (c.pages t).referentPte = ptePaddr ptr) :
    Inv
      { (c.setPage t { c.pages t with use := .deleted, nonzeroPtes := 0 }).setWord ptr
          vmpPteZeroCreate with
        tree := c.tree.erase (c.tableWsle t)
        nlocked := c.nlocked - 1 }
      { g with
        ns := incAt (decAt g.ns t) ptr.1
        nz := incAt (decAt g.nz t) ptr.1 } := by
  have hempty := h.empty_of_last hl hz hn
  obtain ⟨x, hx, hxe, hxl⟩ := h.dirs.dir_back t hl h₃ (by rw [hg.loose]; exact (Option.some_ne_none _).symm)
  obtain rfl : x = ptr := ptePaddr_injective (hx.symm.trans hr)
  have hne : x.1 ≠ t := fun e => by
    rw [e] at hxl
    omega
  have hcount : c.count Pte.isNonzero t = 0 :=
    (Core.count_eq_zero c).2 fun i => by simp [hempty i, Pte.isNonzero]
  have hcount' : c.count Pte.isNonswap t = 0 :=
    (Core.count_eq_zero c).2 fun i => by simp [hempty i, Pte.isNonswap]
  have hdrift : g.drift t = 0 := by
    have h₁ := h.tables.nonzero t hl
    have h₂ := h.drift_le t
    omega
  have hns := h.tables.nonswap t hl
  have hnot : c.use t ≠ .anonPrivate := not_anon_of_level hl
  have hnf : c.use t ≠ .free := fun e => by
    rw [c.level_of_plain (.inl e)] at hl
    omega
  -- the directory loses an entry and gains a reference of the caller's
  have hzero : view vmpPteZeroCreate = .zero := view_zero
  have word : TableCounts (c.setWord x vmpPteZeroCreate)
      { g with ns := incAt g.ns x.1, nz := incAt g.nz x.1 } := by
    refine h.tables.setWord ?_ ?_ (fun q hq => by simp [incAt_apply, hq])
      (fun q hq => by simp [incAt_apply, hq]) (fun _ _ => rfl) (by omega) ?_ (fun _ _ => .inl)
    · rw [hzero, hxe]
      simp only [Pte.isNonswap, incAt_apply, if_true, Bool.toNat_true, Bool.toNat_false]
      omega
    · rw [hzero, hxe]
      simp only [Pte.isNonzero, incAt_apply, if_true]
      simp
      omega
    · have := h.tables.nz_le x.1
      simp only [incAt_apply, if_true]
      omega
  have tables : TableCounts ((c.setWord x vmpPteZeroCreate).setPage t
      { c.pages t with use := .deleted, nonzeroPtes := 0 })
      { g with ns := incAt (decAt g.ns t) x.1, nz := incAt (decAt g.nz t) x.1 } := by
    refine word.retire rfl ?_ hdrift (fun q hq => ?_) (fun q hq => ?_) rfl ?_ rfl
    · simp [incAt_apply, decAt_apply, hne.symm, hs]
    · by_cases hqx : q = x.1
      · simp [incAt_apply, decAt_apply, hqx, hne]
      · simp [incAt_apply, decAt_apply, hqx, hq]
    · by_cases hqx : q = x.1
      · simp [incAt_apply, decAt_apply, hqx, hne]
      · simp [incAt_apply, decAt_apply, hqx, hq]
    · simp [incAt_apply, decAt_apply, hne.symm, hs, hn]
  have leaves := h.leaves.delete hl (show 2 ≤ c.level x.1 by omega) hempty
  have huse : ∀ q, ((c.setPage t { c.pages t with use := .deleted, nonzeroPtes := 0 }).setWord x
      vmpPteZeroCreate).use q = if q = t then .deleted else c.use q := fun q =>
    Core.setPage_use c t q _
  have frames : FrameCounts ((c.setPage t { c.pages t with use := .deleted, nonzeroPtes := 0 }).setWord x
      vmpPteZeroCreate) g := by
    have hent : ∀ y : PtePtr, c.level y.1 = 1 → (c.setWord x vmpPteZeroCreate).entry y = c.entry y :=
      fun y hy => Core.setWord_entry_ne _ _ _ _ fun e => by
        rw [e] at hy
        omega
    have hlev : ∀ q, ((c.setPage t { c.pages t with use := .deleted, nonzeroPtes := 0 }).setWord x
        vmpPteZeroCreate).level q = 1 → c.level q = 1 := fun q hq => by
      rw [Core.level, huse] at hq
      split at hq
      · cases hq
      · exact hq
    refine h.frames.congr h.leaves hlev (fun q => ?_) (fun q hq => ?_)
      (fun y hy => hent y (hlev _ hy)) rfl rfl (fun _ _ => And.intro)
    · rw [huse]
      split
      · rw [‹q = t›]
        exact iff_of_false (by decide) hnot
      · exact Iff.rfl
    · rw [Core.setWord_pages, Core.setPage_pages, if_neg fun e : q = t => hnot (by rw [← e]; exact hq)]
  have slots : Slots ((c.setPage t { c.pages t with use := .deleted, nonzeroPtes := 0 }).setWord x
      vmpPteZeroCreate) g := by
    have hpg : ∀ q, q ≠ t → ((c.setPage t
        { c.pages t with use := .deleted, nonzeroPtes := 0 }).setWord x vmpPteZeroCreate).pages q =
          c.pages q := fun q hq => (Core.setPage_pages _ _ _ _).trans (if_neg hq)
    have hneq : ∀ q, ((c.setPage t { c.pages t with use := .deleted, nonzeroPtes := 0 }).setWord x
        vmpPteZeroCreate).use q = .anonPrivate → q ≠ t ∧ c.use q = .anonPrivate := fun q hq => by
      rw [huse] at hq
      split at hq
      · cases hq
      · exact ⟨‹_›, hq⟩
    refine h.slots.congr rfl (fun q hq => ?_) (fun q hlo hq => ?_) (fun q => ?_) rfl
    · rw [hpg q (hneq q hq).1]
      exact h.slots.range q (hneq q hq).2
    · rw [hpg q (hneq q hq).1]
      exact h.slots.loose q hlo (hneq q hq).2
    · constructor
      · rintro ⟨hq, hlo, hsl⟩
        rw [hpg q (hneq q hq).1] at hsl
        exact ⟨(hneq q hq).2, hlo, hsl⟩
      · rintro ⟨hq, hlo, hsl⟩
        have hqt : q ≠ t := fun e => hnot (by rw [← e]; exact hq)
        refine ⟨by rw [huse, if_neg hqt, hq], hlo, ?_⟩
        rw [hpg q hqt]
        exact hsl
  have dirs := h.dirs.delete hl h₃ hg.loose hempty hr
  have idle : Idle ((c.setPage t { c.pages t with use := .deleted, nonzeroPtes := 0 }).setWord x
      vmpPteZeroCreate) := by
    refine (h.idle.delete rfl rfl hempty).setWord ?_
    rw [Core.setPage_level, if_neg hne]
    omega
  exact ⟨dirs.of_eq rfl rfl rfl rfl, leaves.of_eq rfl rfl rfl rfl rfl,
    tables.of_eq rfl rfl rfl rfl rfl rfl, frames.of_eq leaves rfl rfl rfl rfl rfl rfl,
    idle.of_eq rfl rfl,
    h.mirror.delete h.dirs h.leaves hl h₃ hg hempty (by omega) hr rfl rfl rfl,
    slots.of_eq rfl rfl rfl rfl⟩

theorem free (h : Inv c g) {t : Pfn} (hu : c.use t = .deleted) :
    Inv (c.setPage t
      { c.pages t with use := .free, refcnt := 0, nonswapPtes := 0, referentPte := 0 }) g := by
  have h0 : c.level t = 0 := by rw [c.level_of_use hu]; rfl
  have hlv : ∀ q, (c.setPage t { c.pages t with
      use := .free, refcnt := 0, nonswapPtes := 0, referentPte := 0 }).level q = c.level q := by
    intro q
    rw [Core.setPage_level]
    split
    · rw [‹q = t›, h0]
      rfl
    · rfl
  have hpg : ∀ q, 1 ≤ c.level q ∨ c.use q = .anonPrivate → (c.setPage t { c.pages t with
      use := .free, refcnt := 0, nonswapPtes := 0, referentPte := 0 }).pages q = c.pages q := by
    intro q hq
    rw [Core.setPage_pages, if_neg]
    rintro rfl
    rcases hq with hq | hq
    · omega
    · rw [hu] at hq
      cases hq
  have hus : ∀ q, (c.setPage t { c.pages t with
      use := .free, refcnt := 0, nonswapPtes := 0, referentPte := 0 }).use q = .anonPrivate ↔
        c.use q = .anonPrivate := by
    intro q
    rw [Core.setPage_use]
    split
    · rw [‹q = t›, hu]
      exact iff_of_false nofun nofun
    · exact Iff.rfl
  refine ⟨?_, ?_, ?_, ?_, h.idle.free_page hu, ?_, ?_⟩
  · exact h.dirs.congr hlv (fun q hq _ => by rw [hpg q (.inl hq)]) (fun _ _ => rfl) rfl
      (fun _ _ => Iff.rfl)
  · exact h.leaves.congr (fun q => by rw [hlv]) hus (fun q hq => by rw [hpg q (.inr hq)])
      (fun _ _ => rfl) rfl rfl (fun _ _ => Iff.rfl)
  · exact h.tables.congr hlv (fun q hq => by rw [hpg q (.inl hq)])
      (fun q hq => by rw [hpg q (.inl hq)]) (fun q hq => by rw [hpg q (.inl hq)]) (fun _ _ => rfl)
      rfl rfl rfl (fun _ _ => id)
  · exact h.frames.congr h.leaves (fun q hq => by rwa [hlv] at hq) hus
      (fun q hq => by rw [hpg q (.inr hq)]) (fun _ _ => rfl) rfl rfl (fun _ _ => And.intro)
  · exact h.mirror.congr h.dirs rfl rfl rfl rfl rfl hlv (fun q hq _ _ => by rw [hpg q (.inl hq)])
      (fun _ _ => rfl) (fun _ _ => ⟨rfl, rfl⟩) rfl rfl rfl
  · refine h.slots.congr rfl (fun q hq => ?_) (fun q hlo hq => ?_) (fun q => ?_) rfl
    · rw [hpg q (.inr ((hus q).1 hq))]
      exact h.slots.range q ((hus q).1 hq)
    · rw [hpg q (.inr ((hus q).1 hq))]
      exact h.slots.loose q hlo ((hus q).1 hq)
    · rw [Core.HasSlotZero, hus]
      exact and_congr_right fun hq => by rw [hpg q (.inr hq)]

/-- An assignment to the references or the dirty flag of a page of data. -/
theorem setFrame (h : Inv c g) {p : Pfn} (pg : VmPage) (hu : c.use p = .anonPrivate)
    (hpu : pg.use = c.use p) (hr : pg.referentPte = (c.pages p).referentPte)
    (hz : pg.nonzeroPtes = (c.pages p).nonzeroPtes)
    (hn : pg.nonswapPtes = (c.pages p).nonswapPtes) (hd : pg.drumslot = (c.pages p).drumslot)
    (hs : g.loose = some p → pg.refcnt = 0 ∨ pg.drumslot = noSlot)
    {held : Pfn → ℕ} (hh : pg.refcnt + g.held p = (c.pages p).refcnt + held p)
    (ho : ∀ q, q ≠ p → held q = g.held q) :
    Inv (c.setPage p pg) { g with held := held } := by
  have h0 : c.level p = 0 := c.level_of_plain (.inr hu)
  have hpl : ∀ {P : Prop}, 1 ≤ c.level p → P := fun hq => by omega
  exact ⟨(h.dirs.setPage hpu hpl).of_eq rfl rfl rfl rfl,
    (h.leaves.setPage hpu fun _ => hr).of_eq rfl rfl rfl rfl rfl,
    (h.tables.setPage hpu hpl).of_eq rfl rfl rfl rfl rfl rfl,
    h.frames.setRefcnt hpu hh ho (fun _ => hu) rfl rfl rfl,
    h.idle.setPage_of_use hpu (.inl ⟨hu, hz, hn⟩),
    (h.mirror.setPage h.dirs hpu hpl).of_eq (h.dirs.setPage hpu hpl) rfl rfl rfl rfl rfl rfl rfl
      rfl rfl rfl,
    (h.slots.setPage hpu hd fun hlo _ => hs hlo).of_eq rfl rfl rfl rfl⟩

theorem hold (h : Inv c g) {p : Pfn} (hu : c.use p = .anonPrivate) (hp : g.loose ≠ some p) :
    Inv (c.setPage p { c.pages p with refcnt := (c.pages p).refcnt + 1 })
      { g with held := incAt g.held p } := by
  refine h.setFrame _ hu (by dsimp only [Core.use]) (by dsimp only) (by dsimp only) (by dsimp only)
    (by dsimp only) (fun e => absurd e hp) ?_ (fun q hq => by simp [incAt_apply, hq])
  simp only [incAt_apply, if_true]
  omega

theorem unhold (h : Inv c g) {p : Pfn} (hh : 1 ≤ g.held p) (h0 : 0 < (c.pages p).refcnt)
    (hr : (c.pages p).refcnt ≤ 2 ^ 16) :
    Inv (c.setPage p { c.pages p with refcnt := dec16 (c.pages p).refcnt })
      { g with held := decAt g.held p } := by
  have hu := h.frames.held_frame p hh
  refine h.setFrame _ hu (by dsimp only [Core.use]) (by dsimp only) (by dsimp only) (by dsimp only)
    (by dsimp only) (fun e => .inr ?_) ?_ (fun q hq => by simp [decAt_apply, hq])
  · dsimp only
    exact (h.slots.loose p e hu).resolve_left (by omega)
  · simp only [dec16_of_pos h0 hr, decAt_apply, if_true]
    omega

theorem markDirty (h : Inv c g) {p : Pfn} (hu : c.use p = .anonPrivate) (b : Bool) :
    Inv (c.setPage p { c.pages p with dirty := (c.pages p).dirty || b }) g :=
  h.setFrame _ hu (show VmPage.use { c.pages p with dirty := (c.pages p).dirty || b } = c.use p from rfl) rfl rfl rfl rfl
    (fun e => h.slots.loose p e hu) rfl (fun _ _ => rfl)

/-- **The invariants survive every move.** -/
theorem move {K : Guard} (h : Inv c g) (hm : Move K c g c' g') : Inv c' g' := by
  cases hm with
  | bump t isNew hl hf hr => exact h.bump hl hf hr
  | drop t hl hf hn hr => exact h.drop hl hf hn hr
  | decNonzero t hl hn hk => exact h.decNonzero hl hn hk
  | evict e q ptr p wr hq he hw hv _ => exact h.evict hq he hw hv
  | enterLeaf vaddr ptr locked ha hw hk hm hv hb => exact h.enterLeaf ha hw hk hm hv hb
  | enterTable t hf h₁ h₃ hk hn => exact h.enterTable hf h₁ h₃ hk hn
  | mapZero ptr p wr hl he hp hu hr ha hh hn _ _ => exact h.mapZero hl he hp hu hr ha hh hn
  | setReferent ptr p wr hl he hp hr _ => exact h.setReferent hl he hp hr
  | mapSoft ptr p hl he hp ha hh _ => exact h.mapSoft hl he hp ha hh
  | mapBusy ptr p state slot vaddr hl hw he hp hu hr ha hh hn _ _ =>
    exact h.mapBusy hl hw he hp hu hr ha hh hn
  | writeable ptr p wr hl he _ _ => exact h.writeable hl he
  | finish r hr ha _ => exact h.finish hr ha
  | unmap ptr p hl he h0 _ hp _ => exact h.unmap hl he h0 hp
  | pick p hu hp => exact h.pick hu hp
  | handOut p use hu h0 hp hr hf _ hn hd h₃ => exact h.handOut hu h0 hp hr hf hn hd h₃
  | initTable p ptr hl hp hf h1 _ => exact h.initTable hl hp hf h1
  | attach ptr p hl hd he hp _ hpr hn hz _ => exact h.attach hl hd he hp hpr hn hz
  | delete t ptr hl h₃ hg hz hs hn hr _ => exact h.delete hl h₃ hg hz hs hn hr
  | free t hu _ => exact h.free hu
  | hold p hu hp hb => exact h.hold hu hp
  | unhold p hh h0 hr => exact h.unhold hh h0 hr
  | markDirty p b hu => exact h.markDirty hu b

end Inv

end VmmSim
