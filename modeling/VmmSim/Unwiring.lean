import VmmSim.Trimming

/-!
# Releasing the wiring of tables

`vmp_pagetable_page_pte_deleted` gives back one reference of a wiring, and deletes the table when
that was all that kept it: the recursion goes one level up for each table that it deletes
(`wp_pteDeletedNested`). The pages that were no tables are left alone, among them the tables
that are being deleted further down.
-/

namespace VmmSim

open Lib

variable {K : Guard} {skip : Option Pfn} {s s' : State} {g g' : Ledger}

/-- What is owed when one reference of a wiring is given back. -/
def Ledger.unwire (g : Ledger) (t : Pfn) : Ledger :=
  { g with ns := decAt g.ns t, nz := decAt g.nz t }

/-- What is owed when a table is being deleted: the reference of the caller's has gone from the
table to its directory. -/
def Ledger.moveUp (g : Ledger) (t d : Pfn) : Ledger :=
  { g with ns := incAt (decAt g.ns t) d, nz := incAt (decAt g.nz t) d }

theorem Ledger.unwire_moveUp (g : Ledger) (t d : Pfn) : (g.moveUp t d).unwire d = g.unwire t := by
  simp only [moveUp, unwire, decAt_incAt]

/-- The last reference to a deleted page makes it free. -/
theorem vmpPageReleaseLocked_deleted {s : State} {p : Pfn} (h1 : (s.pages p).refcnt = 1)
    (hu : (s.pages p).use = .deleted) :
    vmpPageReleaseLocked s p = .ok { s with
      pages := Function.update s.pages p { s.pages p with use := .free, refcnt := 0 }
      freePgq := p :: s.freePgq
      vmstat.nactive := s.vmstat.nactive - 1
      vmstat.nfree := s.vmstat.nfree + 1 } := by
  have hd : dec16 (s.pages p).refcnt = 0 := by
    rw [h1]
    decide
  have hf : (s.pages p).use ≠ .free := by
    rw [hu]
    decide
  simp only [vmpPageReleaseLocked, h1, kassert_of (show 1 > 0 by decide), kassert_of hf, ok_bind,
    if_true]
  simp only [releaseLast, State.modifyPage_pages_self, hu]
  simp only [State.modifyPage, Function.update_self, Function.update_idem, hd]

/-- A page in the middle of its deletion, and its two last references gone. -/
theorem wp_releaseTwice {s : State} (h : s.Queues skip) {t : Pfn} (h2 : (s.pages t).refcnt = 2)
    (hu : (s.pages t).use = .deleted) :
    Wp (fun _ => False) (vmpPageReleaseLocked s t >>= fun s => vmpPageReleaseLocked s t)
      fun s' => s'.Queues skip ∧ s.SameWsl s' ∧ s'.core =
        s.core.setPage t { s.pages t with use := .free, refcnt := 0 } := by
  have hd : dec16 2 = 1 := by decide
  have hf : (s.pages t).use ≠ .free := by
    rw [hu]
    decide
  have first := vmpPageReleaseLocked_of_gt (show 1 < (s.pages t).refcnt by omega) hf
  rw [first, ok_bind]
  have q1 : (s.modifyPage t fun pg => { pg with refcnt := dec16 pg.refcnt }).Queues skip :=
    h.modifyActive (by omega) (by simp only [h2, hd]; decide) (dec16_lt _).le
  have r1 : ((s.modifyPage t fun pg => { pg with refcnt := dec16 pg.refcnt }).pages t).refcnt =
      1 := by
    simp only [State.modifyPage_pages_self, h2, hd]
  have u1 : ((s.modifyPage t fun pg => { pg with refcnt := dec16 pg.refcnt }).pages t).use =
      .deleted := by
    simp only [State.modifyPage_pages_self, hu]
  have second := wp_vmpPageReleaseLocked (p := t) q1
  rw [vmpPageReleaseLocked_deleted r1 u1, Wp.ok_iff] at second ⊢
  refine ⟨second, ⟨rfl, rfl⟩, ?_⟩
  simp only [State.core, State.modifyPage, Function.update_self, Function.update_idem]
  rfl

/-- The working set entry of a table with one reference of a wiring is removed. -/
theorem wp_removeTableWsle {s₀ : State} (h : Good skip s₀ g) {t : Pfn} (hl : 1 ≤ s₀.core.level t)
    (h4 : s₀.core.level t ≠ 4) (hf : g.fresh ≠ some t) (hw : s.wsl = s₀.wsl)
    (hs : s.softPages = s₀.softPages) (hn : (s.pages t).nonswapPtes = (s₀.pages t).nonswapPtes)
    (h0 : (s₀.pages t).nonswapPtes ≠ 0) :
    Wp Halt.Defined (removeTableWsle s t) fun s' => (s₀.pages t).nonswapPtes = 1 ∧ s' = { s with
      wsl.tree := s.wsl.tree.erase (s.tableWsle t)
      wsl.nlocked := s.wsl.nlocked - 1 } := by
  have hl3 : s₀.core.level t ≤ 3 := by
    have := (s₀.core.use t).level_le
    unfold Core.level at *
    omega
  have he : s.tableWsle t = s₀.tableWsle t := by
    simp only [State.tableWsle, State.tableVaddr, State.p2v, hs]
  have hmem : s.tableWsle t ∈ s₀.wsl.tree := by
    rw [he]
    exact h.table_mem hl h4 hf
  have hfind : vmpWslFind s (s.tableWsle t).vaddr = some (s.tableWsle t) := by
    rw [vmpWslFind, hw]
    exact h.inv.mirror.find hmem
  have hq : s.tableWsle t ∉ s.wsl.queue := by
    rw [hw, he]
    exact fun hq => h0 ((h.inv.mirror.table_queue t hl hl3 hf).1 hq)
  unfold removeTableWsle
  rw [hn]
  split
  · rename_i h1
    have hun : vmpWslUnlockEntry s (s.tableVaddr t) = .ok (s.unlockWsle (s.tableWsle t)) :=
      vmpWslUnlockEntry_of_find hfind
    have hfind' : vmpWslFind (s.unlockWsle (s.tableWsle t)) (s.tableVaddr t) =
        some (s.tableWsle t) := hfind
    have hin : s.tableWsle t ∈ (s.unlockWsle (s.tableWsle t)).wsl.queue := by
      simp [State.unlockWsle]
    have herase : (s.wsl.queue ++ [s.tableWsle t]).erase (s.tableWsle t) = s.wsl.queue := by
      rw [List.erase_append_right _ hq]
      simp
    rw [hun, ok_bind, show (s.unlockWsle (s.tableWsle t)).tableVaddr t = s.tableVaddr t from rfl,
      vmpWslRemove, hfind']
    simp only [tailqRemove_of_mem hin, ok_bind, Wp.pure_iff]
    refine ⟨h1, ?_⟩
    simp only [State.unlockWsle, herase]
  · exact Halt.defined_kfatal

/-- A table that keeps an entry, or the root table: its counters go down. -/
theorem wp_pteDeletedNested_keep (depth : ℕ) (h : Good skip s g) {t : Pfn}
    (hl : 1 ≤ s.core.level t) (hf : g.fresh ≠ some t) (hn : 1 ≤ g.nz t)
    (hk : s.core.level t = 4 ∨ (s.pages t).nonzeroPtes ≠ 1) :
    Wp (fun _ => False) (pteDeletedNested (depth + 1) s t false) fun s' =>
      Made K skip s g s' (g.unwire t) ∧ s'.core = ((s.core.setPage t
        { s.pages t with nonzeroPtes := dec16 (s.pages t).nonzeroPtes }).drop t) := by
  have hle := h.inv.tables.nz_le t
  have hrc := h.refcnt_table hl
  have hroot : pageIsRootTable { s.pages t with nonzeroPtes := dec16 (s.pages t).nonzeroPtes } =
      pageIsRootTable (s.pages t) := by simp only [pageIsRootTable]
  have hc : ¬ ((s.pages t).nonzeroPtes = 1 ∧ ¬ s.core.level t = 4) := by tauto
  simp only [pteDeletedNested, State.modifyPage_pages_self, hroot, pageIsRootTable_iff, if_neg hc,
    Bool.false_eq_true, if_false]
  -- one assignment, and then the end of a reference
  have hdec : Made K skip s g (s.modifyPage t fun pg =>
      { pg with nonzeroPtes := dec16 pg.nonzeroPtes }) { g with nz := decAt g.nz t } :=
    .of_move (.decNonzero t hl hn hk) rfl
      (h.queues.modifyActive (by omega) (by dsimp only; omega) (h.queues.refcnt_le t))
      (.of_wsl rfl rfl)
  refine (wp_dropNonswap_release (hdec.good h) (t := t) ?_ hf ?_).mono fun s' hs' =>
    ⟨hdec.trans hs'.1, hs'.2⟩
  · rwa [core_modifyPage, Core.setPage_level_of (by dsimp only [Core.use, State.core])]
  · simp only [decAt_apply, if_true]
    omega

/-- A table that has left its directory and the working set. -/
def State.deleteTable (s : State) (t : Pfn) (ptr : PtePtr) : State :=
  { (s.modifyPage t fun pg => { pg with use := .deleted, nonzeroPtes := 0 }).setPte ptr
      vmpPteZeroCreate with
    wsl.tree := s.wsl.tree.erase (s.tableWsle t)
    wsl.nlocked := s.wsl.nlocked - 1 }

theorem State.deleteTable_sizes (s : State) (t : Pfn) (ptr : PtePtr) :
    Sizes s (s.deleteTable t ptr) :=
  ⟨rfl, Nat.add_le_add_left List.length_erase_le _, fun _ _ => id⟩

theorem core_deleteTable (s : State) (t : Pfn) (ptr : PtePtr) : (s.deleteTable t ptr).core =
    { (s.core.setPage t { s.pages t with use := .deleted, nonzeroPtes := 0 }).setWord ptr
        vmpPteZeroCreate with
      tree := s.core.tree.erase (s.core.tableWsle t)
      nlocked := s.core.nlocked - 1 } := rfl

/-- The last assignments to a deleted table, and its last two references. -/
theorem wp_freeDeleted {s : State} (h : s.Queues skip) {t : Pfn} (h2 : (s.pages t).refcnt = 2)
    (hu : (s.pages t).use = .deleted) :
    Wp (fun _ => False)
      (vmpPageReleaseLocked (s.modifyPage t fun pg =>
          { pg with nonswapPtes := 0, referentPte := 0 }) t >>= fun s => vmpPageReleaseLocked s t)
      fun s' => s'.Queues skip ∧ s.SameWsl s' ∧ s'.core = s.core.setPage t
        { s.pages t with use := .free, refcnt := 0, nonswapPtes := 0, referentPte := 0 } := by
  have hq : (s.modifyPage t fun pg => { pg with nonswapPtes := 0, referentPte := 0 }).Queues skip :=
    h.modifyActive (by omega) (by simp only; omega) (h.refcnt_le t)
  refine (wp_releaseTwice hq (by simpa using h2) (by simpa using hu)).mono fun s' hs' =>
    ⟨hs'.1, hs'.2.1, ?_⟩
  rw [hs'.2.2]
  simp only [State.core, State.modifyPage, Core.setPage, Function.update_self, Function.update_idem]

theorem State.Queues.deleteTable (h : s.Queues skip) {t : Pfn} (h0 : (s.pages t).refcnt ≠ 0)
    (ptr : PtePtr) : (s.deleteTable t ptr).Queues skip :=
  QueuesOf.update_active h h0 (show VmPage.refcnt { s.pages t with use := .deleted, nonzeroPtes := 0 } ≠ 0 from h0)
    (h.refcnt_le t)

theorem vmpMdDeleteTablePointers_of_valid {f : State → Pfn → Bool → Res State} {s : State}
    {d : Pfn} {ptr : PtePtr} {w : Word} {n : ℕ} {wr : Bool} (hv : view w = .valid n wr)
    (hs : s.pte ptr = w) :
    vmpMdDeleteTablePointers f s d ptr = f (s.setPte ptr vmpPteZeroCreate) d false := by
  have hk : vmpPteCharacterise (s.pte ptr) = .ok .valid := by
    rw [hs]
    exact vmpPteCharacterise_eq_valid_iff.2 ⟨n, wr, hv⟩
  rw [vmpMdDeleteTablePointers, hk, ok_bind, kassert_of (.inl rfl), ok_bind]

/-- What deleting tables leaves alone: the pages that are no tables, and the words of tables of
level 1 and of pages of data. -/
structure Untouched (s s' : State) : Prop where
  pages : ∀ q, s.core.level q = 0 → s'.pages q = s.pages q
  mem : ∀ q, s.core.level q ≤ 1 → s'.mem q = s.mem q
  level : ∀ q, s'.core.level q ≤ s.core.level q
  referent : ∀ q, 1 ≤ s'.core.level q → (s'.pages q).referentPte = (s.pages q).referentPte

namespace Untouched

theorem refl (s : State) : Untouched s s :=
  ⟨fun _ _ => rfl, fun _ _ => rfl, fun _ => le_rfl, fun _ _ => rfl⟩

theorem trans {s'' : State} (h : Untouched s s') (h' : Untouched s' s'') : Untouched s s'' where
  pages q hq := (h'.pages q (Nat.le_zero.1 (hq ▸ h.level q))).trans (h.pages q hq)
  mem q hq := (h'.mem q ((h.level q).trans hq)).trans (h.mem q hq)
  level q := (h'.level q).trans (h.level q)
  referent q hq := (h'.referent q hq).trans (h.referent q (hq.trans (h'.level q)))

/-- Assignments to the page of a table. -/
theorem of_setPage {t : Pfn} {pg : VmPage} (hl : 1 ≤ s.core.level t)
    (hu : pg.use.level ≤ s.core.level t)
    (hr : 1 ≤ pg.use.level → pg.referentPte = (s.pages t).referentPte)
    (hp : s'.pages = Function.update s.pages t pg) (hm : s'.mem = s.mem) : Untouched s s' := by
  refine ⟨fun q hq => ?_, fun q _ => by rw [hm], fun q => ?_, fun q hq => ?_⟩
  · have hqt : q ≠ t := fun e => by
      rw [e] at hq
      omega
    rw [hp, Function.update_of_ne hqt]
  · change (s'.pages q).use.level ≤ _
    rw [hp]
    by_cases hqt : q = t
    · rw [hqt, Function.update_self]
      exact hu
    · rw [Function.update_of_ne hqt]
      exact le_rfl
  · change 1 ≤ (s'.pages q).use.level at hq
    rw [hp] at hq ⊢
    by_cases hqt : q = t
    · rw [hqt, Function.update_self] at hq ⊢
      exact hr hq
    · rw [Function.update_of_ne hqt]

/-- A table of level 1 that is not deleted is reached as before: each table above it has the entry
whose address is in the table below. -/
theorem descends (h : Untouched s s') (hd : Dirs s.core g) (hd' : Dirs s'.core g')
    (hg : g'.loose = none) {vaddr : ℕ} {ptr : PtePtr} (hl : s'.core.level ptr.1 = 1) {n : ℕ} :
    ∀ {t : Pfn}, s.core.level t = n → n ≤ 4 → Descends s.core.entry vaddr n t ptr →
      s'.core.level t = n ∧ Descends s'.core.entry vaddr n t ptr := by
  induction n with
  | zero => exact fun _ _ hw => hw.elim
  | succ n ih =>
    intro t ht hn hw
    cases n with
    | zero =>
      obtain rfl : ptr = (t, vmpAddrUnpack vaddr 1) := hw
      exact ⟨hl, rfl⟩
    | succ n =>
      obtain ⟨p, wr, he, hdown⟩ := hw
      obtain ⟨hlp, href, -⟩ := hd.child (by rw [ht]; omega) he
      obtain ⟨hlp', hdown'⟩ := ih (by simp only [ht] at hlp; omega) (by omega) hdown
      obtain ⟨x, hx, hex, hlx⟩ := hd'.dir_back p (by omega) (by omega) (by rw [hg]; nofun)
      have href' : (s'.pages p).referentPte = (s.pages p).referentPte := h.referent p (by omega)
      obtain rfl : x = (t, vmpAddrUnpack vaddr (n + 2)) :=
        ptePaddr_injective ((hx.symm.trans href').trans href)
      exact ⟨by rw [hlx, hlp'], p, true, hex, hdown'⟩

end Untouched

theorem State.deleteTable_untouched (s : State) {t : Pfn} {ptr : PtePtr}
    (hl : 1 ≤ s.core.level t) (hd : 2 ≤ s.core.level ptr.1) :
    Untouched s (s.deleteTable t ptr) := by
  have hpages : Untouched s
      (s.modifyPage t fun pg => { pg with use := .deleted, nonzeroPtes := 0 }) := by
    refine .of_setPage hl (Nat.zero_le _) (fun h => ?_) rfl rfl
    exact absurd h (Nat.not_succ_le_zero 0)
  refine ⟨hpages.pages, fun q hq => ?_, hpages.level, hpages.referent⟩
  have hne : q ≠ ptr.1 := fun e => by
    rw [e] at hq
    omega
  exact (State.setPte_mem_ne _ _ _ hne).trans (hpages.mem q hq)

/-- `vmp_pagetable_page_pte_deleted` gives back one reference of a wiring, and deletes the tables
that this leaves empty. -/
theorem wp_pteDeletedNested (hK : K.maps) (depth : ℕ) : ∀ {s : State} {g : Ledger} {t : Pfn},
    Good none s g → g.Settled → 1 ≤ s.core.level t → 1 ≤ g.nz t → 4 < depth + s.core.level t →
    Wp Halt.Defined (pteDeletedNested depth s t false) fun s' =>
      Made K none s g s' (g.unwire t) ∧ Untouched s s' := by
  induction depth with
  | zero =>
    intro s g t _ _ _ _ hd
    have := (s.core.use t).level_le
    unfold Core.level at hd
    omega
  | succ depth ih =>
    intro s g t h hg hl hn hd
    have hle := h.inv.tables.nz_le t
    have hns := h.inv.tables.nonswap t hl
    have hrc := h.refcnt_table hl
    have hfresh : g.fresh ≠ some t := by
      rw [hg.fresh]
      nofun
    by_cases hk : s.core.level t = 4 ∨ (s.pages t).nonzeroPtes ≠ 1
    · refine ((wp_pteDeletedNested_keep depth h hl hfresh hn hk).mono_halt fun _ e => e.elim).mono
        fun s' hs' => ⟨hs'.1, ?_⟩
      have hpages : s'.pages = Function.update s.pages t
          ({ s.pages t with nonzeroPtes := dec16 (s.pages t).nonzeroPtes } : VmPage).drop := by
        rw [show s'.pages = s'.core.pages from rfl, hs'.2]
        simp only [Core.drop, Core.setPage, State.core, Function.update_self, Function.update_idem]
      have hmem : s'.mem = s.mem := by
        rw [show s'.mem = s'.core.mem from rfl, hs'.2]
        rfl
      refine .of_setPage hl ?_ (fun _ => ?_) hpages hmem
      · rw [VmPage.drop_use]
        exact le_refl (s.pages t).use.level
      · rw [VmPage.drop_referentPte]
    · have hroot : pageIsRootTable { s.pages t with
          nonzeroPtes := dec16 (s.pages t).nonzeroPtes } = pageIsRootTable (s.pages t) := by
        simp only [pageIsRootTable]
      have h4 : s.core.level t ≠ 4 := fun e => hk (.inl e)
      have hz : (s.pages t).nonzeroPtes = 1 := by
        by_contra e
        exact hk (.inr e)
      have hc : (s.pages t).nonzeroPtes = 1 ∧ ¬ s.core.level t = 4 := ⟨hz, h4⟩
      simp only [pteDeletedNested, State.modifyPage_pages_self, hroot, pageIsRootTable_iff, if_pos hc]
      have hl3 : s.core.level t ≤ 3 := by
        have := (s.core.use t).level_le
        unfold Core.level at *
        omega
      obtain ⟨ptr, hptr, hent, hlev⟩ := h.inv.dirs.dir_back t hl hl3 (by rw [hg.loose]; nofun)
      have href : (s.pages t).referentPte = ptePaddr ptr := hptr
      have hne : ptr.1 ≠ t := fun e => by
        rw [e] at hlev
        omega
      have hns' : (s.pages t).nonswapPtes = s.core.count Pte.isNonswap t + g.ns t := hns
      refine Wp.bind (wp_removeTableWsle h hl h4 hfresh rfl rfl ?_ (by omega)) fun s₁ hs₁ => ?_
      · simp only [State.modifyPage_pages_self]
      obtain ⟨hn1, rfl⟩ := hs₁
      have hs1 : g.ns t = 1 := by omega
      have hn1' : g.nz t = 1 := by omega
      simp only [State.modifyPage_pages_self, href, vmpPaddrToPage_ptePaddr, pteAt_ptePaddr, ok_bind]
      split
      swap
      · exact Halt.defined_kassert
      rw [ok_bind, vmpMdDeleteTablePointers_of_valid hent]
      swap
      · rfl
      -- the state in which the directory loses its entry
      have hdel : Made K none s g (s.deleteTable t ptr) (g.moveUp t ptr.1) :=
        .of_move (.delete t ptr hl hl3 hg hz hs1 hn1' hptr hK) (core_deleteTable s t ptr)
          (h.queues.deleteTable (by omega) ptr) (s.deleteTable_sizes t ptr)
      have hlt : (s.deleteTable t ptr).core.level t = 0 := by
        rw [core_deleteTable]
        change (s.core.setPage t _).level t = 0
        rw [Core.setPage_level, if_pos rfl]
        rfl
      have hld : (s.deleteTable t ptr).core.level ptr.1 = s.core.level t + 1 := by
        rw [core_deleteTable]
        change (s.core.setPage t _).level ptr.1 = _
        rw [Core.setPage_level, if_neg hne, hlev]
      have hdec : dec16 1 = 0 := by decide
      have heq : ∀ S : State, S = s.deleteTable t ptr → Wp Halt.Defined (do
          let s ← pteDeletedNested depth S ptr.1 false
          let s ← vmpPageReleaseLocked (s.modifyPage t fun pg =>
            { pg with nonswapPtes := 0, referentPte := 0 }) t
          vmpPageReleaseLocked s t) fun s' =>
            Made K none s g s' (g.unwire t) ∧ Untouched s s' := by
        rintro S rfl
        have hg' : (g.moveUp t ptr.1).Settled := ⟨hg.loose, hg.unref, hg.fresh, hg.absent⟩
        refine Wp.bind (ih (hdel.good h) hg' (by omega) ?_ (by omega)) fun s₂ hs₂ => ?_
        · simp only [Ledger.moveUp, incAt_apply, if_true]
          omega
        obtain ⟨hup, hkept⟩ := hs₂
        rw [Ledger.unwire_moveUp] at hup
        have hpt : s₂.pages t = { s.pages t with use := .deleted, nonzeroPtes := 0 } := by
          rw [hkept.pages t hlt]
          simp [State.deleteTable, State.modifyPage, State.setPte]
        refine ((wp_freeDeleted hup.queues ?_ ?_).mono_halt fun _ e => e.elim).mono
          fun s₃ hs₃ => ⟨?_, ?_⟩
        · rw [hpt]
          simp only
          omega
        · rw [hpt]
        · refine (hdel.trans hup).trans (.of_move (.free t ?_ hK) hs₃.2.2 hs₃.1 hs₃.2.1.sizes)
          exact congrArg VmPage.use hpt
        · have hdeleted := (s.deleteTable_untouched hl (show 2 ≤ s.core.level ptr.1 by omega)).trans hkept
          have hpages : s₃.pages = Function.update s₂.pages t
              { s₂.pages t with use := .free, refcnt := 0, nonswapPtes := 0, referentPte := 0 } := by
            rw [show s₃.pages = s₃.core.pages from rfl, hs₃.2.2]
            rfl
          have hmem : s₃.mem = s₂.mem := by
            rw [show s₃.mem = s₃.core.mem from rfl, hs₃.2.2]
            rfl
          refine ⟨fun q hq => ?_, fun q hq => ?_, fun q => ?_, fun q hq => ?_⟩
          · have hqt : q ≠ t := fun e => by
              rw [e] at hq
              omega
            rw [hpages, Function.update_of_ne hqt, hdeleted.pages q hq]
          · rw [hmem, hdeleted.mem q hq]
          · change (s₃.pages q).use.level ≤ _
            rw [hpages]
            by_cases hqt : q = t
            · rw [hqt, Function.update_self]
              exact Nat.zero_le _
            · rw [Function.update_of_ne hqt]
              exact hdeleted.level q
          · change 1 ≤ (s₃.pages q).use.level at hq
            rw [hpages] at hq ⊢
            by_cases hqt : q = t
            · rw [hqt, Function.update_self] at hq
              exact absurd hq (Nat.not_succ_le_zero 0)
            · rw [Function.update_of_ne hqt] at hq ⊢
              exact hdeleted.referent q hq
      refine heq _ ?_
      simp only [State.deleteTable, State.modifyPage, State.setPte, Function.update_self,
        Function.update_idem, hz, hdec]
      rfl

/-! ## Releasing a wire state -/

/-- What is owed when the references of a list of tables are given back. -/
def Ledger.unwireAll (g : Ledger) (pages : List (Option Pfn)) : Ledger :=
  { g with
    ns := fun p => g.ns p - pages.count (some p)
    nz := fun p => g.nz p - pages.count (some p) }

theorem Ledger.unwireAll_cons (g : Ledger) (t : Pfn) (pages : List (Option Pfn)) :
    (g.unwire t).unwireAll pages = g.unwireAll (some t :: pages) := by
  simp only [unwireAll, unwire, Ledger.mk.injEq, and_true]
  constructor <;>
  · funext q
    by_cases hq : q = t
    · subst hq
      simp only [decAt_apply, if_true, List.count_cons_self]
      omega
    · have hne : some t ≠ some q := fun e => hq (Option.some.inj e).symm
      rw [decAt_apply, if_neg hq, List.count_cons_of_ne hne]

/-- `vmp_pte_wire_state_release` gives back the references of the wired tables. -/
theorem wp_releaseWired (hK : K.maps) (pages : List (Option Pfn)) : ∀ {s : State} {g : Ledger},
    Good none s g → g.Settled → (∀ p, pages.count (some p) ≤ g.nz p) →
    Wp Halt.Defined (releaseWired s pages) fun s' =>
      Made K none s g s' (g.unwireAll pages) ∧ Untouched s s' := by
  induction pages with
  | nil =>
    intro s g h _ _
    exact ⟨.refl h, .refl s⟩
  | cons page pages ih =>
    intro s g h hg hn
    cases page with
    | none =>
      refine (ih h hg fun p => ?_).mono fun s' hs' => ?_
      · simpa using hn p
      · simpa [Ledger.unwireAll] using hs'
    | some t =>
      have hnt : 1 ≤ g.nz t := by
        have := hn t
        rw [List.count_cons_self] at this
        omega
      have hl : 1 ≤ s.core.level t :=
        h.inv.tables.ns_table t (by have := h.inv.tables.nz_le t; omega)
      refine Wp.bind (wp_pteDeletedNested hK (softNPages + 1) h hg hl hnt (by
        simp only [softNPages]
        omega)) fun s₁ hs₁ => ?_
      have hg' : (g.unwire t).Settled := ⟨hg.loose, hg.unref, hg.fresh, hg.absent⟩
      refine (ih (hs₁.1.good h) hg' fun p => ?_).mono fun s' hs' => ⟨?_, hs₁.2.trans hs'.2⟩
      · have := hn p
        by_cases hp : p = t
        · subst hp
          rw [List.count_cons_self] at this
          simp only [Ledger.unwire, decAt_apply, if_true]
          omega
        · rw [List.count_cons_of_ne fun e => hp (Option.some.inj e).symm] at this
          simpa only [Ledger.unwire, decAt_apply, if_neg hp] using this
      · rw [Ledger.unwireAll_cons] at hs'
        exact hs₁.1.trans hs'.1

end VmmSim
