import VmmSim.Saving

/-!
# Blank pages

A page is handed out with every word zero, and stays so until an entry maps it (`Blank`). A page that
a fault reads back from the pagefile is no exception: the fault passes the drum slot of the new page
to `iop_init_vnode_read`, and a new page has none, so that the read transfers nothing whatever the swap
entry named (`swapIn_blank`).
-/

namespace VmmSim

open Lib

variable {K : Guard} {c c' : Core} {g g' : Ledger}

/-- The words that a move assigns to: none, one of a table, or those of the page it hands out. -/
inductive Words (c c' : Core) (g : Ledger) : Prop
  | none (hm : c'.mem = c.mem)
  | entry (ptr : PtePtr) (w : Word) (hl : 1 ≤ c.level ptr.1) (hm : c'.mem = (c.setWord ptr w).mem)
  | page (p : Pfn) (hp : g.loose = some p) (hr : g.unref = none)
      (hm : c'.mem = (c.setWords p 0).mem)

theorem Move.words (hi : Inv c g) (hm : Move K c g c' g') : Words c c' g := by
  cases hm with
  | evict e q ptr p wr hq he hw => exact .entry ptr _ (hi.dirs.level_of_walks hw).ge rfl
  | mapZero ptr p wr hl => exact .entry ptr _ hl.ge rfl
  | mapSoft ptr p hl => exact .entry ptr _ hl.ge rfl
  | mapBusy ptr p state slot vaddr hl => exact .entry ptr _ hl.ge rfl
  | writeable ptr p wr hl => exact .entry ptr _ hl.ge rfl
  | finish r hr => exact .entry r.pte _ (hi.leaves.busy_back r hr).1.ge rfl
  | unmap ptr p hl => exact .entry ptr _ hl.ge rfl
  | handOut p use hu h0 hp hr => exact .page p hp hr rfl
  | attach ptr p hl hd => exact .entry ptr _ (by omega) rfl
  | delete t ptr hl h₃ hg hz hs hn hr =>
    obtain ⟨d, hd, -, hld⟩ := hi.dirs.dir_back t hl h₃ (by
      rw [hg.loose]
      exact (Option.some_ne_none t).symm)
    obtain rfl : d = ptr := ptePaddr_injective (hd.symm.trans hr)
    exact .entry d _ (by omega) rfl
  | _ => exact .none rfl

/-- The words of a page of data change only when it is handed out again. -/
theorem Move.mem_kept (hi : Inv c g) (hm : Move K c g c' g') {p : Pfn}
    (hu : c.use p = .anonPrivate) :
    c'.mem p = c.mem p ∨ (g.loose = some p ∧ g.unref = none) ∧ c'.mem p = 0 := by
  cases hm.words hi with
  | none h => exact .inl (congrFun h p)
  | entry ptr w hl h =>
    have hne : p ≠ ptr.1 := by
      rintro rfl
      exact Inv.not_anon_of_level hl hu
    refine .inl ?_
    rw [h]
    exact Function.update_of_ne hne _ _
  | page q hq hr h =>
    by_cases hpq : p = q
    · subst hpq
      refine .inr ⟨⟨hq, hr⟩, ?_⟩
      rw [h]
      exact Function.update_self p 0 c.mem
    · refine .inl ?_
      rw [h]
      exact Function.update_of_ne hpq _ _

/-- Pages that were handed out and that no entry maps have no contents. -/
structure Blank (c : Core) (g : Ledger) : Prop where
  reading : ∀ r ∈ g.busy, c.mem r.page = 0
  loose : ∀ p, g.loose = some p → c.use p = .anonPrivate → 0 < (c.pages p).refcnt → c.mem p = 0
  table : ∀ p, g.loose = some p → 1 ≤ c.level p → ∀ i, c.entry (p, i) = .zero

/-- A new swap-in has taken the loose page. -/
theorem Move.busy_back (hi : Inv c g) (hm : Move K c g c' g') {r : Swapping} (hr : r ∈ g'.busy) :
    r ∈ g.busy ∨ (∃ slot, K.swapIn c slot) ∧ g.loose = some r.page ∧
      c.use r.page = .anonPrivate ∧ 0 < (c.pages r.page).refcnt ∧
        c'.mem r.page = c.mem r.page := by
  cases hm with
  | mapBusy ptr p state slot vaddr hl hw he hp hu hu' ha hh hn hk =>
    rcases List.mem_append.1 hr with hr | hr
    · exact .inl hr
    · obtain rfl := List.mem_singleton.1 hr
      have hrc := hi.frames.loose p hp hu hu'
      refine .inr ⟨⟨slot, hk⟩, hp, hu, by simp only; omega, Function.update_of_ne ?_ _ _⟩
      rintro rfl
      exact Inv.not_anon_of_level hl.ge hu
  | finish r' => exact .inl (List.mem_of_mem_erase hr)
  | _ => exact .inl hr

/-- A page becomes a page of data when it is handed out, blank. -/
theorem Move.use_back (hm : Move K c g c' g') {p : Pfn} (hu : c'.use p = .anonPrivate) :
    c.use p = .anonPrivate ∨ c'.mem p = 0 := by
  have setPage : ∀ {t : Pfn} {pg : VmPage}, pg.use = c.use t →
      (c.setPage t pg).use p = .anonPrivate → c.use p = .anonPrivate := by
    intro t pg hpu h
    rwa [Core.setPage_use_of hpu] at h
  cases hm with
  | bump t isNew => exact .inl (setPage (VmPage.bump_use isNew (c.pages t)) hu)
  | drop t => exact .inl (setPage (VmPage.drop_use (c.pages t)) hu)
  | decNonzero t =>
    refine .inl (setPage ?_ hu)
    rfl
  | setReferent ptr q =>
    rw [Core.setReferent_use] at hu
    exact .inl hu
  | mapBusy ptr q =>
    rw [Core.setWord_use, Core.setReferent_use] at hu
    exact .inl hu
  | handOut q use =>
    change (c.setPage q (VmPage.handedOut use)).use p = .anonPrivate at hu
    rw [Core.setPage_use] at hu
    split at hu
    · rename_i hpq
      right
      rw [hpq]
      exact Function.update_self q 0 c.mem
    · exact .inl hu
  | initTable q ptr =>
    refine .inl (setPage ?_ hu)
    exact VmPage.bump_use true (c.pages q)
  | delete t ptr =>
    change (c.setPage t _).use p = .anonPrivate at hu
    rw [Core.setPage_use] at hu
    split at hu
    · exact absurd hu PageUse.noConfusion
    · exact .inl hu
  | free t =>
    rw [Core.setPage_use] at hu
    split at hu
    · exact absurd hu PageUse.noConfusion
    · exact .inl hu
  | hold q =>
    refine .inl (setPage ?_ hu)
    rfl
  | unhold q =>
    refine .inl (setPage ?_ hu)
    rfl
  | markDirty q =>
    refine .inl (setPage ?_ hu)
    rfl
  | _ => exact .inl hu

/-- A table that is not in its directory yet stays as it was handed out. -/
theorem Blank.table_kept (h : Blank c g) (hi : Inv c g) (hm : Move K c g c' g') {p : Pfn}
    (hp : g.loose = some p) (hp' : g'.loose = some p) (hl : 1 ≤ c'.level p) (i : Fin tableEntries) :
    c'.entry (p, i) = .zero := by
  have word : ∀ {ptr : PtePtr} (w : Word), c.entry ptr ≠ .zero → 1 ≤ c.level p →
      (c.setWord ptr w).entry (p, i) = .zero := by
    intro ptr w hne hlp
    refine (Core.setWord_entry_ne c ptr (p, i) w ?_).trans (h.table p hp hlp i)
    rintro rfl
    exact hne (h.table p hp hlp i)
  have page : ∀ {t : Pfn} {pg : VmPage}, pg.use = c.use t → 1 ≤ (c.setPage t pg).level p →
      c.entry (p, i) = .zero := by
    intro t pg hpu hlp
    rw [Core.setPage_level_of hpu] at hlp
    exact h.table p hp hlp i
  have none : ∀ {e : Ledger} {P : Prop}, e.loose = none → e.loose = some p → P := fun h h' =>
    absurd (h.symm.trans h').symm (Option.some_ne_none p)
  cases hm with
  | bump t isNew => exact page (VmPage.bump_use isNew (c.pages t)) hl
  | drop t => exact page (VmPage.drop_use (c.pages t)) hl
  | decNonzero t =>
    refine page ?_ hl
    rfl
  | evict e q ptr p' wr hq he hw hv => exact word _ (by rw [hv]; exact Pte.noConfusion) hl
  | mapZero ptr q wr hlq he hq hu =>
    obtain rfl : p = q := Option.some.inj (hp.symm.trans hq)
    exact absurd hu (Inv.not_anon_of_level hl)
  | setReferent => exact none rfl hp'
  | mapSoft ptr q hlq he hq => exact none hq hp
  | mapBusy => exact none rfl hp'
  | writeable ptr q wr hlq he => exact word _ (by rw [he]; exact Pte.noConfusion) hl
  | finish r hr =>
    obtain ⟨-, ⟨a, hb⟩, -⟩ := hi.leaves.busy_back r hr
    exact word _ (by rw [hb]; exact Pte.noConfusion) hl
  | unmap ptr q hlq he h0 hd hq => exact none hq hp
  | pick q hu hq => exact none hq hp
  | handOut q use hu h0 hq =>
    obtain rfl : p = q := Option.some.inj (hp.symm.trans hq)
    change view (Function.update c.mem p 0 p i) = .zero
    rw [Function.update_self]
    exact view_zero
  | initTable q ptr =>
    refine page ?_ hl
    exact VmPage.bump_use true (c.pages q)
  | attach => exact none rfl hp'
  | delete t ptr hlt h₃ hg => exact none hg.loose hp
  | free t hu =>
    rw [Core.setPage_level] at hl
    split at hl
    · exact absurd hl (Nat.not_succ_le_zero 0)
    · exact h.table p hp hl i
  | hold q =>
    refine page ?_ hl
    rfl
  | unhold q =>
    refine page ?_ hl
    rfl
  | markDirty q =>
    refine page ?_ hl
    rfl
  | _ => exact h.table p hp hl i

theorem Blank.move (h : Blank c g) (hi : Inv c g) (hm : Move K c g c' g') : Blank c' g' := by
  refine ⟨?_, ?_, ?_⟩
  · intro r hr
    rcases hm.busy_back hi hr with hold | ⟨-, hp, hu, h0, hmem⟩
    · obtain ⟨-, -, hu, -, hl⟩ := hi.leaves.busy_back r hold
      rcases hm.mem_kept hi hu with hmem | ⟨⟨hp, -⟩, -⟩
      · exact hmem.trans (h.reading r hold)
      · exact absurd hp hl
    · exact hmem.trans (h.loose r.page hp hu h0)
  · intro p hp' hu' h0'
    by_cases hp : g.loose = some p
    · rcases hm.use_back hu' with hu | hzero
      · have hblank : 0 < (c.pages p).refcnt → c'.mem p = 0 := by
          intro h0
          rcases hm.mem_kept hi hu with hmem | ⟨-, hzero⟩
          · exact hmem.trans (h.loose p hp hu h0)
          · exact hzero
        cases hm.staysLoose hi hp hu with
        | loose _ _ hr => exact hblank (by omega)
        | referenced h0 => exact hblank h0
        | handedOut _ hzero => exact hzero
      · exact hzero
    · rcases hm.becomesLoose hi hp hp' with ⟨-, hfree⟩ | ⟨-, -, h0⟩
      · exact absurd (hfree.symm.trans hu') PageUse.noConfusion
      · omega
  · intro p hp' hl' i
    by_cases hp : g.loose = some p
    · exact h.table_kept hi hm hp hp' hl' i
    · rcases hm.becomesLoose hi hp hp' with ⟨-, hfree⟩ | ⟨-, hu, -⟩
      · rw [c'.level_of_plain (.inl hfree)] at hl'
        omega
      · rw [c'.level_of_plain (.inr hu)] at hl'
        omega

theorem Blank.moves (h : Blank c g) (hi : Inv c g) (hm : Moves K c g c' g') : Blank c' g' :=
  (hm.invariant (P := fun d e => Inv d e ∧ Blank d e) ⟨hi, h⟩ fun _ _ _ _ hp hm =>
    ⟨hp.1.move hm, hp.2.move hp.1 hm⟩).2

/-! ## Every reachable state -/

/-- The pages that faults read, with what their reads need. -/
structure BlankReads (x : Sys) (g : Ledger) : Prop where
  reading : Reading (fun _ => False) x.vm.core g
  blank : Blank x.vm.core g
  total : x.vm.pagefile.totalSlots < 2 ^ 52

/-- A page without a slot has no place in the file. -/
theorem slotAt_noSlot {s : State} {p : Pfn} (h : (s.pages p).drumslot = noSlot)
    (ht : s.pagefile.totalSlots < 2 ^ 52) : slotAt s (drumOffset s p) = none := by
  have ho : drumOffset s p / pgSize = 2 ^ 52 - 1 := by
    rw [drumOffset, h]
    norm_num [noSlot, pgSize]
  rw [slotAt, ho, if_neg]
  omega

theorem Blank.of_settled (hg : g.loose = none) (h : ∀ r ∈ g.busy, c.mem r.page = 0) :
    Blank c g := by
  refine ⟨h, ?_, ?_⟩
  · intro p hp
    exact absurd (hg.symm.trans hp).symm (Option.some_ne_none p)
  · intro p hp
    exact absurd (hg.symm.trans hp).symm (Option.some_ne_none p)

/-- The read of a sleeping fault transfers nothing. -/
theorem BlankReads.preadPage_eq {x : Sys} (h : BlankReads x g) (hx : x.Good g) {sw : SwapIn}
    (hs : sw ∈ x.swapIns) : preadPage x.vm sw.page (drumOffset x.vm sw.page) = x.vm := by
  have hno : (x.vm.pages sw.page).drumslot = noSlot :=
    h.reading.slot sw.swapping (hx.swapping_mem hs)
  rw [preadPage, slotAt_noSlot hno h.total]

theorem SlotAlloc.total {pf pf' : Pagefile} {slot : ℕ} (h : SlotAlloc pf slot pf') :
    pf'.totalSlots = pf.totalSlots := by
  cases h with
  | full => rfl
  | slot _ _ htotal => exact htotal

theorem blankReads_layer (K : Guard) : Layer K BlankReads where
  boot c s hs := by
    refine ⟨(reading_layer K).boot c s hs, .of_settled rfl ?_, ?_⟩
    · intro r hr
      exact absurd hr List.not_mem_nil
    · change s.pagefile.totalSlots < 2 ^ 52
      rw [hs.pagefile]
      have := c.pagefileLength_lt
      simp only [initVmpPagefile, pgSize]
      omega
  turn x g x' g' hx h ht hx' := by
    have hreading := (reading_layer K).turn x g x' g' hx h.reading ht hx'
    cases ht with
    | moves F hF hm hp =>
      refine ⟨hreading, h.blank.moves hx.good.inv hm, ?_⟩
      have hpf : x'.vm.pagefile = x.vm.pagefile := hm.pagefile
      rw [hpf]
      exact h.total
    | pick p offset hv hg =>
      subst hg
      obtain ⟨slot, pf, -, hcore, hslot⟩ := hv.core
      refine ⟨hreading, .of_settled hx'.settled.loose ?_, ?_⟩
      · intro r hr
        rw [hcore]
        exact h.blank.reading r hr
      · rw [show x'.vm.pagefile = pf from congrArg Core.pagefile hcore]
        rcases hslot with ⟨-, -, rfl⟩ | ⟨-, -, ha⟩
        · exact h.total
        · exact ha.total.trans_lt h.total
    | send p hv hg =>
      subst hg
      have hcore := pwritePage_core x.vm p (drumOffset x.vm p)
      rw [← hv] at hcore
      have hsame : x'.vm.mem = x.vm.mem ∧ x'.vm.pagefile = x.vm.pagefile := by
        constructor
        · refine (congrArg Core.mem hcore).trans ?_
          split <;> rfl
        · refine (congrArg Core.pagefile hcore).trans ?_
          split <;> rfl
      refine ⟨hreading, .of_settled hx'.settled.loose ?_, ?_⟩
      · intro r hr
        exact (congrFun hsame.1 r.page).trans (h.blank.reading r hr)
      · rw [hsame.2]
        exact h.total
    | read k sw hk hw hv hg =>
      subst hg
      have hvm : x'.vm = x.vm := by
        rw [hv, h.preadPage_eq hx (List.mem_of_getElem? hk)]
      refine ⟨hreading, ?_, ?_⟩
      · rw [hvm]
        exact h.blank
      · rw [hvm]
        exact h.total
    | store vaddr data hv hg =>
      subst hg
      obtain ⟨ptr, p, hw, he, hcore⟩ := hv.vm
      refine ⟨hreading, .of_settled hx'.settled.loose ?_, ?_⟩
      · intro r hr
        have hne : r.page ≠ p := hx.good.inv.leaves.page_ne (hx.good.inv.dirs.level_of_walks hw)
          (by rw [he]; rfl) hr
        rw [hcore]
        exact (Function.update_of_ne hne _ _).trans (h.blank.reading r hr)
      · rw [show x'.vm.pagefile = x.vm.pagefile from congrArg Core.pagefile hcore]
        exact h.total

/-- **A swap-in reads nothing.** The page that a fault waits for is blank, and stays so when the read is
done, whatever page was stolen from the address. -/
theorem swapIn_blank {x : Sys} (h : Reachable x) {sw : SwapIn} (hs : sw ∈ x.swapIns) :
    x.vm.mem sw.page = 0 ∧ preadPage x.vm sw.page (drumOffset x.vm sw.page) = x.vm := by
  obtain ⟨x₀, hb, hr⟩ := h
  obtain ⟨y, g, rfl, hy, hl⟩ := exists_standing Terms.any_grant (blankReads_layer Guard.any) hb
    (hr.mono fun op a _ => op.meets_any a)
  have hread := hl.preadPage_eq hy hs
  refine ⟨hl.blank.reading sw.swapping (hy.swapping_mem hs), ?_⟩
  change preadPage y.vm.narrow sw.page (drumOffset y.vm.narrow sw.page) = y.vm.narrow
  rw [show drumOffset y.vm.narrow sw.page = drumOffset y.vm sw.page from rfl, preadPage_narrow, hread]

/-- A page was stored to, evicted, written to the pagefile and stolen; a fault waits to read it. -/
def faultOnStolen : List Op := stealTwo ++ faultOn 4096 false

theorem swapIn_blank_stolen : ∃ x sw, simulate mainConfig faultOnStolen = .ok x ∧ sw ∈ x.swapIns ∧
    x.vm.mem sw.page = 0 ∧ preadPage x.vm sw.page (drumOffset x.vm sw.page) = x.vm := by
  obtain ⟨x, hx, hr⟩ := exists_of_readBack (r := simulate mainConfig faultOnStolen)
    (f := fun x => x.swapIns.isEmpty) (a := false) (by decide +kernel)
  obtain ⟨sw, hs⟩ := List.exists_mem_of_ne_nil x.swapIns (by
    intro e
    rw [e] at hr
    exact absurd hr Bool.noConfusion)
  exact ⟨x, sw, hx, hs, swapIn_blank (reachable_of_simulate hx) hs⟩

end VmmSim
