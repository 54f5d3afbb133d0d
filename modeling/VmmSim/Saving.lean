import VmmSim.SlotOwners

/-!
# Stores and the page writer

A store to a page of data is safe until it is in the pagefile: the page is dirty, or an entry still
lets it be written, or the page writer is about to write it (`Saved`). The page writer clears the
dirty flag before it writes, and stores, faults and evictions go on in between; none of them loses
the store (`stores_saved`). The one way to lose a store is a pagefile with no free slot left, of which
`cluster_anon` takes no notice.
-/

namespace VmmSim

open Lib

variable {K : Guard} {c c' : Core} {g g' : Ledger}

/-- An entry through which a page can be written. -/
def Core.Writeable (c : Core) (p : Pfn) : Prop :=
  ∃ ptr : PtePtr, c.level ptr.1 = 1 ∧ c.entry ptr = .valid p.val true

/-- Every slot of the pagefile is taken. -/
def Pagefile.Full (pf : Pagefile) : Prop := ∀ i < pf.totalSlots, pf.taken i = true

/-- A page that has no slot when there is none left. -/
def Core.Slotless (c : Core) (p : Pfn) : Prop :=
  (c.pages p).drumslot = noSlot ∧ c.pagefile.Full

/-! ## What a move leaves of a page in the tables -/

theorem VmPage.bump_dirty (isNew : Bool) (pg : VmPage) : (pg.bump isNew).dirty = pg.dirty := by
  cases pg
  rfl

theorem VmPage.drop_dirty (pg : VmPage) : pg.drop.dirty = pg.dirty := by
  cases pg
  rfl

/-- What a page of data keeps. -/
structure Kept (c c' : Core) (p : Pfn) : Prop where
  use : c'.use p = .anonPrivate
  drumslot : (c'.pages p).drumslot = (c.pages p).drumslot
  dirty : (c.pages p).dirty = true → (c'.pages p).dirty = true
  writeable : c.Writeable p → c'.Writeable p ∨ (c'.pages p).dirty = true

theorem Kept.of_eq {p : Pfn} (hu : c.use p = .anonPrivate) (hp : c'.pages = c.pages)
    (hm : c'.mem = c.mem) : Kept c c' p := by
  refine ⟨?_, ?_, ?_, ?_⟩
  · rw [Core.use, hp]
    exact hu
  · rw [hp]
  · rw [hp]
    exact id
  · rintro ⟨ptr, hl, he⟩
    refine .inl ⟨ptr, ?_, ?_⟩
    · rw [Core.level, Core.use, hp]
      exact hl
    · rw [Core.entry, hm]
      exact he

/-- An assignment to a page that keeps its use, its slot and its dirty flag. -/
theorem Kept.of_setPage {p : Pfn} (hu : c.use p = .anonPrivate) (q : Pfn) (pg : VmPage)
    (hp : c'.pages = (c.setPage q pg).pages) (hm : c'.mem = c.mem) (hpu : pg.use = c.use q)
    (hd : pg.drumslot = (c.pages q).drumslot)
    (hdirty : (c.pages q).dirty = true → pg.dirty = true) : Kept c c' p := by
  have hpage : c'.pages p = if p = q then pg else c.pages p := by
    rw [hp, Core.setPage_pages]
  refine ⟨?_, ?_, ?_, ?_⟩
  · rw [Core.use, hp]
    exact (Core.setPage_use_of hpu p).trans hu
  · rw [hpage]
    split
    · rw [hd, ‹p = q›]
    · rfl
  · rw [hpage]
    split
    · rw [‹p = q›]
      exact hdirty
    · exact id
  · rintro ⟨ptr, hl, he⟩
    refine .inl ⟨ptr, ?_, ?_⟩
    · rw [Core.level, Core.use, hp]
      exact (Core.setPage_level_of hpu ptr.1).trans hl
    · rw [Core.entry, hm]
      exact he

/-- An assignment to an entry that is no writeable one. -/
theorem Kept.of_setWord {p : Pfn} (hu : c.use p = .anonPrivate) (ptr : PtePtr) (w : Word)
    (he : c.entry ptr = .valid p.val true → view w = .valid p.val true) :
    Kept c (c.setWord ptr w) p := by
  refine ⟨hu, rfl, id, ?_⟩
  rintro ⟨r, hl, hr⟩
  refine .inl ⟨r, hl, ?_⟩
  rw [Core.setWord_entry]
  split
  · subst_vars
    exact he hr
  · exact hr

theorem Kept.trans {c'' : Core} {p : Pfn} (h : Kept c c' p) (h' : Kept c' c'' p) :
    Kept c c'' p := by
  refine ⟨h'.use, h'.drumslot.trans h.drumslot, h'.dirty ∘ h.dirty, ?_⟩
  intro hw
  rcases h.writeable hw with hw | hd
  · exact h'.writeable hw
  · exact .inr (h'.dirty hd)

/-- Pages of data in the tables are kept, but for the one that is stolen. -/
theorem Move.kept (hi : Inv c g) (hm : Move K c g c' g') {p : Pfn} (hu : c.use p = .anonPrivate)
    (hp : g.loose ≠ some p) (hp' : g'.loose ≠ some p) : Kept c c' p := by
  cases hm with
  | bump t isNew =>
    refine .of_setPage hu t ((c.pages t).bump isNew) rfl rfl ?_ ?_ ?_
    · exact VmPage.bump_use isNew (c.pages t)
    · exact VmPage.bump_drumslot isNew (c.pages t)
    · rw [VmPage.bump_dirty]
      exact id
  | drop t =>
    refine .of_setPage hu t (c.pages t).drop rfl rfl ?_ ?_ ?_
    · exact VmPage.drop_use (c.pages t)
    · exact VmPage.drop_drumslot (c.pages t)
    · rw [VmPage.drop_dirty]
      exact id
  | decNonzero t => exact .of_setPage hu t _ rfl rfl rfl rfl id
  | evict e q ptr p' wr hq he hw hv hd =>
    refine ⟨hu, rfl, id, ?_⟩
    rintro ⟨r, hl, hr⟩
    by_cases hrp : r = ptr
    · subst hrp
      rw [hv] at hr
      simp only [Pte.valid.injEq] at hr
      obtain rfl : p' = p := Fin.ext hr.1
      exact .inr (hd hr.2)
    · exact .inl ⟨r, hl, (Core.setWord_entry_ne c ptr _ _ hrp).trans hr⟩
  | enterLeaf => exact .of_eq hu rfl rfl
  | enterTable => exact .of_eq hu rfl rfl
  | mapZero ptr p' wr hl he =>
    exact .of_setWord hu ptr _ fun e => absurd (he.symm.trans e) Pte.noConfusion
  | setReferent ptr q => exact .of_setPage hu q _ rfl rfl rfl rfl id
  | mapSoft ptr p' hl he =>
    exact .of_setWord hu ptr _ fun e => absurd (he.symm.trans e) Pte.noConfusion
  | mapBusy ptr q state slot vaddr hl hw he =>
    have hpage : Kept c (c.setReferent q ptr) p := .of_setPage hu q _ rfl rfl rfl rfl id
    refine hpage.trans (.of_setWord ?_ ptr _ fun e => absurd (he.symm.trans e) Pte.noConfusion)
    rw [Core.setReferent_use]
    exact hu
  | writeable ptr p' wr hl he =>
    refine .of_setWord hu ptr _ fun e => ?_
    exact view_hwSetWriteable e
  | finish r hr =>
    obtain ⟨-, ⟨a, hb⟩, -⟩ := hi.leaves.busy_back r hr
    refine (Kept.of_setWord hu r.pte _ fun e => ?_).trans (.of_eq hu rfl rfl)
    · exact absurd (hb.symm.trans e) Pte.noConfusion
  | unmap ptr p' hl he =>
    exact .of_setWord hu ptr _ fun e => absurd (he.symm.trans e) Pte.noConfusion
  | pick q => exact .of_eq hu rfl rfl
  | handOut q use hu' h0 hlo =>
    have hpq : p ≠ q := by
      rintro rfl
      exact hp hlo
    have hpage : (c.setPage q (VmPage.handedOut use)).pages p = c.pages p := by
      rw [Core.setPage_pages, if_neg hpq]
    refine ⟨?_, ?_, ?_, ?_⟩
    · exact (congrArg VmPage.use hpage).trans hu
    · exact congrArg VmPage.drumslot hpage
    · exact fun hd => (congrArg VmPage.dirty hpage).trans hd
    · rintro ⟨r, hl, hr⟩
      have hrq : r.1 ≠ q := by
        intro e
        rw [e] at hl
        rw [c.level_of_plain hu'] at hl
        cases hl
      refine .inl ⟨r, ?_, ?_⟩
      · exact (Core.setPage_level c q r.1 _).trans ((if_neg hrq).trans hl)
      · exact (Core.setWords_entry_ne _ q r 0 hrq).trans hr
  | initTable q ptr =>
    refine .of_setPage hu q _ rfl rfl ?_ ?_ ?_
    · exact VmPage.bump_use true (c.pages q)
    · exact VmPage.bump_drumslot true (c.pages q)
    · exact id
  | attach ptr q hl hd he =>
    exact .of_setWord hu ptr _ fun e => absurd (he.symm.trans e) Pte.noConfusion
  | delete t ptr hl h₃ hg hz hs hn hr =>
    have hpt : p ≠ t := by
      rintro rfl
      exact Inv.not_anon_of_level hl hu
    have hpage : (c.setPage t { c.pages t with use := .deleted, nonzeroPtes := 0 }).pages p =
        c.pages p := by
      rw [Core.setPage_pages, if_neg hpt]
    refine ⟨?_, ?_, ?_, ?_⟩
    · exact (congrArg VmPage.use hpage).trans hu
    · exact congrArg VmPage.drumslot hpage
    · exact fun hd => (congrArg VmPage.dirty hpage).trans hd
    · rintro ⟨r, hlr, her⟩
      have hrt : r.1 ≠ t := by
        rintro rfl
        have hempty := hi.empty_of_last hl hz hn r.2
        exact absurd (hempty.symm.trans her) Pte.noConfusion
      have hrp : r ≠ ptr := by
        rintro rfl
        obtain ⟨x, hx, -, hlx⟩ := hi.dirs.dir_back t hl h₃ (by
          rw [hg.loose]
          exact (Option.some_ne_none _).symm)
        obtain rfl := ptePaddr_injective (hx.symm.trans hr)
        omega
      refine .inl ⟨r, ?_, ?_⟩
      · exact (Core.setPage_level c t r.1 _).trans ((if_neg hrt).trans hlr)
      · exact (Core.setWord_entry_ne _ ptr r _ hrp).trans her
  | free t hu' =>
    have hpt : p ≠ t := by
      rintro rfl
      exact absurd (hu'.symm.trans hu) PageUse.noConfusion
    refine ⟨?_, ?_, ?_, ?_⟩
    · exact (Core.setPage_use c t p _).trans ((if_neg hpt).trans hu)
    · rw [Core.setPage_pages, if_neg hpt]
    · rw [Core.setPage_pages, if_neg hpt]
      exact id
    · rintro ⟨r, hlr, her⟩
      have hrt : r.1 ≠ t := by
        rintro rfl
        rw [Core.level_of_use hu'] at hlr
        cases hlr
      exact .inl ⟨r, (Core.setPage_level c t r.1 _).trans ((if_neg hrt).trans hlr), her⟩
  | hold q => exact .of_setPage hu q _ rfl rfl rfl rfl id
  | unhold q => exact .of_setPage hu q _ rfl rfl rfl rfl id
  | markDirty q b =>
    refine .of_setPage hu q _ rfl rfl rfl rfl ?_
    intro hd
    simp only [hd, Bool.true_or]

/-- Only the page that is handed out has its history start again. -/
theorem Move.unsaved (hm : Move K c g c' g') {p : Pfn} (h : c'.unsaved p = true) :
    c.unsaved p = true := by
  cases hm with
  | handOut q =>
    change Function.update c.unsaved q false p = true at h
    by_cases hpq : p = q
    · rw [hpq, Function.update_self] at h
      cases h
    · rwa [Function.update_of_ne hpq] at h
  | _ => exact h

/-! ## No store is lost -/

/-- Every store that is not in the pagefile yet will get there. `pend` is the page that the page
writer is about to write. -/
structure Saved (pend : Option Pfn) (c : Core) (g : Ledger) : Prop where
  covered : ∀ p, c.unsaved p = true → g.loose ≠ some p → c.use p = .anonPrivate ∧
    ((c.pages p).dirty = true ∨ c.Writeable p ∨ pend = some p ∨ c.Slotless p)
  loose : ∀ p, g.loose = some p → c.unsaved p = true → c.use p = .anonPrivate ∧
    (c.pages p).refcnt = 0
  pending : ∀ p, pend = some p → c.use p = .anonPrivate ∧ g.loose ≠ some p ∧
    ((c.pages p).drumslot ≠ noSlot ∨ c.Slotless p)

variable {pend : Option Pfn}

theorem Core.Slotless.of_kept {p : Pfn} (h : c.Slotless p) (hk : Kept c c' p)
    (hpf : c'.pagefile = c.pagefile) : c'.Slotless p := by
  refine ⟨hk.drumslot.trans h.1, ?_⟩
  rw [hpf]
  exact h.2

/-- A stolen page has no reference until it is handed out, and its history ends there. -/
inductive StaysLoose (c c' : Core) (g' : Ledger) (p : Pfn) : Prop
  | loose (h : g'.loose = some p) (hu : c'.use p = c.use p)
      (hr : (c'.pages p).refcnt = (c.pages p).refcnt)
  | referenced (h : 0 < (c.pages p).refcnt)
  | handedOut (h : c'.unsaved p = false) (hm : c'.mem p = 0)

theorem Move.staysLoose (hi : Inv c g) (hm : Move K c g c' g') {p : Pfn} (hp : g.loose = some p)
    (hu : c.use p = .anonPrivate) : StaysLoose c c' g' p := by
  have data : ∀ {t : Pfn}, 1 ≤ c.level t → p ≠ t := by
    rintro t hl rfl
    exact Inv.not_anon_of_level hl hu
  have none : ∀ {P : Prop}, g.loose = none → P := fun h => by
    rw [hp] at h
    exact absurd h (Option.some_ne_none _)
  have setPage : ∀ {t : Pfn} {pg : VmPage} {d : Core} {e : Ledger}, p ≠ t →
      d.pages = (c.setPage t pg).pages → e.loose = g.loose → StaysLoose c d e p := by
    intro t pg d e hne hd he
    have hpage : d.pages p = c.pages p := by
      rw [hd, Core.setPage_pages, if_neg hne]
    exact .loose (he.trans hp) (congrArg VmPage.use hpage) (congrArg VmPage.refcnt hpage)
  cases hm with
  | bump t isNew hl => exact setPage (data hl) rfl rfl
  | drop t hl => exact setPage (data hl) rfl rfl
  | decNonzero t hl => exact setPage (data hl) rfl rfl
  | setReferent ptr q wr hl he hq =>
    obtain rfl : p = q := Option.some.inj (hp.symm.trans hq)
    have := hi.frames.valid ptr p wr hl he
    exact .referenced (by omega)
  | mapSoft ptr q hl he hq => exact none hq
  | mapBusy ptr q state slot vaddr hl hw he hq hu' hr ha hh =>
    obtain rfl : p = q := Option.some.inj (hp.symm.trans hq)
    have := hi.frames.loose p hp hu hr
    exact .referenced (by omega)
  | unmap ptr q hl he h0 hd hq => exact none hq
  | pick q hq hlo => exact none hlo
  | handOut q use hu' h0 hq =>
    obtain rfl : p = q := Option.some.inj (hp.symm.trans hq)
    exact .handedOut (Function.update_self p false c.unsaved) (Function.update_self p 0 c.mem)
  | initTable q ptr hl => exact setPage (data hl) rfl rfl
  | attach ptr q hl hd he hq =>
    obtain rfl : p = q := Option.some.inj (hp.symm.trans hq)
    exact absurd hu (Inv.not_anon_of_level hl)
  | delete t ptr hl h₃ hg => exact setPage (data hl) rfl rfl
  | free t hu' =>
    refine setPage ?_ rfl rfl
    rintro rfl
    exact absurd (hu.symm.trans hu') PageUse.noConfusion
  | hold q hu' hq =>
    refine setPage ?_ rfl rfl
    rintro rfl
    exact hq hp
  | unhold q hh h0 =>
    by_cases hpq : p = q
    · rw [hpq]
      exact .referenced h0
    · exact setPage hpq rfl rfl
  | markDirty q b =>
    by_cases hpq : p = q
    · subst hpq
      refine .loose hp ?_ ?_
      · rw [Core.setPage_use, if_pos rfl]
        rfl
      · rw [Core.setPage_pages, if_pos rfl]
    · exact setPage hpq rfl rfl
  | _ => exact .loose hp rfl rfl

/-- Only a free page, or a page that is being stolen, is taken out of the tables. -/
theorem Move.becomesLoose (hi : Inv c g) (hm : Move K c g c' g') {p : Pfn} (hp : g.loose ≠ some p)
    (hp' : g'.loose = some p) : c.use p = .free ∧ c'.use p = .free ∨
      K.steal c p ∧ c'.use p = .anonPrivate ∧ (c'.pages p).refcnt = 0 := by
  cases hm with
  | unmap ptr q hl he h0 hd hq hk =>
    obtain rfl : q = p := Option.some.inj hp'
    obtain ⟨r, hr, hu, -⟩ := hi.leaves.frame ptr q.val hl (by rw [he]; rfl)
    obtain rfl : q = r := Fin.ext hr
    exact .inr ⟨hk, hu, h0⟩
  | pick q hu =>
    obtain rfl : q = p := Option.some.inj hp'
    exact .inl ⟨hu, hu⟩
  | handOut q use hu h0 hq =>
    simp only [Ledger.handedOut] at hp'
    split at hp'
    · obtain rfl : q = p := Option.some.inj hp'
      exact absurd hq hp
    · exact absurd hp'.symm (Option.some_ne_none p)
  | setReferent => exact absurd hp'.symm (Option.some_ne_none p)
  | mapBusy => exact absurd hp'.symm (Option.some_ne_none p)
  | attach => exact absurd hp'.symm (Option.some_ne_none p)
  | _ => exact absurd hp' hp

theorem Saved.move (h : Saved pend c g) (hi : Inv c g) (hm : Move K c g c' g')
    (hK : ∀ c p, K.steal c p → pend ≠ some p) : Saved pend c' g' := by
  have hpf := hm.pagefile
  refine ⟨?_, ?_, ?_⟩
  · intro p hun hp'
    have hun₀ := hm.unsaved hun
    have hp : g.loose ≠ some p := by
      intro hp
      obtain ⟨hu, h0⟩ := h.loose p hp hun₀
      cases hm.staysLoose hi hp hu with
      | loose hp => exact hp' hp
      | referenced h => omega
      | handedOut hs => exact absurd (hs.symm.trans hun) Bool.noConfusion
    obtain ⟨hu, hcov⟩ := h.covered p hun₀ hp
    have hk := hm.kept hi hu hp hp'
    refine ⟨hk.use, ?_⟩
    rcases hcov with hd | hw | hpd | hs
    · exact .inl (hk.dirty hd)
    · rcases hk.writeable hw with hw | hd
      · exact .inr (.inl hw)
      · exact .inl hd
    · exact .inr (.inr (.inl hpd))
    · exact .inr (.inr (.inr (hs.of_kept hk hpf)))
  · intro p hp' hun
    have hun₀ := hm.unsaved hun
    by_cases hp : g.loose = some p
    · obtain ⟨hu, h0⟩ := h.loose p hp hun₀
      cases hm.staysLoose hi hp hu with
      | loose _ hu' hr => exact ⟨hu'.trans hu, hr.trans h0⟩
      | referenced h => omega
      | handedOut hs => exact absurd (hs.symm.trans hun) Bool.noConfusion
    · rcases hm.becomesLoose hi hp hp' with ⟨hfree, -⟩ | ⟨-, hu, h0⟩
      · obtain ⟨hu, -⟩ := h.covered p hun₀ hp
        exact absurd (hfree.symm.trans hu) PageUse.noConfusion
      · exact ⟨hu, h0⟩
  · intro p hp
    obtain ⟨hu, hlp, hs⟩ := h.pending p hp
    have hlp' : g'.loose ≠ some p := by
      intro hp'
      rcases hm.becomesLoose hi hlp hp' with ⟨hfree, -⟩ | ⟨hk, -⟩
      · exact absurd (hfree.symm.trans hu) PageUse.noConfusion
      · exact hK c p hk hp
    have hk := hm.kept hi hu hlp hlp'
    refine ⟨hk.use, hlp', ?_⟩
    rcases hs with hd | hs
    · left
      rw [hk.drumslot]
      exact hd
    · exact .inr (hs.of_kept hk hpf)

theorem Saved.moves (h : Saved pend c g) (hi : Inv c g) (hm : Moves K c g c' g')
    (hK : ∀ c p, K.steal c p → pend ≠ some p) : Saved pend c' g' :=
  (hm.invariant (P := fun d e => Inv d e ∧ Saved pend d e) ⟨hi, h⟩ fun _ _ _ _ hp hm =>
    ⟨hp.1.move hm, hp.2.move hp.1 hm hK⟩).2

/-! ## Every reachable state -/

/-- A page of data in the tables has the references that lists hold. -/
theorem Inv.held_le (hi : Inv c g) {p : Pfn} (hu : c.use p = .anonPrivate) (hp : g.loose ≠ some p) :
    g.held p ≤ (c.pages p).refcnt := by
  obtain ⟨ptr, hl, -, hf | ⟨r, hr, -, rfl⟩⟩ := hi.leaves.frame_back p hu hp
  · cases he : c.entry ptr with
    | valid n wr =>
      rw [he] at hf
      obtain rfl : n = p.val := Option.some.inj hf
      have := hi.frames.valid ptr p wr hl he
      omega
    | trans n =>
      rw [he] at hf
      obtain rfl : n = p.val := Option.some.inj hf
      exact (hi.frames.trans ptr p hl he).ge
    | _ =>
      rw [he] at hf
      exact absurd hf.symm (Option.some_ne_none _)
  · have := hi.frames.busy r hr
    omega

/-- What the page writer relies on: the counter of free slots is right, slots are not shared, and no
store is lost. -/
structure PageOuts (x : Sys) (g : Ledger) : Prop where
  counted : x.vm.pagefile.Counted
  slots : SlotsOwned x.vm.core g
  saved : Saved x.pending x.vm.core g

/-- A turn that stores nothing. -/
theorem Saved.congr {pend' : Option Pfn} (h : Saved pend c g)
    (hun : ∀ p, c'.unsaved p = true → c.unsaved p = true)
    (hk : ∀ p, c.use p = .anonPrivate → Kept c c' p) (hg : g.loose = none) (hg' : g'.loose = none)
    (hpf : c'.pagefile = c.pagefile)
    (hpend : ∀ p, pend = some p → c'.unsaved p = true → pend' = some p ∨ c.Slotless p)
    (hpend' : ∀ p, pend' = some p → pend = some p) : Saved pend' c' g' := by
  refine ⟨?_, ?_, ?_⟩
  · intro p hp _
    obtain ⟨hu, hcov⟩ := h.covered p (hun p hp) (by rw [hg]; exact (Option.some_ne_none p).symm)
    have hkp := hk p hu
    refine ⟨hkp.use, ?_⟩
    rcases hcov with hd | hw | hpd | hs
    · exact .inl (hkp.dirty hd)
    · rcases hkp.writeable hw with hw | hd
      · exact .inr (.inl hw)
      · exact .inl hd
    · rcases hpend p hpd hp with hpd | hs
      · exact .inr (.inr (.inl hpd))
      · exact .inr (.inr (.inr (hs.of_kept hkp hpf)))
    · exact .inr (.inr (.inr (hs.of_kept hkp hpf)))
  · intro p hp
    exact absurd (hg'.symm.trans hp).symm (Option.some_ne_none p)
  · intro p hp
    obtain ⟨hu, -, hs⟩ := h.pending p (hpend' p hp)
    have hkp := hk p hu
    refine ⟨hkp.use, by rw [hg']; exact (Option.some_ne_none p).symm, ?_⟩
    rcases hs with hd | hs
    · left
      rw [hkp.drumslot]
      exact hd
    · exact .inr (hs.of_kept hkp hpf)

/-- The words of a page of data are no entries. -/
theorem Kept.of_setWords {p q : Pfn} (hu : c.use p = .anonPrivate) (hq : c.use q = .anonPrivate)
    (d : Contents) : Kept c (c.setWords q d) p := by
  refine ⟨hu, rfl, id, ?_⟩
  rintro ⟨ptr, hl, he⟩
  refine .inl ⟨ptr, hl, (Core.setWords_entry_ne c q ptr d ?_).trans he⟩
  rintro rfl
  exact Inv.not_anon_of_level hl.ge hq

/-- A page that is not assigned to. -/
theorem Kept.of_ne {p q : Pfn} (hu : c.use p = .anonPrivate) (hpq : p ≠ q) {pg : VmPage}
    (hpu : pg.use = c.use q) (hp : c'.pages = (c.setPage q pg).pages) (hm : c'.mem = c.mem) :
    Kept c c' p := by
  have hpage : c'.pages p = c.pages p := by
    rw [hp, Core.setPage_pages, if_neg hpq]
  refine ⟨(congrArg VmPage.use hpage).trans hu, congrArg VmPage.drumslot hpage, ?_, ?_⟩
  · rw [hpage]
    exact id
  · rintro ⟨ptr, hl, he⟩
    refine .inl ⟨ptr, ?_, ?_⟩
    · rw [Core.level, Core.use, hp]
      exact (Core.setPage_level_of hpu ptr.1).trans hl
    · rw [Core.entry, hm]
      exact he

theorem SlotAlloc.full_kept {pf pf' : Pagefile} {slot : ℕ} (h : SlotAlloc pf slot pf')
    (hf : pf.Full) : pf'.Full := by
  cases h with
  | full => exact hf
  | slot hn hfree =>
    rw [hf _ hn] at hfree
    exact absurd hfree.symm Bool.noConfusion

/-- A slot that exists is where the write of its page goes. -/
theorem slotAt_drumOffset {s : State} {p : Pfn} (h : (s.pages p).drumslot < s.pagefile.totalSlots)
    (ht : s.pagefile.totalSlots ≤ 2 ^ 52) :
    slotAt s (drumOffset s p) = some (s.pages p).drumslot := by
  have ho : drumOffset s p = (s.pages p).drumslot * pgSize := by
    unfold drumOffset
    apply Nat.mod_eq_of_lt
    simp only [pgSize]
    omega
  rw [slotAt, ho, Nat.mul_mod_left, Nat.mul_div_cancel _ (by decide : 0 < pgSize), if_pos ⟨rfl, h⟩]

/-- The page that the page writer is about to write has a slot, unless there is none left. -/
theorem Sys.Good.slotAt_pending {x : Sys} (hx : x.Good g) (h : PageOuts x g) {p : Pfn}
    (hp : x.pending = some p) (hs : ¬ x.vm.core.Slotless p) :
    slotAt x.vm (drumOffset x.vm p) = some (x.vm.pages p).drumslot := by
  obtain ⟨hu, hl, hslot⟩ := h.saved.pending p hp
  rcases h.slots.taken (.frame p) _ ⟨hu, hl, rfl⟩ with hno | ⟨hlt, -⟩
  · exact absurd hno (hslot.resolve_right hs)
  · exact slotAt_drumOffset hlt hx.good.inv.slots.total

theorem pageOuts_layer (K : Guard) : Layer K PageOuts where
  boot c s hs := by
    refine ⟨?_, (slotsOwned_layer K).boot c s hs, ?_, ?_, ?_⟩
    · change s.pagefile.Counted
      rw [hs.pagefile]
      exact initVmpPagefile_counted c.pagefileLength_lt
    · intro p hp
      exact absurd ((hs.unsaved p).symm.trans hp) Bool.noConfusion
    · intro p hp
      exact absurd hp (Option.some_ne_none p).symm
    · intro p hp
      exact absurd hp (Option.some_ne_none p).symm
  turn x g x' g' hx h ht hx' := by
    have hslots := (slotsOwned_layer K).turn x g x' g' hx h.slots ht hx'
    have hnone : ∀ p, g'.loose ≠ some p := by
      intro p
      rw [hx'.settled.loose]
      exact (Option.some_ne_none p).symm
    cases ht with
    | moves F hF hm hp =>
      refine ⟨?_, hslots, ?_⟩
      · have hpf : x'.vm.pagefile = x.vm.pagefile := hm.pagefile
        rw [hpf]
        exact h.counted
      · rw [hp]
        refine h.saved.moves hx.good.inv hm ?_
        intro d p hsteal hpd
        have := x.heldBy_pending hpd
        have := hsteal.2
        omega
    | pick p offset hv hg h₀ hp =>
      obtain ⟨slot, pf, -, hcore, hslot⟩ := hv.core
      have hpf : x'.vm.pagefile = pf := congrArg Core.pagefile hcore
      have hexact : pf = x.vm.pagefile ∧ slot ≠ noSlot ∨ AllocExact x.vm.pagefile (slot, pf) := by
        rcases hslot with ⟨hd, rfl, rfl⟩ | ⟨-, hok, -⟩
        · exact .inl ⟨rfl, hd⟩
        · exact .inr ((wp_pagefileAlloc h.counted).of_ok hok)
      have hfull : x.vm.pagefile.Full → pf.Full := by
        rcases hslot with ⟨-, -, rfl⟩ | ⟨-, -, ha⟩
        · exact id
        · exact ha.full_kept
      have hkept : ∀ q, x.vm.core.use q = .anonPrivate → q ≠ p → Kept x.vm.core x'.vm.core q := by
        intro q hq hqp
        rw [hcore]
        exact .of_ne hq hqp (by rfl) rfl rfl
      have huse : x'.vm.core.use p = .anonPrivate := by
        rw [hcore]
        exact (Core.setPage_use_of (by rfl) p).trans hv.use
      refine ⟨?_, hslots, ?_, ?_, ?_⟩
      · rw [hpf]
        rcases hexact with ⟨rfl, -⟩ | ha
        · exact h.counted
        · exact ha.counted
      · intro q hun _
        by_cases hqp : q = p
        · rw [hqp]
          exact ⟨huse, .inr (.inr (.inl hp))⟩
        · rw [hcore] at hun
          obtain ⟨hu, hcov⟩ := h.saved.covered q hun (by
            rw [hx.settled.loose]
            exact (Option.some_ne_none q).symm)
          have hk := hkept q hu hqp
          refine ⟨hk.use, ?_⟩
          rcases hcov with hd | hw | hpd | hs
          · exact .inl (hk.dirty hd)
          · rcases hk.writeable hw with hw | hd
            · exact .inr (.inl hw)
            · exact .inl hd
          · exact absurd (h₀.symm.trans hpd).symm (Option.some_ne_none q)
          · refine .inr (.inr (.inr ⟨hk.drumslot.trans hs.1, ?_⟩))
            change x'.vm.pagefile.Full
            rw [hpf]
            exact hfull hs.2
      · intro q hq
        exact absurd hq (hnone q)
      · intro q hq
        obtain rfl : p = q := Option.some.inj (hp.symm.trans hq)
        refine ⟨huse, hnone p, ?_⟩
        have hd : (x'.vm.core.pages p).drumslot = slot := by
          rw [hcore]
          change ((x.vm.core.setPage p _).pages p).drumslot = slot
          rw [Core.setPage_pages, if_pos rfl]
        by_cases hno : slot = noSlot
        · refine .inr ⟨hd.trans hno, ?_⟩
          rcases hexact with ⟨-, hne⟩ | ha
          · exact absurd hno hne
          · change x'.vm.pagefile.Full
            rw [hpf]
            exact hfull (ha.full.1 hno)
        · left
          rw [hd]
          exact hno
    | send p hv hg h₀ hp =>
      have hcore := pwritePage_core x.vm p (drumOffset x.vm p)
      rw [← hv] at hcore
      have hpend : ∀ q, x'.pending = some q → x.pending = some q := by
        intro q hq
        exact absurd (hp.symm.trans hq).symm (Option.some_ne_none q)
      cases hat : slotAt x.vm (drumOffset x.vm p) with
      | some slot =>
        rw [hat] at hcore
        refine ⟨?_, hslots, ?_⟩
        · rw [show x'.vm.pagefile = x.vm.pagefile from congrArg Core.pagefile hcore]
          exact h.counted
        · rw [hcore]
          refine h.saved.congr ?_ (fun q hq => .of_eq hq rfl rfl) hx.settled.loose
            hx'.settled.loose rfl ?_ hpend
          · intro q hq
            change Function.update x.vm.unsaved p false q = true at hq
            by_cases hqp : q = p
            · rw [hqp, Function.update_self] at hq
              exact absurd hq Bool.noConfusion
            · rwa [Function.update_of_ne hqp] at hq
          · intro q hq hun
            obtain rfl : p = q := Option.some.inj (h₀.symm.trans hq)
            change Function.update x.vm.unsaved p false p = true at hun
            rw [Function.update_self] at hun
            exact absurd hun Bool.noConfusion
      | none =>
        rw [hat] at hcore
        refine ⟨?_, hslots, ?_⟩
        · rw [show x'.vm.pagefile = x.vm.pagefile from congrArg Core.pagefile hcore]
          exact h.counted
        · rw [hcore]
          refine h.saved.congr (fun _ => id) (fun q hq => .of_eq hq rfl rfl) hx.settled.loose
            hx'.settled.loose rfl ?_ hpend
          intro q hq _
          obtain rfl : p = q := Option.some.inj (h₀.symm.trans hq)
          right
          by_contra hs
          exact absurd ((hx.slotAt_pending h h₀ hs).symm.trans hat) (Option.some_ne_none _)
    | read k sw hk hw hv hg hp =>
      have hu := hx.swapIn_use (List.mem_of_getElem? hk)
      have hcore := preadPage_core x.vm sw.page (drumOffset x.vm sw.page)
      rw [← hv] at hcore
      have hkept : (∀ q, x.vm.core.use q = .anonPrivate → Kept x.vm.core x'.vm.core q) ∧
          x'.vm.core.unsaved = x.vm.core.unsaved ∧
            x'.vm.core.pagefile = x.vm.core.pagefile := by
        rw [hcore]
        split
        · exact ⟨fun q hq => .of_setWords hq hu _, rfl, rfl⟩
        · exact ⟨fun q hq => .of_eq hq rfl rfl, rfl, rfl⟩
      obtain ⟨hkept, hun, hpf⟩ := hkept
      refine ⟨?_, hslots, ?_⟩
      · rw [show x'.vm.pagefile = x.vm.pagefile from hpf]
        exact h.counted
      · rw [hp]
        refine h.saved.congr ?_ hkept hx.settled.loose hx'.settled.loose hpf
          (fun q hq _ => .inl hq) (fun _ => id)
        intro q hq
        rwa [hun] at hq
    | store vaddr data hv hg hp =>
      obtain ⟨ptr, p, hw, he, hcore⟩ := hv.vm
      have hl := hx.good.inv.dirs.level_of_walks hw
      obtain ⟨q, hq, hu, -⟩ := hx.good.inv.leaves.frame ptr p.val hl (by rw [he]; rfl)
      obtain rfl : p = q := Fin.ext hq
      have hsame : Saved x.pending (x.vm.core.setWords p data) g' :=
        h.saved.congr (fun _ => id) (fun q hq => .of_setWords hq hu data) hx.settled.loose
          hx'.settled.loose rfl (fun q hq _ => .inl hq) (fun _ => id)
      refine ⟨?_, hslots, ?_⟩
      · rw [show x'.vm.pagefile = x.vm.pagefile from congrArg Core.pagefile hcore]
        exact h.counted
      · rw [hp, hcore]
        refine ⟨?_, fun q hq => absurd hq (hnone q), hsame.pending⟩
        intro q hun hlq
        change Function.update x.vm.unsaved p true q = true at hun
        by_cases hqp : q = p
        · rw [hqp]
          refine ⟨hu, .inr (.inl ⟨ptr, hl, ?_⟩)⟩
          refine (Core.setWords_entry_ne x.vm.core p ptr data ?_).trans he
          rintro rfl
          exact Inv.not_anon_of_level hl.ge hu
        · rw [Function.update_of_ne hqp] at hun
          exact hsame.covered q hun hlq

/-! ## The simulator -/

/-- The stores that are not in the pagefile yet. -/
structure StoresSaved (x : Sys) : Prop where
  /-- A page with such a store is dirty, or can still be written, or is about to be written to the
  pagefile; or it has no slot, and there is none left. -/
  covered : ∀ p, x.vm.unsaved p = true → (x.vm.pages p).use = .anonPrivate ∧
    ((x.vm.pages p).dirty = true ∨
      (∃ ptr, x.vm.IsLeaf ptr ∧ x.vm.entry ptr = .valid p.val true) ∨
      x.pending = some p ∨
      (x.vm.pages p).drumslot = noSlot ∧ x.vm.pagefile.Full)
  /-- The pages that may be stolen have none, as long as there are slots. -/
  standby : ∀ p ∈ x.vm.standbyPgq, x.vm.unsaved p = true →
    (x.vm.pages p).drumslot = noSlot ∧ x.vm.pagefile.Full

/-- **No store is lost** before the pagefile is full, however stores, faults, evictions and the steps
of the page writer follow each other. -/
theorem stores_saved {x : Sys} (h : Reachable x) : StoresSaved x := by
  obtain ⟨x₀, hb, hr⟩ := h
  obtain ⟨y, g, rfl, hy, hs⟩ := exists_standing Terms.any_grant (pageOuts_layer Guard.any) hb
    (hr.mono fun op a _ => op.meets_any a)
  have hloose : ∀ p, g.loose ≠ some p := by
    intro p
    rw [hy.settled.loose]
    exact (Option.some_ne_none p).symm
  refine ⟨?_, ?_⟩
  · intro p hun
    obtain ⟨hu, hcov⟩ := hs.saved.covered p hun (hloose p)
    refine ⟨hu, ?_⟩
    rcases hcov with hd | ⟨ptr, hl, he⟩ | hpd | hsl
    · exact .inl hd
    · exact .inr (.inl ⟨ptr, (Sys.narrow_isLeaf ptr).2 hl, he⟩)
    · exact .inr (.inr (.inl hpd))
    · exact .inr (.inr (.inr hsl))
  · intro p hp hun
    obtain ⟨-, h0, hu, hclean⟩ := (hy.good.queues.mem_standby p).1 hp
    obtain ⟨-, hcov⟩ := hs.saved.covered p hun (hloose p)
    rcases hcov with hd | ⟨ptr, hl, he⟩ | hpd | hsl
    · exact absurd (hclean.symm.trans hd) Bool.noConfusion
    · have := hy.good.inv.frames.valid ptr p true hl he
      change (y.vm.pages p).refcnt = _ at this
      omega
    · have hheld := y.heldBy_pending hpd
      have hle := hy.good.inv.held_le hu (hloose p)
      rw [hy.held] at hle
      change y.heldBy p ≤ (y.vm.pages p).refcnt at hle
      omega
    · exact hsl

/-- A page is written to the pagefile, and stored to while its write is under way. -/
def storeDuringWrite : List Op :=
  faultOn 0 true ++ [.store 0 1, .trim, .pgwriter] ++ faultOn 0 true ++ faultOn 0 true ++
    [.store 0 2, .pgwriter]

theorem stores_saved_duringWrite :
    ∃ x, simulate mainConfig storeDuringWrite = .ok x ∧ StoresSaved x := by
  obtain ⟨x, hx⟩ := exists_of_returns (r := simulate mainConfig storeDuringWrite) (by decide +kernel)
  exact ⟨x, hx, stores_saved (reachable_of_simulate hx)⟩

end VmmSim
