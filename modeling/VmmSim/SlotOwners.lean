import VmmSim.TrimFifo

/-!
# The owners of pagefile slots

A slot that `vmp_pagefile_alloc` hands out belongs to the page of data that the page writer gave it
to, until the page is stolen; then it belongs to the swap entry that takes the page's place. No move
makes an owner out of nothing (`Move.owns`), so that a slot never has two (`slots_exclusive`),
whatever becomes of the page it came with.
-/

namespace VmmSim

open Lib

variable {K : Guard} {c c' : Core} {g g' : Ledger}

/-- What a slot of the pagefile can belong to. -/
inductive SlotOwner
  | frame (p : Pfn)
  | swapped (ptr : PtePtr)
  deriving DecidableEq

/-- The slot number that stands for no slot: a swap entry has 61 bits for it. -/
def SlotOwner.noSlot : SlotOwner → ℕ
  | frame _ => VmmSim.noSlot
  | swapped _ => VmmSim.noSlot % 2 ^ 61

/-- The slot number that a page of data in the tables, or a swap entry, has. -/
def Core.Owns (c : Core) (g : Ledger) (n : ℕ) : SlotOwner → Prop
  | .frame p => c.use p = .anonPrivate ∧ g.loose ≠ some p ∧ (c.pages p).drumslot = n
  | .swapped ptr => c.level ptr.1 = 1 ∧ c.entry ptr = .swap n

/-- Slots are taken, and have one owner. -/
structure SlotsOwned (c : Core) (g : Ledger) : Prop where
  taken : ∀ o n, c.Owns g n o → n = o.noSlot ∨
    n < c.pagefile.totalSlots ∧ c.pagefile.taken n = true
  once : ∀ o o' n, c.Owns g n o → c.Owns g n o' → n < 2 ^ 52 → o = o'

theorem SlotOwner.noSlot_ge (o : SlotOwner) : 2 ^ 52 ≤ o.noSlot := by
  cases o <;> norm_num [SlotOwner.noSlot]

/-! ## Where owners come from -/

/-- Owners of before, where no page joins the tables and no entry becomes a swap entry. -/
theorem Core.Owns.of_kept {n : ℕ} {o : SlotOwner} (h : c'.Owns g' n o)
    (hf : ∀ p, c'.use p = .anonPrivate → g'.loose ≠ some p → (c'.pages p).drumslot = n →
      c.use p = .anonPrivate ∧ g.loose ≠ some p ∧ (c.pages p).drumslot = n)
    (he : ∀ ptr : PtePtr, c'.level ptr.1 = 1 → c'.entry ptr = .swap n →
      c.level ptr.1 = 1 ∧ c.entry ptr = .swap n) : c.Owns g n o := by
  cases o with
  | frame p => exact hf p h.1 h.2.1 h.2.2
  | swapped ptr => exact he ptr h.1 h.2

/-- An assignment to a page that keeps its use and its slot. -/
theorem Core.Owns.of_setPage {n : ℕ} {o : SlotOwner} (p : Pfn) (pg : VmPage)
    (hu : pg.use = c.use p) (hd : pg.drumslot = (c.pages p).drumslot) (hl : g'.loose = g.loose)
    (h : (c.setPage p pg).Owns g' n o) : c.Owns g n o := by
  apply h.of_kept
  · intro q hq hlq hdq
    rw [Core.setPage_use_of hu] at hq
    rw [hl] at hlq
    refine ⟨hq, hlq, ?_⟩
    rw [Core.setPage_pages] at hdq
    split at hdq
    · rw [‹q = p›, ← hd]
      exact hdq
    · exact hdq
  · intro ptr hlv he
    exact ⟨by rwa [Core.setPage_level_of hu] at hlv, he⟩

/-- An assignment to an entry that makes no swap entry. -/
theorem Core.Owns.of_setWord {n : ℕ} {o : SlotOwner} (ptr : PtePtr) (w : Word)
    (hw : view w ≠ .swap n) (hl : g'.loose = g.loose) (h : (c.setWord ptr w).Owns g' n o) :
    c.Owns g n o := by
  apply h.of_kept
  · intro q hq hlq hdq
    rw [hl] at hlq
    exact ⟨hq, hlq, hdq⟩
  · intro r hlv he
    refine ⟨hlv, ?_⟩
    rw [Core.setWord_entry] at he
    split at he
    · exact absurd he hw
    · exact he

/-- A page that joins the tables was just handed out, and has no slot. -/
theorem Inv.loose_drumslot (hi : Inv c g) {p : Pfn} (hp : g.loose = some p)
    (hu : c.use p = .anonPrivate) (h0 : 0 < (c.pages p).refcnt) :
    (c.pages p).drumslot = VmmSim.noSlot :=
  (hi.slots.loose p hp hu).resolve_left (by omega)

/-- A page without a slot joins the tables. -/
theorem Core.Owns.of_joined {n : ℕ} {o : SlotOwner} {p : Pfn}
    (hd : (c.pages p).drumslot = VmmSim.noSlot) (hp : g.loose = some p)
    (h : c.Owns { g with loose := none } n o) : c.Owns g n o ∨ n = o.noSlot := by
  cases o with
  | frame q =>
    obtain ⟨hq, -, hdq⟩ := h
    by_cases hqp : q = p
    · right
      rw [← hdq, hqp, hd]
      rfl
    · left
      refine ⟨hq, ?_, hdq⟩
      rw [hp]
      exact fun e => hqp (Option.some.inj e).symm
  | swapped ptr => exact .inl h

/-- The slot of a page that is being stolen goes to the swap entry that takes its place. -/
structure Passes (K : Guard) (c : Core) (g g' : Ledger) (n : ℕ) (ptr : PtePtr) (p : Pfn) :
    Prop where
  loose : g'.loose = some p
  referent : (c.pages p).referentPte = ptePaddr ptr
  slot : n < 2 ^ 52
  owner : c.Owns g n (.frame p)
  trans : c.entry ptr = .trans p.val
  unreferenced : (c.pages p).refcnt = 0 ∧ (c.pages p).dirty = false
  steal : K.steal c p

/-- **Where owners come from**: an owner of a slot after a move had it before, or is the swap entry
of the page that had it. -/
theorem Move.owns (hi : Inv c g) (hm : Move K c g c' g') {n : ℕ} {o : SlotOwner}
    (h : c'.Owns g' n o) :
    (c.Owns g n o ∨ n = o.noSlot) ∨ ∃ ptr p, o = .swapped ptr ∧ Passes K c g g' n ptr p := by
  cases hm with
  | bump t isNew =>
    refine .inl (.inl (h.of_setPage t _ ?_ ?_ rfl))
    · exact VmPage.bump_use isNew (c.pages t)
    · exact VmPage.bump_drumslot isNew (c.pages t)
  | drop t =>
    refine .inl (.inl (h.of_setPage t _ ?_ ?_ rfl))
    · exact VmPage.drop_use (c.pages t)
    · exact VmPage.drop_drumslot (c.pages t)
  | decNonzero t => refine .inl (.inl (h.of_setPage t _ ?_ ?_ rfl)) <;> rfl
  | evict e q ptr p =>
    refine .inl (.inl (h.of_setWord ptr (vmpPteTransCreate p.val) ?_ rfl))
    rw [view_transCreate_pfn]
    exact Pte.noConfusion
  | enterLeaf => exact .inl (.inl h)
  | enterTable => exact .inl (.inl h)
  | mapZero ptr p wr =>
    refine .inl (.inl (h.of_setWord ptr (vmpPteHwCreate p.val wr) ?_ rfl))
    rw [view_hwCreate_pfn]
    exact Pte.noConfusion
  | setReferent ptr p wr hl he hp =>
    have hu : c.use p = .anonPrivate := by
      obtain ⟨q, hq, hu, -⟩ := hi.leaves.frame ptr p.val hl (by rw [he]; rfl)
      rwa [Fin.ext hq]
    have hrc := hi.frames.valid ptr p wr hl he
    have hd := hi.loose_drumslot hp hu (by omega)
    refine .inl (Core.Owns.of_joined hd hp ?_)
    refine h.of_setPage p _ ?_ ?_ rfl <;> rfl
  | mapSoft ptr p =>
    refine .inl (.inl (h.of_setWord ptr (vmpPteHwCreate p.val false) ?_ rfl))
    rw [view_hwCreate_pfn]
    exact Pte.noConfusion
  | mapBusy ptr p state slot vaddr hl hw he hp hu hr ha hh =>
    have hrc := hi.frames.loose p hp hu hr
    have hd := hi.loose_drumslot hp hu (by omega)
    refine .inl (Core.Owns.of_joined hd hp ?_)
    have hset : (c.setReferent p ptr).Owns { g with loose := none } n o := by
      refine h.of_setWord ptr (vmpPteBusyCreate state) ?_ rfl
      obtain ⟨a, hb⟩ := view_busyCreate_busy state
      rw [hb]
      exact Pte.noConfusion
    refine hset.of_setPage p _ ?_ ?_ rfl <;> rfl
  | writeable ptr p wr hl he =>
    refine .inl (.inl (h.of_setWord ptr _ ?_ rfl))
    rw [view_hwSetWriteable (by exact he)]
    exact Pte.noConfusion
  | finish r =>
    refine .inl (.inl (h.of_setWord r.pte (vmpPteHwCreate r.page.val false) ?_ rfl))
    rw [view_hwCreate_pfn]
    exact Pte.noConfusion
  | unmap ptr p hl he h0 hd hp hk =>
    obtain ⟨q, hq, hu, howner⟩ := hi.leaves.frame ptr p.val hl (by rw [he]; rfl)
    obtain rfl : p = q := Fin.ext hq
    obtain ⟨hr, hlp⟩ := howner.resolve_right fun e => by
      rw [hp] at e
      exact Option.some_ne_none _ e.2.symm
    cases o with
    | frame q => exact .inl (.inl ⟨h.1, by rw [hp]; exact (Option.some_ne_none _).symm, h.2.2⟩)
    | swapped r =>
      obtain ⟨hlr, her⟩ := h
      rw [Core.setWord_entry] at her
      split at her
      · rename_i hrp
        subst hrp
        have hmod : (c.pages p).drumslot % 2 ^ 61 = n := by
          rw [view_swapCreate] at her
          split at her
          · cases her
          · exact Pte.swap.inj her
        rcases hi.slots.range p hu with hlt | hno
        · exact .inr ⟨r, p, rfl, rfl, hr, by omega, ⟨hu, hlp, by omega⟩, he, ⟨h0, hd⟩, hk⟩
        · rw [hno] at hmod
          exact .inl (.inr hmod.symm)
      · exact .inl (.inl ⟨hlr, her⟩)
  | pick p hu hp =>
    refine .inl (.inl (h.of_kept ?_ fun ptr hl he => ⟨hl, he⟩))
    intro q hq hlq hdq
    exact ⟨hq, by rw [hp]; exact (Option.some_ne_none _).symm, hdq⟩
  | handOut p use hu h0 hp =>
    have hfree : ∀ q, q ≠ p → g.loose ≠ some q := fun q hq e =>
      hq (Option.some.inj (e.symm.trans hp))
    left
    cases o with
    | frame q =>
      obtain ⟨hq, -, hdq⟩ := h
      change ((c.setPage p (VmPage.handedOut use)).pages q).drumslot = n at hdq
      change (c.setPage p (VmPage.handedOut use)).use q = .anonPrivate at hq
      rw [Core.setPage_pages] at hdq
      rw [Core.setPage_use] at hq
      split at hdq
      · exact .inr hdq.symm
      · rename_i hqp
        rw [if_neg hqp] at hq
        exact .inl ⟨hq, hfree q hqp, hdq⟩
    | swapped ptr =>
      obtain ⟨hl, he⟩ := h
      change view ((Function.update c.mem p 0) ptr.1 ptr.2) = .swap n at he
      change (c.setPage p (VmPage.handedOut use)).level ptr.1 = 1 at hl
      rw [Core.setPage_level] at hl
      by_cases hptr : ptr.1 = p
      · rw [hptr, Function.update_self] at he
        exact absurd (view_zero.symm.trans he) Pte.noConfusion
      · rw [Function.update_of_ne hptr] at he
        rw [if_neg hptr] at hl
        exact .inl ⟨hl, he⟩
  | initTable p ptr =>
    refine .inl (.inl (h.of_setPage p _ ?_ ?_ rfl))
    · exact VmPage.bump_use true (c.pages p)
    · exact VmPage.bump_drumslot true (c.pages p)
  | attach ptr p hl hd he hp =>
    refine .inl (.inl (h.of_kept ?_ ?_))
    · intro q hq _ hdq
      refine ⟨hq, ?_, hdq⟩
      intro hlq
      obtain rfl : p = q := Option.some.inj (hp.symm.trans hlq)
      exact Inv.not_anon_of_level hl hq
    · intro r hlr her
      refine ⟨hlr, ?_⟩
      rw [Core.setWord_entry, view_hwCreate_pfn] at her
      split at her
      · cases her
      · exact her
  | delete t ptr hl h₃ hg =>
    refine .inl (.inl (h.of_kept ?_ ?_))
    · intro q hq hlq hdq
      change (c.setPage t _).use q = .anonPrivate at hq
      change ((c.setPage t _).pages q).drumslot = n at hdq
      rw [Core.setPage_use] at hq
      rw [Core.setPage_pages] at hdq
      split at hq
      · cases hq
      · rename_i hqt
        rw [if_neg hqt] at hdq
        exact ⟨hq, hlq, hdq⟩
    · intro r hlr her
      change (c.setPage t _).level r.1 = 1 at hlr
      change ((c.setPage t _).setWord ptr vmpPteZeroCreate).entry r = .swap n at her
      rw [Core.setPage_level] at hlr
      rw [Core.setWord_entry] at her
      split at hlr
      · cases hlr
      · split at her
        · exact absurd (view_zero.symm.trans her) Pte.noConfusion
        · exact ⟨hlr, her⟩
  | free t hu =>
    refine .inl (.inl (h.of_kept ?_ ?_))
    · intro q hq hlq hdq
      rw [Core.setPage_use] at hq
      rw [Core.setPage_pages] at hdq
      split at hq
      · cases hq
      · rename_i hqt
        rw [if_neg hqt] at hdq
        exact ⟨hq, hlq, hdq⟩
    · intro r hlr her
      rw [Core.setPage_level] at hlr
      split at hlr
      · cases hlr
      · exact ⟨hlr, her⟩
  | hold p => refine .inl (.inl (h.of_setPage p _ ?_ ?_ rfl)) <;> rfl
  | unhold p => refine .inl (.inl (h.of_setPage p _ ?_ ?_ rfl)) <;> rfl
  | markDirty p b => refine .inl (.inl (h.of_setPage p _ ?_ ?_ rfl)) <;> rfl

/-! ## One owner a slot -/

theorem SlotsOwned.move (h : SlotsOwned c g) (hi : Inv c g) (hm : Move K c g c' g') :
    SlotsOwned c' g' := by
  have hpf := hm.pagefile
  have hge : ∀ (o : SlotOwner) (n : ℕ), n < 2 ^ 52 → n ≠ o.noSlot := by
    rintro o n hn rfl
    exact absurd hn (not_lt.2 o.noSlot_ge)
  refine ⟨?_, ?_⟩
  · intro o n ho
    rw [hpf]
    rcases hm.owns hi ho with (hold | hno) | ⟨ptr, p, rfl, hpass⟩
    · exact h.taken o n hold
    · exact .inl hno
    · exact .inr ((h.taken _ n hpass.owner).resolve_left (hge _ n hpass.slot))
  · intro o o' n ho ho' hn
    -- the page of a swap entry that just got its slot is loose, and owns nothing any more
    have hpassed : ∀ {ptr : PtePtr} {p : Pfn} {o : SlotOwner}, c'.Owns g' n o → c.Owns g n o →
        ¬ Passes K c g g' n ptr p := by
      intro ptr p o ho hold hpass
      obtain rfl := h.once _ _ n hold hpass.owner hn
      exact ho.2.1 hpass.loose
    rcases hm.owns hi ho with (hold | hno) | ⟨ptr, p, rfl, hpass⟩
    · rcases hm.owns hi ho' with (hold' | hno') | ⟨ptr', p', rfl, hpass'⟩
      · exact h.once o o' n hold hold' hn
      · exact absurd hno' (hge o' n hn)
      · exact absurd hpass' (hpassed ho hold)
    · exact absurd hno (hge o n hn)
    · rcases hm.owns hi ho' with (hold' | hno') | ⟨ptr', p', rfl, hpass'⟩
      · exact absurd hpass (hpassed ho' hold')
      · exact absurd hno' (hge o' n hn)
      · obtain rfl : p = p' := Option.some.inj (hpass.loose.symm.trans hpass'.loose)
        rw [ptePaddr_injective (hpass.referent.symm.trans hpass'.referent)]

theorem SlotsOwned.moves (h : SlotsOwned c g) (hi : Inv c g) (hm : Moves K c g c' g') :
    SlotsOwned c' g' :=
  (hm.invariant (P := fun d e => Inv d e ∧ SlotsOwned d e) ⟨hi, h⟩ fun _ _ _ _ hp hm =>
    ⟨hp.1.move hm, hp.2.move hp.1 hm⟩).2

/-- Changes of what is no page's slot and no entry. -/
theorem SlotsOwned.congr (h : SlotsOwned c g) (hu : ∀ p, c'.use p = c.use p)
    (hd : ∀ p, (c'.pages p).drumslot = (c.pages p).drumslot)
    (he : ∀ ptr : PtePtr, c.level ptr.1 = 1 → c'.entry ptr = c.entry ptr)
    (hl : g'.loose = g.loose) (hpf : c'.pagefile = c.pagefile) : SlotsOwned c' g' := by
  have howns : ∀ o n, c'.Owns g' n o → c.Owns g n o := by
    intro o n ho
    refine ho.of_kept ?_ ?_
    · intro p hp hlp hdp
      rw [hu] at hp
      rw [hl] at hlp
      rw [hd] at hdp
      exact ⟨hp, hlp, hdp⟩
    · intro ptr hlv hen
      have hlv' : c.level ptr.1 = 1 := by rwa [Core.level, ← hu]
      rw [he ptr hlv'] at hen
      exact ⟨hlv', hen⟩
  refine ⟨?_, ?_⟩
  · intro o n ho
    rw [hpf]
    exact h.taken o n (howns o n ho)
  · intro o o' n ho ho'
    exact h.once o o' n (howns o n ho) (howns o' n ho')

/-- The page writer gives a slot that was free to a page that had none. -/
theorem SlotsOwned.assign (h : SlotsOwned c g) {p : Pfn} {pg : VmPage} {pf : Pagefile}
    (hpu : pg.use = c.use p)
    (hs : pg.drumslot = (c.pages p).drumslot ∧ pf = c.pagefile ∨
      SlotAlloc c.pagefile pg.drumslot pf)
    (hl : g'.loose = g.loose) : SlotsOwned { c.setPage p pg with pagefile := pf } g' := by
  have howns : ∀ o n, ({ c.setPage p pg with pagefile := pf } : Core).Owns g' n o →
      o = .frame p ∧ n = pg.drumslot ∨ o ≠ .frame p ∧ c.Owns g n o := by
    intro o n ho
    cases o with
    | frame q =>
      obtain ⟨hq, hlq, hdq⟩ := ho
      change (c.setPage p pg).use q = .anonPrivate at hq
      change ((c.setPage p pg).pages q).drumslot = n at hdq
      rw [Core.setPage_use_of hpu] at hq
      rw [hl] at hlq
      rw [Core.setPage_pages] at hdq
      split at hdq
      · rename_i hqp
        subst hqp
        exact .inl ⟨rfl, hdq.symm⟩
      · rename_i hqp
        refine .inr ⟨?_, hq, hlq, hdq⟩
        intro e
        exact hqp (SlotOwner.frame.inj e)
    | swapped ptr =>
      obtain ⟨hlv, he⟩ := ho
      change (c.setPage p pg).level ptr.1 = 1 at hlv
      rw [Core.setPage_level_of hpu] at hlv
      exact .inr ⟨SlotOwner.noConfusion, hlv, he⟩
  rcases hs with ⟨hd, rfl⟩ | hs
  · refine h.congr (Core.setPage_use_of hpu) ?_ (fun _ _ => rfl) hl rfl
    intro q
    change ((c.setPage p pg).pages q).drumslot = (c.pages q).drumslot
    rw [Core.setPage_pages]
    split
    · rw [hd, ‹q = p›]
    · rfl
  · generalize pg.drumslot = slot at hs howns
    cases hs with
    | full =>
      refine ⟨?_, ?_⟩
      · intro o n ho
        rcases howns o n ho with ⟨rfl, rfl⟩ | ⟨-, hold⟩
        · exact .inl rfl
        · exact h.taken o n hold
      · intro o o' n ho ho' hn
        rcases howns o n ho with ⟨-, rfl⟩ | ⟨-, hold⟩
        · exact absurd hn (by decide)
        · rcases howns o' n ho' with ⟨-, rfl⟩ | ⟨-, hold'⟩
          · exact absurd hn (by decide)
          · exact h.once o o' n hold hold' hn
    | slot hlt hfree htotal _ htaken =>
      have hnew : ∀ {o n}, c.Owns g n o → n < 2 ^ 52 → n ≠ slot := by
        rintro o n hold hn rfl
        rcases h.taken o n hold with hno | ⟨-, hbit⟩
        · exact absurd hn (not_lt.2 (hno ▸ o.noSlot_ge))
        · rw [hbit] at hfree
          cases hfree
      refine ⟨?_, ?_⟩
      · intro o n ho
        change n = o.noSlot ∨ n < pf.totalSlots ∧ pf.taken n = true
        rw [htotal, htaken]
        rcases howns o n ho with ⟨rfl, rfl⟩ | ⟨-, hold⟩
        · exact .inr ⟨hlt, by simp⟩
        · rcases h.taken o n hold with hno | ⟨hn, hbit⟩
          · exact .inl hno
          · exact .inr ⟨hn, by rw [hbit, Bool.true_or]⟩
      · intro o o' n ho ho' hn
        rcases howns o n ho with ⟨rfl, rfl⟩ | ⟨-, hold⟩
        · rcases howns o' n ho' with ⟨rfl, -⟩ | ⟨-, hold'⟩
          · rfl
          · exact absurd rfl (hnew hold' hn)
        · rcases howns o' n ho' with ⟨-, rfl⟩ | ⟨-, hold'⟩
          · exact absurd rfl (hnew hold hn)
          · exact h.once o o' n hold hold' hn

/-! ## Every reachable state -/

theorem Sys.Good.swapping_mem {x : Sys} (h : x.Good g) {sw : SwapIn} (hs : sw ∈ x.swapIns) :
    sw.swapping ∈ g.busy := by
  rw [h.busy]
  exact List.mem_map_of_mem hs

theorem preadPage_core (s : State) (p : Pfn) (offset : ℕ) :
    (preadPage s p offset).core = match slotAt s offset with
      | some slot => s.core.setWords p (s.drum slot)
      | none => s.core := by
  unfold preadPage
  cases slotAt s offset <;> rfl

/-- A page that is being read is a page of data. -/
theorem Sys.Good.swapIn_use {x : Sys} (h : x.Good g) {sw : SwapIn} (hs : sw ∈ x.swapIns) :
    x.vm.core.use sw.page = .anonPrivate :=
  (h.good.inv.leaves.busy_back _ (h.swapping_mem hs)).2.2.1


theorem slotsOwned_layer (K : Guard) : Layer K fun x g => SlotsOwned x.vm.core g where
  boot c s hs := by
    have hnone : ∀ o n, ¬ s.core.Owns Ledger.zero n o := by
      intro o n ho
      cases o with
      | frame p => exact (hs.use_ne p).1 ho.1
      | swapped ptr => exact absurd ((hs.entry ptr).symm.trans ho.2) Pte.noConfusion
    exact ⟨fun o n ho => absurd ho (hnone o n), fun o _ n ho => absurd ho (hnone o n)⟩
  turn x g x' g' hx h ht hx' := by
    have data : ∀ {p : Pfn}, x.vm.core.use p = .anonPrivate → ∀ ptr : PtePtr,
        x.vm.core.level ptr.1 = 1 → ptr.1 ≠ p := by
      intro p hu ptr hl e
      rw [e, x.vm.core.level_of_plain (.inr hu)] at hl
      cases hl
    cases ht with
    | moves F hF hm => exact h.moves hx.good.inv hm
    | pick p offset hv hg =>
      subst hg
      obtain ⟨slot, pf, -, hcore, hslot⟩ := hv.core
      rw [hcore]
      refine h.assign rfl ?_ rfl
      rcases hslot with ⟨-, hd, hpf⟩ | ⟨-, -, ha⟩
      · exact .inl ⟨hd, hpf⟩
      · exact .inr ha
    | send p hv hg =>
      subst hg
      rw [hv, pwritePage_core]
      split <;> exact h.congr (fun _ => rfl) (fun _ => rfl) (fun _ _ => rfl) rfl rfl
    | read k sw hk hw hv hg =>
      subst hg
      have hu := hx.swapIn_use (List.mem_of_getElem? hk)
      rw [hv, preadPage_core]
      split
      · exact h.congr (fun _ => rfl) (fun _ => rfl)
          (fun r hl => Core.setWords_entry_ne _ _ _ _ (data hu r hl)) rfl rfl
      · exact h
    | store vaddr data' hv hg =>
      subst hg
      obtain ⟨ptr, p, hw, he, hcore⟩ := hv.vm
      obtain ⟨q, hq, hu, -⟩ := hx.good.inv.leaves.frame ptr p.val
        (hx.good.inv.dirs.level_of_walks hw) (by rw [he]; rfl)
      obtain rfl : p = q := Fin.ext hq
      rw [hcore]
      exact h.congr (fun _ => rfl) (fun _ => rfl)
        (fun r hl => Core.setWords_entry_ne _ _ _ _ (data hu r hl)) rfl rfl

/-! ## The simulator -/

/-- The owners of a slot number, in the simulator's terms. -/
def State.Owns (s : State) (n : ℕ) : SlotOwner → Prop
  | .frame p => (s.pages p).use = .anonPrivate ∧ (s.pages p).drumslot = n
  | .swapped ptr => s.IsLeaf ptr ∧ s.entry ptr = .swap n

/-- The slots of the pagefile that pages of data and swap entries name. -/
structure SlotsExclusive (s : State) : Prop where
  /-- Who names a slot names one that exists and that was handed out. -/
  taken : ∀ o n, s.Owns n o → n = o.noSlot ∨
    n < s.pagefile.totalSlots ∧ s.pagefile.taken n = true
  /-- Nobody else names it. -/
  once : ∀ o o' n, s.Owns n o → s.Owns n o' → n ≠ o.noSlot → o = o'

theorem Sys.narrow_owns {y : Sys} {g : Ledger} (hg : g.Settled) {n : ℕ} {o : SlotOwner} :
    y.narrow.vm.Owns n o ↔ y.vm.core.Owns g n o := by
  cases o with
  | frame p =>
    refine and_congr_right fun _ => ⟨fun hd => ⟨?_, hd⟩, fun hd => hd.2⟩
    rw [hg.loose]
    exact (Option.some_ne_none _).symm
  | swapped ptr => exact and_congr (Sys.narrow_isLeaf ptr) Iff.rfl

/-- **No slot of the pagefile has two owners**, in any reachable state. -/
theorem slots_exclusive {x : Sys} (h : Reachable x) : SlotsExclusive x.vm := by
  obtain ⟨x₀, hb, hr⟩ := h
  obtain ⟨y, g, rfl, hy, hs⟩ := exists_standing Terms.any_grant (slotsOwned_layer Guard.any) hb
    (hr.mono fun op a _ => op.meets_any a)
  refine ⟨?_, ?_⟩
  · intro o n ho
    exact hs.taken o n ((Sys.narrow_owns hy.settled).1 ho)
  · intro o o' n ho ho' hne
    have hold := (Sys.narrow_owns hy.settled).1 ho
    refine hs.once o o' n hold ((Sys.narrow_owns hy.settled).1 ho') ?_
    exact ((hs.taken o n hold).resolve_left hne).1.trans_le hy.good.inv.slots.total

/-- Two pages that had slots were stolen. -/
theorem slots_exclusive_stolen : ∃ x, simulate mainConfig stealTwo = .ok x ∧ SlotsExclusive x.vm := by
  obtain ⟨x, hx⟩ := exists_of_returns (r := simulate mainConfig stealTwo) (by decide +kernel)
  exact ⟨x, hx, slots_exclusive (reachable_of_simulate hx)⟩

end VmmSim
