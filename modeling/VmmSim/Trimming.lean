import VmmSim.Stealing

/-!
# Evictions and insertions as moves

`wsl_trim_1` finds the page and the entry that its victim stands for, whatever the victim, and
evicts it by moves that map nothing (`wp_wslTrim1`). An insertion makes room in the same way and
adds the entry.
-/

namespace VmmSim

open Lib

variable {K : Guard} {skip : Option Pfn} {s s' : State} {g g' : Ledger}

/-- The loose table, if there is one, has no working set entry. -/
def Ledger.LooseFresh (g : Ledger) (c : Core) : Prop :=
  ∀ p, g.loose = some p → 1 ≤ c.level p → g.fresh = some p

/-- What making room in the working set leaves. -/
structure Trimmed (K : Guard) (s : State) (g : Ledger) (s' : State) : Prop where
  made : Made K.calm none s g s' g
  tree : ∀ e ∈ s'.wsl.tree, e ∈ s.wsl.tree
  absent : ∀ x, g.absent = some x → s'.core.entry x = s.core.entry x
  refcnt : ∀ q, (s'.pages q).refcnt ≤ (s.pages q).refcnt

theorem Trimmed.refl (h : Good none s g) : Trimmed K s g s :=
  ⟨.refl h, fun _ => id, fun _ _ => rfl, fun _ => le_rfl⟩

/-- The page table that a working set entry stands for. -/
theorem wsleTarget_table {s₀ : State} (h : Good none s₀ g) (hlf : g.LooseFresh s₀.core) {e : Wsle}
    (he : e ∈ s₀.wsl.tree) (ht : e.isPagetable = true) (hp : s.pages = s₀.pages)
    (hs : s.softPages = s₀.softPages) :
    ∃ (p : Pfn) (ptr : PtePtr), 1 ≤ s₀.core.level p ∧ wsleTarget s e = .ok (p, ptr) := by
  obtain ⟨p, hl, hl3, hf, rfl⟩ := h.inv.mirror.table e he ht
  obtain ⟨ptr, hr, -, -⟩ := h.inv.dirs.dir_back p hl hl3 fun hlo => hf (hlf p hlo hl)
  have hpage : vmpPaddrToPage (s.v2p (s₀.core.tableWsle p).vaddr) = .ok p := by
    have : s.v2p (s₀.core.tableWsle p).vaddr = p.val * pgSize := by
      simp only [State.v2p, Core.tableWsle, vmpPagePaddr, hs, State.core]
      omega
    rw [this, vmpPaddrToPage_mul]
  have hr' : (s.pages p).referentPte = ptePaddr ptr := by
    rw [hp]
    exact hr
  refine ⟨p, ptr, hl, ?_⟩
  simp only [wsleTarget, ht, if_true, hpage, ok_bind, hr', pteAt_ptePaddr]
  rfl

/-- The page of data that a working set entry on the queue stands for. -/
theorem wsleTarget_leaf {s₀ : State} (h : Good none s₀ g) {e : Wsle} (he : e ∈ s₀.wsl.tree)
    (hq : e ∈ s₀.wsl.queue) (ht : e.isPagetable = false) (hc : s.core.entry = s₀.core.entry)
    (hr : s.pml4Page = s₀.pml4Page) :
    ∃ (p : Pfn) (ptr : PtePtr) (wr : Bool), s₀.core.Walks e.vaddr ptr ∧ g.absent ≠ some ptr ∧
      s₀.core.entry ptr = .valid p.val wr ∧ s₀.core.use p = .anonPrivate ∧
        wsleTarget s e = .ok (p, ptr) := by
  obtain ⟨ptr, hw, ha, -, hv⟩ := h.inv.mirror.leaf e he ht
  have hl := h.inv.dirs.level_of_walks hw
  have hvalid := hv.1 hq
  cases hent : s₀.core.entry ptr with
  | valid n wr =>
    obtain ⟨p, rfl, hu, -⟩ := h.inv.leaves.frame ptr n hl (by rw [hent]; rfl)
    refine ⟨p, ptr, wr, hw, ha, hent, hu, ?_⟩
    have hfetch : vmpFetchPte s e.vaddr = .ok (some ptr) := by
      rw [vmpFetchPte_eq_some_iff, Core.Walks, hc]
      change Descends _ _ _ s.pml4Page _
      rw [hr]
      exact hw
    have hpage : vmpPteHwPage (s.pte ptr) = .ok p := by
      have : view (s.pte ptr) = .valid p.val wr := by
        rw [← hent, ← hc]
        rfl
      exact vmpPteHwPage_of_view this
    simp only [wsleTarget, ht, Bool.false_eq_true, if_false, hfetch, ok_bind, hpage]
    rfl
  | _ =>
    rw [hent] at hvalid
    cases hvalid

/-- `wsl_evict` on a page table ends in an assertion or in `kfatal`. -/
theorem wp_wslEvict_table {p : Pfn} {ptr : PtePtr} {Q : State → Prop}
    (hl : 1 ≤ (s.pages p).use.level) : Wp Halt.Defined (wslEvict s p ptr) Q := by
  have hpa : Wp Halt.Defined (vmpPaddrToPage (ptePaddr ptr)) fun _ => True := by
    rw [vmpPaddrToPage_ptePaddr]
    split
    · trivial
    · exact Halt.defined_kassert
  unfold wslEvict
  split
  · rename_i hu
    rw [hu] at hl
    cases hl
  all_goals first
    | exact Wp.bind hpa fun _ _ => Halt.defined_kfatal
    | exact Halt.defined_kfatal

/-- `wsl_evict` on a page of data. -/
theorem wslEvict_anon {s : State} {p : Pfn} {ptr : PtePtr} (wr : Bool)
    (hu : (s.pages p).use = .anonPrivate) (hv : view (s.pte ptr) = .valid p.val wr) :
    wslEvict s p ptr = vmpPageReleaseLocked ((s.modifyPage p fun pg =>
      { pg with dirty := pg.dirty || wr }).setPte ptr (vmpPteTransCreate p.val)) p := by
  have hv' := hv
  rw [view_of_valid (hwValid_of_view hv)] at hv'
  simp only [Pte.valid.injEq] at hv'
  simp only [wslEvict, hu, State.modifyPage_pte, hv'.1, hv'.2]

/-- `wsl_trim_1` with its victim taken off the list. -/
def State.takeWsle (s : State) (e : Wsle) (q : List Wsle) : State :=
  { s with
    wsl.queue := q
    wsl.tree := s.wsl.tree.erase e
    wsl.nentries := s.wsl.nentries - 1 }

/-- An entry that is taken off the list is on it. -/
theorem State.takeWsle_sizes {e : Wsle} (he : e ∈ s.wsl.tree) (q : List Wsle) :
    Sizes s (s.takeWsle e q) := by
  have hlength := List.length_erase_of_mem he
  have hpos := List.length_pos_of_mem he
  refine ⟨rfl, ?_, fun _ _ hm => ?_⟩
  · simp only [State.takeWsle, hlength]
    omega
  · simp only [State.takeWsle]
    omega

theorem wslTrim1_cons {s : State} {e : Wsle} {q : List Wsle} (hq : s.wsl.queue = e :: q) :
    wslTrim1 s = wsleTarget (s.takeWsle e q) e >>= fun r =>
      wslEvict (s.takeWsle e q) r.1 r.2 >>= fun s => pure (some e, s) := by
  simp only [wslTrim1, hq]
  rfl

/-- `wsl_evict` on the page of data that the first entry of the queue stands for. -/
theorem wp_wslEvict_leaf (h : Good none s g) {e : Wsle} {q : List Wsle} (hq : s.wsl.queue = e :: q)
    (ht : e.isPagetable = false) {p : Pfn} {ptr : PtePtr} {wr : Bool}
    (hw : s.core.Walks e.vaddr ptr) (ha : g.absent ≠ some ptr)
    (hv : s.core.entry ptr = .valid p.val wr) (hu : s.core.use p = .anonPrivate) :
    Wp Halt.Defined (wslEvict (s.takeWsle e q) p ptr) fun s' =>
      Trimmed K s g s' ∧ (s.takeWsle e q).SameWsl s' := by
  have hl := h.inv.dirs.level_of_walks hw
  have hrc : (s.pages p).refcnt = g.held p + 1 := h.inv.frames.valid ptr p wr hl hv
  have hup : (s.pages p).use = .anonPrivate := hu
  -- found dirty, evicted, and released
  have hdirty : Move K.calm s.core g
      (s.core.setPage p { s.pages p with dirty := (s.pages p).dirty || wr }) g :=
    .markDirty p wr hu
  have hevict : Move K.calm (s.core.setPage p { s.pages p with dirty := (s.pages p).dirty || wr }) g
      { (s.core.setPage p { s.pages p with dirty := (s.pages p).dirty || wr }).setWord ptr
          (vmpPteTransCreate p.val) with
        tree := s.core.tree.erase e
        queue := q }
      { g with held := incAt g.held p } := by
    refine .evict e q ptr p wr hq ht hw hv fun hd => ?_
    rw [Core.setPage_pages, if_pos rfl]
    simp [hd]
  have hqueues : (s.modifyPage p fun pg => { pg with dirty := pg.dirty || wr }).Queues none :=
    h.queues.modifyActive (by omega) (by dsimp only; omega) (h.queues.refcnt_le p)
  have hmade : Made K.calm none s g
      (((s.takeWsle e q).modifyPage p fun pg => { pg with dirty := pg.dirty || wr }).setPte ptr
          (vmpPteTransCreate p.val))
      { g with held := incAt g.held p } :=
    ⟨hdirty.moves.tail hevict, hqueues,
      (State.takeWsle_sizes (h.inv.mirror.sub e (by
        change e ∈ s.wsl.queue
        simp [hq])) q).trans (.of_wsl rfl rfl)⟩
  have release := wp_vmpPageReleaseLocked_unhold (K := K.calm) (hmade.good h) (p := p)
    (by simp only [incAt_apply, if_true]; omega)
  rw [wslEvict_anon wr]
  · refine (release.and_weak (wp_vmpPageReleaseLocked_wsl _ p)).mono ?_
    rintro s' ⟨hs', hwsl⟩
    refine ⟨⟨?_, fun x hx => ?_, fun x hx => ?_, fun x => (hs'.2.2 x).trans ?_⟩,
      hwsl.1, hwsl.2⟩
    · have := hmade.trans hs'.1
      simp only [decAt_incAt] at this
      exact this
    · have ht : s'.wsl.tree = s.wsl.tree.erase e := congrArg Core.tree hs'.2.1
      rw [ht] at hx
      exact List.mem_of_mem_erase hx
    · have hne : x ≠ ptr := fun e => ha (by rw [← e]; exact hx)
      rw [hs'.2.1, Core.setPage_entry, core_setPte, Core.setWord_entry_ne _ _ _ _ hne]
      rfl
    · rw [State.setPte_pages, State.modifyPage_pages]
      split
      · subst_vars
        exact le_rfl
      · exact le_rfl
  · exact hup
  · exact hv

/-- `wsl_trim_1` evicts the first entry of the queue, if there is one. -/
theorem wp_wslTrim1 (h : Good none s g) (hlf : g.LooseFresh s.core) :
    Wp Halt.Defined (wslTrim1 s) fun r => Trimmed K s g r.2 ∧
      (r.1 = none ↔ s.wsl.queue = []) ∧ ∀ e q, s.wsl.queue = e :: q →
        (s.takeWsle e q).SameWsl r.2 := by
  cases hq : s.wsl.queue with
  | nil =>
    simp only [wslTrim1, hq]
    exact ⟨.refl h, by simp, by simp⟩
  | cons e q =>
    have he : e ∈ s.wsl.queue := by simp [hq]
    have hmem := h.inv.mirror.sub e he
    rw [wslTrim1_cons hq]
    cases ht : e.isPagetable with
    | true =>
      obtain ⟨p, ptr, hl, htarget⟩ :=
        wsleTarget_table h hlf hmem ht (s := s.takeWsle e q) rfl rfl
      rw [htarget, ok_bind]
      exact Wp.bind (wp_wslEvict_table hl) fun _ hf => hf
    | false =>
      obtain ⟨p, ptr, wr, hw, ha, hv, hu, htarget⟩ :=
        wsleTarget_leaf h hmem he ht (s := s.takeWsle e q) rfl rfl
      rw [htarget, ok_bind]
      refine Wp.bind (wp_wslEvict_leaf h hq ht hw ha hv hu) fun s' hs' =>
        ⟨hs'.1, by simp, fun e' q' heq => ?_⟩
      obtain ⟨rfl, rfl⟩ := List.cons.inj heq
      exact hs'.2

/-! ## Insertions -/

/-- There is room for one more entry, if the working set can expand. -/
def HasRoom (s s' : State) : Prop :=
  1 ≤ s.vmparam.wsPageExpansionCount → s.wsl.tree.length ≤ s.wsl.nentries →
    s.wsl.nentries ≤ s.wsl.max → s'.wsl.nentries < s'.wsl.max

/-- An entry goes into the room that was made for it. -/
theorem HasRoom.wslAdd (h : HasRoom s s') (hz : Sizes s s') (e : Wsle) (locked : Bool) :
    Sizes s (wslAdd s' e locked) := by
  have hentries := hz.entries
  refine ⟨hz.vmparam, ?_, h⟩
  simp only [VmmSim.wslAdd, List.length_append, List.length_singleton]
  omega

/-- The first half of `vmp_wsl_insert`. -/
theorem wp_wslMakeRoom (h : Good none s g) (hlf : g.LooseFresh s.core) :
    Wp Halt.Defined (wslMakeRoom s) fun s' => Trimmed K s g s' ∧ HasRoom s s' := by
  unfold wslMakeRoom
  split
  · rename_i hfull
    unfold wslTryExpand
    dsimp only
    split
    · simp only [if_true]
      refine ⟨⟨⟨.refl, h.queues, rfl, le_rfl, fun _ _ hm => ?_⟩, fun _ => id, fun _ _ => rfl,
        fun _ => le_rfl⟩, fun hc _ hm => ?_⟩
      · dsimp only
        omega
      · dsimp only
        omega
    · simp only [Bool.false_eq_true, if_false]
      refine Wp.bind (wp_wslTrim1 (K := K) h hlf) fun r hr => ?_
      simp only [Wp.bind_iff, wp_kassert, Wp.pure_iff]
      refine ⟨fun hsome => ⟨hr.1, fun _ ht _ => ?_⟩, fun _ => Halt.defined_kassert⟩
      cases hq : s.wsl.queue with
      | nil => exact absurd (hr.2.1.2 hq) hsome
      | cons e q =>
        have hpos := List.length_pos_of_mem (h.inv.mirror.sub e (by
          change e ∈ s.wsl.queue
          simp [hq]))
        change 0 < s.wsl.tree.length at hpos
        rw [(hr.2.2 e q hq).1]
        simp only [State.takeWsle]
        omega
  · rename_i hroom
    exact ⟨.refl h, fun _ _ hm => by omega⟩

/-- What the insertion of an entry leaves. -/
structure Inserted (K : Guard) (s : State) (g : Ledger) (s' : State) (g' : Ledger) : Prop where
  made : Made K.calm none s g s' g'
  absent : ∀ x, g.absent = some x → s'.core.entry x = s.core.entry x

theorem core_wslAdd (s : State) (e : Wsle) (locked : Bool) :
    (wslAdd s e locked).core = s.core.enter e locked := rfl

/-- A mapped entry joins the working set. -/
theorem wp_vmpWslInsert_leaf (h : Good none s g) (hlf : g.LooseFresh s.core) (vaddr : ℕ)
    {ptr : PtePtr} (locked : Bool) (ha : g.absent = some ptr) (hw : s.core.Walks vaddr ptr)
    (hm : (s.core.entry ptr).isMapped = true) (hv : locked = !(s.core.entry ptr).isValid)
    (hb : ∀ r ∈ g.busy, r.pte = ptr → r.vaddr = vaddr) :
    Wp Halt.Defined (vmpWslInsert s vaddr false locked) fun s' =>
      Inserted K s g s' { g with absent := none } := by
  simp only [vmpWslInsert, Wp.bind_iff, wp_kassert]
  refine ⟨fun hf => ⟨fun _ => ?_, fun _ => Halt.defined_kassert⟩, fun _ => Halt.defined_kassert⟩
  refine (wp_wslMakeRoom (K := K) h hlf).mono ?_
  rintro s₁ ⟨hs₁, hroom⟩
  have hent := hs₁.absent ptr ha
  have hcalm := hs₁.made.calm h.inv
  have hmove : Move K.calm s₁.core g (s₁.core.enter ⟨vaddr, false⟩ locked)
      { g with absent := none } := by
    refine .enterLeaf vaddr ptr locked ha ((hcalm.walks h.inv.dirs).2 hw) (fun e he => ?_)
      (by rw [hent, hm]) (by rw [hent, hv]) hb
    exact vmpWslFind_eq_none.1 hf e (hs₁.tree e he)
  exact ⟨⟨hs₁.made.moves.tail hmove, hs₁.made.queues, hroom.wslAdd hs₁.made.sizes _ _⟩,
    hs₁.absent⟩

/-- A new table joins the working set. -/
theorem wp_vmpWslInsert_table (h : Good none s g) {t : Pfn} (hlo : g.loose = some t)
    (hf : g.fresh = some t) (h₁ : 1 ≤ s.core.level t) (h₃ : s.core.level t ≤ 3)
    (hn : 0 < g.ns t) :
    Wp Halt.Defined (vmpWslInsert s (s.tableVaddr t) true true) fun s' =>
      Inserted K s g s' { g with fresh := none } := by
  have hlf : g.LooseFresh s.core := fun p hp _ => by
    rw [hf, ← hlo]
    exact hp
  simp only [vmpWslInsert, Wp.bind_iff, wp_kassert]
  refine ⟨fun hfind => ⟨fun _ => ?_, fun _ => Halt.defined_kassert⟩,
    fun _ => Halt.defined_kassert⟩
  refine (wp_wslMakeRoom (K := K) h hlf).mono ?_
  rintro s₁ ⟨hs₁, hroom⟩
  have hcalm := hs₁.made.calm h.inv
  have hl := hcalm.level h₁
  have hn' := (hs₁.made.good h).inv.tables.nonswap t (by omega)
  have he : (⟨s.tableVaddr t, true⟩ : Wsle) = s₁.core.tableWsle t := by
    rw [hcalm.tableWsle]
    rfl
  have hmove : Move K.calm s₁.core g (s₁.core.enter (s₁.core.tableWsle t) true)
      { g with fresh := none } := by
    refine .enterTable t hf (by omega) (by omega) (fun e hmem => ?_) (by omega)
    rw [← he]
    exact vmpWslFind_eq_none.1 hfind e (hs₁.tree e hmem)
  refine ⟨⟨hs₁.made.moves.tail ?_, hs₁.made.queues, hroom.wslAdd hs₁.made.sizes _ _⟩,
    hs₁.absent⟩
  rw [he]
  exact hmove

end VmmSim
