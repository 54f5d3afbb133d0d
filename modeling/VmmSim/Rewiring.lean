import VmmSim.Walks

/-!
# Wiring a walk that is there, and giving it back

Where all the tables of the walk of an address are there, `vmp_wire_pte` allocates nothing and
evicts nothing: it counts one more entry in each of the tables (`vmpWirePte_walked`). Giving the
wiring back undoes that.
-/

namespace VmmSim

open Lib

variable {K : Guard} {s s' : State} {g g' : Ledger} {vaddr n : ℕ} {t p : Pfn} {tables : List Pfn}
  {ptr : PtePtr}

/-! ## The tables of a walk -/

theorem WalkTables.inversion {c : Core} {pages : List (Option Pfn)}
    (h : WalkTables c vaddr n pages) : (n = vmpTableLevels ∧ pages = [some c.root]) ∨
      ∃ t p above, pages = some p :: some t :: above ∧
        WalkTables c vaddr (n + 1) (some t :: above) ∧ 1 ≤ n ∧
          c.entry (t, vmpAddrUnpack vaddr (n + 1)) = .valid p.val true := by
  cases h with
  | root => exact .inl ⟨rfl, rfl⟩
  | down h hn he => exact .inr ⟨_, _, _, rfl, h, hn, he⟩

theorem WalkTables.level_mem {c : Core} {pages : List (Option Pfn)}
    (h : WalkTables c vaddr n pages) (hd : Dirs c g) (hp : some p ∈ pages) : n ≤ c.level p := by
  obtain ⟨i, hi⟩ := List.getElem?_of_mem hp
  have := h.level_getElem hd i p hi
  omega

theorem WalkTables.nodup {c : Core} {pages : List (Option Pfn)} (h : WalkTables c vaddr n pages)
    (hd : Dirs c g) : pages.Nodup := by
  induction h with
  | root => exact List.nodup_singleton _
  | @down n t p pages h hn he ih =>
    refine List.nodup_cons.2 ⟨fun hp => ?_, ih⟩
    have hlow := h.level_mem hd hp
    have := (WalkTables.down h hn he).level hd
    omega

/-- The tables of a walk that is there, from a level down. -/
theorem WalkTables.descend {c : Core} (hd : Dirs c g) (above : List Pfn) :
    WalkTables c vaddr n (some t :: above.map some) → Descends c.entry vaddr n t ptr →
      ∃ tables : List Pfn, WalkTables c vaddr 1 (tables.map some) ∧ tables.head? = some ptr.1 ∧
        ptr.2 = vmpAddrUnpack vaddr 1 := by
  induction n generalizing t above with
  | zero => exact fun _ hw => hw.elim
  | succ n ih =>
    intro ht hw
    cases n with
    | zero =>
      obtain rfl : ptr = _ := hw
      exact ⟨t :: above, ht, rfl, rfl⟩
    | succ n =>
      have hlevel := ht.level hd
      obtain ⟨p, wr, he, hw⟩ := hw
      obtain hz | ⟨q, hq, -⟩ := hd.dir (t, vmpAddrUnpack vaddr (n + 2)) (by simp only; omega)
      · rw [hz] at he
        cases he
      · obtain rfl : p = q := Fin.ext (Pte.valid.inj (he.symm.trans hq)).1
        exact ih (t :: above) (.down ht (by omega) hq) hw

theorem Good.walkTables (h : Good none s g) (hw : s.core.Walks vaddr ptr) :
    ∃ tables : List Pfn, WalkTables s.core vaddr 1 (tables.map some) ∧
      tables.head? = some ptr.1 ∧ ptr.2 = vmpAddrUnpack vaddr 1 :=
  WalkTables.descend h.inv.dirs [] .root hw

/-! ## Wiring -/

/-- Tables with one more entry each, the last of them first. -/
def State.wireTables (s : State) (tables : List Pfn) : State :=
  tables.foldr (fun t s => s.bumpTable t true) s

@[simp] theorem State.bumpTable_pages (s : State) (t : Pfn) (isNew : Bool) :
    (s.bumpTable t isNew).pages = Function.update s.pages t ((s.pages t).bump isNew) := by
  unfold State.bumpTable
  split <;> rfl

@[simp] theorem State.bumpTable_mem (s : State) (t : Pfn) (isNew : Bool) :
    (s.bumpTable t isNew).mem = s.mem := by
  unfold State.bumpTable
  split <;> rfl

@[simp] theorem State.bumpTable_pml4Page (s : State) (t : Pfn) (isNew : Bool) :
    (s.bumpTable t isNew).pml4Page = s.pml4Page := by
  unfold State.bumpTable
  split <;> rfl

theorem State.wireTables_pages_ne (s : State) {q : Pfn} (hq : q ∉ tables) :
    (s.wireTables tables).pages q = s.pages q := by
  induction tables with
  | nil => rfl
  | cons t tables ih =>
    rw [List.mem_cons, not_or] at hq
    rw [State.wireTables, List.foldr_cons, State.bumpTable_pages, Function.update_of_ne hq.1]
    exact ih hq.2

@[simp] theorem State.wireTables_mem (s : State) (tables : List Pfn) :
    (s.wireTables tables).mem = s.mem := by
  induction tables with
  | nil => rfl
  | cons t tables ih => exact (State.bumpTable_mem _ t true).trans ih

theorem State.wireTables_level (s : State) (tables : List Pfn) (q : Pfn) :
    (s.wireTables tables).core.level q = s.core.level q := by
  induction tables with
  | nil => rfl
  | cons t tables ih =>
    refine Eq.trans ?_ ih
    change (((s.wireTables tables).bumpTable t true).pages q).use.level = _
    rw [State.bumpTable_pages, Function.update_apply]
    split
    · subst_vars
      rw [VmPage.bump_use]
      rfl
    · rfl

theorem made_wireTables (h : Good none s g) (hg : g.Settled) (hn : tables.Nodup)
    (hl : ∀ t ∈ tables, 1 ≤ s.core.level t) (hr : ∀ t ∈ tables, (s.pages t).refcnt < 2 ^ 16) :
    Made K none s g (s.wireTables tables) (g.wire g.drift (tables.map some)) := by
  induction tables with
  | nil => exact (Made.refl h).cast (by simp [Ledger.wire])
  | cons t tables ih =>
    obtain ⟨hnot, hn⟩ := List.nodup_cons.1 hn
    have hmade := ih hn (fun u hu => hl u (.tail _ hu)) fun u hu => hr u (.tail _ hu)
    have hbump := made_bumpTable (K := K) (hmade.good h) (t := t) true
      (by rw [State.wireTables_level]; exact hl t List.mem_cons_self)
      (by rw [Ledger.wire, hg.fresh]; exact (Option.some_ne_none _).symm)
      (by rw [State.wireTables_pages_ne s hnot]; exact hr t List.mem_cons_self)
    refine (hmade.trans hbump).cast ?_
    rw [if_pos rfl, List.map_cons, ← List.singleton_append, ← Ledger.wire_wire g g.drift g.drift,
      Ledger.wire_single]
    rfl

theorem wireFrom_succ (vaddr m : ℕ) (s : State) (t : Pfn) (pages : List (Option Pfn)) :
    wireFrom vaddr (m + 1 + 1) s t pages =
      wireLevel s (m + 1 + 1) t (t, vmpAddrUnpack vaddr (m + 1 + 1)) >>= fun r =>
        wireFrom vaddr (m + 1) r.2 r.1 (some r.1 :: pages) := rfl

/-- What `vmp_wire_pte` has done when it comes to a level. -/
theorem WalkTables.wire (h : Good none s g) (hg : g.Settled)
    (ht : WalkTables s.core vaddr n (tables.map some))
    (hr : ∀ t ∈ tables, (s.pages t).refcnt < 2 ^ 16) : ∃ t above, tables = t :: above ∧
      vmpWirePte s.narrow vaddr =
        wireFrom vaddr n (s.wireTables tables).narrow t (tables.map some) := by
  induction tables generalizing n with
  | nil =>
    obtain ⟨-, hp⟩ | ⟨t, p, above, hp, -⟩ := ht.inversion <;> cases hp
  | cons p tables ih =>
    refine ⟨p, tables, rfl, ?_⟩
    have hlevel := ht.level h.inv.dirs
    obtain ⟨rfl, hp⟩ | ⟨t, q, above, hp, ht', hn, he⟩ := ht.inversion
    · obtain ⟨rfl, rfl⟩ : p = s.core.root ∧ tables = [] := by simpa using hp
      rw [vmpWirePte, State.narrow_pml4Page, nonswapPteCreated_of_good h true
        (t := s.pml4Page) (hlevel.symm ▸ by decide) (by rw [hg.fresh]; exact (Option.some_ne_none _).symm)
        (hr _ List.mem_cons_self), ok_bind, State.narrow_pml4Page, State.bumpTable_pml4Page]
      rfl
    · obtain ⟨rfl, htail⟩ : p = q ∧ tables.map some = some t :: above := by simpa using hp
      rw [← htail] at ht'
      obtain ⟨u, above', rfl, hwire⟩ := ih ht' fun t ht => hr t (.tail _ ht)
      obtain ⟨rfl, -⟩ : u = t ∧ above'.map some = above := by simpa using htail
      have hnodup := (List.nodup_map_iff (Option.some_injective _)).1 (ht.nodup h.inv.dirs)
      obtain ⟨hnot, hnodup⟩ := List.nodup_cons.1 hnodup
      have hmade := made_wireTables (K := Guard.any) h hg hnodup
        (fun t ht => le_trans (by omega) (ht'.level_mem h.inv.dirs (List.mem_map_of_mem ht)))
        fun t ht => hr t (.tail _ ht)
      have hpage := State.wireTables_pages_ne s hnot
      obtain ⟨m, rfl⟩ := Nat.exists_eq_add_of_le' hn
      have hv : view ((s.wireTables (u :: above')).pte (u, vmpAddrUnpack vaddr (m + 1 + 1))) =
          .valid p.val true := by
        rw [State.pte, State.wireTables_mem]
        exact he
      rw [hwire, wireFrom_succ, wireLevel, State.narrow_pte, characterise_eq_kind, hv]
      simp only [Pte.kind, ok_bind, vmpPteHwPage_of_view hv]
      rw [nonswapPteCreated_of_good (hmade.good h) true
        (by rw [State.wireTables_level, hlevel]; omega) (by rw [Ledger.wire, hg.fresh]; exact (Option.some_ne_none _).symm)
        (by rw [hpage]; exact hr p List.mem_cons_self)]
      rfl

/-- **Wiring a walk that is there** counts an entry in each of its tables. -/
theorem vmpWirePte_walked (h : Good none s g) (hg : g.Settled)
    (ht : WalkTables s.core vaddr 1 ((t :: tables).map some))
    (hr : ∀ u ∈ t :: tables, (s.pages u).refcnt < 2 ^ 16) :
    vmpWirePte s.narrow vaddr = .ok (⟨(t, vmpAddrUnpack vaddr 1), (t :: tables).map some⟩,
      (s.wireTables (t :: tables)).narrow) := by
  obtain ⟨u, above, htables, hwire⟩ := ht.wire h hg hr
  obtain ⟨rfl, rfl⟩ := List.cons.inj htables
  exact hwire

theorem vmpPagetablePageNonswapPteCreated_wrapped (h : s.Queues none)
    (hr : 2 ^ 16 ≤ (s.pages p).refcnt) {isNew : Bool} {r : State} :
    vmpPagetablePageNonswapPteCreated s.narrow p isNew ≠ .ok r := fun hok => by
  obtain ⟨s₁, hret, -⟩ := bind_eq_ok.1 hok
  exact vmpPageRetainLocked_wrapped h hr hret

/-- It does not return if a count of references has wrapped. -/
theorem WalkTables.wire_wrapped (h : Good none s g) (hg : g.Settled)
    (ht : WalkTables s.core vaddr n (tables.map some))
    (hr : ∃ t ∈ tables, 2 ^ 16 ≤ (s.pages t).refcnt) {r : WireState × State} :
    vmpWirePte s.narrow vaddr ≠ .ok r := by
  induction tables generalizing n with
  | nil => simp at hr
  | cons p tables ih =>
    obtain ⟨rfl, hp⟩ | ⟨t, q, above, hp, ht', hn, he⟩ := ht.inversion
    · obtain ⟨rfl, rfl⟩ : p = s.core.root ∧ tables = [] := by simpa using hp
      intro hok
      obtain ⟨s₁, hcount, -⟩ := bind_eq_ok.1 hok
      have hwrapped : 2 ^ 16 ≤ (s.pages s.core.root).refcnt := by simpa using hr
      exact vmpPagetablePageNonswapPteCreated_wrapped h.queues hwrapped hcount
    · obtain ⟨rfl, htail⟩ : p = q ∧ tables.map some = some t :: above := by simpa using hp
      rw [← htail] at ht'
      by_cases hrest : ∃ t ∈ tables, 2 ^ 16 ≤ (s.pages t).refcnt
      · exact ih ht' hrest
      have hrp : 2 ^ 16 ≤ (s.pages p).refcnt := by
        obtain ⟨t, ht, hle⟩ := hr
        rcases List.mem_cons.1 ht with rfl | ht
        · exact hle
        · exact absurd ⟨t, ht, hle⟩ hrest
      have hrest : ∀ t ∈ tables, (s.pages t).refcnt < 2 ^ 16 := fun t ht =>
        Nat.lt_of_not_le fun hle => hrest ⟨t, ht, hle⟩
      obtain ⟨u, above', rfl, hwire⟩ := ht'.wire h hg hrest
      obtain ⟨rfl, -⟩ : u = t ∧ above'.map some = above := by simpa using htail
      have hnodup := (List.nodup_map_iff (Option.some_injective _)).1 (ht.nodup h.inv.dirs)
      obtain ⟨hnot, hnodup⟩ := List.nodup_cons.1 hnodup
      have hmade := made_wireTables (K := Guard.any) h hg hnodup
        (fun t ht => le_trans (by omega) (ht'.level_mem h.inv.dirs (List.mem_map_of_mem ht))) hrest
      have hpage := State.wireTables_pages_ne s hnot
      obtain ⟨m, rfl⟩ := Nat.exists_eq_add_of_le' hn
      have hv : view ((s.wireTables (u :: above')).pte (u, vmpAddrUnpack vaddr (m + 1 + 1))) =
          .valid p.val true := by
        rw [State.pte, State.wireTables_mem]
        exact he
      rw [hwire, wireFrom_succ, wireLevel, State.narrow_pte, characterise_eq_kind, hv]
      simp only [Pte.kind, ok_bind, vmpPteHwPage_of_view hv]
      intro hok
      obtain ⟨⟨_, _⟩, hlevel, -⟩ := bind_eq_ok.1 hok
      obtain ⟨s₁, hcount, -⟩ := bind_eq_ok.1 hlevel
      exact vmpPagetablePageNonswapPteCreated_wrapped hmade.queues (by rw [hpage]; exact hrp) hcount

/-- **What a wiring leaves when the walk was there.** -/
theorem vmpWirePte_of_walks (h : Good none s g) (hg : g.Settled) (hw : s.core.Walks vaddr ptr)
    {st : WireState} {r : State} (hok : vmpWirePte s.narrow vaddr = .ok (st, r)) :
    ∃ tables : List Pfn, WalkTables s.core vaddr 1 (tables.map some) ∧
      (∀ t ∈ tables, (s.pages t).refcnt < 2 ^ 16) ∧ st = ⟨ptr, tables.map some⟩ ∧
        r = (s.wireTables tables).narrow := by
  obtain ⟨tables, ht, hhead, hindex⟩ := h.walkTables hw
  have hr : ∀ t ∈ tables, (s.pages t).refcnt < 2 ^ 16 := fun t htab =>
    Nat.lt_of_not_le fun hle => ht.wire_wrapped h hg ⟨t, htab, hle⟩ hok
  obtain ⟨above, rfl⟩ := List.head?_eq_some_iff.1 hhead
  rw [vmpWirePte_walked h hg ht hr] at hok
  obtain ⟨rfl, rfl⟩ := Prod.mk.inj (Except.ok.inj hok)
  refine ⟨_, ht, hr, ?_, rfl⟩
  rw [← hindex]

end VmmSim
