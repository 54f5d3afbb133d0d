import VmmSim.PagefileAlloc

/-!
# The three walks of the page tables

`vmp_wire_pte`, `vmp_fetch_pte` and the simulated MMU each walk the four levels of tables in their
own way. After a wiring they reach the same entry, through the tables that the wire state holds;
two addresses reach the same entry only if they are addresses of one virtual page; and what could
be walked before still can.
-/

namespace VmmSim

open Lib

/-! ## The walk of the MMU -/

/-- The tables that the walk of `access` goes through, the lowest first, and the entry at which it
ends: the first one without the valid bit, or that of the last level. -/
def mmuTrace (s : State) (addr : ℕ) : ℕ → Pfn → List Pfn → Res (List Pfn × PtePtr)
  | 0, _, _ => .error .kfatal
  | level + 1, table, above =>
    let ptr := (table, vmpAddrUnpack addr (level + 1))
    if hwValid (s.pte ptr) ≠ 1 ∨ level = 0 then .ok (table :: above, ptr)
    else do
      let next ← hwTable (s.pte ptr)
      mmuTrace s addr level next (table :: above)

/-- The access goes through if the walk ends at an entry with the valid bit. -/
theorem mmuWalkFrom_eq_trace (s : State) (addr level : ℕ) (table : Pfn) (above : List Pfn) :
    mmuWalkFrom s addr level table = (mmuTrace s addr level table above).map fun r =>
      if hwValid (s.pte r.2) = 1 then some r.2 else none := by
  induction level generalizing table above with
  | zero => rfl
  | succ n ih =>
    simp only [mmuWalkFrom, mmuTrace]
    by_cases hv : hwValid (s.pte (table, vmpAddrUnpack addr (n + 1))) = 1
    · rw [if_neg (by simpa using hv)]
      by_cases hn : n = 0
      · rw [if_pos hn, if_pos (.inr hn), Except.map, if_pos hv]
      · rw [if_neg hn, if_neg (by simp [hv, hn])]
        cases hwTable (s.pte (table, vmpAddrUnpack addr (n + 1))) with
        | error e => rfl
        | ok next => exact ih next _
    · rw [if_pos hv, if_pos (.inl hv), Except.map, if_neg hv]

/-- A chain of tables is what the MMU goes through. -/
theorem WalkTables.mmuTrace {s : State} {vaddr n : ℕ} {pages : List (Option Pfn)}
    (h : WalkTables s.core vaddr n pages) : ∃ (t : Pfn) (above : List Pfn),
      pages = some t :: above.map some ∧
        VmmSim.mmuTrace s vaddr vmpTableLevels s.pml4Page [] =
          VmmSim.mmuTrace s vaddr n t above := by
  induction h with
  | root => exact ⟨s.pml4Page, [], rfl, rfl⟩
  | @down n t p pages _ hn he ih =>
    obtain ⟨u, above, hpages, htrace⟩ := ih
    obtain ⟨rfl, rfl⟩ : t = u ∧ pages = above.map some := by simpa using hpages
    have hview : view (s.pte (t, vmpAddrUnpack vaddr (n + 1))) = .valid p.val true := he
    have hnext : hwTable (s.pte (t, vmpAddrUnpack vaddr (n + 1))) = .ok p := hwTable_of_view hview
    refine ⟨p, t :: above, rfl, ?_⟩
    rw [htrace, VmmSim.mmuTrace, if_neg ?_, hnext, ok_bind]
    rintro (hv | hz)
    · exact hv (hwValid_of_view hview)
    · omega

theorem WalkTables.length {c : Core} {vaddr n : ℕ} {pages : List (Option Pfn)}
    (h : WalkTables c vaddr n pages) : pages.length + n = vmpTableLevels + 1 := by
  induction h with
  | root => rfl
  | down _ _ _ ih =>
    simp only [List.length_cons] at ih ⊢
    omega

/-- The tables of a chain are of the levels from its lowest one up. -/
theorem WalkTables.level_getElem {c : Core} {g : Ledger} {vaddr n : ℕ} {pages : List (Option Pfn)}
    (h : WalkTables c vaddr n pages) (hd : Dirs c g) : ∀ (i : ℕ) (t : Pfn),
    pages[i]? = some (some t) → c.level t = n + i := by
  induction h with
  | root =>
    intro i t ht
    cases i with
    | zero =>
      obtain rfl : c.root = t := by simpa using ht
      exact hd.level_root
    | succ i => simp at ht
  | @down n t p pages h hn he ih =>
    intro i u hu
    cases i with
    | zero =>
      obtain rfl : p = u := by simpa using hu
      have hlevel : c.level t = n + 1 := h.level hd
      have hdir : 2 ≤ c.level (t, vmpAddrUnpack vaddr (n + 1)).1 :=
        hlevel.symm ▸ Nat.succ_le_succ hn
      have := (hd.child hdir he).1
      simp only [hlevel] at this
      omega
    | succ i =>
      have := ih i u (by simpa using hu)
      omega

/-! ## Addresses and entries -/

/-- Two addresses are of one virtual page if they have the same indices at all levels. -/
theorem virtPage_eq_iff {a b : ℕ} : virtPage a = virtPage b ↔
    ∀ n, 1 ≤ n → n ≤ vmpTableLevels → vmpAddrUnpack a n = vmpAddrUnpack b n := by
  constructor
  · intro h n h₁ h₄
    simp only [virtPage, pgSize] at h
    refine Fin.ext ?_
    simp only [vmpAddrUnpack, tableEntries]
    obtain rfl | rfl | rfl | rfl : n = 1 ∨ n = 2 ∨ n = 3 ∨ n = 4 := by
      simp only [vmpTableLevels] at h₄
      omega
    all_goals norm_num; omega
  · intro h
    have h1 := Fin.val_eq_of_eq (h 1 le_rfl (by decide))
    have h2 := Fin.val_eq_of_eq (h 2 (by decide) (by decide))
    have h3 := Fin.val_eq_of_eq (h 3 (by decide) (by decide))
    have h4 := Fin.val_eq_of_eq (h 4 (by decide) le_rfl)
    simp only [vmpAddrUnpack, tableEntries] at h1 h2 h3 h4
    norm_num at h1 h2 h3 h4
    simp only [virtPage, pgSize]
    omega

/-- A walk looks at the indices alone. -/
theorem Descends.congr_index {entry : PtePtr → Pte} {a b level : ℕ} {t : Pfn} {ptr : PtePtr}
    (hi : ∀ n, 1 ≤ n → n ≤ level → vmpAddrUnpack a n = vmpAddrUnpack b n)
    (h : Descends entry a level t ptr) : Descends entry b level t ptr := by
  induction level generalizing t with
  | zero => exact h
  | succ n ih =>
    cases n with
    | zero => exact h.trans (by rw [hi 1 le_rfl le_rfl])
    | succ n =>
      obtain ⟨p, wr, he, hd⟩ := h
      exact ⟨p, wr, hi (n + 2) (by omega) le_rfl ▸ he, ih (fun m h₁ h₂ => hi m h₁ (by omega)) hd⟩

/-- The tables form a tree: two walks from one level that meet are one walk. -/
theorem Dirs.descends_injective {c : Core} {g : Ledger} (hd : Dirs c g) {a b n : ℕ} {t u : Pfn}
    {ptr : PtePtr} (ht : c.level t = n) (hu : c.level u = n) (ha : Descends c.entry a n t ptr)
    (hb : Descends c.entry b n u ptr) :
    t = u ∧ ∀ m, 1 ≤ m → m ≤ n → vmpAddrUnpack a m = vmpAddrUnpack b m := by
  induction n generalizing t u with
  | zero => exact ha.elim
  | succ n ih =>
    cases n with
    | zero =>
      obtain ⟨rfl, hindex⟩ := Prod.mk.inj (ha.symm.trans hb)
      refine ⟨rfl, fun m h₁ h₂ => ?_⟩
      obtain rfl : m = 1 := by omega
      exact hindex
    | succ n =>
      obtain ⟨p, _, hep, hdp⟩ := ha
      obtain ⟨q, _, heq, hdq⟩ := hb
      obtain ⟨hlp, hrp, -⟩ := hd.child (by rw [ht]; omega) hep
      obtain ⟨hlq, hrq, -⟩ := hd.child (by rw [hu]; omega) heq
      obtain ⟨rfl, hlow⟩ := ih (by simp only [ht] at hlp; omega) (by simp only [hu] at hlq; omega)
        hdp hdq
      -- the table has the address of the one entry that names it
      obtain ⟨rfl, hindex⟩ := Prod.mk.inj (ptePaddr_injective (hrp.symm.trans hrq))
      refine ⟨rfl, fun m h₁ h₂ => ?_⟩
      by_cases hm : m = n + 2
      · rw [hm]
        exact hindex
      · exact hlow m h₁ (by omega)

theorem Dirs.walks_injective {c : Core} {g : Ledger} (hd : Dirs c g) {a b : ℕ} {p q : PtePtr}
    (ha : c.Walks a p) (hb : c.Walks b q) : p = q ↔ virtPage a = virtPage b := by
  constructor
  · rintro rfl
    exact virtPage_eq_iff.2 (hd.descends_injective hd.level_root hd.level_root ha hb).2
  · intro h
    exact Core.Walks.unique (Descends.congr_index (virtPage_eq_iff.1 h) ha) hb

/-! ## The walks agree -/

/-- The walks of a state reach one entry for two addresses if and only if these are addresses of
one virtual page. -/
def WalksInjective (s : State) : Prop :=
  ∀ a b p q, vmpFetchPte s a = .ok (some p) → vmpFetchPte s b = .ok (some q) →
    (p = q ↔ virtPage a = virtPage b)

/-- What a wiring tells of the walks of its address and of others. -/
structure WalksAgree (s : State) (vaddr : ℕ) (st : WireState) (s' : State) : Prop where
  fetch : vmpFetchPte s' vaddr = .ok (some st.pte)
  /-- The MMU ends at the wired entry, at its last level, and goes through the wired tables. -/
  mmu : ∃ tables : List Pfn, tables.length = vmpTableLevels ∧ st.pages = tables.map some ∧
    mmuTrace s' vaddr vmpTableLevels s'.pml4Page [] = .ok (tables, st.pte)
  levels : ∀ (i : ℕ) (t : Pfn), st.pages[i]? = some (some t) →
    (s'.pages t).use = .ofLevel (i + 1)
  injective : WalksInjective s'
  kept : ∀ b p, vmpFetchPte s b = .ok (some p) → vmpFetchPte s' b = .ok (some p)

theorem PageUse.eq_ofLevel {u : PageUse} {n : ℕ} (h : u.level = n) (hn : 1 ≤ n) :
    u = .ofLevel n := by
  subst h
  cases u <;> first | rfl | simp [PageUse.level] at hn

/-- **The three walks agree**, tell virtual pages apart, and survive a wiring. -/
theorem walks_agree {x : Sys} (h : Reachable x) {vaddr : ℕ} {st : WireState} {s' : State}
    (hw : vmpWirePte x.vm vaddr = .ok (st, s')) : WalksAgree x.vm vaddr st s' := by
  obtain ⟨y, g, rfl, hy⟩ := h.standing
  obtain ⟨s₁, hs', hwired⟩ := (wp_vmpWirePte (K := y.guard Guard.any fun _ => False) trivial
    (hy.allocsOk Terms.any_grant _) hy.good hy.settled vaddr
    (fun _ _ => wireAllocs_of_forall (fun _ => trivial) _ _ _ _)).of_ok hw
  obtain rfl : s' = s₁.narrow := hs'
  obtain ⟨d, hmade⟩ := hwired.made
  have hdirs : Dirs s₁.core _ := (hmade.good hy.good).inv.dirs
  have hfetch : ∀ b p, vmpFetchPte s₁.narrow b = .ok (some p) ↔ s₁.core.Walks b p := fun b p => by
    rw [vmpFetchPte_narrow, vmpFetchPte_eq_some_iff]
  have htables : WalkTables s₁.narrow.core vaddr 1 st.pages :=
    WalkTables.congr (c := s₁.core) rfl rfl hwired.tables
  refine ⟨(hfetch _ _).2 hwired.walks, ?_, fun i t ht => ?_, fun a b p q ha hb =>
    hdirs.walks_injective ((hfetch _ _).1 ha) ((hfetch _ _).1 hb), fun b p hb =>
    (hfetch _ _).2 (hwired.grow.walks hy.good.inv.dirs (y.narrow_fetch.1 hb))⟩
  · obtain ⟨t, above, hpages, htrace⟩ := htables.mmuTrace
    have hlength := htables.length
    have hhead := hwired.head
    rw [hpages] at hhead hlength
    obtain rfl : t = st.pte.1 := by simpa using hhead
    refine ⟨st.pte.1 :: above, by simpa using hlength, hpages, htrace.trans ?_⟩
    rw [mmuTrace, if_pos (.inr rfl), ← hwired.pte]
  · exact PageUse.eq_ofLevel
      ((hwired.tables.level_getElem hdirs i t ht).trans (Nat.add_comm _ _)) (by omega)

/-- A wiring that makes a table, after two pages were mapped. -/
theorem walks_agree_twoPages : ∃ x st s', simulate mainConfig twoPages = .ok x ∧
    vmpWirePte x.vm (2 ^ 21) = .ok (st, s') ∧ WalksAgree x.vm (2 ^ 21) st s' := by
  obtain ⟨x, hx, hr⟩ := exists_of_readBack (r := simulate mainConfig twoPages)
    (f := fun x => returns (vmpWirePte x.vm (2 ^ 21))) (a := true) (by decide +kernel)
  obtain ⟨⟨st, s'⟩, hw⟩ := exists_of_returns hr
  exact ⟨x, st, s', hx, hw, walks_agree (reachable_of_simulate hx) hw⟩

end VmmSim
