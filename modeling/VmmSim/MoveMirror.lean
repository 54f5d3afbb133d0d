import VmmSim.MoveCounts

/-!
# Moves and the working set list
-/

namespace VmmSim

open Lib

variable {c c' : Core} {g g' : Ledger}

theorem Core.tableWsle_inj {p q : Pfn} (h : c.tableWsle p = c.tableWsle q) : p = q :=
  vmpPagePaddr_injective (Nat.add_right_cancel (congrArg Wsle.vaddr h))

namespace Mirror

theorem tree_nodup (h : Mirror c g) : c.tree.Nodup := List.Nodup.of_map _ h.keys

/-- Two entries with one address are one. -/
theorem entry_unique (h : Mirror c g) {e e' : Wsle} (he : e ∈ c.tree) (he' : e' ∈ c.tree)
    (hv : e.vaddr = e'.vaddr) : e = e' := List.inj_on_of_nodup_map h.keys he he' hv

/-- An entry off the queue is counted as locked. -/
theorem nlocked_pos (h : Mirror c g) {e : Wsle} (he : e ∈ c.tree) (hq : e ∉ c.queue) :
    0 < c.nlocked := by
  have hsub : (e :: c.queue).Subperm c.tree :=
    List.subperm_of_subset (List.nodup_cons.2 ⟨hq, h.nodup⟩) (by
      simpa using ⟨he, fun x hx => h.sub x hx⟩)
  have hlen := hsub.length_le
  have hn := h.nlocked
  simp only [List.length_cons] at hlen
  omega

/-- The working set entry of a valid or busy entry. -/
theorem leaf_at (h : Mirror c g) {e : Wsle} (he : e ∈ c.tree) (hp : e.isPagetable = false)
    {ptr : PtePtr} (hw : c.Walks e.vaddr ptr) : g.absent ≠ some ptr ∧
      (c.entry ptr).isMapped = true ∧ (e ∈ c.queue ↔ (c.entry ptr).isValid = true) := by
  obtain ⟨ptr', hw', hx⟩ := h.leaf e he hp
  obtain rfl := hw.unique hw'
  exact hx

/-- Changes that the working set does not depend on. -/
theorem congr (h : Mirror c g) (hd : Dirs c g) (ht : c'.tree = c.tree) (hq : c'.queue = c.queue)
    (hn : c'.nlocked = c.nlocked) (hs : c'.softPages = c.softPages) (hroot : c'.root = c.root)
    (hlv : ∀ p, c'.level p = c.level p)
    (hns : ∀ p, 1 ≤ c.level p → c.level p ≤ 3 → g.fresh ≠ some p →
      ((c'.pages p).nonswapPtes = 0 ↔ (c.pages p).nonswapPtes = 0))
    (hdir : ∀ ptr : PtePtr, 2 ≤ c.level ptr.1 → c'.entry ptr = c.entry ptr)
    (hleaf : ∀ ptr : PtePtr, c.level ptr.1 = 1 → (c'.entry ptr).isMapped = (c.entry ptr).isMapped ∧
      (c'.entry ptr).isValid = (c.entry ptr).isValid)
    (gf : g'.fresh = g.fresh) (ga : g'.absent = g.absent) (gb : g'.busy = g.busy) :
    Mirror c' g' := by
  have hw : ∀ {v ptr}, c'.Walks v ptr ↔ c.Walks v ptr := hd.walks_congr hdir hroot
  have htw : ∀ p, c'.tableWsle p = c.tableWsle p := fun p => by
    rw [Core.tableWsle, Core.tableWsle, hs]
  obtain ⟨h₁, h₂, h₃, h₄, h₅, h₆, h₇, h₈, h₉, h₁₀, h₁₁⟩ := h
  refine ⟨by rw [ht]; exact h₁, by rw [hq]; exact h₂, by rw [ht, hq]; exact h₃,
    by rw [ht, hq, hn]; exact h₄, fun e he hp => ?_, fun p hp h3 hf => ?_, fun p hp h3 hf => ?_,
    fun e he hp => ?_, fun e he e' he' hp hp' ptr => ?_, fun ptr h1 hm ha => ?_, fun r hr => ?_⟩
  · rw [ht] at he
    obtain ⟨p, hpl, h3, hf, rfl⟩ := h₅ e he hp
    exact ⟨p, by rw [hlv]; exact hpl, by rw [hlv]; exact h3, by rw [gf]; exact hf, (htw p).symm⟩
  · rw [hlv] at hp h3
    rw [gf] at hf
    rw [htw, ht]
    exact h₆ p hp h3 hf
  · rw [hlv] at hp h3
    rw [gf] at hf
    rw [htw, hq, hns p hp h3 hf]
    exact h₇ p hp h3 hf
  · rw [ht] at he
    obtain ⟨ptr, hwp, ha, hm, hv⟩ := h₈ e he hp
    have h1 := hd.level_of_walks hwp
    exact ⟨ptr, hw.2 hwp, by rw [ga]; exact ha, by rw [(hleaf ptr h1).1]; exact hm,
      by rw [hq, (hleaf ptr h1).2]; exact hv⟩
  · rw [ht] at he he'
    rw [hw, hw]
    exact h₉ e he e' he' hp hp' ptr
  · rw [hlv] at h1
    rw [(hleaf ptr h1).1] at hm
    rw [ga] at ha
    obtain ⟨e, he, hp, hwp⟩ := h₁₀ ptr h1 hm ha
    exact ⟨e, by rw [ht]; exact he, hp, hw.2 hwp⟩
  · rw [gb] at hr
    rw [hw, ga, ht]
    exact h₁₁ r hr

/-- Assignments to a page that keep its use, and whether a table is in core. -/
theorem setPage (h : Mirror c g) (hd : Dirs c g) {p : Pfn} {pg : VmPage} (hu : pg.use = c.use p)
    (hn : 1 ≤ c.level p → g.fresh ≠ some p →
      (pg.nonswapPtes = 0 ↔ (c.pages p).nonswapPtes = 0)) : Mirror (c.setPage p pg) g := by
  refine h.congr hd rfl rfl rfl rfl rfl (Core.setPage_level_of hu) (fun q hq _ hf => ?_)
    (fun _ _ => rfl) (fun _ _ => ⟨rfl, rfl⟩) rfl rfl rfl
  rw [Core.setPage_pages]
  split
  · subst_vars
    exact hn hq hf
  · exact Iff.rfl

/-- Other parts of the core and the ledger do not matter. -/
theorem of_eq (h : Mirror c g) (hd : Dirs c g) (ht : c'.tree = c.tree) (hq : c'.queue = c.queue)
    (hn : c'.nlocked = c.nlocked) (hs : c'.softPages = c.softPages) (hroot : c'.root = c.root)
    (hp : c'.pages = c.pages) (hm : c'.mem = c.mem) (gf : g'.fresh = g.fresh)
    (ga : g'.absent = g.absent) (gb : g'.busy = g.busy) : Mirror c' g' :=
  have he : c'.entry = c.entry := by
    funext ptr
    rw [Core.entry, hm]
    rfl
  h.congr hd ht hq hn hs hroot (fun _ => by rw [Core.level, Core.use, hp]; rfl)
    (fun _ _ _ _ => by rw [hp]) (fun _ _ => by rw [he]) (fun _ _ => by rw [he]; exact ⟨rfl, rfl⟩)
    gf ga gb

/-- The working set part of a change of a table's counters: its entry is locked when it gets its
first reference. -/
theorem bump (h : Mirror c g) (hd : Dirs c g) {t : Pfn} {isNew : Bool} (hl : 1 ≤ c.level t)
    (hf : g.fresh ≠ some t) (hn : inc16 (c.pages t).nonswapPtes ≠ 0) (gf : g'.fresh = g.fresh)
    (ga : g'.absent = g.absent) (gb : g'.busy = g.busy) : Mirror (c.bump t isNew) g' := by
  have hpg : ∀ p, ((c.bump t isNew).pages p).nonswapPtes =
      if p = t then inc16 (c.pages t).nonswapPtes else (c.pages p).nonswapPtes := fun p => by
    change ((c.setPage t _).pages p).nonswapPtes = _
    rw [Core.setPage_pages]
    split <;> rfl
  have hlv : ∀ p, (c.bump t isNew).level p = c.level p := Core.setPage_level_of (VmPage.bump_use ..)
  by_cases hc : (c.pages t).nonswapPtes = 0 ∧ c.level t ≠ 4
  · have h3 : c.level t ≤ 3 := by
      have := (c.use t).level_le
      have := hc.2
      unfold Core.level at *
      omega
    have hmem : c.tableWsle t ∈ c.queue := (h.table_queue t hl h3 hf).2 hc.1
    have hqe : (c.bump t isNew).queue = c.queue.erase (c.tableWsle t) := if_pos hc
    have hne : (c.bump t isNew).nlocked = c.nlocked + 1 := if_pos hc
    have hw : ∀ {v ptr}, (c.bump t isNew).Walks v ptr ↔ c.Walks v ptr := Iff.rfl
    refine ⟨h.keys, hqe ▸ h.nodup.erase _, fun e he => ?_, ?_, fun e he hp => ?_,
      fun p hp h3 hfp => ?_, fun p hp h3 hfp => ?_, fun e he hp => ?_, h.leaf_unique,
      fun ptr h1 hm ha => ?_, fun r hr => ?_⟩
    · rw [hqe] at he
      exact h.sub e (List.mem_of_mem_erase he)
    · have hlen := List.length_pos_of_mem hmem
      have := h.nlocked
      rw [hqe, hne, List.length_erase_of_mem hmem]
      change _ = c.tree.length
      omega
    · obtain ⟨p, hpl, h3, hfp, rfl⟩ := h.table e he hp
      exact ⟨p, by rw [hlv]; exact hpl, by rw [hlv]; exact h3, by rw [gf]; exact hfp, rfl⟩
    · rw [hlv] at hp h3
      exact h.table_back p hp h3 (gf ▸ hfp)
    · rw [hlv] at hp h3
      rw [hqe, hpg, h.nodup.mem_erase_iff]
      change c.tableWsle p ≠ _ ∧ c.tableWsle p ∈ _ ↔ _
      by_cases hpt : p = t
      · simp [hpt, hn]
      · rw [if_neg hpt, h.table_queue p hp h3 (gf ▸ hfp)]
        exact and_iff_right fun e => hpt (Core.tableWsle_inj e)
    · obtain ⟨ptr, hwp, ha, hm, hv⟩ := h.leaf e he hp
      refine ⟨ptr, hwp, ga ▸ ha, hm, ?_⟩
      rw [hqe, List.mem_erase_of_ne]
      · exact hv
      · rintro rfl
        cases hp
    · rw [hlv] at h1
      exact h.leaf_back ptr h1 hm (ga ▸ ha)
    · rw [gb] at hr
      rw [ga]
      exact h.busy r hr
  · refine h.congr hd rfl (if_neg hc) (if_neg hc) rfl rfl hlv (fun p hp h3 hfp => ?_)
      (fun _ _ => rfl) (fun _ _ => ⟨rfl, rfl⟩) gf ga gb
    rw [hpg]
    split
    · subst_vars
      simp only [hn, false_iff]
      intro h0
      exact hc ⟨h0, by omega⟩
    · exact Iff.rfl

/-- The entry of a table that loses its last reference is unlocked. -/
theorem drop (h : Mirror c g) (hd : Dirs c g) {t : Pfn} (hl : 1 ≤ c.level t)
    (hf : g.fresh ≠ some t) (hn : 0 < (c.pages t).nonswapPtes)
    (hlt : (c.pages t).nonswapPtes < 2 ^ 16) (gf : g'.fresh = g.fresh)
    (ga : g'.absent = g.absent) (gb : g'.busy = g.busy) : Mirror (c.drop t) g' := by
  have hdec := dec16_of_pos hn hlt.le
  have hpg : ∀ p, ((c.drop t).pages p).nonswapPtes =
      if p = t then (c.pages t).nonswapPtes - 1 else (c.pages p).nonswapPtes := fun p => by
    change ((c.setPage t _).pages p).nonswapPtes = _
    rw [Core.setPage_pages]
    split
    · exact hdec
    · rfl
  have hlv : ∀ p, (c.drop t).level p = c.level p := Core.setPage_level_of (VmPage.drop_use _)
  by_cases hc : (c.pages t).nonswapPtes = 1 ∧ c.level t ≠ 4
  · have h3 : c.level t ≤ 3 := by
      have := (c.use t).level_le
      have := hc.2
      unfold Core.level at *
      omega
    have hmem := h.table_back t hl h3 hf
    have hnot : c.tableWsle t ∉ c.queue := fun hq => by
      have := (h.table_queue t hl h3 hf).1 hq
      omega
    have hpos := h.nlocked_pos hmem hnot
    have hqe : (c.drop t).queue = c.queue ++ [c.tableWsle t] := if_pos hc
    have hne : (c.drop t).nlocked = c.nlocked - 1 := if_pos hc
    refine ⟨h.keys, ?_, fun e he => ?_, ?_, fun e he hp => ?_, fun p hp h3 hfp => ?_,
      fun p hp h3 hfp => ?_, fun e he hp => ?_, h.leaf_unique, fun ptr h1 hm ha => ?_,
      fun r hr => ?_⟩
    · rw [hqe]
      exact List.nodup_append.2 ⟨h.nodup, by simp,
        by simpa using fun x hx => ne_of_mem_of_not_mem hx hnot⟩
    · rw [hqe, List.mem_append, List.mem_singleton] at he
      rcases he with he | rfl
      · exact h.sub e he
      · exact hmem
    · have := h.nlocked
      rw [hqe, hne, List.length_append]
      change _ = c.tree.length
      simp only [List.length_singleton]
      omega
    · obtain ⟨p, hpl, h3, hfp, rfl⟩ := h.table e he hp
      exact ⟨p, by rw [hlv]; exact hpl, by rw [hlv]; exact h3, by rw [gf]; exact hfp, rfl⟩
    · rw [hlv] at hp h3
      exact h.table_back p hp h3 (gf ▸ hfp)
    · rw [hlv] at hp h3
      rw [hqe, hpg, List.mem_append, List.mem_singleton]
      change c.tableWsle p ∈ _ ∨ c.tableWsle p = _ ↔ _
      by_cases hpt : p = t
      · simp [hpt, hc.1]
      · rw [if_neg hpt, h.table_queue p hp h3 (gf ▸ hfp)]
        exact or_iff_left fun e => hpt (Core.tableWsle_inj e)
    · obtain ⟨ptr, hwp, ha, hm, hv⟩ := h.leaf e he hp
      refine ⟨ptr, hwp, ga ▸ ha, hm, ?_⟩
      rw [hqe, List.mem_append, List.mem_singleton]
      refine Iff.trans (or_iff_left ?_) hv
      rintro rfl
      cases hp
    · rw [hlv] at h1
      exact h.leaf_back ptr h1 hm (ga ▸ ha)
    · rw [gb] at hr
      rw [ga]
      exact h.busy r hr
  · refine h.congr hd rfl (if_neg hc) (if_neg hc) rfl rfl hlv (fun p hp h3 hfp => ?_)
      (fun _ _ => rfl) (fun _ _ => ⟨rfl, rfl⟩) gf ga gb
    rw [hpg]
    by_cases hpt : p = t
    · rw [if_pos hpt, hpt]
      rw [hpt] at h3
      have : (c.pages t).nonswapPtes ≠ 1 := fun h1 => hc ⟨h1, by omega⟩
      omega
    · rw [if_neg hpt]

/-- The oldest entry of the queue is evicted. -/
theorem evict (h : Mirror c g) (hd : Dirs c g) (hlf : Leaves c g) {e : Wsle} {q : List Wsle} {ptr : PtePtr} {p : Pfn}
    {wr : Bool} {w : Word} (hq : c.queue = e :: q) (he : e.isPagetable = false)
    (hw : c.Walks e.vaddr ptr) (hv : c.entry ptr = .valid p.val wr)
    (hw0 : (view w).isMapped = false) (gf : g'.fresh = g.fresh) (ga : g'.absent = g.absent)
    (gb : g'.busy = g.busy) :
    Mirror { c.setWord ptr w with tree := c.tree.erase e, queue := q } g' := by
  have hl := hd.level_of_walks hw
  have hem : e ∈ c.tree := h.sub e (by rw [hq]; simp)
  have hnd := h.nodup
  rw [hq] at hnd
  obtain ⟨heq, hqn⟩ := List.nodup_cons.1 hnd
  have hmq : ∀ x, x ≠ e → (x ∈ q ↔ x ∈ c.queue) := fun x hx => by simp [hq, hx]
  have hmt : ∀ x, x ≠ e → (x ∈ c.tree.erase e ↔ x ∈ c.tree) := fun x hx =>
    List.mem_erase_of_ne hx
  have hne : ∀ x, x ∈ c.tree.erase e → x ≠ e ∧ x ∈ c.tree := fun x hx =>
    (h.tree_nodup.mem_erase_iff).1 hx
  have htab : ∀ x : Pfn, c.tableWsle x ≠ e := by
    rintro x rfl
    cases he
  have hwk : ∀ {v x}, ({ c.setWord ptr w with tree := c.tree.erase e, queue := q } : Core).Walks v x ↔
      c.Walks v x := hd.walks_congr
    (fun x hx => Core.setWord_entry_ne _ _ _ _ (by rintro rfl; omega)) rfl
  have hen : ∀ x, x ≠ ptr → ({ c.setWord ptr w with tree := c.tree.erase e, queue := q } : Core).entry x =
      c.entry x := fun x hx => Core.setWord_entry_ne _ _ _ _ hx
  refine ⟨(List.erase_sublist.map _).nodup h.keys, hqn, fun x hx => ?_, ?_, fun x hx hp => ?_,
    fun x hp h3 hf => ?_, fun x hp h3 hf => ?_, fun x hx hp => ?_,
    fun x hx x' hx' hp hp' y => ?_, fun y h1 hm ha => ?_, fun r hr => ?_⟩
  · have hxe : x ≠ e := fun e => heq (e ▸ hx)
    exact (hmt x hxe).2 (h.sub x ((hmq x hxe).1 hx))
  · have := h.nlocked
    rw [hq] at this
    simp only [List.length_cons] at this
    change c.nlocked + q.length = (c.tree.erase e).length
    rw [List.length_erase_of_mem hem]
    have := List.length_pos_of_mem hem
    omega
  · obtain ⟨t, hpl, h3, hfp, rfl⟩ := h.table x (hne x hx).2 hp
    exact ⟨t, hpl, h3, gf ▸ hfp, rfl⟩
  · exact (hmt _ (htab x)).2 (h.table_back x hp h3 (gf ▸ hf))
  · exact (hmq _ (htab x)).trans (h.table_queue x hp h3 (gf ▸ hf))
  · obtain ⟨hxe, hxt⟩ := hne x hx
    obtain ⟨y, hy, ha, hm, hvy⟩ := h.leaf x hxt hp
    have hyp : y ≠ ptr := by
      rintro rfl
      exact hxe (h.leaf_unique x hxt e hem hp he y hy hw)
    exact ⟨y, hwk.2 hy, ga ▸ ha, by rw [hen y hyp]; exact hm,
      by rw [hen y hyp]; exact (hmq x hxe).trans hvy⟩
  · rw [hwk, hwk]
    exact h.leaf_unique x (hne x hx).2 x' (hne x' hx').2 hp hp' y
  · have hyp : y ≠ ptr := by
      rintro rfl
      change ((c.setWord y w).entry y).isMapped = true at hm
      rw [Core.setWord_entry_self, hw0] at hm
      cases hm
    rw [hen y hyp] at hm
    obtain ⟨x, hx, hp, hwx⟩ := h.leaf_back y h1 hm (ga ▸ ha)
    have hxe : x ≠ e := by
      rintro rfl
      exact hyp (hwx.unique hw)
    exact ⟨x, (hmt x hxe).2 hx, hp, hwk.2 hwx⟩
  · rw [gb] at hr
    obtain ⟨hwr, hx⟩ := h.busy r hr
    refine ⟨hwk.2 hwr, ga ▸ hx.imp_right fun hx => (hmt _ ?_).2 hx⟩
    rintro rfl
    obtain rfl := hwr.unique hw
    obtain ⟨-, ⟨a, ha⟩, -⟩ := hlf.busy_back r hr
    rw [hv] at ha
    cases ha

/-- A mapped entry joins the working set. -/
theorem enterLeaf (h : Mirror c g) {vaddr : ℕ} {ptr : PtePtr} {locked : Bool}
    (ha : g.absent = some ptr) (hw : c.Walks vaddr ptr) (hk : ∀ e ∈ c.tree, e.vaddr ≠ vaddr)
    (hm : (c.entry ptr).isMapped = true) (hv : locked = !(c.entry ptr).isValid)
    (hb : ∀ r ∈ g.busy, r.pte = ptr → r.vaddr = vaddr) (gf : g'.fresh = g.fresh)
    (ga : g'.absent = none) (gb : g'.busy = g.busy) :
    Mirror (c.enter ⟨vaddr, false⟩ locked) g' := by
  have hnt : (⟨vaddr, false⟩ : Wsle) ∉ c.tree := fun he => hk _ he rfl
  have hnq : (⟨vaddr, false⟩ : Wsle) ∉ c.queue := fun he => hnt (h.sub _ he)
  have hmt : ∀ e, e ∈ (c.enter ⟨vaddr, false⟩ locked).tree ↔ e ∈ c.tree ∨ e = ⟨vaddr, false⟩ :=
    fun e => by simp [Core.enter]
  have hmq : ∀ e, e ∈ (c.enter ⟨vaddr, false⟩ locked).queue ↔
      e ∈ c.queue ∨ locked = false ∧ e = ⟨vaddr, false⟩ := fun e => by
    cases locked <;> simp [Core.enter]
  -- the old entries are those of the other mapped entries
  have hold : ∀ e ∈ c.tree, e.isPagetable = false → ¬ c.Walks e.vaddr ptr := fun e he hp hwe =>
    (h.leaf_at he hp hwe).1 ha
  refine ⟨?_, ?_, fun e he => ?_, ?_, fun e he hp => ?_, fun p hp h3 hf => ?_,
    fun p hp h3 hf => ?_, fun e he hp => ?_, fun e he e' he' hp hp' y hy hy' => ?_,
    fun y h1 hmy _ => ?_, fun r hr => ?_⟩
  · simp only [Core.enter, List.map_append, List.map_cons, List.map_nil]
    exact List.nodup_append.2 ⟨h.keys, by simp, by simpa using fun e he => hk e he⟩
  · cases locked
    · exact List.nodup_append.2 ⟨h.nodup, by simp,
        by simpa using fun x hx => ne_of_mem_of_not_mem hx hnq⟩
    · exact h.nodup
  · rw [hmq] at he
    exact (hmt e).2 (he.imp (h.sub e) And.right)
  · have := h.nlocked
    cases locked <;> simp [Core.enter] <;> omega
  · rcases (hmt e).1 he with he | rfl
    · obtain ⟨p, hpl, h3, hf, rfl⟩ := h.table e he hp
      exact ⟨p, hpl, h3, gf ▸ hf, rfl⟩
    · cases hp
  · exact (hmt _).2 (.inl (h.table_back p hp h3 (gf ▸ hf)))
  · refine Iff.trans ?_ (h.table_queue p hp h3 (gf ▸ hf))
    rw [hmq]
    refine or_iff_left ?_
    rintro ⟨-, he⟩
    exact absurd (congrArg Wsle.isPagetable he) (by simp [Core.tableWsle])
  · rcases (hmt e).1 he with he | rfl
    · obtain ⟨y, hy, -, hmy, hvy⟩ := h.leaf e he hp
      refine ⟨y, hy, by simp [ga], hmy, ?_⟩
      refine Iff.trans ?_ hvy
      rw [hmq]
      exact or_iff_left fun hx => hnt (hx.2 ▸ he)
    · refine ⟨ptr, hw, by simp [ga], hm, ?_⟩
      change _ ↔ (c.entry ptr).isValid = true
      rw [hmq, hv]
      simp [hnq]
  · rcases (hmt e).1 he with he | rfl <;> rcases (hmt e').1 he' with he' | rfl
    · exact h.leaf_unique e he e' he' hp hp' y hy hy'
    · obtain rfl := hw.unique hy'
      exact absurd hy (hold e he hp)
    · obtain rfl := hw.unique hy
      exact absurd hy' (hold e' he' hp')
    · rfl
  · by_cases hyp : y = ptr
    · exact ⟨_, (hmt _).2 (.inr rfl), rfl, hyp ▸ hw⟩
    · obtain ⟨e, he, hp, hwe⟩ := h.leaf_back y h1 hmy (by
        rw [ha]
        exact fun e => hyp (Option.some.inj e).symm)
      exact ⟨e, (hmt e).2 (.inl he), hp, hwe⟩
  · rw [gb] at hr
    obtain ⟨hwr, hx⟩ := h.busy r hr
    refine ⟨hwr, .inr ((hmt _).2 ?_)⟩
    rcases hx with hx | hx
    · rw [ha] at hx
      exact .inr (by rw [hb r hr (Option.some.inj hx).symm])
    · exact .inl hx

/-- A table joins the working set, locked. -/
theorem enterTable (h : Mirror c g) {t : Pfn} (hf : g.fresh = some t) (h₁ : 1 ≤ c.level t)
    (h₃ : c.level t ≤ 3) (hk : ∀ e ∈ c.tree, e.vaddr ≠ (c.tableWsle t).vaddr)
    (hn : 0 < (c.pages t).nonswapPtes) (gf : g'.fresh = none) (ga : g'.absent = g.absent)
    (gb : g'.busy = g.busy) : Mirror (c.enter (c.tableWsle t) true) g' := by
  have hnt : c.tableWsle t ∉ c.tree := fun he => hk _ he rfl
  have hmt : ∀ e, e ∈ (c.enter (c.tableWsle t) true).tree ↔ e ∈ c.tree ∨ e = c.tableWsle t :=
    fun e => by simp [Core.enter]
  have hfr : ∀ p, p ≠ t → g.fresh ≠ some p := fun p hp e =>
    hp (Option.some.inj (e.symm.trans hf))
  refine ⟨?_, h.nodup, fun e he => (hmt e).2 (.inl (h.sub e he)), ?_, fun e he hp => ?_,
    fun p hp h3 _ => ?_, fun p hp h3 _ => ?_, fun e he hp => ?_,
    fun e he e' he' hp hp' y hy hy' => ?_, fun y h1 hmy hay => ?_, fun r hr => ?_⟩
  · simp only [Core.enter, List.map_append, List.map_cons, List.map_nil]
    exact List.nodup_append.2 ⟨h.keys, by simp, by simpa using fun e he => hk e he⟩
  · have := h.nlocked
    simp [Core.enter]
    omega
  · rcases (hmt e).1 he with he | rfl
    · obtain ⟨p, hpl, h3, -, rfl⟩ := h.table e he hp
      exact ⟨p, hpl, h3, by simp [gf], rfl⟩
    · exact ⟨t, h₁, h₃, by simp [gf], rfl⟩
  · by_cases hpt : p = t
    · exact (hmt _).2 (.inr (by rw [hpt]; rfl))
    · exact (hmt _).2 (.inl (h.table_back p hp h3 (hfr p hpt)))
  · by_cases hpt : p = t
    · subst hpt
      change c.tableWsle p ∈ c.queue ↔ (c.pages p).nonswapPtes = 0
      exact iff_of_false (fun hq => hnt (h.sub _ hq)) (by omega)
    · exact h.table_queue p hp h3 (hfr p hpt)
  · rcases (hmt e).1 he with he | rfl
    · rw [ga]
      exact h.leaf e he hp
    · cases hp
  · rcases (hmt e).1 he with he | rfl
    · rcases (hmt e').1 he' with he' | rfl
      · exact h.leaf_unique e he e' he' hp hp' y hy hy'
      · cases hp'
    · cases hp
  · obtain ⟨e, he, hp, hwe⟩ := h.leaf_back y h1 hmy (ga ▸ hay)
    exact ⟨e, (hmt e).2 (.inl he), hp, hwe⟩
  · rw [gb] at hr
    obtain ⟨hwr, hx⟩ := h.busy r hr
    exact ⟨hwr, ga ▸ hx.imp_right fun hx => (hmt _).2 (.inl hx)⟩

/-- An entry that was not mapped becomes mapped, and has no working set entry yet. -/
theorem setLeaf (h : Mirror c g) (hd : Dirs c g) {ptr : PtePtr} {w : Word} {f : Pfn → VmPage}
    (hl : c.level ptr.1 = 1) (he : (c.entry ptr).isMapped = false) (ha : g.absent = none)
    (hu : ∀ p, (f p).use = c.use p)
    (hn : ∀ p, (f p).nonswapPtes = (c.pages p).nonswapPtes) (gf : g'.fresh = g.fresh)
    (ga : g'.absent = some ptr)
    (gb : ∀ r ∈ g'.busy, r ∈ g.busy ∨ r.pte = ptr ∧ c.Walks r.vaddr ptr) :
    Mirror { c.setWord ptr w with pages := f } g' := by
  have hlv : ∀ p, ({ c.setWord ptr w with pages := f } : Core).level p = c.level p := fun p =>
    congrArg PageUse.level (hu p)
  have hwk : ∀ {v x}, ({ c.setWord ptr w with pages := f } : Core).Walks v x ↔ c.Walks v x :=
    hd.walks_congr (fun x hx => Core.setWord_entry_ne _ _ _ _ (by rintro rfl; omega)) rfl
  have hen : ∀ x, x ≠ ptr →
      ({ c.setWord ptr w with pages := f } : Core).entry x = c.entry x := fun x hx =>
    Core.setWord_entry_ne _ _ _ _ hx
  have hmp : ∀ x, (c.entry x).isMapped = true → x ≠ ptr := by
    rintro x hx rfl
    rw [he] at hx
    cases hx
  refine ⟨h.keys, h.nodup, h.sub, h.nlocked, fun e het hp => ?_, fun p hp h3 hf => ?_,
    fun p hp h3 hf => ?_, fun e het hp => ?_, fun e het e' het' hp hp' y => ?_,
    fun y h1 hmy hay => ?_, fun r hr => ?_⟩
  · obtain ⟨p, hpl, h3, hf, rfl⟩ := h.table e het hp
    exact ⟨p, by rw [hlv]; exact hpl, by rw [hlv]; exact h3, gf ▸ hf, rfl⟩
  · rw [hlv] at hp h3
    exact h.table_back p hp h3 (gf ▸ hf)
  · rw [hlv] at hp h3
    exact (h.table_queue p hp h3 (gf ▸ hf)).trans (by rw [← hn p])
  · obtain ⟨y, hy, -, hmy, hvy⟩ := h.leaf e het hp
    have hyp := hmp y hmy
    exact ⟨y, hwk.2 hy, by rw [ga]; exact fun e => hyp (Option.some.inj e).symm,
      by rw [hen y hyp]; exact hmy, by rw [hen y hyp]; exact hvy⟩
  · rw [hwk, hwk]
    exact h.leaf_unique e het e' het' hp hp' y
  · have hyp : y ≠ ptr := fun e => hay (by rw [ga, e])
    rw [hlv] at h1
    rw [hen y hyp] at hmy
    obtain ⟨e, het, hp, hwe⟩ := h.leaf_back y h1 hmy (by simp [ha])
    exact ⟨e, het, hp, hwk.2 hwe⟩
  · rcases gb r hr with hr | ⟨hrp, hwr⟩
    · obtain ⟨hwr, hx⟩ := h.busy r hr
      exact ⟨hwk.2 hwr, .inr (hx.resolve_left (by simp [ha]))⟩
    · exact ⟨hwk.2 (hrp ▸ hwr), .inl (by rw [ga, hrp])⟩

/-- A busy entry becomes valid, and its working set entry is unlocked. -/
theorem finish (h : Mirror c g) (hd : Dirs c g) (hlf : Leaves c g) {r : Swapping}
    (hr : r ∈ g.busy) (ha : g.absent = none) (gf : g'.fresh = g.fresh) (ga : g'.absent = none)
    (gb : ∀ r' ∈ g'.busy, r' ∈ g.busy ∧ r'.pte ≠ r.pte) :
    Mirror { c.setWord r.pte (vmpPteHwCreate r.page.val false) with
      queue := c.queue ++ [⟨r.vaddr, false⟩], nlocked := c.nlocked - 1 } g' := by
  obtain ⟨hl, ⟨a, hbusy⟩, -⟩ := hlf.busy_back r hr
  obtain ⟨hwr, hx⟩ := h.busy r hr
  have hem : (⟨r.vaddr, false⟩ : Wsle) ∈ c.tree := hx.resolve_left (by simp [ha])
  have heq : (⟨r.vaddr, false⟩ : Wsle) ∉ c.queue := fun hq => by
    have := (h.leaf_at hem rfl hwr).2.2.1 hq
    rw [hbusy] at this
    cases this
  have hpos := h.nlocked_pos hem heq
  have hview := view_hwCreate_pfn r.page false
  have hwk : ∀ {v x}, ({ c.setWord r.pte (vmpPteHwCreate r.page.val false) with
      queue := c.queue ++ [⟨r.vaddr, false⟩], nlocked := c.nlocked - 1 } : Core).Walks v x ↔
        c.Walks v x :=
    hd.walks_congr (fun x hx => Core.setWord_entry_ne _ _ _ _ (by rintro rfl; omega)) rfl
  have hen : ∀ x, x ≠ r.pte → ({ c.setWord r.pte (vmpPteHwCreate r.page.val false) with
      queue := c.queue ++ [⟨r.vaddr, false⟩], nlocked := c.nlocked - 1 } : Core).entry x =
        c.entry x := fun x hx => Core.setWord_entry_ne _ _ _ _ hx
  have hself : ({ c.setWord r.pte (vmpPteHwCreate r.page.val false) with
      queue := c.queue ++ [⟨r.vaddr, false⟩], nlocked := c.nlocked - 1 } : Core).entry r.pte =
        .valid r.page.val false := (Core.setWord_entry_self _ _ _).trans hview
  refine ⟨h.keys, List.nodup_append.2 ⟨h.nodup, by simp,
      by simpa using fun x hx => ne_of_mem_of_not_mem hx heq⟩, fun e he => ?_, ?_,
    fun e he hp => ?_, fun p hp h3 hf => ?_, fun p hp h3 hf => ?_, fun e he hp => ?_,
    fun e he e' he' hp hp' y => ?_, fun y h1 hmy _ => ?_, fun r' hr' => ?_⟩
  · rcases List.mem_append.1 he with he | he
    · exact h.sub e he
    · rw [List.mem_singleton.1 he]
      exact hem
  · have := h.nlocked
    simp only [List.length_append, List.length_singleton]
    change _ = c.tree.length
    omega
  · obtain ⟨p, hpl, h3, hf, rfl⟩ := h.table e he hp
    exact ⟨p, hpl, h3, gf ▸ hf, rfl⟩
  · exact h.table_back p hp h3 (gf ▸ hf)
  · refine Iff.trans ?_ (h.table_queue p hp h3 (gf ▸ hf))
    rw [List.mem_append, List.mem_singleton]
    refine or_iff_left fun e => ?_
    exact absurd (congrArg Wsle.isPagetable e) (by simp [Core.tableWsle])
  · obtain ⟨y, hy, -, hmy, hvy⟩ := h.leaf e he hp
    refine ⟨y, hwk.2 hy, by simp [ga], ?_⟩
    rw [List.mem_append, List.mem_singleton]
    by_cases hyr : y = r.pte
    · subst hyr
      rw [hself]
      refine ⟨rfl, iff_of_true (.inr ?_) rfl⟩
      exact h.leaf_unique e he _ hem hp rfl _ hy hwr
    · rw [hen y hyr]
      refine ⟨hmy, Iff.trans (or_iff_left ?_) hvy⟩
      rintro rfl
      exact hyr (hy.unique hwr)
  · rw [hwk, hwk]
    exact h.leaf_unique e he e' he' hp hp' y
  · by_cases hyr : y = r.pte
    · subst hyr
      exact ⟨_, hem, rfl, hwk.2 hwr⟩
    · rw [hen y hyr] at hmy
      obtain ⟨e, he, hp, hwe⟩ := h.leaf_back y h1 hmy (by simp [ha])
      exact ⟨e, he, hp, hwk.2 hwe⟩
  · obtain ⟨hr', -⟩ := gb r' hr'
    obtain ⟨hwr', hx'⟩ := h.busy r' hr'
    exact ⟨hwk.2 hwr', .inr (hx'.resolve_left (by simp [ha]))⟩

/-- A page that is no table is handed out; a new table has no entry in the working set. -/
theorem handOut (h : Mirror c g) (hd : Dirs c g) {p : Pfn} {use : PageUse} (h0 : c.level p = 0)
    (hf : g.fresh = none) (gf : g'.fresh = if 1 ≤ use.level then some p else none)
    (ga : g'.absent = g.absent) (gb : g'.busy = g.busy) :
    Mirror ((c.setPage p (VmPage.handedOut use)).setWords p 0) g' := by
  have hlv : ∀ q, q ≠ p →
      ((c.setPage p (VmPage.handedOut use)).setWords p 0).level q = c.level q := fun q hq => by
    rw [Core.setWords_level, Core.setPage_level, if_neg hq]
  have hlp : ((c.setPage p (VmPage.handedOut use)).setWords p 0).level p = use.level := by
    rw [Core.setWords_level, Core.setPage_level, if_pos rfl]
    rfl
  have hen : ∀ q : PtePtr, q.1 ≠ p →
      ((c.setPage p (VmPage.handedOut use)).setWords p 0).entry q = c.entry q := fun q hq =>
    Core.setWords_entry_ne _ _ _ _ hq
  have hne : ∀ q, 1 ≤ c.level q → q ≠ p := by
    rintro q hq rfl
    omega
  have hwk : ∀ {v x}, ((c.setPage p (VmPage.handedOut use)).setWords p 0).Walks v x ↔
      c.Walks v x := hd.walks_congr (fun x hx => hen x (hne _ (by omega))) rfl
  have hfresh : ∀ q, 1 ≤ ((c.setPage p (VmPage.handedOut use)).setWords p 0).level q →
      g'.fresh ≠ some q → q ≠ p := by
    rintro q hq hn rfl
    rw [hlp] at hq
    exact hn (by rw [gf, if_pos hq])
  have hfresh' : ∀ q, q ≠ p → g'.fresh ≠ some q := fun q hq e => by
    rw [gf] at e
    split at e
    · exact hq (Option.some.inj e).symm
    · cases e
  refine ⟨h.keys, h.nodup, h.sub, h.nlocked, fun e he hp => ?_, fun q hq h3 hn => ?_,
    fun q hq h3 hn => ?_, fun e he hp => ?_, fun e he e' he' hp hp' y => ?_,
    fun y h1 hmy hay => ?_, fun r hr => ?_⟩
  · obtain ⟨q, hql, h3, -, rfl⟩ := h.table e he hp
    have hqp := hne q hql
    exact ⟨q, by rw [hlv q hqp]; exact hql, by rw [hlv q hqp]; exact h3, hfresh' q hqp, rfl⟩
  · have hqp := hfresh q hq hn
    rw [hlv q hqp] at hq h3
    exact h.table_back q hq h3 (by simp [hf])
  · have hqp := hfresh q hq hn
    rw [hlv q hqp] at hq h3
    refine (h.table_queue q hq h3 (by simp [hf])).trans ?_
    change _ ↔ ((c.setPage p _).pages q).nonswapPtes = 0
    rw [Core.setPage_pages, if_neg hqp]
  · obtain ⟨y, hy, hay, hmy, hvy⟩ := h.leaf e he hp
    have hyp := hne y.1 (by rw [hd.level_of_walks hy])
    exact ⟨y, hwk.2 hy, ga ▸ hay, by rw [hen y hyp]; exact hmy, by rw [hen y hyp]; exact hvy⟩
  · rw [hwk, hwk]
    exact h.leaf_unique e he e' he' hp hp' y
  · have hyp : y.1 ≠ p := by
      intro e
      rw [Core.setWords_entry, if_pos e] at hmy
      change (view 0).isMapped = true at hmy
      rw [view_zero] at hmy
      cases hmy
    rw [hlv _ hyp] at h1
    rw [hen y hyp] at hmy
    obtain ⟨e, he, hp, hwe⟩ := h.leaf_back y h1 hmy (ga ▸ hay)
    exact ⟨e, he, hp, hwk.2 hwe⟩
  · rw [gb] at hr
    rw [hwk, ga]
    exact h.busy r hr

/-- Changes of the directories that keep the walks to mapped entries. -/
theorem rewalk (h : Mirror c g) (hlf : Leaves c g)
    (hw : ∀ v x, c.Walks v x → (c.entry x).isMapped = true → c'.Walks v x)
    (ht : c'.tree = c.tree) (hq : c'.queue = c.queue) (hn : c'.nlocked = c.nlocked)
    (hs : c'.softPages = c.softPages) (hlv : ∀ p, c'.level p = c.level p)
    (hns : ∀ p, (c'.pages p).nonswapPtes = (c.pages p).nonswapPtes)
    (hleaf : ∀ ptr : PtePtr, c.level ptr.1 = 1 → c'.entry ptr = c.entry ptr)
    (hd : Dirs c g) (gf : g'.fresh = g.fresh) (ga : g'.absent = g.absent)
    (gb : g'.busy = g.busy) : Mirror c' g' := by
  have hback : ∀ e ∈ c.tree, e.isPagetable = false → ∀ x, c'.Walks e.vaddr x →
      c.Walks e.vaddr x := fun e he hp x hx => by
    obtain ⟨y, hy, -, hm, -⟩ := h.leaf e he hp
    rwa [(hw _ _ hy hm).unique hx] at hy
  have htw : ∀ p, c'.tableWsle p = c.tableWsle p := fun p => by
    rw [Core.tableWsle, Core.tableWsle, hs]
  refine ⟨by rw [ht]; exact h.keys, by rw [hq]; exact h.nodup, by rw [ht, hq]; exact h.sub,
    by rw [ht, hq, hn]; exact h.nlocked, fun e he hp => ?_, fun p hp h3 hf => ?_,
    fun p hp h3 hf => ?_, fun e he hp => ?_, fun e he e' he' hp hp' y hy hy' => ?_,
    fun y h1 hmy hay => ?_, fun r hr => ?_⟩
  · rw [ht] at he
    obtain ⟨p, hpl, h3, hf, rfl⟩ := h.table e he hp
    exact ⟨p, by rw [hlv]; exact hpl, by rw [hlv]; exact h3, by rw [gf]; exact hf, (htw p).symm⟩
  · rw [hlv] at hp h3
    rw [htw, ht]
    exact h.table_back p hp h3 (gf ▸ hf)
  · rw [hlv] at hp h3
    rw [htw, hq, hns]
    exact h.table_queue p hp h3 (gf ▸ hf)
  · rw [ht] at he
    obtain ⟨y, hy, hay, hm, hv⟩ := h.leaf e he hp
    have h1 := hd.level_of_walks hy
    exact ⟨y, hw _ _ hy hm, by rw [ga]; exact hay, by rw [hleaf y h1]; exact hm,
      by rw [hq, hleaf y h1]; exact hv⟩
  · rw [ht] at he he'
    exact h.leaf_unique e he e' he' hp hp' y (hback e he hp y hy) (hback e' he' hp' y hy')
  · rw [hlv] at h1
    rw [hleaf y h1] at hmy
    obtain ⟨e, he, hp, hwe⟩ := h.leaf_back y h1 hmy (ga ▸ hay)
    exact ⟨e, by rw [ht]; exact he, hp, hw _ _ hwe hmy⟩
  · rw [gb] at hr
    obtain ⟨hwr, hx⟩ := h.busy r hr
    obtain ⟨-, ⟨a, ha⟩, -⟩ := hlf.busy_back r hr
    exact ⟨hw _ _ hwr (by rw [ha]; rfl), by rw [ga, ht]; exact hx⟩

/-- A new table is attached. -/
theorem attach (h : Mirror c g) (hd : Dirs c g) (hlf : Leaves c g) {ptr : PtePtr} {w : Word}
    (hl : 2 ≤ c.level ptr.1) (he : c.entry ptr = .zero) (gf : g'.fresh = g.fresh)
    (ga : g'.absent = g.absent) (gb : g'.busy = g.busy) : Mirror (c.setWord ptr w) g' := by
  refine h.rewalk hlf (fun v x hx _ => ?_) rfl rfl rfl rfl (fun _ => rfl) (fun _ => rfl)
    (fun q hq => Core.setWord_entry_ne _ _ _ _ (by rintro rfl; omega)) hd gf ga gb
  refine Descends.mono (P := fun _ => True) (fun _ _ _ _ => trivial) trivial (fun q p wr hq _ => ?_) hx
  refine Core.setWord_entry_ne _ _ _ _ ?_
  rintro rfl
  rw [he] at hq
  cases hq

/-- An empty table is deleted. -/
theorem delete (h : Mirror c g) (hd : Dirs c g) (hlf : Leaves c g) {t : Pfn} {ptr : PtePtr}
    (hl : 1 ≤ c.level t) (h₃ : c.level t ≤ 3) (hg : g.Settled)
    (hempty : ∀ i, c.entry (t, i) = .zero) (hn : (c.pages t).nonswapPtes ≠ 0)
    (hr : (c.pages t).referentPte = ptePaddr ptr) (gf : g'.fresh = g.fresh)
    (ga : g'.absent = g.absent) (gb : g'.busy = g.busy) :
    Mirror { (c.setPage t { c.pages t with use := .deleted, nonzeroPtes := 0 }).setWord ptr
        vmpPteZeroCreate with
      tree := c.tree.erase (c.tableWsle t), nlocked := c.nlocked - 1 } g' := by
  obtain ⟨ptr', hpr, hpe, hpl⟩ := hd.dir_back t hl h₃ (by simp [hg.loose])
  obtain rfl := ptePaddr_injective (hr.symm.trans hpr)
  have hmem := h.table_back t hl h₃ (by simp [hg.fresh])
  have hnq : c.tableWsle t ∉ c.queue := fun hq =>
    hn ((h.table_queue t hl h₃ (by simp [hg.fresh])).1 hq)
  have hpos := h.nlocked_pos hmem hnq
  have hne : ∀ x, x ∈ c.tree.erase (c.tableWsle t) ↔ x ≠ c.tableWsle t ∧ x ∈ c.tree := fun x =>
    h.tree_nodup.mem_erase_iff
  -- the state without the working set part
  have hlv : ∀ q, q ≠ t → ({ (c.setPage t { c.pages t with
      use := .deleted, nonzeroPtes := 0 }).setWord ptr vmpPteZeroCreate with
        tree := c.tree.erase (c.tableWsle t), nlocked := c.nlocked - 1 } : Core).level q =
          c.level q := fun q hq => by
    change (c.setPage t _).level q = _
    rw [Core.setPage_level, if_neg hq]
  have hlt : ∀ q, 1 ≤ ({ (c.setPage t { c.pages t with
      use := .deleted, nonzeroPtes := 0 }).setWord ptr vmpPteZeroCreate with
        tree := c.tree.erase (c.tableWsle t), nlocked := c.nlocked - 1 } : Core).level q →
          q ≠ t := by
    rintro q hq rfl
    change 1 ≤ (c.setPage q _).level q at hq
    rw [Core.setPage_level, if_pos rfl] at hq
    simp [PageUse.level] at hq
  have hleaf : ∀ q : PtePtr, c.level q.1 = 1 → ({ (c.setPage t { c.pages t with
      use := .deleted, nonzeroPtes := 0 }).setWord ptr vmpPteZeroCreate with
        tree := c.tree.erase (c.tableWsle t), nlocked := c.nlocked - 1 } : Core).entry q =
          c.entry q := fun q hq => Core.setWord_entry_ne _ _ _ _ (by rintro rfl; omega)
  have htab : ∀ q : PtePtr, c.entry q ≠ .zero → q.1 ≠ t := by
    rintro ⟨q, i⟩ hq rfl
    exact hq (hempty i)
  have hw : ∀ v x, c.Walks v x → (c.entry x).isMapped = true → ({ (c.setPage t { c.pages t with
      use := .deleted, nonzeroPtes := 0 }).setWord ptr vmpPteZeroCreate with
        tree := c.tree.erase (c.tableWsle t), nlocked := c.nlocked - 1 } : Core).Walks v x := by
    intro v x hx hm
    refine Descends.mono (P := (· ≠ t)) (fun q p wr hq => htab q (by rw [hq]; simp))
      (htab x fun hz => by rw [hz] at hm; cases hm) (fun q p wr hq hpt => ?_) hx
    refine Core.setWord_entry_ne _ _ _ _ ?_
    rintro rfl
    rw [hpe] at hq
    exact hpt (Fin.ext (Pte.valid.inj hq).1.symm)
  have hback : ∀ e ∈ c.tree, e.isPagetable = false → ∀ x, ({ (c.setPage t { c.pages t with
      use := .deleted, nonzeroPtes := 0 }).setWord ptr vmpPteZeroCreate with
        tree := c.tree.erase (c.tableWsle t), nlocked := c.nlocked - 1 } : Core).Walks e.vaddr x →
          c.Walks e.vaddr x := fun e he hp x hx => by
    obtain ⟨y, hy, -, hm, -⟩ := h.leaf e he hp
    rwa [(hw _ _ hy hm).unique hx] at hy
  refine ⟨(List.erase_sublist.map _).nodup h.keys, h.nodup, fun x hx => ?_, ?_,
    fun e he hp => ?_, fun q hq h3 hf => ?_, fun q hq h3 hf => ?_, fun e he hp => ?_,
    fun e he e' he' hp hp' y hy hy' => ?_, fun y h1 hmy hay => ?_, fun r hr => ?_⟩
  · exact (hne x).2 ⟨fun e => hnq (e ▸ hx), h.sub x hx⟩
  · have := h.nlocked
    change c.nlocked - 1 + c.queue.length = (c.tree.erase (c.tableWsle t)).length
    rw [List.length_erase_of_mem hmem]
    omega
  · obtain ⟨hex, he⟩ := (hne e).1 he
    obtain ⟨q, hql, h3, hf, rfl⟩ := h.table e he hp
    have hqt : q ≠ t := fun e => hex (by rw [e])
    exact ⟨q, by rw [hlv q hqt]; exact hql, by rw [hlv q hqt]; exact h3, gf ▸ hf, rfl⟩
  · have hqt := hlt q hq
    rw [hlv q hqt] at hq h3
    exact (hne _).2 ⟨fun e => hqt (Core.tableWsle_inj e), h.table_back q hq h3 (gf ▸ hf)⟩
  · have hqt := hlt q hq
    rw [hlv q hqt] at hq h3
    refine (h.table_queue q hq h3 (gf ▸ hf)).trans ?_
    change _ ↔ ((c.setPage t _).pages q).nonswapPtes = 0
    rw [Core.setPage_pages, if_neg hqt]
  · obtain ⟨y, hy, hay, hm, hv⟩ := h.leaf e ((hne e).1 he).2 hp
    have h1 := hd.level_of_walks hy
    exact ⟨y, hw _ _ hy hm, ga ▸ hay, by rw [hleaf y h1]; exact hm, by rw [hleaf y h1]; exact hv⟩
  · have het := ((hne e).1 he).2
    have het' := ((hne e').1 he').2
    exact h.leaf_unique e het e' het' hp hp' y (hback e het hp y hy) (hback e' het' hp' y hy')
  · have hyt := hlt y.1 (by omega)
    rw [hlv _ hyt] at h1
    rw [hleaf y h1] at hmy
    obtain ⟨e, he, hp, hwe⟩ := h.leaf_back y h1 hmy (ga ▸ hay)
    refine ⟨e, (hne e).2 ⟨?_, he⟩, hp, hw _ _ hwe hmy⟩
    rintro rfl
    cases hp
  · rw [gb] at hr
    obtain ⟨hwr, hx⟩ := h.busy r hr
    obtain ⟨-, ⟨a, ha⟩, -⟩ := hlf.busy_back r hr
    refine ⟨hw _ _ hwr (by rw [ha]; rfl), ga ▸ hx.imp_right fun hx => (hne _).2 ⟨?_, hx⟩⟩
    intro e
    exact absurd (congrArg Wsle.isPagetable e) (by simp [Core.tableWsle])

end Mirror

end VmmSim
