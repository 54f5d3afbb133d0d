import VmmSim.Reading

/-!
# A swap-in under way is pinned

While a fault sleeps in its read, the entry that it will write stays where it is: the tables on
the way to it stay locked, it stays busy, its page is out of everybody's reach, and its working
set entry stays locked (`swapIn_pinned`). This holds through every run of the other threads, until
the fault resumes (`swapIn_pinned_until`).
-/

namespace VmmSim

open Lib

/-- What a sleeping fault relies on. -/
structure Pinned (x : Sys) (sw : SwapIn) : Prop where
  /-- The entry lies in a live table of level 1, and the walk of the address reaches it. -/
  leaf : x.vm.IsLeaf sw.pte
  fetch : vmpFetchPte x.vm sw.vaddr = .ok (some sw.pte)
  /-- It is still the busy entry that the fault made. -/
  busy : x.vm.pte sw.pte = vmpPteBusyCreate sw.pagerState
  /-- Every table on the way but the root is locked in the working set. -/
  tables : ∃ pages, WalkTables x.vm.core sw.vaddr 1 (some sw.pte.1 :: pages) ∧
    ∀ t, some t ∈ some sw.pte.1 :: pages → x.vm.IsTable t ∧ (t ≠ x.vm.pml4Page →
      x.vm.tableWsle t ∈ x.vm.wsl.tree ∧ x.vm.tableWsle t ∉ x.vm.wsl.queue)
  /-- The page has a reference, is on no queue, and nothing else maps it or reads it. -/
  refcnt : 1 ≤ (x.vm.pages sw.page).refcnt
  offQueues : sw.page ∉ x.vm.freePgq ∧ sw.page ∉ x.vm.standbyPgq ∧ sw.page ∉ x.vm.modifiedPgq
  unmapped : ∀ ptr, ¬ x.vm.Names ptr sw.page
  alone : ∀ sw' ∈ x.swapIns, sw'.page = sw.page → sw'.pte = sw.pte
  /-- The working set entry of the address is present and locked. -/
  entry : vmpWslFind x.vm sw.vaddr = some ⟨sw.vaddr, false⟩ ∧
    ⟨sw.vaddr, false⟩ ∈ x.vm.wsl.tree ∧ ⟨sw.vaddr, false⟩ ∉ x.vm.wsl.queue

/-- The tables of a walk, each with the property that its last table and every table with a valid
entry have. -/
theorem exists_walkTables {c : Core} {g : Ledger} (hd : Dirs c g) {vaddr : ℕ} {ptr : PtePtr}
    {P : Pfn → Prop} (hdir : ∀ (q : PtePtr) (p : Pfn) (wr : Bool), c.entry q = .valid p.val wr → P q.1)
    (hlast : P ptr.1) : ∀ (n : ℕ) (t : Pfn) (pages : List (Option Pfn)),
    WalkTables c vaddr n (some t :: pages) → (∀ u, some u ∈ pages → P u) →
    Descends c.entry vaddr n t ptr →
    ∃ pages, WalkTables c vaddr 1 (some ptr.1 :: pages) ∧ ∀ u, some u ∈ some ptr.1 :: pages → P u := by
  intro n
  induction n with
  | zero => exact fun _ _ _ _ hw => hw.elim
  | succ n ih =>
    intro t pages ht hp hw
    rcases Nat.eq_zero_or_pos n with rfl | hn
    · obtain rfl : ptr = _ := hw
      exact ⟨pages, ht, fun u hu => by
        rcases List.mem_cons.1 hu with e | hu
        · exact Option.some.inj e ▸ hlast
        · exact hp u hu⟩
    · obtain ⟨p, wr, he, hw⟩ := (Descends.succ_iff hn).1 hw
      have hl : c.level t = n + 1 := ht.level hd
      have htrue : c.entry (t, vmpAddrUnpack vaddr (n + 1)) = .valid p.val true := by
        obtain hz | ⟨q, hq, -⟩ := hd.dir (t, vmpAddrUnpack vaddr (n + 1)) (by simp only; omega)
        · rw [hz] at he
          cases he
        · rw [hq] at he
          obtain ⟨he, -⟩ := Pte.valid.inj he
          rw [hq, he]
      refine ih p (some t :: pages) (.down ht (by omega) htrue) (fun u hu => ?_) hw
      rcases List.mem_cons.1 hu with e | hu
      · exact Option.some.inj e ▸ hdir _ p true htrue
      · exact hp u hu

/-- The tables of a walk depend on the entries and the root alone. -/
theorem WalkTables.congr {c c' : Core} {vaddr n : ℕ} {pages : List (Option Pfn)}
    (he : c'.entry = c.entry) (hr : c'.root = c.root) (h : WalkTables c vaddr n pages) :
    WalkTables c' vaddr n pages := by
  induction h with
  | root => exact hr ▸ .root
  | down _ hn hv ih => exact .down ih hn (by rw [he, hv])

/-- **A swap-in under way is pinned** in every reachable state. -/
theorem swapIn_pinned {x : Sys} (h : Reachable x) {sw : SwapIn} (hs : sw ∈ x.swapIns) : Pinned x sw := by
  obtain ⟨x₀, hb, hrun⟩ := h
  obtain ⟨y, g, rfl, hy, hread⟩ := exists_standing Terms.any_grant (reading_layer Guard.any) hb
    (hrun.mono fun op a _ => op.meets_any a)
  have hi := hy.good.inv
  have hb : sw.swapping ∈ g.busy := by
    rw [hy.busy]
    exact List.mem_map_of_mem hs
  obtain ⟨hl, ⟨a, ha⟩, hu, href, -⟩ := hi.leaves.busy_back _ hb
  obtain ⟨hw, hmem⟩ := hi.mirror.busy _ hb
  have hmem : (⟨sw.vaddr, false⟩ : Wsle) ∈ y.vm.wsl.tree :=
    hmem.resolve_left (by rw [hy.settled.absent]; nofun)
  have ha' : y.vm.core.entry sw.pte = .busy a := ha
  have hheld : g.held sw.page = 0 := hread.held _ hb id
  have hrc : (y.vm.pages sw.page).refcnt = 1 := by
    have := hi.frames.busy _ hb
    rwa [show g.held sw.swapping.page = 0 from hheld] at this
  have hfresh : ∀ p, g.fresh ≠ some p := fun p => by rw [hy.settled.fresh]; nofun
  have nonswap : ∀ (q : PtePtr), (y.vm.core.entry q).isNonswap = true →
      1 ≤ y.vm.core.level q.1 → 0 < (y.vm.pages q.1).nonswapPtes := fun q hq h1 => by
    have hpos : 0 < y.vm.core.count Pte.isNonswap q.1 := countWhere_pos (i := q.2) hq
    have hns : (y.vm.pages q.1).nonswapPtes = _ := hi.tables.nonswap q.1 h1
    omega
  refine ⟨(Sys.narrow_isLeaf _).2 hl, Sys.narrow_fetch.2 hw, ?_, ?_, ?_, ?_, fun ptr hn => ?_,
    fun sw' hs' hp => ?_, hi.mirror.find hmem, hmem, ?_⟩
  · exact view_busy_injective ha ((hy.reading sw hs).symm.trans ha)
  · obtain ⟨pages, ht, hp⟩ := exists_walkTables hi.dirs
      (P := fun t => 1 ≤ y.vm.core.level t → 0 < (y.vm.pages t).nonswapPtes)
      (fun q p wr he => nonswap q (by rw [he]; rfl)) (nonswap sw.pte (by rw [ha']; rfl)) _ _ []
      .root (by simp) hw
    refine ⟨pages, WalkTables.congr (c := y.vm.core) rfl rfl ht, fun t ht' => ?_⟩
    have h1 := ht.mem_level hi.dirs ht' le_rfl
    refine ⟨h1, fun hne => ?_⟩
    have h4 := (y.vm.core.use t).level_le
    have hroot : y.vm.core.level t ≠ 4 := fun e => hne (hi.dirs.root_only t e)
    have h3 : y.vm.core.level t ≤ 3 := by unfold Core.level at *; omega
    refine ⟨hi.mirror.table_back t h1 h3 (hfresh t), fun hq => ?_⟩
    have hzero : (y.vm.pages t).nonswapPtes = 0 := (hi.mirror.table_queue t h1 h3 (hfresh t)).1 hq
    have := hp t ht' h1
    omega
  · change 1 ≤ (y.vm.pages sw.page).narrow.refcnt
    rw [VmPage.narrow_refcnt_of_lt (by omega), hrc]
  · have hq := hy.good.queues
    refine ⟨fun hf => ?_, fun hf => ?_, fun hf => ?_⟩
    · have := ((hq.mem_free _).1 hf).1
      omega
    · have := ((hq.mem_standby _).1 hf).2.1
      omega
    · have := ((hq.mem_modified _).1 hf).1
      omega
  · exact hi.leaves.page_ne ((Sys.narrow_isLeaf ptr).1 hn.1) hn.2 hb rfl
  · have hb' : sw'.swapping ∈ g.busy := by
      rw [hy.busy]
      exact List.mem_map_of_mem hs'
    obtain ⟨-, -, -, href', -⟩ := hi.leaves.busy_back _ hb'
    rw [show sw'.swapping.page = sw.swapping.page from hp] at href'
    exact ptePaddr_injective (href'.symm.trans href)
  · intro hq
    obtain ⟨ptr, hw', -, -, hiff⟩ := hi.mirror.leaf _ hmem rfl
    obtain rfl := hw.unique hw'
    have := hiff.1 hq
    rw [ha] at this
    cases this

/-! ## Until the fault resumes -/

/-- The operation is the end of this sleeping fault. -/
def Op.Resumes (sw : SwapIn) (op : Op) (x : Sys) : Prop :=
  ∃ k sw', op = .swapFinish k ∧ x.swapIns[k]? = some sw' ∧ sw'.pte = sw.pte

/-- The sleeping fault, whose read may have been done. -/
def Sys.Sleeps (x : Sys) (sw : SwapIn) : Prop := ∃ b, { sw with wasRead := b } ∈ x.swapIns

theorem Sys.Sleeps.of_eq {x x' : Sys} {sw : SwapIn} (h : x.Sleeps sw)
    (hs : x'.swapIns = x.swapIns) : x'.Sleeps sw := by
  obtain ⟨b, hb⟩ := h
  exact ⟨b, hs ▸ hb⟩

/-- Operations of other threads leave a sleeping fault asleep. -/
theorem wp_step_sleeps {x : Sys} {sw : SwapIn} (h : x.Sleeps sw) {op : Op} (hop : ¬ op.Resumes sw x) :
    Wp (fun _ => True) (VmmSim.step op x) fun x' => x'.Sleeps sw := by
  cases op with
  | fault vaddr write out =>
    exact Wp.bind (wp_true _) fun _ _ => Wp.bind (wp_true _) fun _ _ =>
      Wp.bind (wp_true _) fun _ _ => h.of_eq rfl
  | faultMain pagerState =>
    simp only [VmmSim.step, faultMainStep]
    split
    · trivial
    · refine Wp.bind (wp_true _) fun _ _ => Wp.bind (wp_true _) fun _ _ => ?_
      split
      · exact h.of_eq (Sys.setMdl_swapIns _ _ _)
      · obtain ⟨b, hb⟩ := h
        refine ⟨b, ?_⟩
        simp only [Sys.setMdl_swapIns]
        exact List.mem_append_left _ hb
  | swapRead k =>
    simp only [VmmSim.step]
    split
    · trivial
    · rename_i sw' hk
      split
      · trivial
      · obtain ⟨b, hb⟩ := h
        -- the read may be this one's
        obtain ⟨i, hi⟩ := List.mem_iff_getElem?.1 hb
        by_cases hik : i = k
        · subst hik
          obtain rfl : sw' = _ := Option.some.inj (hk.symm.trans hi)
          refine ⟨true, List.mem_iff_getElem?.2 ⟨i, ?_⟩⟩
          exact List.getElem?_set_self (List.getElem?_eq_some_iff.1 hi).1
        · exact ⟨b, List.mem_iff_getElem?.2 ⟨i, (List.getElem?_set_ne (Ne.symm hik)).trans hi⟩⟩
  | swapFinish k =>
    simp only [VmmSim.step]
    refine Wp.bind (wp_true _) fun _ _ => ?_
    split
    · trivial
    · rename_i sw' hk
      split
      · trivial
      · refine Wp.bind (wp_true _) fun _ _ => Wp.bind (wp_true _) fun _ _ => ?_
        obtain ⟨b, hb⟩ := h
        refine ⟨b, ?_⟩
        simp only [Sys.setMdl_swapIns]
        obtain ⟨i, hi⟩ := List.mem_iff_getElem?.1 hb
        refine List.mem_eraseIdx_iff_getElem?.2 ⟨i, fun hik => ?_, hi⟩
        subst hik
        obtain rfl : sw' = _ := Option.some.inj (hk.symm.trans hi)
        exact hop ⟨i, _, rfl, hi, rfl⟩
  | wire vaddr =>
    exact Wp.bind (wp_true _) fun _ _ => Wp.bind (wp_true _) fun _ _ => h.of_eq rfl
  | unwire k =>
    simp only [VmmSim.step]
    refine Wp.bind (wp_true _) fun _ _ => ?_
    split
    · trivial
    · exact Wp.bind (wp_true _) fun _ _ => h.of_eq rfl
  | trim => exact Wp.bind (wp_true _) fun _ _ => Wp.bind (wp_true _) fun _ _ => h.of_eq rfl
  | pgwriter =>
    simp only [VmmSim.step, pgwriterTurn]
    split
    · split
      · split
        · exact h.of_eq rfl
        · exact Wp.bind (wp_true _) fun _ _ => h.of_eq rfl
      · exact h.of_eq rfl
    · split
      · trivial
      · exact h.of_eq rfl
    · split
      · exact h.of_eq rfl
      · exact Wp.bind (wp_true _) fun _ _ => h.of_eq rfl
  | alloc use must =>
    simp only [VmmSim.step]
    split
    · exact Wp.bind (wp_true _) fun _ _ => h.of_eq rfl
    · trivial
  | mdlAlloc npages => exact h.of_eq rfl
  | mdlRelease k i =>
    simp only [VmmSim.step]
    split
    · trivial
    · split
      · split
        · exact Wp.bind (wp_true _) fun _ _ => h.of_eq rfl
        · trivial
      · trivial
  | store vaddr data =>
    simp only [VmmSim.step]
    refine Wp.bind (wp_true _) fun _ _ => ?_
    split
    · trivial
    · exact Wp.bind (wp_true _) fun _ _ => h.of_eq rfl

/-- **A swap-in under way stays pinned** through every run of the other threads, until its fault
resumes. -/
theorem swapIn_pinned_until {x x' : Sys} (h : Reachable x) {sw : SwapIn} (hs : sw ∈ x.swapIns)
    (hr : Run step (fun op x => ¬ op.Resumes sw x) x x') :
    ∃ b, { sw with wasRead := b } ∈ x'.swapIns ∧ Pinned x' { sw with wasRead := b } := by
  have hsleeps : x'.Sleeps sw := hr.invariant (P := fun x => x.Sleeps sw) ⟨sw.wasRead, hs⟩
    fun op a b ha hc hab => (wp_step_sleeps ha hc).of_ok hab
  obtain ⟨x₀, hb, hrun⟩ := h
  have hreach : Reachable x' := ⟨x₀, hb, hrun.trans (hr.mono fun _ _ _ => trivial)⟩
  obtain ⟨b, hb⟩ := hsleeps
  exact ⟨b, hb, swapIn_pinned hreach hb⟩

/-- A fault, from its start to its end or its sleep. -/
def faultOn (vaddr : ℕ) (write : Bool) : List Op := [.fault vaddr write none, .faultMain 8]

/-- Seven pages are evicted and written to the pagefile, and two of them are stolen. -/
def stealTwo : List Op :=
  (List.range 7).flatMap (fun i => faultOn (4096 * i) true) ++ List.replicate 7 .trim ++
    List.replicate 22 .pgwriter ++ List.replicate 23 (.alloc .kWired true)

/-- What other threads do while a fault sleeps. -/
def others : List Op := .trim :: faultOn 12288 true

/-- A fault on one of the stolen pages stays asleep while another page is brought in. -/
theorem swapIn_pinned_others : ∃ x x' sw, simulate mainConfig (stealTwo ++ faultOn 4096 false) = .ok x ∧
    sw ∈ x.swapIns ∧ runSteps step others x = .ok x' ∧
      ∃ b, { sw with wasRead := b } ∈ x'.swapIns ∧ Pinned x' { sw with wasRead := b } := by
  obtain ⟨x, hx, hr⟩ := exists_of_readBack
    (r := simulate mainConfig (stealTwo ++ faultOn 4096 false))
    (f := fun x => (x.swapIns.isEmpty, returns (runSteps step others x))) (a := (false, true))
    (by decide +kernel)
  obtain ⟨hs, ho⟩ := Prod.mk.inj hr
  obtain ⟨x', hx'⟩ := exists_of_returns ho
  obtain ⟨sw, hsw⟩ := List.exists_mem_of_ne_nil x.swapIns (by rintro e; simp [e] at hs)
  refine ⟨x, x', sw, hx, hsw, hx', ?_⟩
  refine swapIn_pinned_until (reachable_of_simulate hx) hsw (run_of_steps hx' ?_)
  rintro op hop a ⟨k, -, rfl, -⟩
  simp [others, faultOn] at hop

end VmmSim
