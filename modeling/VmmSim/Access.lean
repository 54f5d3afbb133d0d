import VmmSim.Rewiring

/-!
# The retry loop of the MMU

`do_fault` from its start to its end when no other thread runs while it sleeps, `vm_fault`, and the
loop of `access`, which walks the tables and calls `vm_fault` until the walk goes through. Two calls
are always enough: the first leaves a page at the address, and the second, for a write, makes its
entry writeable, without any chance to evict the page in between.
-/

namespace VmmSim

open Lib

/-! ## Faults from start to end -/

/-- `do_fault`, when no other thread runs while it sleeps: its result, and the caller's list. -/
def doFault (s : State) (vaddr : ℕ) (write : Bool) (out : Option Mdl) (pagerState : ℕ) :
    Res (ℤ × Option Mdl × State) := do
  let (vad, state, s) ← faultWire s vaddr
  let (r, out, s) ← faultMain s vaddr write vad state out pagerState
  match r with
  | .ret r => return (r, out, s)
  | .sleep page =>
    let s := preadPage s page (drumOffset s page)
    let (out, s) ← swapInFinish s ⟨vaddr, state.pte, page, pagerState, none, true⟩ out
    return (0, out, s)

/-- `vm_fault`. A refused fault waits for pages. -/
def vmFault (s : State) (vaddr : ℕ) (write : Bool) (out : Option Mdl) (pagerState : ℕ) :
    Res (Option Mdl × State) := do
  let (r, out, s) ← doFault s vaddr write out pagerState
  if r = 0 then return (out, s)
  else if r = -1 then .error .wait
  else .error .kfatal

/-- `access`, which may call `vm_fault` once for each of the given addresses of pager states: the
entry through which the access goes, if it does. -/
def access (s : State) (addr : ℕ) (forWrite : Bool) (pagerStates : List ℕ) :
    Res (Option PtePtr × State) := do
  match ← accessTry s addr forWrite with
  | some ptr => return (some ptr, s)
  | none =>
    match pagerStates with
    | [] => return (none, s)
    | a :: pagerStates => do
      let (_, s) ← vmFault s addr forWrite none a
      access s addr forWrite pagerStates

/-! ## What a fault leaves -/

variable {s s' : State} {g g' : Ledger} {vaddr pagerState : ℕ} {write : Bool} {out : Option Mdl}

/-- The guard of a fault: it ends no swap-in but its own. -/
def Guard.alone : Guard := { Guard.any with finish := fun _ => False }

/-- What the first part of a fault leaves: the entry, if its tables were there, is as it was. -/
structure FaultWired (s : State) (g : Ledger) (vaddr : ℕ) (vad : Vad) (st : WireState)
    (s' : State) : Prop where
  vad : vmpPsVadFind s vaddr = some vad
  wired : WiredPte Guard.alone vaddr s g st s'
  kept : ∀ ptr, s.core.Walks vaddr ptr → st.pte = ptr ∧ s'.core.entry ptr = s.core.entry ptr

theorem wp_faultWire_alone (h : Good none s g) (hg : g.Settled) :
    Wp (fun _ => True) (faultWire s.narrow vaddr) fun r => ∃ s', r.2.2 = s'.narrow ∧
      FaultWired s g vaddr r.1 r.2.1 s' := by
  unfold faultWire
  rw [show vmpPsVadFind s.narrow vaddr = vmpPsVadFind s vaddr from rfl]
  split
  · trivial
  · rename_i vad hvad
    have wire := wp_vmpWirePte (K := Guard.alone) (P := fun _ => True) trivial
      (fun _ _ _ _ _ _ _ _ _ => trivial) h hg vaddr
      fun _ _ => wireAllocs_of_forall (fun _ => trivial) _ _ _ _
    refine Wp.bind (R := fun r => ∃ s', r.2 = s'.narrow ∧ FaultWired s g vaddr vad r.1 s')
      (Wp.intro (fun r hok => ?_) fun _ _ => trivial) ?_
    · obtain ⟨st, r⟩ := r
      obtain ⟨s', rfl, hw⟩ := wire.of_ok hok
      refine ⟨s', rfl, hvad, hw, fun ptr hwalk => ?_⟩
      obtain ⟨tables, -, -, hst, hr⟩ := vmpWirePte_of_walks h hg hwalk hok
      refine ⟨by rw [hst], ?_⟩
      have hmem : s'.mem = s.mem := (congrArg State.mem hr).trans (State.wireTables_mem s tables)
      exact congrArg (fun m : Pfn → Contents => view (m ptr.1 ptr.2)) hmem
    · rintro ⟨st, r⟩ ⟨s', rfl, hw⟩
      exact ⟨s', rfl, hw⟩

/-- What `do_fault` leaves. -/
structure FaultOver (s : State) (g : Ledger) (vaddr : ℕ) (write : Bool) (out : Option Mdl)
    (r : ℤ × Option Mdl × State) (s' : State) (g' : Ledger) : Prop where
  state : r.2.2 = s'.narrow
  good : Good none s' g'
  settled : g'.Settled
  served : r.1 = 0 → ∃ vad ptr e, s'.core.Walks vaddr ptr ∧
    (∀ x, s.core.Walks vaddr x → ptr = x ∧ e = s.core.entry x) ∧
      Served write vad out e (s'.core.entry ptr) r.2.1

/-- **What `do_fault` does when it runs alone.** -/
theorem wp_doFault (h : Good none s g) (hg : g.Settled) (ho : ∀ m ∈ out, m.Ok) :
    Wp (fun _ => True) (doFault s.narrow vaddr write out pagerState) fun r =>
      ∃ s' g', FaultOver s g vaddr write out r s' g' := by
  unfold doFault
  refine Wp.bind (wp_faultWire_alone h hg) ?_
  rintro ⟨vad, st, r⟩ ⟨s₁, rfl, hw⟩
  obtain ⟨d, hmade⟩ := hw.wired.made
  have hgood := hmade.good h
  have hset := Ledger.wire_settled hg d st.pages
  have hkept : ∀ x, s.core.Walks vaddr x → st.pte = x ∧ s₁.core.entry st.pte = s.core.entry x :=
    fun x hwalk => by
      obtain ⟨rfl, he⟩ := hw.kept x hwalk
      exact ⟨rfl, he⟩
  have ready : FaultReady s₁ (g.wire d st.pages) vaddr st :=
    ⟨hw.wired.walks, hw.wired.head, fun p => Nat.le_add_left _ _⟩
  refine Wp.bind (wp_faultMain (K := Guard.alone) trivial (fun _ => id) hgood hset ready ho
    ⟨fun _ _ _ _ => trivial, fun _ _ _ _ => trivial, fun _ _ _ _ => trivial,
      fun _ _ _ _ _ => trivial⟩) ?_
  rintro ⟨res, out', r⟩ ⟨s₂, g₂, rfl, hf, hsleep, hret⟩
  have hgood₂ := hf.made.good hgood
  cases res with
  | ret res =>
    refine ⟨s₂, g₂, rfl, hgood₂, hf.settled, fun hres => ?_⟩
    obtain ⟨hwalk, hserved⟩ := hret (congrArg FaultEnd.ret hres)
    exact ⟨vad, st.pte, _, hwalk, hkept, hserved⟩
  | sleep page =>
    obtain ⟨⟨slot, he⟩, -, rfl⟩ := hsleep page rfl
    have hbusy : (⟨vaddr, st.pte, page⟩ : Swapping) ∈ g₂.busy := by
      rw [hf.busy]
      exact List.mem_append_right _ (List.mem_singleton_self _)
    have hread : Good none (preadPage s₂ page (drumOffset s₂ page)) g₂ := by
      unfold preadPage
      split
      · exact hgood₂.setContents (hgood₂.inv.leaves.busy_back _ hbusy).2.2.1 _
      · exact hgood₂
    dsimp only
    rw [show drumOffset s₂.narrow page = drumOffset s₂ page from rfl, preadPage_narrow]
    refine Wp.bind (wp_swapInFinish (K := Guard.any) hread hf.settled
      ⟨vaddr, st.pte, page, pagerState, none, true⟩ hbusy trivial hf.ok) ?_
    rintro ⟨out₃, r⟩ ⟨s₃, g₃, rfl, hres⟩
    refine ⟨s₃, g₃, rfl, hres.made.good hread, hres.settled, fun _ =>
      ⟨vad, st.pte, _, hres.walks, hkept, ?_⟩⟩
    rw [he, hres.entry, show out₃ = _ from hres.filled]
    exact .swapIn slot page hres.slot

/-! ## The walk of the MMU goes on or ends -/

/-- The MMU ends a walk of its own, or goes on: it follows no wild pointer. -/
theorem mmuWalkFrom_returns (hd : Dirs s.core g) (addr : ℕ) : ∀ (n : ℕ) (t : Pfn),
    s.core.level t = n → 1 ≤ n → ∃ r, mmuWalkFrom s addr n t = .ok r := by
  intro n
  induction n with
  | zero => exact fun _ _ hn => absurd hn (by decide)
  | succ n ih =>
    intro t hl _
    simp only [mmuWalkFrom]
    by_cases hv : hwValid (s.pte (t, vmpAddrUnpack addr (n + 1))) = 1
    · rw [if_neg (by simpa using hv)]
      by_cases hn : n = 0
      · exact ⟨_, if_pos hn⟩
      · rw [if_neg hn]
        obtain hz | ⟨p, hp, hlp, -⟩ := hd.dir (t, vmpAddrUnpack addr (n + 1)) (by simp only; omega)
        · cases (view_of_valid hv).symm.trans hz
        · have hview : view (s.pte (t, vmpAddrUnpack addr (n + 1))) = .valid p.val true := hp
          rw [hwTable_of_view hview, ok_bind]
          exact ih p (by simp only at hlp; omega) (by omega)
    · exact ⟨_, if_pos hv⟩

theorem mmuWalkFrom_of_descends {addr : ℕ} {ptr : PtePtr} {p : Pfn} {wr : Bool} :
    ∀ {n : ℕ} {t : Pfn}, Descends s.core.entry addr n t ptr → s.core.entry ptr = .valid p.val wr →
      mmuWalkFrom s addr n t = .ok (some ptr) := by
  intro n
  induction n with
  | zero => exact fun hw => hw.elim
  | succ n ih =>
    intro t hw he
    cases n with
    | zero =>
      obtain rfl : ptr = _ := hw
      have hview : view (s.pte (t, vmpAddrUnpack addr 1)) = .valid p.val wr := he
      simp only [mmuWalkFrom, hwValid_of_view hview, ne_eq, not_true_eq_false, if_false, if_true]
    | succ n =>
      obtain ⟨q, wr', hq, hw⟩ := hw
      have hview : view (s.pte (t, vmpAddrUnpack addr (n + 2))) = .valid q.val wr' := hq
      rw [mmuWalkFrom]
      simp only [hwValid_of_view hview, ne_eq, not_true_eq_false, if_false, Nat.succ_ne_zero,
        hwTable_of_view hview, ok_bind]
      exact ih hw he

theorem mmuWalkFrom_narrow (s : State) (addr : ℕ) : ∀ (n : ℕ) (t : Pfn),
    mmuWalkFrom s.narrow addr n t = mmuWalkFrom s addr n t
  | 0, _ => rfl
  | n + 1, t => by
    simp only [mmuWalkFrom, State.narrow_pte, mmuWalkFrom_narrow s addr n]

theorem accessTry_narrow (s : State) (addr : ℕ) (forWrite : Bool) :
    accessTry s.narrow addr forWrite = accessTry s addr forWrite := by
  rw [accessTry, accessTry, mmuWalkFrom_narrow, State.narrow_pte, State.narrow_pml4Page]

theorem accessTry_returns (h : Good none s g) (addr : ℕ) (forWrite : Bool) :
    ∃ r, accessTry s addr forWrite = .ok r := by
  obtain ⟨r, hr⟩ := mmuWalkFrom_returns h.inv.dirs addr vmpTableLevels s.pml4Page
    h.inv.dirs.level_root (by decide)
  unfold accessTry
  rw [hr, ok_bind]
  cases r with
  | none => exact ⟨_, rfl⟩
  | some ptr =>
    dsimp only
    split <;> exact ⟨_, rfl⟩

/-- Once a page is there, with the right to write to it if need be, the access goes through. -/
theorem accessTry_of_walks {addr : ℕ} {forWrite : Bool} {ptr : PtePtr} {p : Pfn} {wr : Bool}
    (hw : s.core.Walks addr ptr) (he : s.core.entry ptr = .valid p.val wr)
    (hwr : forWrite = true → wr = true) : accessTry s addr forWrite = .ok (some ptr) := by
  have hview : view (s.pte ptr) = .valid p.val wr := he
  have hwriteable : vmpPteHwIsWriteable (s.pte ptr) = wr := by
    rw [view_of_valid (hwValid_of_view hview)] at hview
    exact (Pte.valid.inj hview).2
  rw [accessTry, show s.pml4Page = s.core.root from rfl, mmuWalkFrom_of_descends hw he, ok_bind]
  dsimp only
  rw [hwriteable, if_neg]
  · rfl
  · rintro ⟨hf, hn⟩
    exact hn (hwr hf)

/-! ## The loop ends -/

/-- Each `vm_fault` that the loop calls is served: no page is refused, and no assertion fails. -/
def FaultsServed (addr : ℕ) (forWrite : Bool) : List ℕ → State → Prop
  | [], _ => True
  | a :: pagerStates, s => accessTry s addr forWrite = .ok none →
    ∃ r, vmFault s addr forWrite none a = .ok r ∧ FaultsServed addr forWrite pagerStates r.2

/-- What the loop of `access` has ended with: the entry that the walk of the address reaches. -/
structure Accessed (addr : ℕ) (forWrite : Bool) (ptr : PtePtr) (s : State) : Prop where
  fetch : vmpFetchPte s addr = .ok (some ptr)
  valid : vmpPteCharacterise (s.pte ptr) = .ok .valid
  writeable : forWrite = true → vmpPteHwIsWriteable (s.pte ptr) = true

theorem vmFault_eq_ok {s : State} {addr a : ℕ} {r : Option Mdl × State}
    (h : vmFault s addr write out a = .ok r) : doFault s addr write out a = .ok (0, r) := by
  obtain ⟨⟨n, out', s'⟩, hf, h⟩ := bind_eq_ok.1 h
  dsimp only at h
  split at h
  · rename_i hn
    rw [hf, hn, show r = (out', s') from (Except.ok.inj h).symm]
  · split at h <;> cases h

theorem access_of_try {s : State} {addr : ℕ} {forWrite : Bool} {ptr : PtePtr}
    (h : accessTry s addr forWrite = .ok (some ptr)) (pagerStates : List ℕ) :
    access s addr forWrite pagerStates = .ok (some ptr, s) := by
  rw [access.eq_def, h]
  rfl

theorem access_of_fault {s : State} {addr a : ℕ} {forWrite : Bool} {pagerStates : List ℕ}
    {r : Option Mdl × State} (h : accessTry s addr forWrite = .ok none)
    (hf : vmFault s addr forWrite none a = .ok r) :
    access s addr forWrite (a :: pagerStates) = access r.2 addr forWrite pagerStates := by
  rw [access.eq_def, h]
  simp only [ok_bind, hf]

/-- Where the loop returns, its faults were served. -/
theorem faultsServed_of_access {addr : ℕ} {forWrite : Bool} {pagerStates : List ℕ} :
    ∀ {s : State} {r : Option PtePtr × State}, access s addr forWrite pagerStates = .ok r →
      FaultsServed addr forWrite pagerStates s := by
  induction pagerStates with
  | nil => exact fun _ => trivial
  | cons a pagerStates ih =>
    intro s r h htry
    rw [access.eq_def, htry, ok_bind] at h
    obtain ⟨r', hf, h⟩ := bind_eq_ok.1 h
    exact ⟨r', hf, ih h⟩

theorem accessed_of_try {s : State} {addr : ℕ} {forWrite : Bool} {ptr : PtePtr}
    (h : accessTry s addr forWrite = .ok (some ptr)) : Accessed addr forWrite ptr s := by
  obtain ⟨r, hr, h⟩ := bind_eq_ok.1 h
  cases r with
  | none => cases h
  | some r =>
    dsimp only at h
    split at h
    · cases h
    · rename_i hwr
      cases h
      obtain ⟨hd, hv⟩ := mmuWalkFrom_eq_some hr
      refine ⟨vmpFetchPte_eq_some_iff.2 hd, ?_, fun hw => ?_⟩
      · rw [characterise_eq_kind, view_of_valid hv]
        rfl
      · by_contra hn
        exact hwr ⟨hw, hn⟩

/-- A write through an entry that is valid, but not writeable, makes it writeable. -/
theorem Served.upgrades {vad : Vad} {out out' : Option Mdl} {n : ℕ} {e' : Pte}
    (h : Served true vad out (.valid n false) e' out') : ∃ p : Pfn, e' = .valid p.val true := by
  generalize he : Pte.valid n false = e at h
  cases h with
  | zeroFill => cases he
  | soft => cases he
  | swapIn => cases he
  | resident p wr hwr =>
    cases he
    cases hwr rfl
  | upgrade p => exact ⟨p, rfl⟩

/-- The loop has ended, or its next fault is served. -/
theorem access_round (h : Good none s g) (hg : g.Settled) {addr a : ℕ} {forWrite : Bool}
    {pagerStates : List ℕ} (hf : FaultsServed addr forWrite (a :: pagerStates) s.narrow) :
    (∃ ptr, access s.narrow addr forWrite (a :: pagerStates) = .ok (some ptr, s.narrow) ∧
      Accessed addr forWrite ptr s.narrow) ∨
    ∃ s' g', access s.narrow addr forWrite (a :: pagerStates) =
        access s'.narrow addr forWrite pagerStates ∧
      FaultsServed addr forWrite pagerStates s'.narrow ∧
      ∃ out, FaultOver s g addr forWrite none (0, out, s'.narrow) s' g' := by
  obtain ⟨r, hr⟩ := accessTry_returns h addr forWrite
  rw [← accessTry_narrow] at hr
  cases r with
  | some ptr => exact .inl ⟨ptr, access_of_try hr _, accessed_of_try hr⟩
  | none =>
    obtain ⟨⟨out, s₁⟩, hfault, hrest⟩ := hf hr
    have served : Wp _ (doFault s.narrow addr forWrite none a) _ :=
      wp_doFault h hg fun m hm => by cases hm
    obtain ⟨s', g', hover⟩ := served.of_ok (vmFault_eq_ok hfault)
    obtain rfl : s₁ = s'.narrow := hover.state
    exact .inr ⟨s', g', access_of_fault hr hfault, hrest, out, hover⟩

/-- **The retry loop of `access` ends** after at most two faults. -/
theorem access_ends {x : Sys} (h : Reachable x) {addr : ℕ} {forWrite : Bool} {a b : ℕ}
    (hf : FaultsServed addr forWrite [a, b] x.vm) :
    ∃ ptr s', access x.vm addr forWrite [a, b] = .ok (some ptr, s') ∧
      Accessed addr forWrite ptr s' := by
  obtain ⟨y, g, rfl, hy⟩ := h.standing
  have ended : ∀ {s' : State} {ptr : PtePtr} {p : Pfn} {wr : Bool} {l : List ℕ},
      s'.core.Walks addr ptr → s'.core.entry ptr = .valid p.val wr →
      (forWrite = true → wr = true) → ∃ ptr s'', access s'.narrow addr forWrite l =
        .ok (some ptr, s'') ∧ Accessed addr forWrite ptr s'' := fun hw he hwr => by
    have htry := accessTry_of_walks hw he hwr
    rw [← accessTry_narrow] at htry
    exact ⟨_, _, access_of_try htry _, accessed_of_try htry⟩
  obtain ⟨ptr, hend, hok⟩ | ⟨s₁, g₁, hnext, hrest, _, hover⟩ := access_round hy.good hy.settled hf
  · exact ⟨ptr, _, hend, hok⟩
  rw [show y.narrow.vm = y.vm.narrow from rfl, hnext]
  obtain ⟨vad, ptr, e, hw, -, hserved⟩ := hover.served rfl
  obtain ⟨p, wr, he⟩ := hserved.valid
  by_cases hwr : forWrite = true → wr = true
  · exact ended hw he hwr
  -- the page is there, and the second fault makes its entry writeable
  obtain ⟨rfl, rfl⟩ : forWrite = true ∧ wr = false := by simpa using hwr
  obtain ⟨ptr₂, hend, hok⟩ | ⟨s₂, g₂, hnext₂, -, _, hover₂⟩ :=
    access_round hover.good hover.settled hrest
  · exact ⟨ptr₂, _, hend, hok⟩
  rw [hnext₂]
  obtain ⟨vad₂, ptr₂, e₂, hw₂, hkept, hserved₂⟩ := hover₂.served rfl
  obtain ⟨rfl, rfl⟩ := hkept ptr hw
  rw [he] at hserved₂
  obtain ⟨q, hq⟩ := hserved₂.upgrades
  exact ended hw₂ hq fun _ => rfl

/-- A store to a page that was evicted: one fault brings it back, and one makes it writeable. -/
theorem access_ends_evicted : ∃ x ptr s', simulate mainConfig (faultOn 0 false ++ [.trim]) = .ok x ∧
    access x.vm 0 true [8, 8] = .ok (some ptr, s') ∧ Accessed 0 true ptr s' := by
  obtain ⟨x, hx, hr⟩ := exists_of_readBack (r := simulate mainConfig (faultOn 0 false ++ [.trim]))
    (f := fun x => returns (access x.vm 0 true [8, 8])) (a := true) (by decide +kernel)
  obtain ⟨r, hr⟩ := exists_of_returns hr
  obtain ⟨ptr, s', hend, hok⟩ := access_ends (reachable_of_simulate hx) (faultsServed_of_access hr)
  exact ⟨x, ptr, s', hx, hend, hok⟩

end VmmSim
