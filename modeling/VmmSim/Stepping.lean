import VmmSim.Standing

/-!
# The operations as turns

Each operation of the simulator, from a state that stands, ends in one that stands or halts; what
it did is a turn (`wp_step`). The threads that hold the working set lock make moves; the page
writer, the reads and the programs touch pages of data alone.
-/

namespace VmmSim

open Lib

variable {T : Terms} {K : Guard} {x : Sys} {g g' : Ledger}

/-- An operation ends in a turn. -/
def Turns (K : Guard) (x : Sys) (g : Ledger) (r : Sys) : Prop :=
  ∃ x' g', r = x'.narrow ∧ x'.Good g' ∧ Turned K x g x' g'

namespace Sys.Good

/-- A page that may be stolen is in no list. -/
theorem allocsOk (h : x.Good g) (hT : T.Grant K) (F : Swapping → Prop) :
    AllocsOk (x.guard K F) T.alloc g := by
  intro s g' hgood hset hheld hP p hfree hhead
  have hp : p ∈ s.standbyPgq := List.mem_of_head? hhead
  obtain ⟨ptr, hl, -, he⟩ := hgood.standby hset hp
  have hrc := hgood.inv.frames.trans ptr p hl he
  have h0 := ((hgood.queues.mem_standby p).1 hp).2.1
  refine ⟨hT.steal s hP p hfree hhead, ?_⟩
  rw [← h.held, ← hheld, ← hrc]
  exact h0

theorem stealOk (h : x.Good g) (hT : T.Grant K) (F : Swapping → Prop) (ha : T.alloc x.narrow.vm) :
    StealOk (x.guard K F) x.vm := h.allocsOk hT F _ g h.good h.settled rfl ha

/-- The page that is about to be written stays where it is. -/
theorem pending_kept (h : x.Good g) {p : Pfn} (hp : x.pending = some p) {F : Swapping → Prop}
    {c' : Core} (hm : Moves (x.guard K F) x.vm.core g c' g') : c'.use p = .anonPrivate ∧
      (c'.pages p).drumslot = (x.vm.pages p).drumslot ∧ c'.mem p = x.vm.mem p := by
  have hheld := x.heldBy_pending hp
  obtain ⟨hu, -, hd, hw⟩ := hm.settledPage h.good.inv (q := p)
    (fun c hk => by have := hk.2; omega) (h.good.inv.frames.held_frame p (by rw [h.held]; exact hheld))
    (by rw [h.settled.loose]; nofun)
  exact ⟨hu, hd, hw⟩

/-- The entries of the faults that sleep stay busy. -/
theorem reading_kept (h : x.Good g) {c' : Core} {F : Swapping → Prop}
    (hm : Moves (x.guard K F) x.vm.core g c' g') {sw : SwapIn} (hs : sw ∈ x.swapIns)
    (hF : ¬ F sw.swapping) :
    c'.entry sw.pte = view (vmpPteBusyCreate sw.pagerState) := by
  have hb : sw.swapping ∈ g.busy := by
    rw [h.busy]
    exact List.mem_map_of_mem hs
  exact ((hm.busy h.good.inv hF hb).2).trans (h.reading sw hs)

/-- Moves that leave the page writer alone, or keep it from writing, leave a state that stands. -/
theorem of_moves (h : x.Good g) {x' : Sys} {F : Swapping → Prop}
    (hm : Made (x.guard K F) none x.vm g x'.vm g') (hset : g'.Settled) (hns : g'.ns = x'.wiredBy)
    (hnz : g'.nz = x'.wiredBy) (hheld : g'.held = x'.heldBy)
    (hbusy : g'.busy = x'.swapIns.map SwapIn.swapping)
    (hreading : ∀ sw ∈ x'.swapIns, x'.vm.core.entry sw.pte = view (vmpPteBusyCreate sw.pagerState))
    (hfault : ∀ f ∈ x'.fault, x'.vm.core.Walks f.vaddr f.state.pte ∧
      f.state.pages.head? = some (some f.state.pte.1) ∧ vmpPsVadFind x'.vm f.vaddr = some f.vad)
    (hmdls : ∀ m ∈ x'.mdls, m.Ok)
    (hpg : ∀ offset, x'.pgwriter.phase = .send offset →
      x.pgwriter.phase = .send offset ∧ x'.pending = x.pending) : x'.Good g' := by
  refine ⟨hm.good h.good, hset, hns, hnz, hheld, hbusy, hreading, hfault, hmdls, fun offset ho => ?_,
    h.sized.of_sizes hm.sizes⟩
  obtain ⟨hs, hp⟩ := hpg offset ho
  obtain ⟨p, hxp, hoff⟩ := h.send offset hs
  have hslot : (x'.vm.pages p).drumslot = (x.vm.pages p).drumslot := (h.pending_kept hxp hm.moves).2.1
  exact ⟨p, hp.trans hxp, by rw [hoff, drumOffset, drumOffset, hslot]⟩

/-- The fault that holds the lock keeps its entry while nothing is mapped. -/
theorem fault_kept (h : x.Good g) {s' : State} (hc : Calm x.vm.core s'.core) :
    ∀ f ∈ x.fault, s'.core.Walks f.vaddr f.state.pte ∧
      f.state.pages.head? = some (some f.state.pte.1) ∧ vmpPsVadFind s' f.vaddr = some f.vad := by
  intro f hf
  obtain ⟨hw, hh, hv⟩ := h.fault f hf
  refine ⟨(hc.walks h.good.inv.dirs).2 hw, hh, ?_⟩
  rw [vmpPsVadFind, show s'.vadTree = x.vm.vadTree from hc.vads]
  exact hv

end Sys.Good

/-! ## Locks and lists -/

theorem wp_lockWs : Wp (fun _ => True) x.narrow.lockWs fun _ => x.fault = none := by
  unfold Sys.lockWs
  refine Wp.ite (fun _ => trivial) fun h => ?_
  simpa [Sys.narrow] using h

/-- A caller's list, if there is one. -/
def Sys.ListAt (x : Sys) : Option ℕ → Option Mdl → Prop
  | none, out => out = none
  | some k, out => ∃ m, x.mdls[k]? = some m ∧ out = some m

theorem wp_mdl (h : x.Good g) (k : Option ℕ) :
    Wp (fun _ => True) (x.narrow.mdl k) fun out => x.ListAt k out ∧ ∀ m ∈ out, m.Ok := by
  cases k with
  | none => exact ⟨rfl, nofun⟩
  | some k =>
    simp only [Sys.mdl, Sys.narrow]
    split
    · trivial
    · rename_i m hm
      refine ⟨⟨m, hm, rfl⟩, ?_⟩
      rintro _ ⟨⟩
      exact h.mdls m (List.mem_of_getElem? hm)

theorem Sys.setMdl_narrow (x : Sys) (k : Option ℕ) (out : Option Mdl) :
    x.narrow.setMdl k out = (x.setMdl k out).narrow := by
  cases k <;> cases out <;> rfl

section SetMdl

variable (x) (k : Option ℕ) (out : Option Mdl)

@[simp] theorem Sys.setMdl_vm : (x.setMdl k out).vm = x.vm := by cases k <;> cases out <;> rfl

@[simp] theorem Sys.setMdl_fault : (x.setMdl k out).fault = x.fault := by
  cases k <;> cases out <;> rfl

@[simp] theorem Sys.setMdl_swapIns : (x.setMdl k out).swapIns = x.swapIns := by
  cases k <;> cases out <;> rfl

@[simp] theorem Sys.setMdl_wires : (x.setMdl k out).wires = x.wires := by
  cases k <;> cases out <;> rfl

@[simp] theorem Sys.setMdl_pgwriter : (x.setMdl k out).pgwriter = x.pgwriter := by
  cases k <;> cases out <;> rfl

@[simp] theorem Sys.setMdl_stored : (x.setMdl k out).stored = x.stored := by
  cases k <;> cases out <;> rfl

end SetMdl

/-- Putting a list back changes what lists hold by what it gained. -/
theorem Sys.heldBy_setMdl {k : Option ℕ} {out out' : Option Mdl} (hk : x.ListAt k out)
    (ho : out'.isSome = out.isSome) {x' : Sys} (hm : x'.mdls = (x.setMdl k out').mdls)
    (hp : x'.pgwriter = x.pgwriter) (p : Pfn) :
    x'.heldBy p + mdlSlots out p = x.heldBy p + mdlSlots out' p := by
  rw [heldBy, hm, hp, heldBy]
  cases k with
  | none =>
    obtain rfl : out = none := hk
    obtain rfl : out' = none := by simpa using ho
    rfl
  | some k =>
    obtain ⟨m, hkm, rfl⟩ := hk
    obtain ⟨m', rfl⟩ := Option.isSome_iff_exists.1 ho
    have := sum_map_set (fun m : Mdl => m.pages.count (some p)) hkm m'
    simp only [setMdl, mdlSlots]
    omega

theorem Sys.setMdl_ok {k : Option ℕ} {out : Option Mdl} (h : ∀ m ∈ x.mdls, m.Ok)
    (ho : ∀ m ∈ out, m.Ok) : ∀ m ∈ (x.setMdl k out).mdls, m.Ok := by
  cases k with
  | none => exact h
  | some k =>
    cases out with
    | none => exact h
    | some out =>
      intro m hm
      rcases List.mem_or_eq_of_mem_set hm with hm | rfl
      · exact h m hm
      · exact ho _ rfl

/-! ## Operations under the working set lock -/

theorem wp_faultWire (h : x.Good g) (hT : T.Grant K) (vaddr : ℕ)
    (hm : wirePteAllocs T.alloc x.narrow.vm vaddr) :
    Wp (fun _ => True) (faultWire x.narrow.vm vaddr) fun r => ∃ s', r.2.2 = s'.narrow ∧
      vmpPsVadFind x.vm vaddr = some r.1 ∧
      WiredPte (x.guard K fun _ => False) vaddr x.vm g r.2.1 s' := by
  unfold faultWire
  rw [show vmpPsVadFind x.narrow.vm vaddr = vmpPsVadFind x.vm vaddr from rfl]
  split
  · trivial
  · rename_i vad hvad
    refine Wp.bind (wp_vmpWirePte (K := x.guard K fun _ => False) trivial (h.allocsOk hT _) h.good
      h.settled vaddr hm) ?_
    rintro ⟨st, r⟩ ⟨s', rfl, hw⟩
    exact ⟨s', rfl, hvad, hw⟩

theorem wp_stepFault (h : x.Good g) (hT : T.Grant K) (vaddr : ℕ) (write : Bool) (out : Option ℕ)
    (hm : wirePteAllocs T.alloc x.narrow.vm vaddr) :
    Wp (fun _ => True) (step (.fault vaddr write out) x.narrow) (Turns K x g) := by
  refine Wp.bind wp_lockWs fun _ hlock => Wp.bind (wp_true _) fun _ _ => ?_
  refine Wp.bind (wp_faultWire h hT vaddr hm) ?_
  rintro ⟨vad, st, r⟩ ⟨s', rfl, hvad, hw⟩
  obtain ⟨d, hmade⟩ := hw.made
  have hwired : ∀ p, Sys.wiredBy { x with vm := s', fault := some ⟨vaddr, write, out, vad, st⟩ } p =
      x.wiredBy p + st.pages.count (some p) := fun p => by
    simp only [Sys.wiredBy, hlock, Option.elim]
    omega
  refine ⟨{ x with vm := s', fault := some ⟨vaddr, write, out, vad, st⟩ }, g.wire d st.pages, rfl,
    h.of_moves hmade (Ledger.wire_settled h.settled d _) ?_ ?_ h.held h.busy
      (fun sw hs => h.reading_kept hmade.moves hs id) ?_ h.mdls (fun _ ho => ⟨ho, rfl⟩),
    .moves _ nofun hmade.moves rfl rfl fun _ => .inl⟩
  · funext p
    rw [hwired, Ledger.wire, h.ns]
  · funext p
    rw [hwired, Ledger.wire, h.nz]
  · rintro _ ⟨⟩
    refine ⟨hw.walks, hw.head, ?_⟩
    rw [vmpPsVadFind, show s'.vadTree = x.vm.vadTree from hmade.moves.vads]
    exact hvad

theorem wp_stepWire (h : x.Good g) (hT : T.Grant K) (vaddr : ℕ)
    (hm : wirePteAllocs T.alloc x.narrow.vm vaddr) :
    Wp (fun _ => True) (step (.wire vaddr) x.narrow) (Turns K x g) := by
  refine Wp.bind wp_lockWs fun _ hlock => ?_
  refine Wp.bind (wp_vmpWirePte (K := x.guard K fun _ => False) trivial (h.allocsOk hT _) h.good
    h.settled vaddr hm) ?_
  rintro ⟨st, r⟩ ⟨s', rfl, hw⟩
  obtain ⟨d, hmade⟩ := hw.made
  have hwired : ∀ p, Sys.wiredBy { x with vm := s', wires := x.wires ++ [st] } p =
      x.wiredBy p + st.pages.count (some p) := fun p => by
    simp only [Sys.wiredBy, sum_map_append_singleton]
    omega
  refine ⟨{ x with vm := s', wires := x.wires ++ [st] }, g.wire d st.pages, rfl,
    h.of_moves hmade (Ledger.wire_settled h.settled d _) ?_ ?_ h.held h.busy
      (fun sw hs => h.reading_kept hmade.moves hs id) (by rw [hlock]; nofun) h.mdls
      (fun _ ho => ⟨ho, rfl⟩),
    .moves _ nofun hmade.moves rfl rfl fun _ => .inl⟩
  · funext p
    rw [hwired, Ledger.wire, h.ns]
  · funext p
    rw [hwired, Ledger.wire, h.nz]

theorem wp_stepUnwire (h : x.Good g) (k : ℕ) :
    Wp (fun _ => True) (step (.unwire k) x.narrow) (Turns K x g) := by
  refine Wp.bind wp_lockWs fun _ hlock => ?_
  rw [show x.narrow.wires = x.wires from rfl]
  split
  · trivial
  · rename_i st hst
    have hsum := fun p => sum_map_eraseIdx (fun st : WireState => st.pages.count (some p)) hst
    have release := wp_releaseWired (K := x.guard K fun _ => False) trivial st.pages h.good h.settled
      fun p => by
        have := hsum p
        rw [h.nz, Sys.wiredBy]
        omega
    refine Wp.bind ((releaseWired_narrow st.pages x.vm).wp release.weaken fun _ _ => trivial) ?_
    rintro r ⟨s', rfl, hmade, -⟩
    have hwired : ∀ p, Sys.wiredBy { x with vm := s', wires := x.wires.eraseIdx k } p =
        x.wiredBy p - st.pages.count (some p) := fun p => by
      have := hsum p
      simp only [Sys.wiredBy]
      omega
    refine ⟨{ x with vm := s', wires := x.wires.eraseIdx k }, g.unwireAll st.pages, rfl,
      h.of_moves hmade ⟨h.settled.loose, h.settled.unref, h.settled.fresh, h.settled.absent⟩ ?_ ?_
        h.held h.busy (fun sw hs => h.reading_kept hmade.moves hs id) (by rw [hlock]; nofun) h.mdls
        (fun _ ho => ⟨ho, rfl⟩),
      .moves _ nofun hmade.moves rfl rfl fun _ => .inl⟩
    · funext p
      rw [hwired, Ledger.unwireAll, h.ns]
    · funext p
      rw [hwired, Ledger.unwireAll, h.nz]

theorem wp_stepTrim (h : x.Good g) : Wp (fun _ => True) (step .trim x.narrow) (Turns K x g) := by
  refine Wp.bind wp_lockWs fun _ hlock => ?_
  have trim := wp_wslTrim1 (K := x.guard K fun _ => False) h.good
    (fun q hq => by rw [h.settled.loose] at hq; cases hq)
  refine Wp.bind ((wslTrim1_narrow x.vm).wp trim.weaken fun _ _ => trivial) ?_
  rintro _ ⟨⟨e, s'⟩, rfl, ht, -⟩
  have hmade := ht.made.mono
  exact ⟨{ x with vm := s' }, g, rfl,
    h.of_moves hmade h.settled h.ns h.nz h.held h.busy
      (fun sw hs => h.reading_kept hmade.moves hs id) (by rw [hlock]; nofun) h.mdls
      (fun _ ho => ⟨ho, rfl⟩),
    .moves _ nofun hmade.moves rfl rfl fun _ => .inl⟩

/-! ## Faults and swap-ins -/

/-- The swap-in that the end of a fault leaves. -/
def FaultEnd.swapIns (f : FaultAct) (pagerState : ℕ) : FaultEnd → List SwapIn
  | .ret _ => []
  | .sleep page => [⟨f.vaddr, f.state.pte, page, pagerState, f.out, false⟩]

/-- The simulator after the second part of a fault. -/
def Sys.endFault (x : Sys) (f : FaultAct) (pagerState : ℕ) (r : FaultEnd) (out : Option Mdl)
    (s : State) : Sys :=
  { ({ x with vm := s, fault := none } : Sys).setMdl f.out out with
    swapIns := x.swapIns ++ r.swapIns f pagerState }

section EndFault

variable (x) (f : FaultAct) (pagerState : ℕ) (r : FaultEnd) (out : Option Mdl) (s : State)

@[simp] theorem Sys.endFault_vm : (x.endFault f pagerState r out s).vm = s := Sys.setMdl_vm _ _ _

@[simp] theorem Sys.endFault_fault : (x.endFault f pagerState r out s).fault = none :=
  Sys.setMdl_fault _ _ _

@[simp] theorem Sys.endFault_wires : (x.endFault f pagerState r out s).wires = x.wires :=
  Sys.setMdl_wires _ _ _

@[simp] theorem Sys.endFault_pgwriter : (x.endFault f pagerState r out s).pgwriter = x.pgwriter :=
  Sys.setMdl_pgwriter _ _ _

@[simp] theorem Sys.endFault_stored : (x.endFault f pagerState r out s).stored = x.stored :=
  Sys.setMdl_stored _ _ _

@[simp] theorem Sys.endFault_swapIns : (x.endFault f pagerState r out s).swapIns =
    x.swapIns ++ r.swapIns f pagerState := rfl

@[simp] theorem Sys.endFault_mdls : (x.endFault f pagerState r out s).mdls =
    (x.setMdl f.out out).mdls := by
  unfold endFault
  cases f.out <;> cases out <;> rfl

theorem Sys.endFault_ret (n : ℤ) : (x.endFault f pagerState (.ret n) out s).narrow =
    ({ x.narrow with vm := s.narrow, fault := none } : Sys).setMdl f.out out := by
  rw [Sys.endFault, FaultEnd.swapIns, List.append_nil]
  cases f.out <;> cases out <;> rfl

theorem Sys.endFault_sleep (page : Pfn) :
    (x.endFault f pagerState (.sleep page) out s).narrow =
      { ({ x.narrow with vm := s.narrow, fault := none } : Sys).setMdl f.out out with
        swapIns := (({ x.narrow with vm := s.narrow, fault := none } : Sys).setMdl f.out out).swapIns ++
          [⟨f.vaddr, f.state.pte, page, pagerState, f.out, false⟩] } := by
  obtain ⟨_, _, k, _, _⟩ := f
  cases k <;> cases out <;> rfl

end EndFault

theorem wp_stepFaultMain (h : x.Good g) (hT : T.Grant K) (pagerState : ℕ)
    (hm : (Op.faultMain pagerState).Meets T x.narrow) :
    Wp (fun _ => True) (step (.faultMain pagerState) x.narrow) (Turns K x g) := by
  change Wp _ (faultMainStep x.narrow pagerState) _
  unfold faultMainStep
  rw [show x.narrow.fault = x.fault from rfl]
  cases hx : x.fault with
  | none => trivial
  | some f =>
    obtain ⟨hwalks, hhead, hvad⟩ := h.fault f hx
    obtain ⟨halloc, hup, hin⟩ := hm f hx
    refine Wp.bind (wp_mdl h f.out) fun out ⟨hlist, hok⟩ => ?_
    have howed : ∀ p, x.wiredBy p = f.state.pages.count (some p) +
        (x.wires.map fun st => st.pages.count (some p)).sum := fun p => by
      simp only [Sys.wiredBy, hx, Option.elim]
    have ready : FaultReady x.vm g f.vaddr f.state := ⟨hwalks, hhead, fun p => by
      rw [h.nz, howed]
      omega⟩
    have allowed : FaultAllowed (x.guard K fun _ => False) x.vm f.write f.vad f.state := by
      refine ⟨fun he => h.stealOk hT _ (halloc he), fun _ hw c hc => ?_, fun n he hw hcow => ?_,
        fun slot he c hc hd => hT.swapIn x.vm slot c (hin slot he) hd⟩
      · refine hT.write c f.vaddr _ f.vad ((hc.walks h.good.inv.dirs).2 hwalks) ?_
          (.inl (Bool.and_eq_true_iff.1 hw).2)
        rw [show c.vads = x.vm.vadTree from hc.vads]
        exact hvad
      · exact hT.write _ f.vaddr _ f.vad hwalks hvad (.inr (hup n he hw hcow))
    refine Wp.bind (wp_faultMain (K := x.guard K fun _ => False) trivial
      (fun _ => id) h.good h.settled ready hok allowed) ?_
    rintro ⟨res, out', r⟩ ⟨s', g', rfl, hf, hsleep, -⟩
    have hwired : (x.endFault f pagerState res out' s').wiredBy =
        fun p => x.wiredBy p - f.state.pages.count (some p) := by
      funext p
      rw [howed]
      simp [Sys.wiredBy]
    have hheld : g'.held = (x.endFault f pagerState res out' s').heldBy := by
      funext p
      have h₃ := Sys.heldBy_setMdl hlist hf.some_iff (x.endFault_mdls f pagerState res out' s')
        (x.endFault_pgwriter f pagerState res out' s') p
      have h₄ := hf.held p
      rw [h.held] at h₄
      omega
    have hpending : (x.endFault f pagerState res out' s').pending = x.pending := by
      simp only [Sys.pending, Sys.endFault_pgwriter]
    suffices hturns : Turns K x g (x.endFault f pagerState res out' s').narrow by
      cases res with
      | ret r =>
        rw [Sys.endFault_ret] at hturns
        exact hturns
      | sleep page =>
        rw [Sys.endFault_sleep] at hturns
        exact hturns
    refine ⟨x.endFault f pagerState res out' s', g', rfl,
      h.of_moves (K := K) (F := fun _ => False) ?_ hf.settled ?_ ?_ hheld ?_ ?_ ?_ ?_ ?_,
      .moves (fun _ => False) nofun ?_ hpending (x.endFault_stored ..) ?_⟩
    · rw [Sys.endFault_vm]
      exact hf.made
    · rw [hwired, hf.ns, h.ns]
    · rw [hwired, hf.nz, h.nz]
    · rw [hf.busy, h.busy, Sys.endFault_swapIns, List.map_append]
      cases res <;> rfl
    · rw [Sys.endFault_swapIns, Sys.endFault_vm]
      intro sw hs
      rcases List.mem_append.1 hs with hs | hs
      · exact h.reading_kept hf.made.moves hs id
      · cases res with
        | ret r => cases hs
        | sleep page =>
          obtain rfl := List.mem_singleton.1 hs
          exact (hsleep page rfl).2.1
    · rw [Sys.endFault_fault]
      nofun
    · rw [Sys.endFault_mdls]
      exact Sys.setMdl_ok h.mdls hf.ok
    · rw [Sys.endFault_pgwriter]
      exact fun _ ho => ⟨ho, hpending⟩
    · rw [Sys.endFault_vm]
      exact hf.made.moves
    · intro sw hs
      rcases List.mem_append.1 hs with hs | hs
      · exact .inl hs
      · cases res with
        | ret r => cases hs
        | sleep page =>
          obtain rfl := List.mem_singleton.1 hs
          exact .inr rfl

theorem Sys.Good.busy_nodup (h : x.Good g) : (x.swapIns.map SwapIn.pte).Nodup := by
  have hb := h.good.inv.leaves.busy_nodup
  rwa [h.busy, List.map_map] at hb

theorem map_swapping_erase {l : List SwapIn} {k : ℕ} {sw : SwapIn} (h : l[k]? = some sw)
    (hn : (l.map SwapIn.pte).Nodup) :
    (l.map SwapIn.swapping).erase sw.swapping = (l.eraseIdx k).map SwapIn.swapping := by
  induction l generalizing k with
  | nil => simp at h
  | cons a l ih =>
    obtain ⟨ha, hn⟩ := List.nodup_cons.1 hn
    cases k with
    | zero =>
      obtain rfl : a = sw := by simpa using h
      simp
    | succ k =>
      have hk : l[k]? = some sw := by simpa using h
      have hne : a.swapping ≠ sw.swapping := fun e =>
        ha (List.mem_map.2 ⟨sw, List.mem_of_getElem? hk, congrArg Swapping.pte e.symm⟩)
      rw [List.map_cons, List.erase_cons_tail (by simpa using hne), ih hk hn]
      rfl

/-- The other faults that sleep have other entries. -/
theorem Sys.Good.pte_ne_of_eraseIdx (h : x.Good g) {k : ℕ} {sw sw' : SwapIn}
    (hk : x.swapIns[k]? = some sw) (hs : sw' ∈ x.swapIns.eraseIdx k) : sw'.pte ≠ sw.pte := by
  intro e
  have hn := h.busy_nodup
  obtain ⟨i, hi, hsw⟩ := List.mem_eraseIdx_iff_getElem?.1 hs
  have hi' : (x.swapIns.map SwapIn.pte)[i]? = some sw.pte := by simp [hsw, e]
  have hk' : (x.swapIns.map SwapIn.pte)[k]? = some sw.pte := by simp [hk]
  exact hi ((List.getElem?_inj (List.getElem?_eq_some_iff.1 hi').1 hn).1 (hi'.trans hk'.symm))

theorem wp_stepSwapFinish (h : x.Good g) (k : ℕ) :
    Wp (fun _ => True) (step (.swapFinish k) x.narrow) (Turns K x g) := by
  refine Wp.bind wp_lockWs fun _ hlock => ?_
  rw [show x.narrow.swapIns = x.swapIns from rfl]
  split
  · trivial
  · rename_i sw hsw
    split
    · trivial
    · rename_i hread
      have hmem := List.mem_of_getElem? hsw
      refine Wp.bind (wp_mdl h sw.out) fun out ⟨hlist, hok⟩ => ?_
      have hbusy : sw.swapping ∈ g.busy := by
        rw [h.busy]
        exact List.mem_map_of_mem hmem
      refine Wp.bind (wp_swapInFinish (K := x.guard K fun r => r = sw.swapping) h.good h.settled
        sw hbusy rfl hok) ?_
      rintro ⟨out', r⟩ ⟨s', g', rfl, hf⟩
      have hmdls : (({ x with vm := s', swapIns := x.swapIns.eraseIdx k } : Sys).setMdl sw.out
          out').mdls = (x.setMdl sw.out out').mdls := by cases sw.out <;> cases out' <;> rfl
      have hpending : (({ x with vm := s', swapIns := x.swapIns.eraseIdx k } : Sys).setMdl sw.out
          out').pending = x.pending := by
        simp only [Sys.pending, Sys.setMdl_pgwriter]
      refine ⟨({ x with vm := s', swapIns := x.swapIns.eraseIdx k } : Sys).setMdl sw.out out', g',
        Sys.setMdl_narrow { x with vm := s', swapIns := x.swapIns.eraseIdx k } _ _,
        h.of_moves (K := K) (F := fun r => r = sw.swapping) ?_ hf.settled ?_ ?_ ?_ ?_ ?_ ?_ ?_ ?_,
        .moves (fun r => r = sw.swapping) ?_ ?_ hpending (Sys.setMdl_stored ..) ?_⟩
      · rw [Sys.setMdl_vm]
        exact hf.made
      · funext p
        simp [hf.ns, h.ns, Sys.wiredBy]
      · funext p
        simp [hf.nz, h.nz, Sys.wiredBy]
      · funext p
        have h₁ := Sys.heldBy_setMdl hlist hf.some_iff hmdls (Sys.setMdl_pgwriter _ _ _) p
        have h₂ := hf.held p
        rw [h.held] at h₂
        omega
      · rw [hf.busy, h.busy, Sys.setMdl_swapIns, map_swapping_erase hsw h.busy_nodup]
      · rw [Sys.setMdl_swapIns, Sys.setMdl_vm]
        intro sw' hs
        exact h.reading_kept hf.made.moves (List.mem_of_mem_eraseIdx hs) fun e =>
          h.pte_ne_of_eraseIdx hsw hs (congrArg Swapping.pte e)
      · rw [Sys.setMdl_fault]
        simp only [hlock]
        nofun
      · rw [hmdls]
        exact Sys.setMdl_ok h.mdls hf.ok
      · rw [Sys.setMdl_pgwriter]
        exact fun _ ho => ⟨ho, hpending⟩
      · rintro r rfl
        refine ⟨sw, hmem, rfl, by simpa using hread, fun sw' hs => ?_⟩
        rw [Sys.setMdl_swapIns] at hs
        exact h.pte_ne_of_eraseIdx hsw hs
      · rw [Sys.setMdl_vm]
        exact hf.made.moves
      · rw [Sys.setMdl_swapIns]
        exact fun sw' hs => .inl (List.mem_of_mem_eraseIdx hs)

/-! ## Allocations and lists of callers -/

theorem Made.of_core {s s' : State} {skip : Option Pfn} (hc : s'.core = s.core)
    (hq : s'.Queues skip) (hw : s.SameWsl s') : Made K skip s g s' g := ⟨by rw [hc], hq, hw.sizes⟩

theorem PageUse.isForeign_handed {use : PageUse} (h : use.isForeign = true) :
    use.Handed ∧ use.level = 0 ∧ use ≠ .anonPrivate := by
  have key : use.isForeign = true →
      use ≠ .free ∧ use ≠ .deleted ∧ use.level = 0 ∧ use ≠ .anonPrivate := by
    cases use <;> decide
  obtain ⟨hf, hd, hl, ha⟩ := key h
  exact ⟨⟨hf, hd, by omega⟩, hl, ha⟩

theorem Ledger.handedOut_foreign (g : Ledger) (hg : g.Settled) (p : Pfn) {use : PageUse}
    (hu : use.isForeign = true) : g.handedOut p use = g := by
  obtain ⟨-, hl, hne⟩ := PageUse.isForeign_handed hu
  obtain ⟨h₁, -, h₃, -⟩ := hg
  cases g
  simp_all [Ledger.handedOut]

theorem wp_stepAlloc (h : x.Good g) (hT : T.Grant K) (use : PageUse) (must : Bool)
    (ha : T.alloc x.narrow.vm) :
    Wp (fun _ => True) (step (.alloc use must) x.narrow) (Turns K x g) := by
  refine Wp.ite (fun hu => ?_) fun _ => trivial
  refine Wp.bind (wp_alloc (K := x.guard K fun _ => False) h.good h.settled (h.stealOk hT _ ha)
    (PageUse.isForeign_handed hu).1 must).weaken ?_
  rintro ⟨p, r⟩ ⟨s', rfl, hs'⟩
  have hmade : ∃ d, Made (x.guard K fun _ => False).calm none x.vm g s' { g with drift := d } := by
    cases p with
    | none => exact ⟨g.drift, .of_core hs'.1 hs'.2.1 hs'.2.2⟩
    | some p =>
      obtain ⟨d, hd⟩ := hs'.made
      exact ⟨d, hd.cast (Ledger.handedOut_foreign { g with drift := d } ⟨h.settled.loose,
        h.settled.unref, h.settled.fresh, h.settled.absent⟩ p hu)⟩
  obtain ⟨d, hmade⟩ := hmade
  have hcalm := hmade.calm h.good.inv
  have hm := hmade.mono
  exact ⟨{ x with vm := s' }, { g with drift := d }, rfl,
    h.of_moves hm ⟨h.settled.loose, h.settled.unref, h.settled.fresh, h.settled.absent⟩ h.ns h.nz
      h.held h.busy (fun sw hs => h.reading_kept hm.moves hs id) (h.fault_kept hcalm) h.mdls
      (fun _ ho => ⟨ho, rfl⟩),
    .moves _ nofun hm.moves rfl rfl fun _ => .inl⟩

theorem vmMdlAlloc_ok (npages : ℕ) : (vmMdlAlloc npages).Ok :=
  ⟨rfl, fun i p _ h => by simp [vmMdlAlloc, List.getElem?_replicate] at h⟩

theorem wp_stepMdlAlloc (h : x.Good g) (npages : ℕ) :
    Wp (fun _ => True) (step (.mdlAlloc npages) x.narrow) (Turns K x g) := by
  have hheld : Sys.heldBy { x with mdls := x.mdls ++ [vmMdlAlloc npages] } = x.heldBy := by
    funext p
    simp [Sys.heldBy, vmMdlAlloc, List.count_replicate]
  refine ⟨{ x with mdls := x.mdls ++ [vmMdlAlloc npages] }, g, rfl,
    ⟨h.good, h.settled, h.ns, h.nz, h.held.trans hheld.symm, h.busy, h.reading, h.fault, ?_, h.send,
      h.sized⟩,
    .moves (fun _ => False) nofun .refl rfl rfl fun _ => .inl⟩
  intro m hm
  rcases List.mem_append.1 hm with hm | hm
  · exact h.mdls m hm
  · obtain rfl := List.mem_singleton.1 hm
    exact vmMdlAlloc_ok npages

/-- A reference that a list holds is released. -/
theorem wp_unhold (h : x.Good g) {p : Pfn} (hp : 1 ≤ g.held p) :
    Wp (fun _ => True) (vmpPageReleaseLocked x.narrow.vm p) fun r => ∃ s', r = s'.narrow ∧
      Made (x.guard K fun _ => False).calm none x.vm g s' { g with held := decAt g.held p } := by
  have release := wp_vmpPageReleaseLocked_unhold (K := (x.guard K fun _ => False).calm) h.good hp
  refine ((vmpPageReleaseLocked_narrow x.vm p).wp release.weaken fun _ _ => trivial).mono ?_
  rintro r ⟨s', rfl, hm, -⟩
  exact ⟨s', rfl, hm⟩

theorem Mdl.Ok.clear {m : Mdl} (h : m.Ok) (i : ℕ) : ({ m with pages := m.pages.set i none } : Mdl).Ok := by
  refine ⟨h.aligned, fun j p hj => ?_⟩
  rw [List.getElem?_set]
  split
  · split <;> simp
  · exact h.empty j p hj

theorem count_set_some {l : List (Option Pfn)} {i : ℕ} {p : Pfn} (h : l[i]? = some (some p))
    (q : Pfn) : (l.set i none).count (some q) + (if q = p then 1 else 0) = l.count (some q) := by
  obtain ⟨hi, hl⟩ := List.getElem?_eq_some_iff.1 h
  have hpos : 0 < l.count (some p) := List.count_pos_iff.2 (List.mem_of_getElem? h)
  rw [List.count_set hi, hl]
  by_cases hq : q = p
  · subst hq
    simp
    omega
  · simp [hq, Ne.symm hq]

theorem wp_stepMdlRelease (h : x.Good g) (k i : ℕ) :
    Wp (fun _ => True) (step (.mdlRelease k i) x.narrow) (Turns K x g) := by
  simp only [step]
  rw [show x.narrow.mdls = x.mdls from rfl]
  split
  · trivial
  · rename_i m hm
    refine Wp.ite (fun hi => ?_) fun _ => trivial
    split
    · rename_i p hp
      have hcount := count_set_some hp
      have hsum := fun q => sum_map_set (fun m : Mdl => m.pages.count (some q)) hm
        { m with pages := m.pages.set i none }
      have hheld : ∀ q, Sys.heldBy { x with
          mdls := x.mdls.set k { m with pages := m.pages.set i none } } q +
            (if q = p then 1 else 0) = x.heldBy q := fun q => by
        have h₁ := hcount q
        have h₂ := hsum q
        simp only [Sys.heldBy] at h₁ h₂ ⊢
        omega
      have hpos : 1 ≤ g.held p := by
        have := hheld p
        rw [if_pos rfl] at this
        rw [h.held]
        omega
      refine Wp.bind (wp_unhold (K := K) h hpos) ?_
      rintro r ⟨s', rfl, hmade⟩
      have hmoves := hmade.mono
      refine ⟨{ x with
          vm := s'
          mdls := x.mdls.set k { m with pages := m.pages.set i none } }, _, rfl,
        h.of_moves hmoves ⟨h.settled.loose, h.settled.unref, h.settled.fresh, h.settled.absent⟩
          h.ns h.nz ?_ h.busy (fun sw hs => h.reading_kept hmoves.moves hs id)
          (h.fault_kept (hmade.calm h.good.inv)) ?_ (fun _ ho => ⟨ho, rfl⟩),
        .moves _ nofun hmoves.moves rfl rfl fun _ => .inl⟩
      · funext q
        have := hheld q
        have e : Sys.heldBy { x with
            vm := s'
            mdls := x.mdls.set k { m with pages := m.pages.set i none } } q =
          Sys.heldBy { x with
            mdls := x.mdls.set k { m with pages := m.pages.set i none } } q := rfl
        simp only [decAt_apply, h.held, e]
        split at this
        · rw [if_pos ‹_›, ← ‹q = p›]
          omega
        · rw [if_neg ‹_›]
          omega
      · intro m' hm'
        rcases List.mem_or_eq_of_mem_set hm' with hm' | rfl
        · exact h.mdls m' hm'
        · exact (h.mdls m (List.mem_of_getElem? hm)).clear i
    · trivial

/-! ## The page writer, the reads and the programs -/

/-- What the threads remember of the tables. -/
structure Sys.Remembered (x : Sys) (s : State) : Prop where
  reading : ∀ sw ∈ x.swapIns, s.core.entry sw.pte = view (vmpPteBusyCreate sw.pagerState)
  fault : ∀ f ∈ x.fault, s.core.Walks f.vaddr f.state.pte ∧
    f.state.pages.head? = some (some f.state.pte.1) ∧ vmpPsVadFind s f.vaddr = some f.vad

/-- It stays right while the words of the tables are left alone. -/
theorem Sys.Good.remembered (h : x.Good g) {s' : State}
    (he : ∀ ptr : PtePtr, 1 ≤ x.vm.core.level ptr.1 → s'.core.entry ptr = x.vm.core.entry ptr)
    (hr : s'.pml4Page = x.vm.pml4Page) (hv : s'.vadTree = x.vm.vadTree) : x.Remembered s' := by
  refine ⟨fun sw hs => ?_, fun f hf => ?_⟩
  · have hb : sw.swapping ∈ g.busy := by
      rw [h.busy]
      exact List.mem_map_of_mem hs
    exact (he _ (h.good.inv.leaves.busy_back _ hb).1.ge).trans (h.reading sw hs)
  · obtain ⟨hw, hh, hvad⟩ := h.fault f hf
    refine ⟨(h.good.inv.dirs.walks_congr (fun ptr hl => he ptr (by omega)) hr).2 hw, hh, ?_⟩
    rw [vmpPsVadFind, hv]
    exact hvad

theorem Picked.remembered (h : x.Good g) {p : Pfn} {offset : ℕ} {s' : State}
    (hp : Picked x.vm g p offset s') : x.Remembered s' := by
  obtain ⟨slot, pf, -, hcore, -⟩ := hp.core
  refine h.remembered (fun ptr _ => ?_) (congrArg Core.root hcore) (congrArg Core.vads hcore)
  rw [hcore]
  rfl

theorem Picked.drumOffset {s s' : State} {p : Pfn} {offset : ℕ} (hp : Picked s g p offset s') :
    offset = VmmSim.drumOffset s' p := by
  obtain ⟨slot, pf, ho, hcore, -⟩ := hp.core
  have hpage := congrArg (fun c : Core => (c.pages p).drumslot) hcore
  simp only [Core.setPage, Function.update_self] at hpage
  rw [ho, VmmSim.drumOffset, show (s'.pages p).drumslot = slot from hpage]

theorem Sys.heldBy_append {p : Pfn} {ph : PgPhase} {s : State} :
    Sys.heldBy { x with vm := s, pgwriter := ⟨ph, x.pgwriter.batch ++ [p]⟩ } = incAt x.heldBy p := by
  funext q
  simp only [heldBy, incAt_apply, List.count_append, List.count_singleton]
  by_cases hq : q = p
  · subst hq
    simp
    omega
  · simp [hq, Ne.symm hq]

theorem wp_pgwriterCollect (h : x.Good g) (hph : x.pgwriter.phase = .collect) :
    Wp (fun _ => True) (step .pgwriter x.narrow) (Turns K x g) := by
  have hnone : x.pending = none := by simp only [Sys.pending, hph]
  have hidle : ∀ s : State, s.core = x.vm.core → s.Queues none → x.vm.SameWsl s →
      Turns K x g ({ x with vm := s, pgwriter.phase := .release } : Sys).narrow := fun s hc hq hw => by
    have hrem : x.Remembered s := h.remembered (fun ptr _ => by rw [hc]) (congrArg Core.root hc)
      (congrArg Core.vads hc)
    have hpend : ({ x with vm := s, pgwriter.phase := .release } : Sys).pending = none := rfl
    exact ⟨_, g, rfl, h.of_moves (K := K) (F := fun _ => False) (.of_core hc hq hw) h.settled h.ns
      h.nz h.held h.busy hrem.reading hrem.fault h.mdls nofun,
      .moves (fun _ => False) nofun (by rw [hc]) (hpend.trans hnone.symm) rfl fun _ => .inl⟩
  simp only [step, pgwriterTurn]
  rw [show x.narrow.pgwriter = x.pgwriter from rfl, hph]
  refine Wp.ite (fun _ => ?_) fun _ => hidle x.vm rfl h.good.queues ⟨rfl, rfl⟩
  rw [show x.narrow.vm.modifiedPgq = x.vm.modifiedPgq from rfl]
  split
  · exact hidle { x.vm with pgwriterEvent := false } rfl h.good.queues ⟨rfl, rfl⟩
  · rename_i p q hq
    refine Wp.bind (wp_pgwriterPick h.good h.settled (p := p) (by rw [hq]; simp)).weaken ?_
    rintro ⟨offset, r⟩ ⟨s', rfl, hp⟩
    have hrem := hp.remembered h
    have hpend : ({ x with
        vm := s'
        pgwriter := ⟨.send offset, x.pgwriter.batch ++ [p]⟩ } : Sys).pending = some p := by
      simp [Sys.pending]
    refine ⟨{ x with vm := s', pgwriter := ⟨.send offset, x.pgwriter.batch ++ [p]⟩ },
      { g with held := incAt g.held p }, rfl, ⟨hp.good,
        ⟨h.settled.loose, h.settled.unref, h.settled.fresh, h.settled.absent⟩, h.ns, h.nz, ?_, h.busy,
        hrem.reading, hrem.fault, h.mdls, ?_, h.sized.of_sizes hp.sizes⟩,
      .pick p offset hp rfl hnone hpend rfl rfl⟩
    · rw [Sys.heldBy_append, h.held]
    · rintro _ ⟨⟩
      exact ⟨p, hpend, hp.drumOffset⟩

theorem slotAt_bound {s : State} {offset slot : ℕ} (h : slotAt s offset = some slot) :
    slot < s.pagefile.totalSlots ∧ offset = slot * pgSize := by
  unfold slotAt at h
  split at h
  · rename_i hc
    obtain rfl := Option.some.inj h
    exact ⟨hc.2, by simp only [pgSize] at *; omega⟩
  · cases h

theorem pwritePage_core (s : State) (p : Pfn) (offset : ℕ) :
    (pwritePage s p offset).core = match slotAt s offset with
      | some slot => { s.core with
          drum := Function.update s.drum slot (s.mem p)
          unsaved := Function.update s.unsaved p false }
      | none => s.core := by
  unfold pwritePage
  cases slotAt s offset <;> rfl

theorem Good.pwritePage {s : State} (h : Good none s g) (p : Pfn) (offset : ℕ) :
    Good none (VmmSim.pwritePage s p offset) g := by
  unfold VmmSim.pwritePage
  split
  · exact ⟨h.queues, h.inv.of_eq rfl rfl rfl rfl rfl rfl rfl rfl⟩
  · exact h

theorem pwritePage_wsl (s : State) (p : Pfn) (offset : ℕ) : s.SameWsl (pwritePage s p offset) := by
  unfold pwritePage
  split <;> exact ⟨rfl, rfl⟩

theorem pwritePage_narrow (s : State) (p : Pfn) (offset : ℕ) :
    pwritePage s.narrow p offset = (pwritePage s p offset).narrow := by
  unfold pwritePage
  rw [show slotAt s.narrow offset = slotAt s offset from rfl]
  split <;> rfl

theorem wp_pgwriterSend (h : x.Good g) {offset : ℕ} (hph : x.pgwriter.phase = .send offset) :
    Wp (fun _ => True) (step .pgwriter x.narrow) (Turns K x g) := by
  obtain ⟨p, hp, ho⟩ := h.send offset hph
  have hlast : x.pgwriter.batch.getLast? = some p := by simpa only [Sys.pending, hph] using hp
  simp only [step, pgwriterTurn, show x.narrow.pgwriter = x.pgwriter from rfl, hph, hlast,
    show x.narrow.vm = x.vm.narrow from rfl, pwritePage_narrow]
  have hcore : ∀ {α : Type} (f : Core → α), (∀ d u, f { x.vm.core with drum := d, unsaved := u } =
      f x.vm.core) → f (pwritePage x.vm p offset).core = f x.vm.core := fun f hf => by
    rw [pwritePage_core]
    split
    · exact hf _ _
    · rfl
  have hrem : x.Remembered (pwritePage x.vm p offset) := h.remembered
    (fun ptr _ => hcore (fun c => c.entry ptr) fun _ _ => rfl)
    (hcore Core.root fun _ _ => rfl) (hcore Core.vads fun _ _ => rfl)
  exact ⟨{ x with vm := pwritePage x.vm p offset, pgwriter.phase := .collect }, g, rfl,
    ⟨h.good.pwritePage p offset, h.settled, h.ns, h.nz, h.held, h.busy, hrem.reading, hrem.fault,
      h.mdls, nofun, h.sized.of_sizes (pwritePage_wsl ..).sizes⟩,
    .send p (by rw [ho]) rfl hp rfl rfl rfl⟩

theorem wp_pgwriterRelease (h : x.Good g) (hph : x.pgwriter.phase = .release) :
    Wp (fun _ => True) (step .pgwriter x.narrow) (Turns K x g) := by
  have hnone : x.pending = none := by simp only [Sys.pending, hph]
  simp only [step, pgwriterTurn]
  rw [show x.narrow.pgwriter = x.pgwriter from rfl, hph]
  cases hb : x.pgwriter.batch with
  | nil =>
    have hheld : Sys.heldBy { x with pgwriter := ⟨.collect, []⟩ } = x.heldBy := by
      funext p
      simp only [Sys.heldBy, hb]
    exact ⟨{ x with pgwriter := ⟨.collect, []⟩ }, g, rfl, ⟨h.good, h.settled, h.ns, h.nz,
      h.held.trans hheld.symm, h.busy, h.reading, h.fault, h.mdls, nofun, h.sized⟩,
      .moves (fun _ => False) nofun .refl hnone.symm rfl fun _ => .inl⟩
  | cons p batch =>
    have hheld : ∀ q, Sys.heldBy { x with pgwriter := ⟨.release, batch⟩ } q +
        (if q = p then 1 else 0) = x.heldBy q := fun q => by
      simp only [Sys.heldBy, hb, List.count_cons]
      by_cases hq : q = p
      · subst hq
        simp
        omega
      · simp [hq, Ne.symm hq]
    have hpos : 1 ≤ g.held p := by
      have := hheld p
      rw [if_pos rfl] at this
      rw [h.held]
      omega
    refine Wp.bind (wp_unhold (K := K) h hpos) ?_
    rintro r ⟨s', rfl, hmade⟩
    have hmoves := hmade.mono
    refine ⟨{ x with vm := s', pgwriter := ⟨.release, batch⟩ }, _, rfl,
      h.of_moves hmoves ⟨h.settled.loose, h.settled.unref, h.settled.fresh, h.settled.absent⟩
        h.ns h.nz ?_ h.busy (fun sw hs => h.reading_kept hmoves.moves hs id)
        (h.fault_kept (hmade.calm h.good.inv)) h.mdls nofun,
      .moves _ nofun hmoves.moves hnone.symm rfl fun _ => .inl⟩
    funext q
    have := hheld q
    have e : Sys.heldBy { x with vm := s', pgwriter := ⟨.release, batch⟩ } q =
      Sys.heldBy { x with pgwriter := ⟨.release, batch⟩ } q := rfl
    simp only [decAt_apply, h.held, e]
    split at this
    · rw [if_pos ‹_›, ← ‹q = p›]
      omega
    · rw [if_neg ‹_›]
      omega

/-- New words in a page of data. -/
theorem Good.setContents {s : State} (h : Good none s g) {p : Pfn} (hu : s.core.use p = .anonPrivate)
    (d : Contents) : Good none (s.setContents p d) g := ⟨h.queues, h.inv.setWords hu d⟩

/-- They are no entries. -/
theorem Sys.Good.remembered_setContents (h : x.Good g) {p : Pfn}
    (hu : x.vm.core.use p = .anonPrivate) (d : Contents) : x.Remembered (x.vm.setContents p d) :=
  h.remembered (fun ptr hl => Core.setWords_entry_ne x.vm.core p ptr d fun e => by
    rw [e, x.vm.core.level_of_plain (.inr hu)] at hl
    omega) rfl rfl

theorem preadPage_narrow (s : State) (p : Pfn) (offset : ℕ) :
    preadPage s.narrow p offset = (preadPage s p offset).narrow := by
  unfold preadPage
  rw [show slotAt s.narrow offset = slotAt s offset from rfl]
  split <;> rfl

theorem Sys.Good.preadPage (h : x.Good g) {p : Pfn} (hu : x.vm.core.use p = .anonPrivate)
    (offset : ℕ) : VmmSim.Good none (VmmSim.preadPage x.vm p offset) g ∧
      x.Remembered (VmmSim.preadPage x.vm p offset) := by
  unfold VmmSim.preadPage
  split
  · exact ⟨h.good.setContents hu _, h.remembered_setContents hu _⟩
  · exact ⟨h.good, h.reading, h.fault⟩

theorem preadPage_pages (s : State) (p : Pfn) (offset : ℕ) :
    (preadPage s p offset).pages = s.pages := by
  unfold preadPage
  split <;> rfl

theorem preadPage_wsl (s : State) (p : Pfn) (offset : ℕ) : s.SameWsl (preadPage s p offset) := by
  unfold preadPage
  split <;> exact ⟨rfl, rfl⟩

theorem wp_stepSwapRead (h : x.Good g) (k : ℕ) :
    Wp (fun _ => True) (step (.swapRead k) x.narrow) (Turns K x g) := by
  simp only [step]
  rw [show x.narrow.swapIns = x.swapIns from rfl]
  split
  · trivial
  · rename_i sw hsw
    split
    · trivial
    · rename_i hread
      have hmem := List.mem_of_getElem? hsw
      have hb : sw.swapping ∈ g.busy := by
        rw [h.busy]
        exact List.mem_map_of_mem hmem
      obtain ⟨hgood, hrem⟩ := h.preadPage (h.good.inv.leaves.busy_back _ hb).2.2.1
        (drumOffset x.vm sw.page)
      have hmap : (x.swapIns.set k { sw with wasRead := true }).map SwapIn.swapping =
          x.swapIns.map SwapIn.swapping := by
        have hk : (x.swapIns.map SwapIn.swapping)[k]? = some sw.swapping := by simp [hsw]
        obtain ⟨hlt, hget⟩ := List.getElem?_eq_some_iff.1 hk
        rw [List.map_set, show ({ sw with wasRead := true } : SwapIn).swapping = sw.swapping from rfl,
          ← hget]
        exact List.set_getElem_self hlt
      refine ⟨{ x with
          vm := VmmSim.preadPage x.vm sw.page (drumOffset x.vm sw.page)
          swapIns := x.swapIns.set k { sw with wasRead := true } }, g, ?_,
        ⟨hgood, h.settled, h.ns, h.nz, h.held, h.busy.trans hmap.symm, ?_, hrem.fault, h.mdls, ?_,
          h.sized.of_sizes (preadPage_wsl ..).sizes⟩,
        .read k sw hsw (by simpa using hread) rfl rfl rfl rfl rfl⟩
      · rw [show x.narrow.vm = x.vm.narrow from rfl, show drumOffset x.vm.narrow sw.page =
          drumOffset x.vm sw.page from rfl, preadPage_narrow]
        rfl
      · intro sw' hs'
        rcases List.mem_or_eq_of_mem_set hs' with hs' | rfl
        · exact hrem.reading sw' hs'
        · exact hrem.reading sw hmem
      · intro offset ho
        obtain ⟨p, hp, hoff⟩ := h.send offset ho
        refine ⟨p, hp, ?_⟩
        rw [hoff, drumOffset, drumOffset, preadPage_pages]

theorem mmuWalkFrom_eq_some {s : State} {addr level : ℕ} {t : Pfn} {ptr : PtePtr}
    (h : mmuWalkFrom s addr level t = .ok (some ptr)) :
    Descends s.core.entry addr level t ptr ∧ hwValid (s.pte ptr) = 1 := by
  induction level generalizing t with
  | zero => cases h
  | succ n ih =>
    simp only [mmuWalkFrom] at h
    split at h
    · cases h
    · rename_i hv
      have hv : hwValid (s.pte (t, vmpAddrUnpack addr (n + 1))) = 1 := by simpa using hv
      split at h
      · rename_i hn
        subst hn
        cases h
        exact ⟨rfl, hv⟩
      · rename_i hn
        obtain ⟨u, hu, h⟩ := bind_eq_ok.1 h
        obtain ⟨hd, hlast⟩ := ih h
        refine ⟨(Descends.succ_iff (by omega)).2
          ⟨u, vmpPteHwIsWriteable (s.pte (t, vmpAddrUnpack addr (n + 1))), ?_, hd⟩, hlast⟩
        refine (view_of_valid hv).trans ?_
        unfold hwTable at hu
        split at hu
        · cases hu
          rfl
        · cases hu

theorem accessTry_eq_some {s : State} {addr : ℕ} {ptr : PtePtr}
    (h : accessTry s addr true = .ok (some ptr)) :
    s.core.Walks addr ptr ∧ ∃ n, s.core.entry ptr = .valid n true := by
  obtain ⟨r, hr, h⟩ := bind_eq_ok.1 h
  cases r with
  | none => cases h
  | some r =>
    simp only [true_and] at h
    split at h
    · cases h
    · rename_i hw
      cases h
      obtain ⟨hd, hv⟩ := mmuWalkFrom_eq_some hr
      refine ⟨hd, vmpPteHwPfn (s.pte ptr), (view_of_valid hv).trans ?_⟩
      rw [show vmpPteHwIsWriteable (s.pte ptr) = true by simpa using hw]

theorem wp_stepStore (h : x.Good g) (vaddr : ℕ) (data : Contents) :
    Wp (fun _ => True) (step (.store vaddr data) x.narrow) (Turns K x g) := by
  simp only [step]
  refine Wp.bind (Wp.intro (Q := fun r => ∀ ptr, r = some ptr → x.vm.core.Walks vaddr ptr ∧
    ∃ n, x.vm.core.entry ptr = .valid n true) (fun r hr ptr hp => ?_) fun _ _ => trivial)
    fun r hr => ?_
  · subst hp
    exact accessTry_eq_some hr
  · cases r with
    | none => trivial
    | some ptr =>
      obtain ⟨hw, n, he⟩ := hr ptr rfl
      obtain ⟨p, rfl, hu, -⟩ := h.good.inv.leaves.frame ptr n (h.good.inv.dirs.level_of_walks hw)
        (by rw [he]; rfl)
      have hpage : vmpPteHwPage (x.narrow.vm.pte ptr) = .ok p := vmpPteHwPage_of_view he
      simp only [hpage, ok_bind]
      have hgood := h.good.setContents hu data
      have hrem := h.remembered_setContents hu data
      refine ⟨{ x with
          vm := { x.vm.setContents p data with unsaved := Function.update x.vm.unsaved p true }
          stored := Function.update x.stored (virtPage vaddr) data }, g, rfl,
        ⟨⟨hgood.queues, hgood.inv.of_eq rfl rfl rfl rfl rfl rfl rfl rfl⟩, h.settled, h.ns, h.nz, h.held,
          h.busy, hrem.reading, hrem.fault, h.mdls, h.send,
          h.sized.of_sizes (State.SameWsl.sizes ⟨rfl, rfl⟩)⟩,
        .store vaddr data ⟨⟨ptr, p, hw, he, rfl⟩, rfl⟩ rfl rfl rfl⟩

/-- **Every operation is a turn**, from a state that stands to one that stands. -/
theorem wp_step (h : x.Good g) (hT : T.Grant K) {op : Op} (hm : op.Meets T x.narrow) :
    Wp (fun _ => True) (step op x.narrow) (Turns K x g) := by
  cases op with
  | fault vaddr write out => exact wp_stepFault h hT vaddr write out hm
  | faultMain pagerState => exact wp_stepFaultMain h hT pagerState hm
  | swapRead k => exact wp_stepSwapRead h k
  | swapFinish k => exact wp_stepSwapFinish h k
  | wire vaddr => exact wp_stepWire h hT vaddr hm
  | unwire k => exact wp_stepUnwire h k
  | trim => exact wp_stepTrim h
  | pgwriter =>
    cases hph : x.pgwriter.phase with
    | collect => exact wp_pgwriterCollect h hph
    | send offset => exact wp_pgwriterSend h hph
    | release => exact wp_pgwriterRelease h hph
  | alloc use must => exact wp_stepAlloc h hT use must hm
  | mdlAlloc npages => exact wp_stepMdlAlloc h npages
  | mdlRelease k i => exact wp_stepMdlRelease h k i
  | store vaddr data => exact wp_stepStore h vaddr data

end VmmSim
