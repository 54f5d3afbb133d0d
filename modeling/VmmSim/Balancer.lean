import VmmSim.Cleaning

/-!
# The balancer

When pages are short, `vmp_balancer` trims the working set by a fixed number of entries. The entries
leave in the order of the queue (`TrimmedFifo`), and what becomes available are the pages among them
that nobody else refers to and that need not be written. The event that woke the balancer is cleared
if and only if that is enough (`balancer_round`), so it runs again as long as it is not.
-/

namespace VmmSim

open Lib

variable {s s' : State} {n : ℕ}

/-- The `target` of `vmp_balancer`: an `int32_t` that is passed as a `size_t`. -/
def State.balancerTarget (s : State) : ℕ :=
  ((BitVec.ofNat 32 s.vmparam.wsPageExpansionCount).signExtend 64).toNat

/-- A round of `vmp_balancer`. When its wait for the event times out, it does nothing. -/
def vmpBalancer (s : State) : Res State :=
  if s.balancerEvent then do
    let (_, s) ← vmpWslTrimN s s.balancerTarget
    if s.vmpPageSufficience then return { s with balancerEvent := false } else return s
  else .ok s

/-! ## The event -/

/-- A page of data is released; the event of the balancer stays set. -/
theorem State.releaseFrame_event (s : State) (p : Pfn) (h : s.balancerEvent = true) :
    (s.releaseFrame p).balancerEvent = true := by
  have hcheck : ∀ s : State, s.balancerEvent = true → (checkShortage s).2.balancerEvent = true := by
    intro s hs
    unfold checkShortage
    dsimp only
    split
    · split <;> split <;> first | rfl | exact hs
    · exact hs
  have hsufficience : ∀ s : State, s.balancerEvent = true →
      (releaseSufficience s).balancerEvent = true := by
    intro s hs
    unfold releaseSufficience
    dsimp only
    split
    · exact hcheck s hs
    · exact hcheck s hs
  unfold releaseFrame
  dsimp only
  split
  · apply hsufficience
    unfold enqueuePageable
    split <;> exact h
  · exact h

theorem releaseLocked_event {p : Pfn} (h : vmpPageReleaseLocked s p = .ok s')
    (hu : (s.pages p).use = .anonPrivate) (he : s.balancerEvent = true) :
    s'.balancerEvent = true := by
  obtain ⟨_, hpos, -⟩ := bind_eq_ok.1 h
  by_cases hc : (s.pages p).refcnt > 0
  · rw [vmpPageReleaseLocked_anon hu hc] at h
    obtain rfl := Except.ok.inj h
    exact s.releaseFrame_event p he
  · rw [kassert_of_not hc] at hpos
    cases hpos

theorem wslTrim1_event {r : Option Wsle × State} (h : wslTrim1 s = .ok r)
    (he : s.balancerEvent = true) : r.2.balancerEvent = true := by
  cases hq : s.wsl.queue with
  | nil =>
    rw [wslTrim1, hq] at h
    obtain rfl := Except.ok.inj h
    exact he
  | cons e q =>
    rw [wslTrim1_cons hq] at h
    obtain ⟨⟨p, ptr⟩, -, h⟩ := bind_eq_ok.1 h
    obtain ⟨s', hevict, h⟩ := bind_eq_ok.1 h
    obtain rfl := Except.ok.inj h
    unfold wslEvict at hevict
    split at hevict
    · rename_i hu
      refine releaseLocked_event hevict ?_ he
      rw [State.setPte_pages, State.modifyPage_pages_self]
      exact hu
    all_goals first
      | obtain ⟨_, -, h⟩ := bind_eq_ok.1 hevict
        cases h
      | cases hevict

/-- Trimming leaves it set. -/
theorem wslTrimFrom_event {i count : ℕ} {r : ℕ × State} (h : wslTrimFrom i count s = .ok r)
    (he : s.balancerEvent = true) : r.2.balancerEvent = true := by
  induction count generalizing i s with
  | zero =>
    obtain rfl := Except.ok.inj h
    exact he
  | succ count ih =>
    obtain ⟨⟨wsle, s'⟩, htrim, h⟩ := bind_eq_ok.1 h
    have he' := wslTrim1_event htrim he
    dsimp only at h
    split at h
    · obtain rfl := Except.ok.inj h
      exact he'
    · exact ih h he'

/-! ## A round -/

/-- The pages trimmed that nobody else refers to, and that were written or could be, or not. -/
def State.idleVictims (s : State) (n : ℕ) (dirty : Bool) : ℕ :=
  ((s.victims n).filter fun v => (s.pages v.1).refcnt = 1 ∧
    ((s.pages v.1).dirty || vmpPteHwIsWriteable (s.pte v.2)) = dirty).length

/-- What a round of the balancer does when it trims `n` entries. -/
structure Balanced (s : State) (n : ℕ) (s' : State) : Prop where
  trimmed : TrimmedFifo s n s'
  /-- The pages that become available, and those that wait for the page writer. -/
  available : s'.vmstat.nfree = s.vmstat.nfree ∧
    s'.vmstat.nstandby = s.vmstat.nstandby + s.idleVictims n false
  modified : s'.vmstat.nmodified = s.vmstat.nmodified + s.idleVictims n true
  event : s'.balancerEvent = !s'.vmpPageSufficience

theorem TrimmedFifo.idle (h : TrimmedFifo s n s') (d : Bool) :
    (((s.victims n).map Prod.fst).filter fun p =>
      (s'.pages p).refcnt = 0 ∧ (s'.pages p).dirty = d).length = s.idleVictims n d := by
  rw [List.filter_map, List.length_map, State.idleVictims]
  refine congrArg List.length (List.filter_congr ?_)
  rintro ⟨p, ptr⟩ hv
  obtain ⟨wr, hval, -, hpos, hpage⟩ := h.evicted p ptr hv
  have hwr : vmpPteHwIsWriteable (s.pte ptr) = wr := by
    rw [view_of_valid (hwValid_of_view hval)] at hval
    exact (Pte.valid.inj hval).2
  have hone : (s.pages p).refcnt - 1 = 0 ↔ (s.pages p).refcnt = 1 := by omega
  simp only [Function.comp_apply, hpage, hwr, hone]

/-- **A round of the balancer** trims the front of the queue. The pages that become available are
those that nobody else refers to and that need not be written first, and the event stays set if and
only if they are not enough. -/
theorem balancer_round {x : Sys} (h : Reachable x) (he : x.vm.balancerEvent = true)
    (hf : x.vm.LeavesFirst (min x.vm.balancerTarget x.vm.wsl.queue.length))
    (hr : ∀ p, x.heldBy p + 1 < 2 ^ 16) : ∃ s', vmpBalancer x.vm = .ok s' ∧
      Balanced x.vm (min x.vm.balancerTarget x.vm.wsl.queue.length) s' := by
  obtain ⟨y, g, rfl, hy⟩ := h.standing
  have start : Trimming y.vm g 0 y.vm := ⟨.refl hy.good, .zero _⟩
  have hheld : ∀ p, g.held p + 1 < 2 ^ 16 := by
    intro p
    rw [hy.held]
    exact hr p
  obtain ⟨s₁, hloop, ht⟩ := start.loop hy.good hy.settled hy.sized hheld
    y.vm.narrow.balancerTarget (Nat.zero_le _) (by rwa [Nat.zero_add])
  rw [Nat.zero_add] at hloop ht
  have hevent : s₁.balancerEvent = true := wslTrimFrom_event hloop he
  have hfifo := ht.fifo
  have hq := hy.good.queues
  have hq₁ := ht.made.queues
  have hcode : vmpBalancer y.vm.narrow = .ok { s₁.narrow with
      balancerEvent := !s₁.narrow.vmpPageSufficience } := by
    have hset : y.vm.narrow.balancerEvent = true := he
    rw [vmpBalancer, if_pos hset, vmpWslTrimN, hloop, ok_bind]
    dsimp only
    split
    · rename_i hs
      rw [hs]
      rfl
    · rename_i hs
      rw [Bool.eq_false_of_not_eq_true hs, Bool.not_false, ← hevent]
      rfl
  refine ⟨_, hcode, ?_, ⟨?_, ?_⟩, ?_, rfl⟩
  · exact ⟨hfifo.queue, hfifo.tree, hfifo.nentries, hfifo.limits, hfifo.target, hfifo.evicted,
      hfifo.entries, hfifo.pages, hfifo.modified, hfifo.standby, hfifo.free, hfifo.root⟩
  · change s₁.vmstat.nfree = y.vm.vmstat.nfree
    rw [hq₁.nfree, hq.nfree]
    exact congrArg List.length hfifo.free
  · change s₁.vmstat.nstandby = y.vm.vmstat.nstandby + _
    have hlength := congrArg List.length hfifo.standby
    rw [List.length_append, hfifo.idle] at hlength
    rw [hq₁.nstandby, hq.nstandby]
    exact hlength
  · change s₁.vmstat.nmodified = y.vm.vmstat.nmodified + _
    have hlength := congrArg List.length hfifo.modified
    rw [List.length_append, hfifo.idle] at hlength
    rw [hq₁.nmodified, hq.nmodified]
    exact hlength

/-- Two pages are written to, and nearly all the others are taken. -/
def takeMost : List Op :=
  faultOn 0 true ++ faultOn 4096 true ++ List.replicate 23 (.alloc .kWired true)

theorem balancer_round_short : ∃ x s', simulate mainConfig takeMost = .ok x ∧
    vmpBalancer x.vm = .ok s' ∧ Balanced x.vm 2 s' := by
  obtain ⟨x, hx, hr⟩ := exists_of_readBack (r := simulate mainConfig takeMost)
    (f := fun x => (x.mdls, x.pgwriter.batch, x.vm.balancerEvent, x.vm.balancerTarget,
      x.vm.wsl.queue))
    (a := ([], [], true, 4, [⟨0, false⟩, ⟨4096, false⟩])) (by decide +kernel)
  simp only [Prod.mk.injEq] at hr
  obtain ⟨hmdls, hbatch, hevent, htarget, hqueue⟩ := hr
  have hn : min x.vm.balancerTarget x.vm.wsl.queue.length = 2 := by
    rw [htarget, hqueue]
    rfl
  have hheld : ∀ p, x.heldBy p + 1 < 2 ^ 16 := by
    intro p
    simp [Sys.heldBy, hmdls, hbatch]
  obtain ⟨s', hround, hb⟩ := balancer_round (reachable_of_simulate hx) hevent
    (by rw [hn, State.LeavesFirst, hqueue]; decide) hheld
  rw [hn] at hb
  exact ⟨x, s', hx, hround, hb⟩

end VmmSim
