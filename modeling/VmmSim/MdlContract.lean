import VmmSim.Access

/-!
# The list that a fault fills

What `vm_fault` promises to a caller with a memory descriptor list: it fills the next slot with the
frame that the address maps, and takes a reference to it for the list. Each branch of `do_fault`
has its own copy of the code that does so, and for writes two of them fall short: the branch for
transition entries leaves the list alone, and a swapped page comes back without the right to
write. For all other faults the promise is kept, whatever happens while the fault sleeps.
-/

namespace VmmSim

open Lib

/-- A call of `vm_fault` with a list returns 0: from `x`, its last step leaves the list `m'` and the
state `s'`. `w` is the entry that its second part found. -/
inductive CallEnds (vaddr : ℕ) (write : Bool) (vad : Vad) (w : Word) (m : Mdl) (x : Sys) (m' : Mdl)
    (s' : State) : Prop
  /-- The second part of `do_fault` is its last. -/
  | awake (st : WireState) (k a : ℕ) (hx : Reachable x)
      (hf : x.fault = some ⟨vaddr, write, some k, vad, st⟩) (hm : x.mdls[k]? = some m)
      (hw : x.vm.pte st.pte = w)
      (h : faultMain x.vm vaddr write vad st (some m) a = .ok (.ret 0, some m', s'))
  /-- The second part goes to sleep; other operations follow, and then the third part. -/
  | asleep (st : WireState) (k a : ℕ) (x₀ x₁ : Sys) (hx : Reachable x₀)
      (hf : x₀.fault = some ⟨vaddr, write, some k, vad, st⟩) (hm₀ : x₀.mdls[k]? = some m)
      (hw : x₀.vm.pte st.pte = w) (page : Pfn) (s₀ : State)
      (h₀ : faultMain x₀.vm vaddr write vad st (some m) a = .ok (.sleep page, some m, s₀))
      (h₁ : step (.faultMain a) x₀ = .ok x₁) (hrun : Run step (fun _ _ => True) x₁ x)
      (hs : ⟨vaddr, st.pte, page, a, some k, true⟩ ∈ x.swapIns) (hm : x.mdls[k]? = some m)
      (h : swapInFinish x.vm ⟨vaddr, st.pte, page, a, some k, true⟩ (some m) = .ok (some m', s'))

/-- What the caller is promised. -/
structure MdlContract (vaddr : ℕ) (write : Bool) (m : Mdl) (x : Sys) (m' : Mdl) (s' : State) :
    Prop where
  offset : m'.offset = m.offset + pgSize
  /-- The slot holds the frame that the address maps. Besides the working set and the lists that
  held the frame before, this list holds it. -/
  frame : ∃ ptr p wr, vmpFetchPte s' vaddr = .ok (some ptr) ∧ view (s'.pte ptr) = .valid p.val wr ∧
    m'.pages[m.offset / pgSize]? = some (some p) ∧
    (s'.pages p).refcnt = (x.heldBy p + 2) % 2 ^ 16 ∧ (write = true → wr = true)

variable {vaddr : ℕ} {write : Bool} {vad : Vad} {w : Word} {m m' : Mdl} {x : Sys} {s' : State}

/-- What is known at the end of a call, however it ended. -/
structure CallLeaves (vaddr : ℕ) (write : Bool) (vad : Vad) (e : Pte) (m : Mdl) (y : Sys) (m' : Mdl)
    (s : State) (g : Ledger) (ptr : PtePtr) : Prop where
  good : Good none s g
  ok : m.Ok
  walks : s.core.Walks vaddr ptr
  served : Served write vad (some m) e (s.core.entry ptr) (some m')
  held : ∀ p, g.held p + mdlSlots (some m) p = y.heldBy p + mdlSlots (some m') p

theorem Reachable.run {x x' : Sys} (h : Reachable x) (hr : Run step (fun _ _ => True) x x') :
    Reachable x' := by
  obtain ⟨x₀, hb, h₀⟩ := h
  exact ⟨x₀, hb, h₀.trans hr⟩

theorem Sys.Good.faultReady {y : Sys} {g : Ledger} (h : y.Good g) {f : FaultAct}
    (hf : y.fault = some f) : FaultReady y.vm g f.vaddr f.state := by
  obtain ⟨hwalks, hhead, -⟩ := h.fault f hf
  refine ⟨hwalks, hhead, fun p => ?_⟩
  rw [h.nz]
  simp only [Sys.wiredBy, hf, Option.elim]
  omega

theorem FaultAllowed.alone (s : State) (write : Bool) (vad : Vad) (st : WireState) :
    FaultAllowed Guard.alone s write vad st :=
  ⟨fun _ _ _ _ => trivial, fun _ _ _ _ => trivial, fun _ _ _ _ => trivial,
    fun _ _ _ _ _ => trivial⟩

theorem CallEnds.leaves (h : CallEnds vaddr write vad w m x m' s') : ∃ y s g ptr,
    x = y.narrow ∧ s' = s.narrow ∧ CallLeaves vaddr write vad (view w) m y m' s g ptr := by
  cases h with
  | awake st k a hx hf hm hw h =>
    obtain ⟨y, g, rfl, hy⟩ := hx.standing
    have hok : ∀ n ∈ some m, n.Ok := fun n hn =>
      Option.some.inj hn ▸ hy.mdls m (List.mem_of_getElem? hm)
    obtain ⟨s, g', rfl, hf', -, hret⟩ := (wp_faultMain (K := Guard.alone) trivial (fun _ => id)
      hy.good hy.settled (hy.faultReady hf) hok (.alone ..)).of_ok h
    obtain ⟨hwalks, hserved⟩ := hret rfl
    refine ⟨y, s, g', st.pte, rfl, rfl, hf'.made.good hy.good, hok m rfl, hwalks, hw ▸ hserved,
      fun p => ?_⟩
    rw [hf'.held p, hy.held]
  | asleep st k a x₀ x₁ hx hf hm₀ hw page s₀ h₀ h₁ hrun hs hm h =>
    obtain ⟨y₀, g₀, rfl, hy₀⟩ := hx.standing
    have hx' : Reachable x := (hx.run (.step _ .refl trivial h₁)).run hrun
    obtain ⟨y, g, rfl, hy⟩ := hx'.standing
    have hok : ∀ n ∈ some m, n.Ok := fun n hn =>
      Option.some.inj hn ▸ hy.mdls m (List.mem_of_getElem? hm)
    obtain ⟨_, _, _, _, hsleep, -⟩ := (wp_faultMain (K := Guard.alone) trivial (fun _ => id)
      hy₀.good hy₀.settled (hy₀.faultReady hf) hok (.alone ..)).of_ok h₀
    obtain ⟨⟨slot, he⟩, -⟩ := hsleep page rfl
    have hbusy : (⟨vaddr, st.pte, page⟩ : Swapping) ∈ g.busy := by
      rw [hy.busy]
      exact List.mem_map_of_mem (f := SwapIn.swapping) hs
    obtain ⟨s, g', rfl, hres⟩ := (wp_swapInFinish (K := Guard.any) hy.good hy.settled
      ⟨vaddr, st.pte, page, a, some k, true⟩ hbusy trivial hok).of_ok h
    refine ⟨y, s, g', st.pte, rfl, rfl, hres.made.good hy.good, hok m rfl, hres.walks, ?_,
      fun p => ?_⟩
    · have hview : view w = .swap slot := hw ▸ he
      rw [hview, hres.entry, show some m' = _ from hres.filled]
      exact .swapIn slot page hres.slot
    · rw [hres.held p, hy.held]

namespace CallLeaves

variable {e : Pte} {y : Sys} {s : State} {g : Ledger} {ptr : PtePtr}

/-- A slot that is filled with the frame that the entry maps. -/
theorem of_fill (h : CallLeaves vaddr write vad e m y m' s g ptr) {p : Pfn} {wr : Bool}
    (he : s.core.entry ptr = .valid p.val wr) (hm : some m' = (some m).map (Mdl.fill p))
    (hs : HasSlot (some m)) (hwr : write = true → wr = true) :
    MdlContract vaddr write m y.narrow m' s.narrow := by
  obtain rfl : m' = m.fill p := Option.some.inj hm
  have hlt := hs m rfl
  have hcount := count_set_none hlt (fun q => h.ok.empty _ q le_rfl) p p
  have hheld := h.held p
  have hrc := h.good.inv.frames.valid ptr p wr (h.good.inv.dirs.level_of_walks h.walks) he
  refine ⟨rfl, ptr, p, wr, ?_, he, by simp [Mdl.fill, hlt], ?_, hwr⟩
  · rw [vmpFetchPte_narrow]
    exact vmpFetchPte_eq_some_iff.2 h.walks
  · have hexact : (s.pages p).refcnt = g.held p + 1 := hrc
    have hslots : mdlSlots (some (m.fill p)) p = mdlSlots (some m) p + 1 := by
      simpa [mdlSlots, Mdl.fill] using hcount
    have hle := h.good.queues.refcnt_le p
    have htotal : (s.pages p).refcnt = y.heldBy p + 2 := by omega
    rw [show y.narrow.heldBy p = y.heldBy p from rfl, ← htotal, State.narrow_pages,
      VmPage.narrow_refcnt_mod hle]

theorem entry_eq (h : CallLeaves vaddr write vad e m y m' s g ptr)
    (hc : MdlContract vaddr write m x m' s.narrow) : write = true →
      ∃ n, s.core.entry ptr = .valid n true := by
  obtain ⟨ptr', p, wr, hfetch, hv, -, -, hwr⟩ := hc.frame
  rw [vmpFetchPte_narrow, vmpFetchPte_eq_some_iff] at hfetch
  obtain rfl := h.walks.unique hfetch
  exact fun hw => ⟨p, hwr hw ▸ hv⟩

end CallLeaves

/-- The branches of `do_fault` that forget a part of a write. -/
def Forgetful (write : Bool) (w : Word) : Prop :=
  write = true ∧ (vmpPteCharacterise w = .ok .trans ∨ vmpPteCharacterise w = .ok .swap)

/-- **A fault keeps its promise to a caller with a list** unless it is a write to a page that is in
transition, or swapped out. -/
theorem mdlContract_iff (h : CallEnds vaddr write vad w m x m' s')
    (hv : write = true → vad.writeable = true) :
    MdlContract vaddr write m x m' s' ↔ ¬ Forgetful write w := by
  obtain ⟨y, s, g, ptr, rfl, rfl, hl⟩ := h.leaves
  have hserved := hl.served
  have hkind : ∀ k, vmpPteCharacterise w = .ok k ↔ (view w).kind = .ok k := fun k => by
    rw [characterise_eq_kind]
  simp only [Forgetful, hkind]
  generalize view w = e at hl hserved
  have hother : ∀ {k : PteKind}, k ≠ .trans → k ≠ .swap → e.kind = .ok k →
      ¬ (write = true ∧ (e.kind = .ok .trans ∨ e.kind = .ok .swap)) := fun ht hs hk hf => by
    rw [hk] at hf
    rcases hf.2 with hf | hf
    · exact ht (Except.ok.inj hf)
    · exact hs (Except.ok.inj hf)
  generalize hend : s.core.entry ptr = e' at hserved
  generalize hout : some m' = out' at hserved
  cases hserved with
  | zeroFill p hs =>
    refine ⟨fun _ => hother (by decide) (by decide) rfl, fun _ => ?_⟩
    exact hl.of_fill hend hout hs fun hw => by rw [hw, hv hw]; rfl
  | soft p hs =>
    constructor
    · rintro hc ⟨rfl, -⟩
      have hm := hc.offset
      rw [show m' = m from Option.some.inj hout] at hm
      simp only [pgSize] at hm
      omega
    · intro hf
      have hw : write = false := by
        by_contra hw
        exact hf ⟨by simpa using hw, .inl rfl⟩
      subst hw
      exact hl.of_fill hend hout (hs rfl) nofun
  | resident p wr hwr hs =>
    refine ⟨fun _ => hother (by decide) (by decide) rfl, fun _ => ?_⟩
    exact hl.of_fill hend hout hs hwr
  | upgrade p hw hc hs =>
    refine ⟨fun _ => hother (by decide) (by decide) rfl, fun _ => ?_⟩
    exact hl.of_fill hend hout hs fun _ => rfl
  | swapIn slot p hs =>
    constructor
    · rintro hc ⟨hw, -⟩
      obtain ⟨n, hn⟩ := hl.entry_eq hc hw
      rw [hend] at hn
      cases hn
    · intro hf
      have hw : write = false := by
        by_contra hw
        exact hf ⟨by simpa using hw, .inr rfl⟩
      subst hw
      exact hl.of_fill hend hout hs nofun

/-! ## Two calls -/

/-- What a test reads of a fault with the one list there is: its arguments, the entry it finds, and
what its second part returns. -/
structure MdlCall where
  vaddr : ℕ
  write : Bool
  writeable : Bool
  out : Option ℕ
  mdls : List Mdl
  kind : Option PteKind
  result : Option (FaultEnd × Option Mdl)
  deriving DecidableEq

def mdlCall (a : ℕ) (x : Sys) : Option MdlCall :=
  x.fault.map fun f => {
    vaddr := f.vaddr
    write := f.write
    writeable := f.vad.writeable
    out := f.out
    mdls := x.mdls
    kind := (vmpPteCharacterise (x.vm.pte f.state.pte)).toOption
    result := (faultMain x.vm f.vaddr f.write f.vad f.state x.mdls[0]? a).toOption.map fun r =>
      (r.1, r.2.1) }

theorem toOption_eq_some {α : Type} {r : Res α} {a : α} (h : r.toOption = some a) : r = .ok a := by
  cases r with
  | ok b => exact congrArg Except.ok (Option.some.inj h)
  | error e => cases h

theorem exists_callEnds (c : Config) (ops : List Op) (vaddr : ℕ) (write : Bool) (m m' : Mdl)
    (kind : PteKind) (a : ℕ)
    (h : readBack (simulate c ops) (mdlCall a) =
      some (some ⟨vaddr, write, true, some 0, [m], some kind, some (.ret 0, some m')⟩)) :
    ∃ vad w x s', CallEnds vaddr write vad w m x m' s' ∧ vad.writeable = true ∧
      vmpPteCharacterise w = .ok kind := by
  obtain ⟨x, hx, hr⟩ := exists_of_readBack h
  obtain ⟨⟨vaddr', write', out, vad, st⟩, hf, hr⟩ := Option.map_eq_some_iff.1 hr
  simp only [MdlCall.mk.injEq] at hr
  obtain ⟨rfl, rfl, hwr, rfl, hmdls, hk, hmain⟩ := hr
  obtain ⟨⟨r, out, s'⟩, hmain, hr⟩ := Option.map_eq_some_iff.1 hmain
  obtain ⟨rfl, rfl⟩ := Prod.mk.inj hr
  have hm : x.mdls[0]? = some m := by rw [hmdls]; rfl
  rw [hm] at hmain
  exact ⟨vad, _, x, s', .awake st 0 a (reachable_of_simulate hx) hf hm rfl
    (toOption_eq_some hmain), hwr, toOption_eq_some hk⟩

/-- A write to a page that was evicted returns 0, and leaves the list as it was. -/
theorem mdl_forgotten : ∃ vad w x m' s', CallEnds 0 true vad w (vmMdlAlloc 1) x m' s' ∧
    vad.writeable = true ∧ ¬ MdlContract 0 true (vmMdlAlloc 1) x m' s' := by
  obtain ⟨vad, w, x, s', hcall, hwr, -⟩ := exists_callEnds mainConfig
    (faultOn 0 true ++ [.trim, .mdlAlloc 1, .fault 0 true (some 0)]) 0 true (vmMdlAlloc 1)
    (vmMdlAlloc 1) .trans 8 (by decide +kernel)
  refine ⟨vad, w, x, _, s', hcall, hwr, fun hc => ?_⟩
  have := hc.offset
  simp only [vmMdlAlloc, pgSize] at this
  omega

/-- A write to a page that was never touched fills the list. -/
theorem mdlContract_iff_zeroFill : ∃ vad w x m' s', CallEnds 0 true vad w (vmMdlAlloc 1) x m' s' ∧
    MdlContract 0 true (vmMdlAlloc 1) x m' s' := by
  obtain ⟨vad, w, x, s', hcall, hwr, hk⟩ := exists_callEnds mainConfig
    [.mdlAlloc 1, .fault 0 true (some 0)] 0 true (vmMdlAlloc 1) ((vmMdlAlloc 1).fill 4) .zero 8
    (by decide +kernel)
  refine ⟨vad, w, x, _, s', hcall, (mdlContract_iff hcall fun _ => hwr).2 fun hf => ?_⟩
  rw [Forgetful, hk] at hf
  rcases hf.2 with hf | hf <;> cases hf

end VmmSim
