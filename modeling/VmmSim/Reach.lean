import VmmSim.Stepping

/-!
# Reachable states

The simulator starts in a state that stands, with nothing owed to anyone, and every operation keeps
it so: `exists_standing` is the induction over runs from `Boot`. A property of standing states that
holds at the start and survives every turn is carried along (`Layer`).
-/

namespace VmmSim

open Lib

/-! ## The start -/

/-- Nothing is owed. -/
def Ledger.zero : Ledger := ⟨fun _ => 0, fun _ => 0, fun _ => 0, fun _ => 0, [], none, none, none, none⟩

theorem Ledger.zero_settled : Ledger.zero.Settled := ⟨rfl, rfl, rfl, rfl⟩

/-- What `main` has made when it starts its threads. -/
structure Booted (c : Config) (s : State) : Prop where
  use : ∀ p, (s.pages p).use = if p = 0 then .pml4 else .free
  page : ∀ p, (s.pages p).dirty = false ∧ (s.pages p).nonzeroPtes = 0 ∧
    (s.pages p).nonswapPtes = 0 ∧ (s.pages p).referentPte = 0 ∧
      (s.pages p).refcnt = if p = 0 then 1 else 0
  mem : ∀ p, s.mem p = 0
  root : s.pml4Page = 0
  wsl : s.wsl = ⟨[], [], 0, 0, c.wslMax⟩
  pagefile : s.pagefile = initVmpPagefile c.pagefileLength
  vads : s.vadTree = c.vads
  unsaved : ∀ p, s.unsaved p = false
  queues : s.Queues none

theorem mainInit_booted (c : Config) : Wp (fun _ => False) (mainInit c) (Booted c) := by
  have hf : (simPagesInit c).freePgq = 0 :: (List.finRange 31).map Fin.succ := rfl
  have hq : (simPagesInit c).Queues none := pagesInit_queues c
  have htake : takeFree (simPagesInit c) 0 ((List.finRange 31).map Fin.succ) .pml4 =
      .ok (clearPage { (simPagesInit c).modifyPage 0 (VmPage.handOut .pml4) with
        freePgq := (List.finRange 31).map Fin.succ
        vmstat := ⟨31, 0, 0, 1⟩ } 0) := rfl
  have queues := (wp_takeFree_queues hq hf .pml4).of_ok htake
  have hinit : mainInit c = .ok { clearPage
      { (simPagesInit c).modifyPage 0 (VmPage.handOut .pml4) with
        freePgq := (List.finRange 31).map Fin.succ
        vmstat := ⟨31, 0, 0, 1⟩ } 0 with
      pml4Page := 0
      vmparam := c.vmparam
      wsl := ⟨[], [], 0, 0, c.wslMax⟩
      vadTree := c.vads } := rfl
  have hpage : ∀ p, ((simPagesInit c).modifyPage 0 (VmPage.handOut .pml4)).pages p =
      if p = 0 then ⟨.pml4, false, 0, 0, 1, 0, noSlot⟩ else ⟨.free, false, 0, 0, 0, 0, 0⟩ :=
    fun p => (State.modifyPage_pages _ _ _ _)
  rw [hinit]
  refine ⟨fun p => ?_, fun p => ?_, fun p => ?_, rfl, rfl, rfl, rfl, fun p => ?_, queues⟩
  · change (((simPagesInit c).modifyPage 0 (VmPage.handOut .pml4)).pages p).use = _
    rw [hpage]
    split <;> rfl
  · change (((simPagesInit c).modifyPage 0 (VmPage.handOut .pml4)).pages p).dirty = _ ∧ _
    simp only [clearPage_pages, hpage]
    split <;> simp
  · change Function.update (fun _ => (0 : Contents)) 0 0 p = 0
    rw [Function.update_apply]
    split <;> rfl
  · change Function.update (fun _ => false) 0 false p = false
    rw [Function.update_apply]
    split <;> rfl

namespace Booted

variable {c : Config} {s : State}

theorem entry (h : Booted c s) (ptr : PtePtr) : s.core.entry ptr = .zero := by
  change view (s.mem ptr.1 ptr.2) = _
  rw [h.mem]
  exact view_zero

theorem level (h : Booted c s) (p : Pfn) : s.core.level p = if p = 0 then 4 else 0 := by
  rw [Core.level, Core.use, show s.core.pages p = s.pages p from rfl, h.use]
  split <;> rfl

theorem level_eq (h : Booted c s) {p : Pfn} (hl : 1 ≤ s.core.level p) : p = 0 ∧ s.core.level p = 4 := by
  rw [h.level] at hl ⊢
  split at hl
  · exact ⟨‹_›, if_pos ‹_›⟩
  · omega

theorem use_ne (h : Booted c s) (p : Pfn) : s.core.use p ≠ .anonPrivate ∧ s.core.use p ≠ .deleted := by
  rw [Core.use, show s.core.pages p = s.pages p from rfl, h.use]
  split <;> decide

theorem count (h : Booted c s) {f : Pte → Bool} (hf : f .zero = false) (t : Pfn) :
    s.core.count f t = 0 :=
  (Core.count_eq_zero _).2 fun i => by rw [h.entry, hf]

/-- The invariants hold at the start. -/
theorem inv (h : Booted c s) : Inv s.core Ledger.zero := by
  have hl1 : ∀ p, s.core.level p ≠ 1 := fun p hp => by
    have := (h.level_eq hp.ge).2
    omega
  have hl3 : ∀ {p}, 1 ≤ s.core.level p → s.core.level p ≤ 3 → False := fun h₁ h₃ => by
    have := (h.level_eq h₁).2
    omega
  have hroot : s.core.root = 0 := h.root
  have htree : s.core.tree = [] := congrArg Wsl.tree h.wsl
  have hqueue : s.core.queue = [] := congrArg Wsl.queue h.wsl
  have hlocked : s.core.nlocked = 0 := congrArg Wsl.nlocked h.wsl
  have hpf : s.core.pagefile = initVmpPagefile c.pagefileLength := h.pagefile
  have hok := initVmpPagefile_ok c.pagefileLength_lt
  have hzero : ¬ 0 < 0 := lt_irrefl 0
  have hbusy : ∀ r, r ∉ Ledger.zero.busy := fun _ => List.not_mem_nil
  have hloose : ∀ p, Ledger.zero.loose ≠ some p := fun _ => (Option.some_ne_none _).symm
  refine ⟨⟨?_, fun p hp => ?_, fun ptr _ => .inl (h.entry ptr), fun p h₁ h₃ => (hl3 h₁ h₃).elim⟩,
    ⟨fun ptr _ hl => absurd hl (hl1 _), fun ptr _ hl => absurd hl (hl1 _),
      fun ptr hl => absurd hl (hl1 _), fun p hu => absurd hu (h.use_ne p).1,
      fun r hr => (hbusy r hr).elim, List.nodup_nil⟩,
    ⟨fun t hl => ?_, fun t hl => ?_, fun t hl => ?_, fun t h₁ h₃ => (hl3 h₁ h₃).elim,
      fun _ => le_rfl, fun _ h0 => (hzero h0).elim, fun _ h0 => (hzero h0).elim⟩,
    ⟨fun ptr _ _ hl => absurd hl (hl1 _), fun ptr _ hl => absurd hl (hl1 _),
      fun r hr => (hbusy r hr).elim, fun p hp => (hloose p hp).elim, fun _ h0 => (hzero h0).elim⟩,
    ⟨fun p _ => ⟨(h.page p).2.1, (h.page p).2.2.1⟩, fun p hu => ?_,
      fun p _ => ⟨(h.page p).2.1, fun i => h.entry _⟩⟩, ?_, ?_⟩
  · rw [hroot, h.level, if_pos rfl]
  · rw [hroot]
    exact (h.level_eq (by rw [hp]; decide)).1
  · rw [h.count rfl]
    exact (h.page t).2.2.1
  · rw [h.count rfl]
    exact (h.page t).2.1
  · obtain ⟨-, -, hns, -, hrc⟩ := h.page t
    change (s.pages t).refcnt = (s.pages t).nonswapPtes + 1
    rw [hrc, if_pos (h.level_eq hl).1, hns]
  · refine ⟨?_, (h.page p).2.2.2.1⟩
    change (s.pages p).refcnt = 0
    rw [(h.page p).2.2.2.2, if_neg]
    rintro rfl
    rw [Core.use, show s.core.pages 0 = s.pages 0 from rfl, h.use] at hu
    cases hu
  · refine ⟨?_, ?_, ?_, ?_, ?_, fun p h₁ h₃ => (hl3 h₁ h₃).elim, fun p h₁ h₃ => (hl3 h₁ h₃).elim,
      ?_, ?_, fun ptr hl => absurd hl (hl1 _), fun r hr => (hbusy r hr).elim⟩
    all_goals simp [htree, hqueue, hlocked]
  · refine ⟨by rw [hpf]; exact hok.total, by rw [hpf]; exact hok.bitmap,
      fun p hu => absurd hu (h.use_ne p).1, fun p hp => (hloose p hp).elim, ?_⟩
    rw [hpf, ← Pagefile.taken_zero, initVmpPagefile_taken]
    simp only [Ledger.zero, Finset.sum_const_zero, zero_add, Bool.toNat_false, Finset.card_eq_zero]
    exact Finset.filter_eq_empty_iff.2 fun p _ hp => (h.use_ne p).1 hp.1

/-- Nothing has to be cut to its width. -/
theorem narrow (h : Booted c s) : s.narrow = s := State.narrow_of_lt s fun q => by
  rw [(h.page q).2.2.2.2]
  split <;> decide

end Booted

/-- A state at the start. -/
def bootSys (s : State) : Sys := ⟨s, none, [], [], [], ⟨.collect, []⟩, fun _ => 0⟩

theorem Boot.eq {x : Sys} (h : Boot x) : ∃ c s, Booted c s ∧ x = bootSys s := by
  obtain ⟨c, s, hs, rfl⟩ := h
  exact ⟨c, s, (mainInit_booted c).of_ok hs, rfl⟩

theorem Booted.sized {c : Config} {s : State} (h : Booted c s) : s.Sized where
  entries := by rw [h.wsl]; exact le_rfl
  max _ := by rw [h.wsl]; exact Nat.zero_le _

theorem Booted.standing {c : Config} {s : State} (h : Booted c s) : (bootSys s).Good Ledger.zero :=
  ⟨⟨h.queues, h.inv⟩, Ledger.zero_settled, rfl, rfl, rfl, rfl, nofun, nofun, nofun, nofun, h.sized⟩

/-! ## Runs -/

/-- A property of standing states that holds at the start and survives every turn. -/
structure Layer (K : Guard) (L : Sys → Ledger → Prop) : Prop where
  boot : ∀ c s, Booted c s → L (bootSys s) Ledger.zero
  turn : ∀ x g x' g', x.Good g → L x g → Turned K x g x' g' → x'.Good g' → L x' g'

/-- **Every reachable state stands**, and has the properties that survive the turns. -/
theorem exists_standing {T : Terms} {K : Guard} (hT : T.Grant K) {L : Sys → Ledger → Prop}
    (hL : Layer K L) {x₀ x : Sys} (hb : Boot x₀) (h : Run step (fun op x => op.Meets T x) x₀ x) :
    ∃ (y : Sys) (g : Ledger), x = y.narrow ∧ y.Good g ∧ L y g := by
  refine h.invariant (P := fun x => ∃ (y : Sys) (g : Ledger), x = y.narrow ∧ y.Good g ∧ L y g) ?_ ?_
  · obtain ⟨c, s, hs, rfl⟩ := hb.eq
    refine ⟨bootSys s, Ledger.zero, ?_, hs.standing, hL.boot c s hs⟩
    rw [Sys.narrow, bootSys, hs.narrow]
  · rintro op a b ⟨y, g, rfl, hy, hl⟩ hc hs
    obtain ⟨y', g', hb, hy', ht⟩ := (wp_step hy hT hc).of_ok hs
    exact ⟨y', g', hb, hy', hL.turn y g y' g' hy hl ht hy'⟩

/-- The states that the simulator can reach. -/
def Reachable (x : Sys) : Prop := ∃ x₀, Boot x₀ ∧ Run step (fun _ _ => True) x₀ x

theorem Op.meets_any (op : Op) (x : Sys) : op.Meets Terms.any x := by
  cases op with
  | fault vaddr write out => exact fun _ _ => wireAllocs_of_forall (fun _ => trivial) _ _ _ _
  | wire vaddr => exact fun _ _ => wireAllocs_of_forall (fun _ => trivial) _ _ _ _
  | faultMain pagerState =>
    exact fun _ _ => ⟨fun _ => trivial, fun _ _ _ _ => trivial, fun _ _ => trivial⟩
  | alloc use must => trivial
  | _ => trivial

/-- **Every reachable state stands.** -/
theorem Reachable.standing {x : Sys} (h : Reachable x) :
    ∃ (y : Sys) (g : Ledger), x = y.narrow ∧ y.Good g := by
  obtain ⟨x₀, hb, hr⟩ := h
  obtain ⟨y, g, hy, hg, -⟩ := exists_standing Terms.any_grant (L := fun _ _ => True)
    ⟨fun _ _ _ => trivial, fun _ _ _ _ _ _ _ _ => trivial⟩ hb
    (hr.mono fun op a _ => op.meets_any a)
  exact ⟨y, g, hy, hg⟩

/-! ## Computed runs -/

/-- Start the simulator and make the operations in order. -/
def simulate (c : Config) (ops : List Op) : Res Sys := do
  let s ← mainInit c
  runSteps step ops (bootSys s)

theorem reachable_of_simulate {c : Config} {ops : List Op} {x : Sys} (h : simulate c ops = .ok x) :
    Reachable x := by
  obtain ⟨s, hs, hr⟩ := bind_eq_ok.1 h
  exact ⟨bootSys s, ⟨c, s, hs, rfl⟩, run_of_steps hr fun _ _ _ => trivial⟩

/-- A computation returns. -/
def returns {α : Type} (r : Res α) : Bool :=
  match r with
  | .ok _ => true
  | .error _ => false

theorem exists_of_returns {α : Type} {r : Res α} (h : returns r = true) : ∃ a, r = .ok a := by
  cases r with
  | ok a => exact ⟨a, rfl⟩
  | error e => cases h

/-- What a test reads of a run's last state. -/
def readBack {α : Type} (r : Res Sys) (f : Sys → α) : Option α :=
  match r with
  | .ok x => some (f x)
  | .error _ => none

theorem exists_of_readBack {α : Type} {r : Res Sys} {f : Sys → α} {a : α}
    (h : readBack r f = some a) : ∃ x, r = .ok x ∧ f x = a := by
  cases r with
  | ok x => exact ⟨x, rfl, Option.some.inj h⟩
  | error e => cases h

end VmmSim
