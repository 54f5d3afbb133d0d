import VmmSim.Transfers

/-!
# What stands between two operations

Between two operations of the simulator nothing is half way into the tables, and everything that
is owed outside them is in a frame of some thread: the wired tables in the faults' and callers'
wire states, the references to pages of data in memory descriptor lists, the busy entries with the
faults that sleep (`Sys.Good`). The state is the exact one, with reference counts that do not
wrap; the simulator's is `Sys.narrow`. What an operation does to it is one of the few turns of
`Turned`. Which turns a run may take is a matter of its `Terms`.
-/

namespace VmmSim

open Lib

/-- The simulator's own state, with the counts cut to their width. -/
def Sys.narrow (x : Sys) : Sys := { x with vm := x.vm.narrow }

namespace Sys

variable (x : Sys)

/-- The references of a table that wirings hold. -/
def wiredBy (p : Pfn) : ℕ :=
  (x.fault.elim 0 fun f => f.state.pages.count (some p)) +
    (x.wires.map fun st => st.pages.count (some p)).sum

/-- The references of a page that lists hold: those of callers and those of the page writer. -/
def heldBy (p : Pfn) : ℕ :=
  (x.mdls.map fun m => m.pages.count (some p)).sum + x.pgwriter.batch.count p

/-- The page that the page writer is about to write. -/
def pending : Option Pfn :=
  match x.pgwriter.phase with
  | .send _ => x.pgwriter.batch.getLast?
  | _ => none

theorem pending_mem {p : Pfn} (h : x.pending = some p) : p ∈ x.pgwriter.batch := by
  unfold pending at h
  split at h
  · exact List.mem_of_getLast? h
  · cases h

theorem heldBy_pending {p : Pfn} (h : x.pending = some p) : 1 ≤ x.heldBy p := by
  have := List.count_pos_iff.2 (x.pending_mem h)
  unfold heldBy
  omega

end Sys

/-- The invariants of the simulator, with the ledger of what its threads are owed. -/
structure Sys.Good (x : Sys) (g : Ledger) : Prop where
  good : VmmSim.Good none x.vm g
  settled : g.Settled
  ns : g.ns = x.wiredBy
  nz : g.nz = x.wiredBy
  held : g.held = x.heldBy
  busy : g.busy = x.swapIns.map SwapIn.swapping
  reading : ∀ sw ∈ x.swapIns, x.vm.core.entry sw.pte = view (vmpPteBusyCreate sw.pagerState)
  fault : ∀ f ∈ x.fault, x.vm.core.Walks f.vaddr f.state.pte ∧
    f.state.pages.head? = some (some f.state.pte.1) ∧ vmpPsVadFind x.vm f.vaddr = some f.vad
  mdls : ∀ m ∈ x.mdls, m.Ok
  send : ∀ offset, x.pgwriter.phase = .send offset →
    ∃ p, x.pending = some p ∧ offset = drumOffset x.vm p
  sized : x.vm.Sized

/-! ## Terms of a run -/

/-- Conditions on the steps of a run. -/
structure Terms where
  /-- A state in which a page may be allocated. -/
  alloc : State → Prop
  /-- A slot of the pagefile that may be read into a page. -/
  swapIn : State → ℕ → Prop
  /-- A VAD in which a write fault may make an entry writeable. -/
  upgrade : Vad → Prop

/-- No conditions. -/
def Terms.any : Terms := ⟨fun _ => True, fun _ _ => True, fun _ => True⟩

/-- The terms hold of an operation wherever it allocates, reads or makes an entry writeable. -/
def Op.Meets (T : Terms) : Op → Sys → Prop
  | .fault vaddr _ _, x => wirePteAllocs T.alloc x.vm vaddr
  | .wire vaddr, x => wirePteAllocs T.alloc x.vm vaddr
  | .alloc _ _, x => T.alloc x.vm
  | .faultMain _, x => ∀ f ∈ x.fault,
    ((view (x.vm.pte f.state.pte)).frame = none → T.alloc x.vm) ∧
    (∀ n, view (x.vm.pte f.state.pte) = .valid n false → f.write = true → f.vad.cow = false →
      T.upgrade f.vad) ∧
    ∀ slot, view (x.vm.pte f.state.pte) = .swap slot → T.swapIn x.vm slot
  | _, _ => True

/-- What the terms promise of the moves. -/
structure Terms.Grant (T : Terms) (K : Guard) : Prop where
  steal : ∀ s : State, T.alloc s.narrow → StealOk K s
  swapIn : ∀ (s : State) (slot : ℕ) (c : Core), T.swapIn s.narrow slot → c.drum = s.drum →
    K.swapIn c slot
  write : ∀ (c : Core) (vaddr : ℕ) (ptr : PtePtr) (vad : Vad), c.Walks vaddr ptr →
    c.vads.find vaddr = some vad → vad.writeable = true ∨ T.upgrade vad → K.write c ptr

/-- The guard that allows every move. -/
def Guard.any : Guard := ⟨fun _ _ => True, fun _ _ => True, fun _ _ => True, True, fun _ => True⟩

theorem Terms.any_grant : Terms.any.Grant Guard.any :=
  ⟨fun _ _ _ _ _ => trivial, fun _ _ _ _ _ => trivial, fun _ _ _ _ _ _ _ => trivial⟩

/-- The guard of an operation: what lists hold is not stolen. -/
def Sys.guard (x : Sys) (K : Guard) (F : Swapping → Prop) : Guard where
  steal c p := K.steal c p ∧ x.heldBy p = 0
  swapIn := K.swapIn
  write := K.write
  maps := True
  finish := F

/-! ## Turns -/

/-- A store through a writeable entry. -/
structure Stored (x : Sys) (vaddr : ℕ) (data : Contents) (x' : Sys) : Prop where
  vm : ∃ ptr p, x.vm.core.Walks vaddr ptr ∧ x.vm.core.entry ptr = .valid p.val true ∧
    x'.vm.core = { x.vm.core.setWords p data with unsaved := Function.update x.vm.unsaved p true }
  stored : x'.stored = Function.update x.stored (virtPage vaddr) data

/-- A swap-in whose page has been read, and that is over in `x'`. -/
def Sys.Ended (x x' : Sys) (r : Swapping) : Prop :=
  ∃ sw ∈ x.swapIns, sw.swapping = r ∧ sw.wasRead = true ∧ ∀ sw' ∈ x'.swapIns, sw'.pte ≠ r.pte

/-- What an operation does to the state. -/
inductive Turned (K : Guard) (x : Sys) (g : Ledger) (x' : Sys) (g' : Ledger) : Prop
  /-- It makes moves. -/
  | moves (F : Swapping → Prop) (hF : ∀ r, F r → x.Ended x' r)
      (hm : Moves (x.guard K F) x.vm.core g x'.vm.core g')
      (hp : x'.pending = x.pending) (hs : x'.stored = x.stored)
      (hr : ∀ sw ∈ x'.swapIns, sw ∈ x.swapIns ∨ sw.wasRead = false)
  /-- The page writer takes a page. -/
  | pick (p : Pfn) (offset : ℕ) (hv : Picked x.vm g p offset x'.vm)
      (hg : g' = { g with held := incAt g.held p }) (h₀ : x.pending = none)
      (hp : x'.pending = some p) (hs : x'.stored = x.stored) (hr : x'.swapIns = x.swapIns)
  /-- The page writer writes that page. -/
  | send (p : Pfn) (hv : x'.vm = pwritePage x.vm p (drumOffset x.vm p)) (hg : g' = g)
      (h₀ : x.pending = some p) (hp : x'.pending = none) (hs : x'.stored = x.stored)
      (hr : x'.swapIns = x.swapIns)
  /-- A sleeping fault reads its page. -/
  | read (k : ℕ) (sw : SwapIn) (hk : x.swapIns[k]? = some sw) (hw : sw.wasRead = false)
      (hv : x'.vm = preadPage x.vm sw.page (drumOffset x.vm sw.page)) (hg : g' = g)
      (hp : x'.pending = x.pending) (hs : x'.stored = x.stored)
      (hr : x'.swapIns = x.swapIns.set k { sw with wasRead := true })
  /-- A program stores to a page. -/
  | store (vaddr : ℕ) (data : Contents) (hv : Stored x vaddr data x') (hg : g' = g)
      (hp : x'.pending = x.pending) (hr : x'.swapIns = x.swapIns)

/-! ## Sums over lists of threads' data -/

section Sums

variable {α : Type} (f : α → ℕ)

theorem sum_map_append_singleton (l : List α) (a : α) :
    ((l ++ [a]).map f).sum = (l.map f).sum + f a := by simp

theorem sum_map_set {l : List α} {k : ℕ} {a : α} (h : l[k]? = some a) (b : α) :
    ((l.set k b).map f).sum + f a = (l.map f).sum + f b := by
  induction l generalizing k with
  | nil => simp at h
  | cons x l ih =>
    cases k with
    | zero =>
      obtain rfl : x = a := by simpa using h
      simp only [List.set_cons_zero, List.map_cons, List.sum_cons]
      omega
    | succ k =>
      have := ih (k := k) (by simpa using h)
      simp only [List.set_cons_succ, List.map_cons, List.sum_cons]
      omega

theorem sum_map_eraseIdx {l : List α} {k : ℕ} {a : α} (h : l[k]? = some a) :
    ((l.eraseIdx k).map f).sum + f a = (l.map f).sum := by
  induction l generalizing k with
  | nil => simp at h
  | cons x l ih =>
    cases k with
    | zero =>
      obtain rfl : x = a := by simpa using h
      simp only [List.eraseIdx_cons_zero, List.map_cons, List.sum_cons]
      omega
    | succ k =>
      have := ih (k := k) (by simpa using h)
      simp only [List.eraseIdx_cons_succ, List.map_cons, List.sum_cons]
      omega

end Sums

end VmmSim
