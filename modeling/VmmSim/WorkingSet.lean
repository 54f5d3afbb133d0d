import VmmSim.Resident

/-!
# The working set list

Finding, removing, locking and unlocking working set entries, from `ws.c`. Insertion and
eviction are in `VmmSim.Trim`, since an insertion may have to evict a page.
-/

namespace VmmSim

/-- `vmp_wsl_find`. -/
def vmpWslFind (s : State) (vaddr : ℕ) : Option Wsle :=
  s.wsl.tree.find? fun e => e.vaddr = vaddr

/-- `vmp_wsl_remove`. The entry leaves the tree and the queue; `nentries` keeps its value. -/
def vmpWslRemove (s : State) (vaddr : ℕ) : Res State :=
  match vmpWslFind s vaddr with
  | none => .error .kassert
  | some wsle => do
    let q ← tailqRemove s.wsl.queue wsle
    return { s with
      wsl.tree := s.wsl.tree.erase wsle
      wsl.queue := q }

/-- `vmp_wsl_lock_entry`. -/
def vmpWslLockEntry (s : State) (vaddr : ℕ) : Res State :=
  match vmpWslFind s vaddr with
  | none => .error .kassert
  | some wsle => do
    let q ← tailqRemove s.wsl.queue wsle
    return { s with
      wsl.queue := q
      wsl.nlocked := s.wsl.nlocked + 1 }

/-- `vmp_wsl_unlock_entry`. -/
def vmpWslUnlockEntry (s : State) (vaddr : ℕ) : Res State :=
  match vmpWslFind s vaddr with
  | none => .error .kassert
  | some wsle => .ok { s with
      wsl.queue := s.wsl.queue ++ [wsle]
      wsl.nlocked := s.wsl.nlocked - 1 }

/-- The address of a page table's working set entry, `P2V(vmp_page_paddr(page))`. -/
def State.tableVaddr (s : State) (p : Pfn) : ℕ := s.p2v (vmpPagePaddr p)

/-- The working set entry of a page table. -/
def State.tableWsle (s : State) (p : Pfn) : Wsle := ⟨s.tableVaddr p, true⟩

theorem State.tableVaddr_injective (s : State) : Function.Injective s.tableVaddr := fun _ _ h =>
  vmpPagePaddr_injective (Nat.add_right_cancel h)

end VmmSim
