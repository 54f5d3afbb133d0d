import VmmSim.Lib.Run
import VmmSim.Boot

/-!
# The running simulator

The threads of the simulator around the memory manager: faults, which hold the working set lock
between their two parts; swap-ins asleep in their read; explicit wirings; callers' memory
descriptor lists; the page writer, with its batch of writes; and the stores that a program makes
through the simulated MMU. `step` takes one operation; between two operations no lock of the PFN
database is held. A run starts in a state of `Boot`.
-/

namespace VmmSim

/-- A `do_fault` between its two parts. It holds the working set lock. -/
structure FaultAct where
  vaddr : ℕ
  write : Bool
  out : Option ℕ
  vad : Vad
  state : WireState

/-- Where `vmp_pgwriter` is: collecting pages, about to write the last one collected at an
offset, or releasing the batch. -/
inductive PgPhase
  | collect
  | send (offset : ℕ)
  | release
  deriving DecidableEq, Repr

/-- `vmp_pgwriter`, with the pages in its lists. -/
structure PgWriter where
  phase : PgPhase
  batch : List Pfn
  deriving DecidableEq, Repr

/-- `MAX_IOPS`. -/
abbrev maxIops : ℕ := 32

/-- The state of the simulator. -/
structure Sys where
  vm : State
  /-- The fault that holds the working set lock. -/
  fault : Option FaultAct
  swapIns : List SwapIn
  /-- The outstanding wire states of callers other than `do_fault`. -/
  wires : List WireState
  mdls : List Mdl
  pgwriter : PgWriter
  /-- History variable: what the last store to a virtual page left in it. -/
  stored : ℕ → Contents

/-- The number of the virtual page of an address; the MMU looks at 48 bits. -/
def virtPage (vaddr : ℕ) : ℕ := vaddr / pgSize % 2 ^ 36

/-- The walk of `access`, from `level` down, which tests the valid bit alone. -/
def mmuWalkFrom (s : State) (addr : ℕ) : ℕ → Pfn → Res (Option PtePtr)
  | 0, _ => .error .kfatal
  | level + 1, table =>
    let ptr := (table, vmpAddrUnpack addr (level + 1))
    if hwValid (s.pte ptr) ≠ 1 then .ok none
    else if level = 0 then .ok (some ptr)
    else do
      let table ← hwTable (s.pte ptr)
      mmuWalkFrom s addr level table

/-- One try of `access`: the entry through which the access goes, or `none` to call
`vm_fault`. -/
def accessTry (s : State) (addr : ℕ) (forWrite : Bool) : Res (Option PtePtr) := do
  match ← mmuWalkFrom s addr vmpTableLevels s.pml4Page with
  | none => return none
  | some ptr =>
    if forWrite ∧ ¬ vmpPteHwIsWriteable (s.pte ptr) then return none else return some ptr

/-- The operations of the simulator's threads. -/
inductive Op
  /-- `do_fault`, up to the end of its wiring. -/
  | fault (vaddr : ℕ) (write : Bool) (out : Option ℕ)
  /-- `do_fault`, from there to its end or its sleep. -/
  | faultMain (pagerState : ℕ)
  /-- The read of a sleeping `do_fault`. -/
  | swapRead (k : ℕ)
  /-- The end of a sleeping `do_fault`. -/
  | swapFinish (k : ℕ)
  /-- `vmp_wire_pte` by another caller. -/
  | wire (vaddr : ℕ)
  /-- `vmp_pte_wire_state_release` by that caller. -/
  | unwire (k : ℕ)
  /-- One round of `vmp_wsl_trim_n`. -/
  | trim
  /-- One turn of the page writer. -/
  | pgwriter
  /-- `vmp_page_alloc_locked` for a use of the caller's. -/
  | alloc (use : PageUse) (must : Bool)
  /-- `vm_mdl_alloc`. -/
  | mdlAlloc (npages : ℕ)
  /-- One round of `vm_mdl_release_pages`. -/
  | mdlRelease (k i : ℕ)
  /-- A store, through `access`, that leaves the page with these contents. -/
  | store (vaddr : ℕ) (data : Contents)

/-- Uses that a caller outside the memory manager allocates pages for. -/
def PageUse.isForeign : PageUse → Bool
  | .invalid | .pfndb | .kWired | .anonShared | .fileShared | .forkPage => true
  | _ => false

/-- Take the working set lock. -/
def Sys.lockWs (x : Sys) : Res Unit := if x.fault.isSome then .error .wait else .ok ()

/-- A turn of `vmp_pgwriter`: pick the next page, write it, or release the next of the batch. -/
def pgwriterTurn (x : Sys) : Res Sys :=
  match x.pgwriter.phase with
  | .collect =>
    if x.pgwriter.batch.length < maxIops then
      match x.vm.modifiedPgq with
      | [] => .ok { x with
          vm := { x.vm with pgwriterEvent := false }
          pgwriter.phase := .release }
      | page :: _ => do
        let (offset, s) ← pgwriterPick x.vm page
        return { x with vm := s, pgwriter := ⟨.send offset, x.pgwriter.batch ++ [page]⟩ }
    else .ok { x with pgwriter.phase := .release }
  | .send offset =>
    match x.pgwriter.batch.getLast? with
    | none => .error .wild
    | some page => .ok { x with
        vm := pwritePage x.vm page offset
        pgwriter.phase := .collect }
  | .release =>
    match x.pgwriter.batch with
    | [] => .ok { x with pgwriter.phase := .collect }
    | page :: batch => do
      let s ← vmpPageReleaseLocked x.vm page
      return { x with vm := s, pgwriter.batch := batch }

/-- The caller's list of a fault. -/
def Sys.mdl (x : Sys) : Option ℕ → Res (Option Mdl)
  | none => .ok none
  | some k => match x.mdls[k]? with
    | none => .error .wait
    | some out => .ok (some out)

/-- Put a caller's list back. -/
def Sys.setMdl (x : Sys) : Option ℕ → Option Mdl → Sys
  | some k, some out => { x with mdls := x.mdls.set k out }
  | _, _ => x

/-- The second part of a fault. -/
def faultMainStep (x : Sys) (pagerState : ℕ) : Res Sys :=
  match x.fault with
  | none => .error .wait
  | some f => do
    let out ← x.mdl f.out
    let (r, out, s) ← faultMain x.vm f.vaddr f.write f.vad f.state out pagerState
    let x := { x with vm := s, fault := none }.setMdl f.out out
    match r with
    | .ret _ => return x
    | .sleep page => return { x with
        swapIns := x.swapIns ++ [⟨f.vaddr, f.state.pte, page, pagerState, f.out, false⟩] }

/-- One operation of one thread. An operation whose thread has to wait, or that its caller is not
in a position to make, ends in `wait`. -/
def step (op : Op) (x : Sys) : Res Sys :=
  match op with
  | .fault vaddr write out => do
    x.lockWs
    let _ ← x.mdl out
    let (vad, state, s) ← faultWire x.vm vaddr
    return { x with vm := s, fault := some ⟨vaddr, write, out, vad, state⟩ }
  | .faultMain pagerState => faultMainStep x pagerState
  | .swapRead k =>
    match x.swapIns[k]? with
    | none => .error .wait
    | some sw =>
      if sw.wasRead then .error .wait
      else .ok { x with
        vm := preadPage x.vm sw.page (drumOffset x.vm sw.page)
        swapIns := x.swapIns.set k { sw with wasRead := true } }
  | .swapFinish k => do
    x.lockWs
    match x.swapIns[k]? with
    | none => .error .wait
    | some sw =>
      if ¬ sw.wasRead then .error .wait
      else do
        let out ← x.mdl sw.out
        let (out, s) ← swapInFinish x.vm sw out
        return { x with vm := s, swapIns := x.swapIns.eraseIdx k }.setMdl sw.out out
  | .wire vaddr => do
    x.lockWs
    let (state, s) ← vmpWirePte x.vm vaddr
    return { x with vm := s, wires := x.wires ++ [state] }
  | .unwire k => do
    x.lockWs
    match x.wires[k]? with
    | none => .error .wait
    | some state =>
      let s ← vmpPteWireStateRelease x.vm state
      return { x with vm := s, wires := x.wires.eraseIdx k }
  | .trim => do
    x.lockWs
    let (_, s) ← wslTrim1 x.vm
    return { x with vm := s }
  | .pgwriter => pgwriterTurn x
  | .alloc use must =>
    if use.isForeign then do
      let (_, s) ← vmpPageAllocLocked x.vm use must
      return { x with vm := s }
    else .error .wait
  | .mdlAlloc npages => .ok { x with mdls := x.mdls ++ [vmMdlAlloc npages] }
  | .mdlRelease k i =>
    match x.mdls[k]? with
    | none => .error .wait
    | some out =>
      if i < out.nentries then
        match out.pages[i]? with
        | some (some page) => do
          let s ← vmpPageReleaseLocked x.vm page
          return { x with
            vm := s
            mdls := x.mdls.set k { out with pages := out.pages.set i none } }
        | _ => .error .kassert
      else .error .wait
  | .store vaddr data => do
    match ← accessTry x.vm vaddr true with
    | none => .error .wait
    | some ptr =>
      let page ← vmpPteHwPage (x.vm.pte ptr)
      let s := x.vm.setContents page data
      return { x with
        vm := { s with unsaved := Function.update s.unsaved page true }
        stored := Function.update x.stored (virtPage vaddr) data }

/-! ## The start -/

/-- The simulator has been started. -/
def Boot (x : Sys) : Prop :=
  ∃ c s, mainInit c = .ok s ∧
    x = ⟨s, none, [], [], [], ⟨.collect, []⟩, fun _ => 0⟩

end VmmSim
