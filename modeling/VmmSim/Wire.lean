import VmmSim.Trim

/-!
# Wiring a page table entry

`vmp_wire_pte` and `vmp_pte_wire_state_release` of `tables.c`.
-/

namespace VmmSim

/-- `struct vmp_pte_wire_state`: the entry, and the wired tables of levels 1 to 4. -/
structure WireState where
  pte : PtePtr
  pages : List (Option Pfn)
  deriving DecidableEq, Repr

/-- The transition case of `vmp_wire_pte`: bring the table back. -/
def wireTrans (s : State) (dirpage : Pfn) (pte : PtePtr) : Res (Pfn × State) := do
  let page ← vmpPteTransPage (s.pte pte)
  let s ← vmpPageRetainLocked s page
  let s ← vmpPageRetainLocked s page
  let s := s.modifyPage page fun pg =>
    { pg with nonzeroPtes := inc16 pg.nonzeroPtes, nonswapPtes := inc16 pg.nonswapPtes }
  let s ← vmpWslInsert s (s.tableVaddr page) true true
  let s ← vmpMdSetupTablePointers s dirpage page pte false
  return (page, s)

/-- The new table of the zero case of `vmp_wire_pte`, wired and not yet in its directory. -/
def wireNewTable (s : State) (page : Pfn) (pte : PtePtr) : Res State := do
  let s ← vmpPageRetainLocked s page
  let s := s.modifyPage page fun pg =>
    { pg with
      nonzeroPtes := inc16 pg.nonzeroPtes
      nonswapPtes := inc16 pg.nonswapPtes
      referentPte := ptePaddr pte }
  vmpWslInsert s (s.tableVaddr page) true true

/-- The zero case of `vmp_wire_pte`: make a table of the level below `level`. -/
def wireZero (s : State) (level : ℕ) (dirpage : Pfn) (pte : PtePtr) : Res (Pfn × State) := do
  let (page, s) ← vmpPageAllocLocked s (.ofLevel (level - 1)) false
  match page with
  | none => .error .kassert
  | some page =>
    let s ← wireNewTable s page pte
    let s ← vmpMdSetupTablePointers s dirpage page pte true
    return (page, s)

/-- The switch of `vmp_wire_pte`, on an entry of the directory `dirpage`: the table one level
down, wired. -/
def wireLevel (s : State) (level : ℕ) (dirpage : Pfn) (pte : PtePtr) : Res (Pfn × State) := do
  match ← vmpPteCharacterise (s.pte pte) with
  | .valid =>
    let page ← vmpPteHwPage (s.pte pte)
    let s ← vmpPagetablePageNonswapPteCreated s page true
    return (page, s)
  | .trans => wireTrans s dirpage pte
  | .busy => .error .wait
  | .swap => .error .kfatal
  | .zero => wireZero s level dirpage pte

/-- The loop of `vmp_wire_pte` from `level` down, with the tables wired so far, the lowest
first. -/
def wireFrom (vaddr : ℕ) : ℕ → State → Pfn → List (Option Pfn) → Res (WireState × State)
  | 0, _, _, _ => .error .kfatal
  | 1, s, table, pages => .ok (⟨(table, vmpAddrUnpack vaddr 1), pages⟩, s)
  | level + 1, s, table, pages => do
    let (page, s) ← wireLevel s (level + 1) table (table, vmpAddrUnpack vaddr (level + 1))
    wireFrom vaddr level s page (some page :: pages)

/-- `vmp_wire_pte`. -/
def vmpWirePte (s : State) (vaddr : ℕ) : Res (WireState × State) := do
  let s ← vmpPagetablePageNonswapPteCreated s s.pml4Page true
  wireFrom vaddr vmpTableLevels s s.pml4Page [some s.pml4Page]

/-- The loop of `vmp_pte_wire_state_release`, over the pages still to release. -/
def releaseWired (s : State) : List (Option Pfn) → Res State
  | [] => .ok s
  | none :: pages => releaseWired s pages
  | some page :: pages => do
    let s ← vmpPagetablePagePteDeleted s page false
    releaseWired s pages

/-- `vmp_pte_wire_state_release`. -/
def vmpPteWireStateRelease (s : State) (state : WireState) : Res State :=
  releaseWired s state.pages

end VmmSim
