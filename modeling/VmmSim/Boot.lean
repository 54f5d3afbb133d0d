import VmmSim.PageWriter

/-!
# Starting up

`SIM_pages_init` of `resident.c`, and `main` up to the start of its threads.
-/

namespace VmmSim

/-- What `main` and the program's environment choose. -/
structure Config where
  softPages : ℕ
  vmparam : VmParam
  wslMax : ℕ
  pagefileLength : ℕ
  /-- The length is a `size_t`. -/
  pagefileLength_lt : pagefileLength < 2 ^ 64 := by decide
  vads : VadTree
  /-- The contents of the file behind the pagefile. -/
  drum : ℕ → Contents

/-- `SIM_pages_init`, with the other variables as `main` finds them. -/
def simPagesInit (c : Config) : State where
  pages _ := ⟨.free, false, 0, 0, 0, 0, 0⟩
  mem _ := 0
  freePgq := List.finRange softNPages
  standbyPgq := []
  modifiedPgq := []
  vmstat := ⟨softNPages, 0, 0, 0⟩
  vmparam := ⟨0, 0, 0⟩
  wasShortage := false
  sufficientPagesEvent := false
  pgwriterEvent := false
  balancerEvent := false
  wsl := ⟨[], [], 0, 0, 0⟩
  softPages := c.softPages
  pml4Page := 0
  vadTree := .nil
  pagefile := initVmpPagefile c.pagefileLength
  drum := c.drum
  unsaved _ := false

/-- `main` up to the start of the threads, with the VADs mapped. -/
def mainInit (c : Config) : Res State := do
  let (page, s) ← vmpPageAllocLocked (simPagesInit c) (.ofLevel vmpTableLevels) true
  match page with
  | none => .error .kfatal
  | some page => return { s with
      pml4Page := page
      vmparam := c.vmparam
      wsl := ⟨[], [], 0, 0, c.wslMax⟩
      vadTree := c.vads }

end VmmSim
