import VmmSim.Fault

/-!
# The page writer

The pagefile's slot allocator and `cluster_anon` of `pgwriter.c`.
-/

namespace VmmSim

/-- The slots of `vmp_pagefile_alloc`'s scan still to be looked at, the `i`-th first. -/
def pagefileScan (pf : Pagefile) (start : ℕ) (i : ℕ) : ℕ → Res (ℕ × Pagefile)
  | 0 => .ok (noSlot, pf)
  | left + 1 =>
    let idx := (start + i) % pf.totalSlots
    match pf.bitmap[idx / 8]? with
    | none => .error .wild
    | some byte =>
      if byte &&& (1 <<< (idx % 8)) = 0 then
        .ok (idx, { pf with
          bitmap := pf.bitmap.set (idx / 8) (byte ||| (1 <<< (idx % 8)))
          freeSlots := pf.freeSlots - 1
          nextFree := (idx + 1) % pf.totalSlots })
      else pagefileScan pf start (i + 1) left

/-- `vmp_pagefile_alloc`: the slot, or -1. -/
def vmpPagefileAlloc (pf : Pagefile) : Res (ℕ × Pagefile) :=
  if pf.freeSlots = 0 then .ok (noSlot, pf)
  else pagefileScan pf pf.nextFree 0 pf.totalSlots

/-- `init_vmp_pagefile`. -/
def initVmpPagefile (length : ℕ) : Pagefile where
  bitmap := List.replicate ((length / pgSize + 7) / 8) 0
  totalSlots := length / pgSize
  freeSlots := length / pgSize
  nextFree := 0

/-- The start of `cluster_anon`: give the page a slot if it has none. -/
def assignSlot (s : State) (page : Pfn) : Res State :=
  if (s.pages page).drumslot = noSlot then do
    let (slot, pf) ← vmpPagefileAlloc s.pagefile
    let s := { s with pagefile := pf }
    return s.modifyPage page fun pg => { pg with drumslot := slot }
  else .ok s

/-- `cluster_anon`: give the page a slot if it has none, and clear its dirty flag. The offset of
the write is that of the slot. -/
def clusterAnon (s : State) (page : Pfn) : Res (ℕ × State) := do
  let s ← assignSlot s page
  let s := s.modifyPage page fun pg => { pg with dirty := false }
  return (drumOffset s page, s)

/-- What the page writer does with the first page of the modified queue: retain it, which takes
it off the queue, and prepare its write. -/
def pgwriterPick (s : State) (page : Pfn) : Res (ℕ × State) := do
  let s ← vmpPageRetainLocked s page
  match (s.pages page).use with
  | .anonPrivate | .anonShared | .pml1 | .pml2 | .pml3 | .pml4 => clusterAnon s page
  | _ => .error .kfatal

end VmmSim
