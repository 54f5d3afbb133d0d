import VmmSim.Lib.SearchTree
import VmmSim.Pinned

/-!
# Mapping and finding ranges of addresses

`vad.c`: `vm_ps_map_section_view` and `vm_ps_allocate` put ranges into the VAD tree, and
`vmp_ps_vad_find` finds the range that an address lies in, both by `vmp_vad_cmp`. While ranges do
not overlap, the lookup is exact (`vad_find_exact`). The result of `RB_INSERT` is not looked at,
nothing searches for room, and the end of a range is a 64-bit sum, so that a call reports success
whether or not it made the mapping (`map_reported_iff`).
-/

namespace VmmSim

open Lib

/-- `vmp_vad_cmp`. -/
def vmpVadCmp (x y : Vad) : ℤ :=
  if x.start < y.start then -1
  else if y.stop ≤ x.start then 1
  else 0

namespace VadTree

/-- The tree as a search tree. -/
def toTree : VadTree → SearchTree Vad
  | nil => .nil
  | node left vad right => .node left.toTree vad right.toTree

/-- A search tree as the VAD tree. -/
def ofTree : SearchTree Vad → VadTree
  | .nil => nil
  | .node left vad right => node (ofTree left) vad (ofTree right)

@[simp] theorem toTree_ofTree (t : SearchTree Vad) : (ofTree t).toTree = t := by
  induction t with
  | nil => rfl
  | node left vad right ihl ihr => rw [ofTree, toTree, ihl, ihr]

/-- The VADs in order. -/
def toList (t : VadTree) : List Vad := t.toTree.toList

/-- `vmp_ps_vad_find` searches with a key of which only `start` is set. -/
theorem find_eq (t : VadTree) (key : Vad) : t.find key.start = t.toTree.find (vmpVadCmp key) := by
  induction t with
  | nil => rfl
  | node left vad right ihl ihr =>
    simp only [find, toTree, SearchTree.find, vmpVadCmp, ihl, ihr]
    split_ifs <;> first | rfl | omega

/-- The ranges stand in the order of their addresses, and do not overlap. -/
structure Ordered (t : VadTree) : Prop where
  range : ∀ vad ∈ t.toList, vad.start ≤ vad.stop
  sorted : t.toList.Pairwise fun a b => a.stop ≤ b.start

theorem Ordered.guides {t : VadTree} (h : t.Ordered) (x : Vad) :
    Guides (vmpVadCmp x) t.toTree.toList := by
  refine List.Pairwise.imp_of_mem (fun {a b} ha hb hab hx => ?_) h.sorted
  have := h.range a ha
  unfold vmpVadCmp at hx ⊢
  split_ifs at hx ⊢ <;> omega

end VadTree

/-- Two ranges have no address in common. -/
def Vad.Apart (a b : Vad) : Prop := a.stop ≤ b.start ∨ b.stop ≤ a.start

theorem Vad.Apart.symm {a b : Vad} (h : a.Apart b) : b.Apart a := Or.symm h

/-- The arguments of `vm_ps_map_section_view`. -/
structure MapArgs where
  sect : Option ℕ
  vaddr : ℕ
  size : ℕ
  offset : ℕ
  initialWriteability : Bool
  maxWriteability : Bool
  inheritShared : Bool
  cow : Bool
  exact : Bool
  /-- Addresses and sizes have 64 bits. -/
  vaddr_lt : vaddr < 2 ^ 64
  size_lt : size < 2 ^ 64

/-- The address of the mapping: an address is not looked for. -/
def MapArgs.addr (a : MapArgs) : ℕ := if a.exact then a.vaddr else 0

/-- The VAD that is filled in. The end is a 64-bit sum, and the offset has 36 bits. -/
def MapArgs.vad (a : MapArgs) : Vad where
  start := a.addr
  stop := (a.addr + a.size) % 2 ^ 64
  cow := a.cow
  offset := a.offset % 2 ^ 36
  inheritShared := a.inheritShared
  writeable := a.initialWriteability
  maxProtection := a.maxWriteability
  sect := a.sect

/-- `vm_ps_map_section_view`: its result, the address it returns, and the state. -/
def vmPsMapSectionView (b : Balancer Vad) (s : State) (a : MapArgs) : ℤ × ℕ × State :=
  (0, a.addr, { s with
    vadTree := .ofTree (b.insert (vmpVadCmp a.vad) a.vad s.vadTree.toTree) })

/-- The arguments that `vm_ps_allocate` passes on. -/
def allocateArgs (vaddr size : ℕ) (exact : Bool) (hv : vaddr < 2 ^ 64) (hs : size < 2 ^ 64) :
    MapArgs :=
  ⟨none, vaddr, size, 0, true, true, false, false, exact, hv, hs⟩

/-- `vm_ps_allocate`. -/
def vmPsAllocate (b : Balancer Vad) (s : State) (vaddr size : ℕ) (exact : Bool)
    (hv : vaddr < 2 ^ 64) (hs : size < 2 ^ 64) : ℤ × ℕ × State :=
  vmPsMapSectionView b s (allocateArgs vaddr size exact hv hs)

/-! ## One call -/

variable {b : Balancer Vad} {s : State} {a : MapArgs}

/-- The range of a call does not wrap, and there is room for it. -/
structure MapArgs.Fits (a : MapArgs) (t : VadTree) : Prop where
  size : 0 < a.size
  stop : a.addr + a.size < 2 ^ 64
  apart : ∀ vad ∈ t.toList, a.vad.Apart vad

theorem MapArgs.vad_stop (h : a.addr + a.size < 2 ^ 64) : a.vad.stop = a.addr + a.size :=
  Nat.mod_eq_of_lt h

theorem MapArgs.Fits.cmp_ne {t : VadTree} (h : a.Fits t) {vad : Vad} (hv : vad ∈ t.toList) : vmpVadCmp a.vad vad ≠ 0 := by
  have hstop := a.vad_stop h.stop
  have hstart : a.vad.start = a.addr := rfl
  have hsize := h.size
  unfold vmpVadCmp
  rcases h.apart vad hv with hle | hle <;> split_ifs <;> omega

/-- A range that fits is put into its place. -/
theorem MapArgs.Fits.inserts (h : a.Fits s.vadTree) (ht : s.vadTree.Ordered) :
    SearchTree.Inserts (vmpVadCmp a.vad) a.vad s.vadTree.toList
      (vmPsMapSectionView b s a).2.2.vadTree.toList := by
  change SearchTree.Inserts _ _ _ (VadTree.ofTree _).toTree.toList
  rw [VadTree.toTree_ofTree]
  exact Balancer.toList_insert (ht.guides _) fun y hy => h.cmp_ne hy

/-- The ranges stay in order. -/
theorem MapArgs.Fits.ordered (h : a.Fits s.vadTree) (ht : s.vadTree.Ordered) :
    (vmPsMapSectionView b s a).2.2.vadTree.Ordered := by
  have hins := h.inserts (b := b) ht
  have hstop := a.vad_stop h.stop
  have hstart : a.vad.start = a.addr := rfl
  have hsize := h.size
  refine ⟨fun vad hv => ?_, hins.pairwise ht.sorted (fun vad hv hc => ?_) fun vad hv hc => ?_⟩
  · rcases List.mem_cons.1 (hins.perm.mem_iff.1 hv) with rfl | hv
    · omega
    · exact ht.range vad hv
  · unfold vmpVadCmp at hc
    split_ifs at hc <;> omega
  · have := ht.range vad hv
    unfold vmpVadCmp at hc
    rcases h.apart vad hv with hle | hle <;> split_ifs at hc <;> omega

/-! ## Lookups -/

/-- Calls of `vm_ps_map_section_view`, one after the other. -/
def mapAll (s : State) : List (MapArgs × Balancer Vad) → State
  | [] => s
  | c :: calls => mapAll (vmPsMapSectionView c.2 s c.1).2.2 calls

/-- The calls whose ranges fit build a tree of just these ranges, in order. -/
theorem mapAll_ordered (calls : List (MapArgs × Balancer Vad)) : ∀ {s : State}, s.vadTree.Ordered →
    (∀ c ∈ calls, 0 < c.1.size ∧ c.1.addr + c.1.size < 2 ^ 64) →
    (calls.Pairwise fun c d => c.1.vad.Apart d.1.vad) →
    (∀ c ∈ calls, ∀ vad ∈ s.vadTree.toList, c.1.vad.Apart vad) →
    (mapAll s calls).vadTree.Ordered ∧
      (mapAll s calls).vadTree.toList.Perm (calls.map (·.1.vad) ++ s.vadTree.toList) := by
  induction calls with
  | nil => exact fun ht _ _ _ => ⟨ht, List.Perm.refl _⟩
  | cons c calls ih =>
    intro s ht hc hp ha
    obtain ⟨hsize, hstop⟩ := hc c List.mem_cons_self
    have hfits : c.1.Fits s.vadTree := ⟨hsize, hstop, ha c List.mem_cons_self⟩
    obtain ⟨hhead, htail⟩ := List.pairwise_cons.1 hp
    have hperm := (hfits.inserts (b := c.2) ht).perm
    obtain ⟨hord, hall⟩ := ih (hfits.ordered ht) (fun d hd => hc d (List.mem_cons_of_mem _ hd)) htail
      fun d hd vad hv => by
        rcases List.mem_cons.1 (hperm.mem_iff.1 hv) with rfl | hv
        · exact (hhead d hd).symm
        · exact ha d (List.mem_cons_of_mem _ hd) vad hv
    refine ⟨hord, hall.trans ?_⟩
    exact (List.Perm.append_left _ hperm).trans List.perm_middle

/-- **VAD lookup is exact** for ranges mapped in any order: all of them are in the tree, and a lookup
finds the one that the address lies in. -/
theorem vad_find_exact (s : State) (hs : s.vadTree = .nil) (calls : List (MapArgs × Balancer Vad))
    (hc : ∀ c ∈ calls, 0 < c.1.size ∧ c.1.addr + c.1.size < 2 ^ 64)
    (hp : calls.Pairwise fun c d => c.1.vad.Apart d.1.vad) :
    (mapAll s calls).vadTree.toList.Perm (calls.map (·.1.vad)) ∧
      ∀ (v : ℕ) (vad : Vad), vmpPsVadFind (mapAll s calls) v = some vad ↔
        vad ∈ calls.map (·.1.vad) ∧ vad.start ≤ v ∧ v < vad.stop := by
  have hnil : s.vadTree.toList = [] := by rw [hs]; rfl
  have hord : s.vadTree.Ordered := ⟨by simp [hnil], by simp [hnil]⟩
  obtain ⟨hord, hperm⟩ := mapAll_ordered calls hord hc hp (by simp [hnil])
  rw [hnil, List.append_nil] at hperm
  refine ⟨hperm, fun v vad => ?_⟩
  let key : Vad := ⟨v, 0, false, false, false, false, 0, none⟩
  have hfind : vmpPsVadFind (mapAll s calls) v =
      (mapAll s calls).vadTree.toTree.find (vmpVadCmp key) := VadTree.find_eq _ key
  rw [hfind, SearchTree.find_eq_some_iff (hord.guides key), ← hperm.mem_iff]
  refine and_congr_right fun hv => ?_
  have hrange := hord.range vad hv
  change (if v < vad.start then (-1 : ℤ) else if vad.stop ≤ v then 1 else 0) = 0 ↔ _
  constructor
  · intro h0
    split_ifs at h0 <;> omega
  · rintro ⟨hle, hlt⟩
    rw [if_neg (by omega), if_neg (by omega)]

/-- Two ranges, the higher one first. -/
def twoRanges : List (MapArgs × Balancer Vad) :=
  [(allocateArgs 8192 4096 true (by decide) (by decide), .plain),
    (allocateArgs 0 4096 true (by decide) (by decide), .plain)]

theorem vad_find_exact_twoRanges :
    (mapAll (simPagesInit mainConfig) twoRanges).vadTree.toList.Perm (twoRanges.map (·.1.vad)) ∧
      ∀ (v : ℕ) (vad : Vad), vmpPsVadFind (mapAll (simPagesInit mainConfig) twoRanges) v = some vad ↔
        vad ∈ twoRanges.map (·.1.vad) ∧ vad.start ≤ v ∧ v < vad.stop := by
  refine vad_find_exact _ rfl twoRanges (fun c hc => ?_) ?_
  · simp only [twoRanges, List.mem_cons, List.not_mem_nil, or_false] at hc
    rcases hc with rfl | rfl <;> exact ⟨by decide, by decide⟩
  · simp only [twoRanges, List.pairwise_cons, List.mem_singleton, List.not_mem_nil]
    refine ⟨?_, by simp, List.Pairwise.nil⟩
    rintro c rfl
    exact .inr (by decide)

/-! ## What a call reports -/

/-- What a call should report: if it returns 0 with an address, then the range at this address does
not wrap and is new in the tree, everything else is still in the tree, and the ranges are apart;
otherwise the tree has not changed. -/
def MapReported (s : State) (a : MapArgs) (r : ℤ × ℕ × State) : Prop :=
  if r.1 = 0 then
    r.2.1 + a.size < 2 ^ 64 ∧
      r.2.2.vadTree.toList.Perm
        ({ a.vad with start := r.2.1, stop := r.2.1 + a.size } :: s.vadTree.toList) ∧
      r.2.2.vadTree.toList.Pairwise Vad.Apart
  else r.2.2.vadTree = s.vadTree

/-- **A call reports what it did** if and only if the range does not wrap and is apart from the ranges
that are in the tree. -/
theorem map_reported_iff (b : Balancer Vad) (s : State) (a : MapArgs) (ha : 0 < a.size)
    (ht : s.vadTree.Ordered) : MapReported s a (vmPsMapSectionView b s a) ↔
      a.addr + a.size < 2 ^ 64 ∧ ∀ vad ∈ s.vadTree.toList, a.vad.Apart vad := by
  have hret : (vmPsMapSectionView b s a).1 = 0 := rfl
  have haddr : (vmPsMapSectionView b s a).2.1 = a.addr := rfl
  rw [MapReported, if_pos hret, haddr]
  refine ⟨fun ⟨hstop, hperm, hapart⟩ => ⟨hstop, ?_⟩, fun ⟨hstop, hapart⟩ => ⟨hstop, ?_, ?_⟩⟩
  · rw [← a.vad_stop hstop] at hperm
    have hcons : (a.vad :: s.vadTree.toList).Pairwise Vad.Apart :=
      (List.Perm.pairwise_iff Vad.Apart.symm hperm).1 hapart
    exact (List.pairwise_cons.1 hcons).1
  · rw [← a.vad_stop hstop]
    exact (MapArgs.Fits.inserts ⟨ha, hstop, hapart⟩ ht).perm
  · have hfits : a.Fits s.vadTree := ⟨ha, hstop, hapart⟩
    exact (hfits.ordered ht).sorted.imp Or.inl

theorem map_reported_firstRange :
    MapReported (simPagesInit mainConfig) (allocateArgs 0 4096 true (by decide) (by decide))
        (vmPsAllocate .plain (simPagesInit mainConfig) 0 4096 true (by decide) (by decide)) ↔
      (allocateArgs 0 4096 true (by decide) (by decide)).addr + 4096 < 2 ^ 64 ∧
        ∀ vad ∈ (simPagesInit mainConfig).vadTree.toList,
          (allocateArgs 0 4096 true (by decide) (by decide)).vad.Apart vad :=
  map_reported_iff .plain (simPagesInit mainConfig)
    (allocateArgs 0 4096 true (by decide) (by decide)) (by decide)
    ⟨fun _ h => absurd h List.not_mem_nil, List.Pairwise.nil⟩

/-- The state after one allocation at an address of the callee's choice. -/
def allocatedOnce : State :=
  (vmPsAllocate .plain (simPagesInit mainConfig) 0 4096 false (by decide) (by decide)).2.2

/-- A second such allocation gets the same address, and is not in the tree. -/
theorem allocate_twice :
    allocatedOnce.vadTree.Ordered ∧
      (vmPsAllocate .plain allocatedOnce 0 4096 false (by decide) (by decide)).1 = 0 ∧
      ¬ MapReported allocatedOnce (allocateArgs 0 4096 false (by decide) (by decide))
        (vmPsAllocate .plain allocatedOnce 0 4096 false (by decide) (by decide)) := by
  have hlist : allocatedOnce.vadTree.toList =
      [(allocateArgs 0 4096 false (by decide) (by decide)).vad] := rfl
  have hsame : (vmPsAllocate .plain allocatedOnce 0 4096 false (by decide)
      (by decide)).2.2.vadTree.toList =
        [(allocateArgs 0 4096 false (by decide) (by decide)).vad] := rfl
  refine ⟨⟨fun vad hv => ?_, ?_⟩, rfl, fun h => ?_⟩
  · rw [hlist] at hv
    obtain rfl := List.mem_singleton.1 hv
    decide
  · rw [hlist]
    exact List.pairwise_singleton _ _
  · have hlength := h.2.1.length_eq
    rw [hsame, List.length_cons, hlist] at hlength
    exact absurd hlength (by decide)

end VmmSim
