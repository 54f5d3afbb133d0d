import VmmSim.Vads

/-!
# The order of the working set tree

The entries of a working set stand in a red-black tree by `wsle_cmp`, a wrapping difference of two
addresses that is taken as a signed number. On canonical addresses this is the difference of the
addresses as signed numbers of 48 bits, which does not wrap: the tables' direct-map addresses stand
before the user's. So the tree is searched exactly (`wsl_find_exact`), and a list with a search by
address is a model of it (`vmpWslFind_eq`).
-/

namespace VmmSim

open Lib

/-- `wsle_cmp`. -/
def wsleCmp (x y : Wsle) : ℤ := (BitVec.ofNat 64 x.vaddr - BitVec.ofNat 64 y.vaddr).toInt

/-- Bits 47 to 63 of the address are equal. -/
def Canonical (vaddr : ℕ) : Prop := vaddr < 2 ^ 47 ∨ 2 ^ 64 - 2 ^ 47 ≤ vaddr ∧ vaddr < 2 ^ 64

theorem Canonical.lt {vaddr : ℕ} (h : Canonical vaddr) : vaddr < 2 ^ 64 := by
  unfold Canonical at h
  omega

/-- A canonical address as a signed number. -/
def signedAddr (vaddr : ℕ) : ℤ := if vaddr < 2 ^ 47 then vaddr else vaddr - 2 ^ 64

/-- The difference as a balanced remainder. -/
theorem wsleCmp_eq_bmod {x y : Wsle} (hx : x.vaddr < 2 ^ 64) (hy : y.vaddr < 2 ^ 64) :
    wsleCmp x y = ((x.vaddr : ℤ) - y.vaddr).bmod (2 ^ 64) := by
  rw [wsleCmp, BitVec.toInt_sub, BitVec.toInt_eq_toNat_bmod, BitVec.toInt_eq_toNat_bmod,
    BitVec.toNat_ofNat, BitVec.toNat_ofNat, Nat.mod_eq_of_lt hx, Nat.mod_eq_of_lt hy,
    Int.sub_bmod_bmod, Int.bmod_sub_bmod]

/-- The difference of canonical addresses does not wrap. -/
theorem wsleCmp_eq {x y : Wsle} (hx : Canonical x.vaddr) (hy : Canonical y.vaddr) :
    wsleCmp x y = signedAddr x.vaddr - signedAddr y.vaddr := by
  rw [wsleCmp_eq_bmod hx.lt hy.lt]
  unfold Canonical at hx hy
  simp only [signedAddr, Int.bmod_def]
  split_ifs <;> omega

/-- Equal entries are those with equal addresses, canonical or not. -/
theorem wsleCmp_eq_zero {x y : Wsle} (hx : x.vaddr < 2 ^ 64) (hy : y.vaddr < 2 ^ 64) :
    wsleCmp x y = 0 ↔ x.vaddr = y.vaddr := by
  rw [wsleCmp_eq_bmod hx hy, Int.bmod_def]
  constructor
  · intro h
    split_ifs at h <;> omega
  · intro h
    rw [h]
    split_ifs <;> omega

theorem signedAddr_injective {v v' : ℕ} (hv : Canonical v) (hv' : Canonical v')
    (h : signedAddr v = signedAddr v') : v = v' := by
  unfold Canonical at hv hv'
  unfold signedAddr at h
  split_ifs at h <;> omega

/-- `wsle_cmp` is a strict total order on canonical addresses. -/
structure WsleOrder : Prop where
  eq_zero : ∀ x y : Wsle, Canonical x.vaddr → Canonical y.vaddr →
    (wsleCmp x y = 0 ↔ x.vaddr = y.vaddr)
  swap : ∀ x y : Wsle, Canonical x.vaddr → Canonical y.vaddr → (wsleCmp x y < 0 ↔ 0 < wsleCmp y x)
  trans : ∀ x y z : Wsle, Canonical x.vaddr → Canonical y.vaddr → Canonical z.vaddr →
    wsleCmp x y < 0 → wsleCmp y z < 0 → wsleCmp x z < 0

theorem wsle_order : WsleOrder where
  eq_zero _ _ hx hy := wsleCmp_eq_zero hx.lt hy.lt
  swap x y hx hy := by
    rw [wsleCmp_eq hx hy, wsleCmp_eq hy hx]
    omega
  trans x y z hx hy hz hxy hyz := by
    rw [wsleCmp_eq hx hy] at hxy
    rw [wsleCmp_eq hy hz] at hyz
    rw [wsleCmp_eq hx hz]
    omega

/-! ## The tree -/

/-- `vmp_wsl_find`, in the tree. -/
def wslTreeFind (t : SearchTree Wsle) (vaddr : ℕ) : Option Wsle :=
  t.find (wsleCmp ⟨vaddr, false⟩)

/-- What happens to the tree: the insertion in `vmp_wsl_insert`, and the removal in
`vmp_wsl_remove`. -/
inductive WslOp
  | insert (e : Wsle)
  | remove (vaddr : ℕ)

/-- The address of an operation. -/
def WslOp.vaddr : WslOp → ℕ
  | insert e => e.vaddr
  | remove vaddr => vaddr

/-- An operation on the tree, with the balancing done in it. -/
def wslStep (op : WslOp × Balancer Wsle) (t : SearchTree Wsle) : Res (SearchTree Wsle) :=
  match op.1 with
  | .insert e => do
    kassert (wslTreeFind t e.vaddr = none)
    return op.2.insert (wsleCmp e) e t
  | .remove vaddr =>
    match wslTreeFind t vaddr with
    | none => .error .kassert
    | some e => .ok (op.2.remove e t)

/-- The addresses in the set after an operation. -/
def WslOp.apply (S : Finset ℕ) : WslOp → Finset ℕ
  | insert e => Insert.insert e.vaddr S
  | remove vaddr => S.erase vaddr

/-- The elements stand by their addresses as signed numbers, and are those of the set. -/
structure WslSorted (t : SearchTree Wsle) (S : Finset ℕ) : Prop where
  canonical : ∀ e ∈ t.toList, Canonical e.vaddr
  sorted : t.toList.Pairwise fun a b => signedAddr a.vaddr < signedAddr b.vaddr
  mem : ∀ v, v ∈ S ↔ ∃ e ∈ t.toList, e.vaddr = v

namespace WslSorted

variable {t : SearchTree Wsle} {S : Finset ℕ}

theorem guides (h : WslSorted t S) {x : Wsle} (hx : Canonical x.vaddr) :
    Guides (wsleCmp x) t.toList := by
  refine List.Pairwise.imp_of_mem (fun {a b} ha hb hab hle => ?_) h.sorted
  rw [wsleCmp_eq hx (h.canonical a ha)] at hle
  rw [wsleCmp_eq hx (h.canonical b hb)]
  omega

theorem nodup (h : WslSorted t S) : t.toList.Nodup :=
  h.sorted.imp fun {a b} hab e => by
    rw [e] at hab
    exact lt_irrefl _ hab

/-- **The lookup is exact**, of any 64-bit address. -/
theorem find_eq_some_iff (h : WslSorted t S) {v : ℕ} (hv : v < 2 ^ 64) {e : Wsle} :
    wslTreeFind t v = some e ↔ e ∈ t.toList ∧ e.vaddr = v := by
  constructor
  · intro hf
    obtain ⟨he, h0⟩ := SearchTree.of_find hf
    exact ⟨he, ((wsleCmp_eq_zero hv (h.canonical e he).lt).1 h0).symm⟩
  · rintro ⟨he, rfl⟩
    refine (SearchTree.find_eq_some_iff (h.guides (h.canonical e he))).2 ⟨he, ?_⟩
    exact (wsleCmp_eq_zero hv hv).2 rfl

theorem isSome_find (h : WslSorted t S) {v : ℕ} (hv : v < 2 ^ 64) :
    (wslTreeFind t v).isSome ↔ v ∈ S := by
  rw [Option.isSome_iff_exists, h.mem]
  exact exists_congr fun e => h.find_eq_some_iff hv

/-- Every operation keeps the order. -/
theorem step (h : WslSorted t S) {op : WslOp × Balancer Wsle} (hc : Canonical op.1.vaddr) :
    Wp (fun _ => True) (wslStep op t) fun t' => WslSorted t' (op.1.apply S) := by
  obtain ⟨op, b⟩ := op
  cases op with
  | insert e =>
    simp only [wslStep, Wp.bind_iff, wp_kassert]
    refine ⟨fun hk => ?_, fun _ => trivial⟩
    have hguides := h.guides hc
    have hins := Balancer.toList_insert (b := b) (x := e) hguides
      ((SearchTree.find_eq_none_iff (h.guides (x := ⟨e.vaddr, false⟩) hc)).1 hk)
    refine ⟨fun d hd => ?_, hins.pairwise h.sorted (fun d hd hlt => ?_) fun d hd hlt => ?_, fun v => ?_⟩
    · rcases List.mem_cons.1 (hins.perm.mem_iff.1 hd) with rfl | hd
      · exact hc
      · exact h.canonical d hd
    · rw [wsleCmp_eq hc (h.canonical d hd)] at hlt
      omega
    · rw [wsleCmp_eq hc (h.canonical d hd)] at hlt
      omega
    · simp only [WslOp.apply, Finset.mem_insert, h.mem, hins.perm.mem_iff, List.mem_cons]
      constructor
      · rintro (rfl | ⟨d, hd, hv⟩)
        · exact ⟨e, .inl rfl, rfl⟩
        · exact ⟨d, .inr hd, hv⟩
      · rintro ⟨d, rfl | hd, hv⟩
        · exact .inl hv.symm
        · exact .inr ⟨d, hd, hv⟩
  | remove v =>
    simp only [wslStep]
    split
    · trivial
    · rename_i e hf
      obtain ⟨he, hv⟩ := (h.find_eq_some_iff hc.lt).1 hf
      simp only [Wp.ok_iff]
      refine ⟨fun d hd => ?_, ?_, fun w => ?_⟩
      · rw [b.toList_remove] at hd
        exact h.canonical d (List.mem_of_mem_erase hd)
      · rw [b.toList_remove]
        exact h.sorted.sublist List.erase_sublist
      · simp only [WslOp.apply, Finset.mem_erase, h.mem, b.toList_remove, h.nodup.mem_erase_iff]
        constructor
        · rintro ⟨hne, d, hd, rfl⟩
          refine ⟨d, ⟨?_, hd⟩, rfl⟩
          rintro rfl
          exact hne hv
        · rintro ⟨d, ⟨hne, hd⟩, rfl⟩
          refine ⟨fun hdv => hne ?_, d, hd, rfl⟩
          have hf' := (h.find_eq_some_iff hc.lt).2 ⟨hd, hdv⟩
          exact Option.some.inj (hf'.symm.trans hf)

/-- A list with the same entries and a search by address finds the same. -/
theorem find_eq_list (h : WslSorted t S) {s : State} (hp : t.toList.Perm s.wsl.tree) {v : ℕ}
    (hv : v < 2 ^ 64) : wslTreeFind t v = vmpWslFind s v := by
  cases hf : wslTreeFind t v with
  | none =>
    refine (List.find?_eq_none.2 fun e he => ?_).symm
    intro hev
    have := (h.find_eq_some_iff hv).2 ⟨hp.mem_iff.2 he, of_decide_eq_true hev⟩
    rw [hf] at this
    cases this
  | some e =>
    obtain ⟨he, hev⟩ := (h.find_eq_some_iff hv).1 hf
    cases hl : vmpWslFind s v with
    | none =>
      have := List.find?_eq_none.1 hl e (hp.mem_iff.1 he)
      exact absurd (decide_eq_true hev) this
    | some d =>
      have hdv : decide (d.vaddr = v) = true := 
        List.find?_some (p := fun e : Wsle => decide (e.vaddr = v)) hl
      have hd := (h.find_eq_some_iff hv).2 ⟨hp.mem_iff.2 (List.mem_of_find?_eq_some hl),
        of_decide_eq_true hdv⟩
      rw [← hd, hf]

end WslSorted

/-- **Lookup in the working set tree is exact**: after any insertions and removals of canonical
addresses, an address is found if and only if it is in the set, in an entry with that address. -/
theorem wsl_find_exact {ops : List (WslOp × Balancer Wsle)} (hc : ∀ op ∈ ops, Canonical op.1.vaddr)
    {t : SearchTree Wsle} (h : runSteps wslStep ops .nil = .ok t) :
    WsleOrder ∧ ∀ v < 2 ^ 64,
      ((wslTreeFind t v).isSome ↔ v ∈ ops.foldl (fun S op => op.1.apply S) ∅) ∧
        ∀ e, wslTreeFind t v = some e → e.vaddr = v := by
  have run : ∀ (ops : List (WslOp × Balancer Wsle)) (u : SearchTree Wsle) (S : Finset ℕ),
      (∀ op ∈ ops, Canonical op.1.vaddr) → WslSorted u S → runSteps wslStep ops u = .ok t →
        WslSorted t (ops.foldl (fun S op => op.1.apply S) S) := by
    intro ops
    induction ops with
    | nil =>
      intro u S _ hu hr
      obtain rfl : u = t := Except.ok.inj hr
      exact hu
    | cons op ops ih =>
      intro u S hc hu hr
      simp only [runSteps] at hr
      split at hr
      · rename_i u' hs
        exact ih u' _ (fun op' ho => hc op' (List.mem_cons_of_mem _ ho))
          ((hu.step (hc op List.mem_cons_self)).of_ok hs) hr
      · cases hr
  have hsorted := run ops .nil ∅ hc ⟨by simp, List.Pairwise.nil, by simp⟩ h
  exact ⟨wsle_order, fun v hv => ⟨hsorted.isSome_find hv, fun e he =>
    ((hsorted.find_eq_some_iff hv).1 he).2⟩⟩

/-- A user's page and a table's, and the first of them removed again. -/
def mixedOps : List (WslOp × Balancer Wsle) :=
  [(.insert ⟨4096, false⟩, .plain), (.insert ⟨2 ^ 64 - 4096, true⟩, .plain), (.remove 4096, .plain)]

theorem wsl_find_exact_mixed : ∃ t, runSteps wslStep mixedOps .nil = .ok t ∧ WsleOrder ∧
    ∀ v < 2 ^ 64, ((wslTreeFind t v).isSome ↔ v ∈ mixedOps.foldl (fun S op => op.1.apply S) ∅) ∧
      ∀ e, wslTreeFind t v = some e → e.vaddr = v := by
  obtain ⟨t, ht⟩ := exists_of_returns (r := runSteps wslStep mixedOps .nil) (by decide)
  refine ⟨t, ht, wsl_find_exact (fun op ho => ?_) ht⟩
  simp only [mixedOps, List.mem_cons, List.not_mem_nil, or_false] at ho
  rcases ho with rfl | rfl | rfl <;> simp [WslOp.vaddr, Canonical]

end VmmSim
