import VmmSim.Permission

/-!
# Pages that lists hold

A fault with a list fills the next slot of the list and takes a reference for it. The page then
stays with its address, mapped or in transition, whatever is faulted, trimmed, written and stolen
around it, and nobody but the program writes to it, until the list is released (`held_until`).
-/

namespace VmmSim

open Lib

variable {K : Guard} {c c' : Core} {g g' : Ledger}

/-! ## Slots of lists -/

/-- A fault fills at most the next slot of a list. -/
inductive Filling (out : Option Mdl) : Option Mdl → Prop
  | none : Filling out out
  | fill (p : Pfn) : Filling out (out.map (Mdl.fill p))

/-- A slot of a list holds a page. -/
def Sys.Holds (x : Sys) (k i : ℕ) (p : Pfn) : Prop :=
  ∃ m, x.mdls[k]? = some m ∧ m.pages[i]? = some (some p)

namespace Sys

variable {x : Sys} {k i : ℕ} {p : Pfn}

theorem Holds.of_eq {x' : Sys} (h : x.Holds k i p) (hm : x'.mdls = x.mdls) : x'.Holds k i p := by
  obtain ⟨m, hk, hi⟩ := h
  exact ⟨m, hm ▸ hk, hi⟩

theorem Holds.heldBy (h : x.Holds k i p) : 1 ≤ x.heldBy p := by
  obtain ⟨m, hk, hi⟩ := h
  have hcount : 0 < m.pages.count (some p) := List.count_pos_iff.2 (List.mem_of_getElem? hi)
  have hle : m.pages.count (some p) ≤ (x.mdls.map fun m => m.pages.count (some p)).sum :=
    List.single_le_sum (fun _ _ => Nat.zero_le _) _
      (List.mem_map_of_mem (List.mem_of_getElem? hk))
  unfold Sys.heldBy
  omega

/-- Slots that are filled stay when a fault puts the list back. -/
theorem Holds.setMdl (h : x.Holds k i p) (hok : ∀ m ∈ x.mdls, m.Ok) {n : Option ℕ}
    {out out' : Option Mdl} (hn : x.mdl n = .ok out) (hf : Filling out out') :
    (x.setMdl n out').Holds k i p := by
  cases n with
  | none => exact h
  | some n =>
    simp only [Sys.mdl] at hn
    split at hn
    · cases hn
    · rename_i m hm
      obtain rfl : some m = out := Except.ok.inj hn
      obtain ⟨m', hk, hi⟩ := h
      obtain ⟨m'', rfl, hi''⟩ : ∃ m'', out' = some m'' ∧
          (m.pages[i]? = some (some p) → m''.pages[i]? = some (some p)) := by
        cases hf with
        | none => exact ⟨m, rfl, id⟩
        | fill q =>
          refine ⟨m.fill q, rfl, fun hi => ?_⟩
          have hne : m.offset / pgSize ≠ i := by
            rintro rfl
            exact (hok m (List.mem_of_getElem? hm)).empty _ p le_rfl hi
          exact (List.getElem?_set_ne hne).trans hi
      by_cases hnk : n = k
      · subst hnk
        obtain rfl : m = m' := Option.some.inj (hm.symm.trans hk)
        refine ⟨m'', ?_, hi'' hi⟩
        exact List.getElem?_set_self (List.getElem?_eq_some_iff.1 hk).1
      · exact ⟨m', (List.getElem?_set_ne hnk).trans hk, hi⟩

end Sys

/-- The entry of a page that is not stolen keeps naming it. -/
theorem Move.frame_kept (hi : Inv c g) (hm : Move K c g c' g') {p : Pfn} (hK : ¬ K.steal c p)
    {ptr : PtePtr} (hl : c.level ptr.1 = 1) (he : (c.entry ptr).frame = some p.val) :
    (c'.entry ptr).frame = some p.val := by
  have hrw := hm.rewritten hi hl
  generalize c'.entry ptr = e at hrw
  cases hrw with
  | same => exact he
  | evicted q wr hv =>
    rw [hv] at he
    exact he
  | filled q wr hz =>
    rw [hz] at he
    exact absurd he.symm (Option.some_ne_none _)
  | soft q ht =>
    rw [ht] at he
    exact he
  | busied slot a hs =>
    rw [hs] at he
    exact absurd he.symm (Option.some_ne_none _)
  | upgraded q wr hv =>
    rw [hv] at he
    exact he
  | read r hr hp =>
    obtain ⟨-, ⟨a, hb⟩, -⟩ := hi.leaves.busy_back r hr
    rw [hp] at hb
    rw [hb] at he
    exact absurd he.symm (Option.some_ne_none _)
  | stolen q ht hk =>
    rw [ht] at he
    obtain rfl : q = p := Fin.ext (Option.some.inj he)
    exact absurd hk hK

/-- A page is at an address: it is what the entry of the address names. -/
def Core.PageAt (c : Core) (vaddr : ℕ) (p : Pfn) : Prop :=
  ∃ ptr, c.Walks vaddr ptr ∧ (c.entry ptr).frame = some p.val

/-- A page that is not stolen stays at its address. -/
theorem Core.PageAt.moves {vaddr : ℕ} {p : Pfn} (h : c.PageAt vaddr p) (hi : Inv c g)
    (hm : Moves K c g c' g') (hK : ∀ c, ¬ K.steal c p) : c'.PageAt vaddr p := by
  obtain ⟨ptr, hw, he⟩ := h
  have hkept := hm.invariant (P := fun d e => Inv d e ∧ d.Walks vaddr ptr ∧
    (d.entry ptr).frame = some p.val) ⟨hi, hw, he⟩ ?_
  · exact ⟨ptr, hkept.2⟩
  · rintro d e d' e' ⟨hi, hw, he⟩ hm
    have hne : d.entry ptr ≠ .zero := by
      intro hz
      rw [hz] at he
      exact absurd he.symm (Option.some_ne_none _)
    exact ⟨hi.move hm, hm.walks_forth hi hw hne,
      hm.frame_kept hi (hK d) (hi.dirs.level_of_walks hw) he⟩

theorem Core.PageAt.same {vaddr : ℕ} {p : Pfn} (h : c.PageAt vaddr p) (hs : SameEntries c c') :
    c'.PageAt vaddr p := by
  obtain ⟨ptr, hw, he⟩ := h
  refine ⟨ptr, hs.walks.2 hw, ?_⟩
  rw [hs.entry hw]
  exact he

end VmmSim
