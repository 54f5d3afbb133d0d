import Mathlib

/-!
# Counting under an update

The number of indices at which a property holds, and how it changes when the function it is read
from changes at one index.
-/

namespace VmmSim.Lib

variable {ι α : Type*} [Fintype ι]

/-- The number of indices `i` with `p (f i)`. -/
def countWhere (p : α → Bool) (f : ι → α) : ℕ := (Finset.univ.filter fun i => p (f i)).card

/-- Changing the value at one index trades that index's old contribution for its new one. -/
theorem countWhere_update [DecidableEq ι] (p : α → Bool) (f : ι → α) (i : ι) (a : α) :
    countWhere p (Function.update f i a) + (p (f i)).toNat =
      countWhere p f + (p a).toNat := by
  have split : ∀ g : ι → α, countWhere p g =
      ((Finset.univ.erase i).filter fun j => p (g j)).card + (p (g i)).toNat := fun g => by
    rw [countWhere, ← Finset.insert_erase (Finset.mem_univ i), Finset.filter_insert]
    cases hg : p (g i) <;> simp
  have rest : ((Finset.univ.erase i).filter fun j => p (Function.update f i a j)) =
      (Finset.univ.erase i).filter fun j => p (f j) :=
    Finset.filter_congr fun j hj => by
      rw [Function.update_of_ne (Finset.ne_of_mem_erase hj)]
  rw [split f, split (Function.update f i a), rest, Function.update_self]
  omega

theorem countWhere_congr {p : α → Bool} {f g : ι → α} (h : ∀ i, p (f i) = p (g i)) :
    countWhere p f = countWhere p g := by
  simp only [countWhere, h]

theorem countWhere_pos {p : α → Bool} {f : ι → α} {i : ι} (h : p (f i) = true) :
    0 < countWhere p f :=
  Finset.card_pos.2 ⟨i, by simp [h]⟩

theorem countWhere_eq_zero {p : α → Bool} {f : ι → α} :
    countWhere p f = 0 ↔ ∀ i, p (f i) = false := by
  simp [countWhere, Finset.filter_eq_empty_iff]

theorem countWhere_le (p : α → Bool) (f : ι → α) : countWhere p f ≤ Fintype.card ι :=
  Finset.card_le_univ _

end VmmSim.Lib
