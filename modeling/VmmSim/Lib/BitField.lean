import Mathlib

/-!
# Bit-fields of a machine word

A bit-field of a word is read with `BitVec.extractLsb'` and written with `put`, which replaces
the bits of the field and keeps the others. Reading back a written field gives the value
(`extractLsb'_put`); writing one field does not change a disjoint one
(`extractLsb'_put_of_disjoint`).
-/

namespace VmmSim.Lib.BitField

variable {n len len' : ℕ}

/-- Replace the bits `lo, …, lo + len - 1` of `w` by `v`. -/
def put (w : BitVec n) (lo : ℕ) (v : BitVec len) : BitVec n :=
  (w &&& ~~~((BitVec.allOnes len).setWidth n <<< lo)) ||| (v.setWidth n <<< lo)

theorem getLsbD_put (w : BitVec n) (lo : ℕ) (v : BitVec len) (i : ℕ) :
    (put w lo v).getLsbD i =
      if lo ≤ i ∧ i < lo + len ∧ i < n then v.getLsbD (i - lo) else w.getLsbD i := by
  simp only [put, BitVec.getLsbD_or, BitVec.getLsbD_and, BitVec.getLsbD_not,
    BitVec.getLsbD_shiftLeft, BitVec.getLsbD_setWidth, BitVec.getLsbD_allOnes]
  by_cases hn : i < n
  · by_cases hlo : lo ≤ i
    · by_cases hhi : i < lo + len
      · have h₁ : i - lo < n := by omega
        have h₂ : i - lo < len := by omega
        simp [hn, hlo, hhi, h₁, h₂, Nat.not_lt.2 hlo]
      · have h₂ : ¬ i - lo < len := by omega
        simp [hn, hlo, hhi, h₂, BitVec.getLsbD_of_ge v (i - lo) (by omega)]
    · simp [hn, hlo, Nat.lt_of_not_le hlo]
  · simp [hn, BitVec.getLsbD_of_ge w i (Nat.not_lt.1 hn)]

/-- A written field reads back. -/
theorem extractLsb'_put (w : BitVec n) {lo : ℕ} (v : BitVec len) (h : lo + len ≤ n) :
    (put w lo v).extractLsb' lo len = v := by
  refine BitVec.eq_of_getLsbD_eq fun i hi => ?_
  rw [BitVec.getLsbD_extractLsb', getLsbD_put, if_pos (by omega), Nat.add_sub_cancel_left]
  simp [hi]

/-- Writing a field does not change a field that shares no bit with it. -/
theorem extractLsb'_put_of_disjoint (w : BitVec n) {lo lo' : ℕ} (v : BitVec len)
    (h : lo' + len' ≤ lo ∨ lo + len ≤ lo') :
    (put w lo v).extractLsb' lo' len' = w.extractLsb' lo' len' := by
  refine BitVec.eq_of_getLsbD_eq fun i hi => ?_
  rw [BitVec.getLsbD_extractLsb', BitVec.getLsbD_extractLsb', getLsbD_put, if_neg (by omega)]

/-- A word with one field known to be non-zero is not zero. -/
theorem ne_zero_of_extractLsb' {w : BitVec n} {lo : ℕ} (h : w.extractLsb' lo len ≠ 0) :
    w ≠ 0 := by
  rintro rfl
  exact h (by simp)

/-- Two words that agree on a run of fields covering `[lo, lo + len)` and on the field above it
agree on both together. -/
theorem getLsbD_eq_of_extractLsb'_eq {w w' : BitVec n} {lo i : ℕ}
    (h : w.extractLsb' lo len = w'.extractLsb' lo len) (h₁ : lo ≤ i) (h₂ : i < lo + len) :
    w.getLsbD i = w'.getLsbD i := by
  have := congrArg (fun x => x.getLsbD (i - lo)) h
  simpa [BitVec.getLsbD_extractLsb', show i - lo < len by omega,
    show lo + (i - lo) = i by omega] using this

end VmmSim.Lib.BitField
