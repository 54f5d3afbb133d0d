import VmmSim.Shortage

/-!
# The page table entry format

The constructors of `vmpsoft.h`, over the whole range of their arguments (`Creates`), against
`vmp_pte_characterise` and the fields of the kind it returns (`ReadsBack`). An entry reads back as
it was made, and two different entries have different words, except for the swap entry of slot 0
(`format_roundTrips`), which is the zero entry (`slotZero_reads_zero`). That slot is the first
that a pagefile hands out.
-/

namespace VmmSim

/-- The fields of an entry's kind, read from a word. -/
def Pte.FieldsIn (w : Word) : Pte → Prop
  | .valid pfn wr => vmpPteHwPfn w = pfn ∧ vmpPteHwIsWriteable w = wr
  | .trans pfn => (softPayload w).toNat = pfn
  | .busy state => (softPayload w).toNat * 2 ^ 3 = state
  | .swap drumslot => (softPayload w).toNat = drumslot
  | .zero | .bad => True

/-- `vmp_pte_characterise` tells the kind of the entry, and its fields are the entry's. -/
structure ReadsBack (e : Pte) (w : Word) : Prop where
  kind : vmpPteCharacterise w = e.kind
  fields : e.FieldsIn w

/-- The word that a constructor makes of an entry with fields in range. -/
inductive Creates : Pte → Word → Prop
  | zero : Creates .zero vmpPteZeroCreate
  | hw (pfn : ℕ) (writeable : Bool) (h : pfn < 2 ^ 40) :
      Creates (.valid pfn writeable) (vmpPteHwCreate pfn writeable)
  | trans (pfn : ℕ) (h : pfn < 2 ^ 61) : Creates (.trans pfn) (vmpPteTransCreate pfn)
  | busy (state : ℕ) (h : state < 2 ^ 64) (aligned : state % 8 = 0) :
      Creates (.busy state) (vmpPteBusyCreate state)
  | swap (drumslot : ℕ) (h : drumslot < 2 ^ 61 - 1) :
      Creates (.swap drumslot) (vmpPteSwapCreate drumslot)

theorem fieldsIn_view (w : Word) : (view w).FieldsIn w := by
  rw [view_eq]
  split_ifs <;> simp [Pte.FieldsIn]

/-- Kind and fields determine the entry. -/
theorem readsBack_iff {e : Pte} {w : Word} (he : e ≠ .bad) : ReadsBack e w ↔ view w = e := by
  constructor
  · rintro ⟨hk, hf⟩
    rw [characterise_eq_kind] at hk
    have hv := fieldsIn_view w
    revert hk hv
    cases view w <;> cases e <;> simp_all [Pte.kind, Pte.FieldsIn]
  · rintro rfl
    exact ⟨characterise_eq_kind w, fieldsIn_view w⟩

theorem Creates.ne_bad {e : Pte} {w : Word} (h : Creates e w) : e ≠ .bad := by
  cases h <;> simp

/-- What is read from a constructor's word. -/
theorem Creates.view_eq {e : Pte} {w : Word} (h : Creates e w) :
    view w = if e = .swap 0 then .zero else e := by
  cases h with
  | zero => exact view_zero
  | hw pfn wr h => rw [view_hwCreate, Nat.mod_eq_of_lt h, if_neg (by simp)]
  | trans pfn h => rw [view_transCreate, Nat.mod_eq_of_lt h, if_neg (by simp)]
  | busy state h aligned =>
    have back : state / 2 ^ 3 % 2 ^ 61 * 2 ^ 3 = state := by omega
    rw [view_busyCreate, back, if_neg (by simp)]
  | swap slot h =>
    have hm : slot % 2 ^ 61 = slot := Nat.mod_eq_of_lt (by omega)
    rw [view_swapCreate, hm]
    simp

theorem Creates.readsBack_iff {e : Pte} {w : Word} (h : Creates e w) :
    ReadsBack e w ↔ e ≠ .swap 0 := by
  rw [VmmSim.readsBack_iff h.ne_bad, h.view_eq]
  split <;> simp_all

/-- The format on a pair of entries: both read back, different entries have different words, and
only the zero entry's word is characterised as zero. -/
structure FormatOn (e : Pte) (w : Word) (e' : Pte) (w' : Word) : Prop where
  left : ReadsBack e w
  right : ReadsBack e' w'
  distinct : e ≠ e' → w ≠ w'
  zero_only : vmpPteCharacterise w = .ok .zero → e = .zero

/-- **The format round-trips** on two entries in range if and only if neither is the swap entry of
slot 0. -/
theorem format_roundTrips {e e' : Pte} {w w' : Word} (h : Creates e w) (h' : Creates e' w') :
    FormatOn e w e' w' ↔ e ≠ .swap 0 ∧ e' ≠ .swap 0 := by
  constructor
  · intro hf
    exact ⟨h.readsBack_iff.1 hf.left, h'.readsBack_iff.1 hf.right⟩
  · rintro ⟨hs, hs'⟩
    have hv : view w = e := by rw [h.view_eq, if_neg hs]
    have hv' : view w' = e' := by rw [h'.view_eq, if_neg hs']
    refine ⟨h.readsBack_iff.2 hs, h'.readsBack_iff.2 hs', ?_, fun hz => ?_⟩
    · rintro hne rfl
      exact hne (hv.symm.trans hv')
    · rw [characterise_eq_kind, hv] at hz
      cases e <;> simp_all [Pte.kind]

/-- The last slot in range and a busy entry. -/
theorem format_roundTrips_last :
    FormatOn (.swap (2 ^ 61 - 2)) (vmpPteSwapCreate (2 ^ 61 - 2)) (.busy 8) (vmpPteBusyCreate 8) :=
  (format_roundTrips (.swap _ (by decide)) (.busy 8 (by decide) rfl)).2 (by simp)

/-- The first slot of a new pagefile is slot 0, and its swap entry is the zero entry. -/
theorem slotZero_reads_zero :
    (∃ pf, vmpPagefileAlloc (initVmpPagefile (1024 * 1024)) = .ok (0, pf)) ∧
      vmpPteCharacterise (vmpPteSwapCreate 0) = .ok .zero ∧
      vmpPteSwapCreate 0 = vmpPteZeroCreate ∧ ¬ ReadsBack (.swap 0) (vmpPteSwapCreate 0) := by
  refine ⟨⟨_, rfl⟩, by decide, by decide, fun h => ?_⟩
  have hk := h.kind
  revert hk
  decide

end VmmSim
