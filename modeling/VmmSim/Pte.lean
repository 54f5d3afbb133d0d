import VmmSim.Lib.BitField
import VmmSim.Lib.Wp

/-!
# Page table entries

The 64-bit page table entry of `vmpsoft.h`: the bit-fields of the four views of the union, the
constructors, and the cascade of `vmp_pte_characterise` that tells the kinds apart. `Pte` is an
entry taken apart, and `view` reads one from a word. Every constructor's word is viewed as the
entry it was made from (`view_hwCreate` and its neighbours), with one exception: the swap entry of
slot 0 is the zero word (`view_swapCreate`).
-/

namespace VmmSim

open Lib Lib.BitField

/-- Why the simulator stops short of an operation's end. -/
inductive Halt
  /-- A failed `kassert`. -/
  | kassert
  /-- A call of `kfatal`. -/
  | kfatal
  /-- Undefined behaviour: an access outside the simulated pages, or the removal from a queue of
  an element that is not on it. -/
  | wild
  /-- A wait inside `vmp_wire_pte` for a page table that is being paged in. -/
  | wait
  deriving DecidableEq, Repr

/-- Results of the simulator's functions. -/
abbrev Res := Except Halt

/-- `kassert`: go on when the condition holds. -/
def kassert (c : Prop) [Decidable c] : Res Unit := if c then .ok () else .error .kassert

theorem wp_kassert {E : Halt → Prop} {c : Prop} [Decidable c] {Q : Unit → Prop} :
    Wp E (kassert c) Q ↔ (c → Q ()) ∧ (¬ c → E .kassert) := by
  unfold kassert
  split <;> simp_all

@[simp] theorem kassert_of {c : Prop} [Decidable c] (h : c) : kassert c = .ok () := if_pos h

@[simp] theorem kassert_of_not {c : Prop} [Decidable c] (h : ¬ c) :
    kassert c = .error .kassert := if_neg h

/-! ## The word and its fields -/

/-- A 64-bit word of a page: a page table entry, or data. -/
abbrev Word := BitVec 64

/-- `enum vmp_pte_kind`. -/
inductive PteKind
  | zero
  | trans
  | swap
  | busy
  | valid
  deriving DecidableEq, Repr

/-- `enum vmp_soft_pte_kind`, as the two bits of the `kind` field. -/
def kSoftPteKindSwap : BitVec 2 := 0
def kSoftPteKindBusy : BitVec 2 := 1
def kSoftPteKindTrans : BitVec 2 := 2

/-- `hw.valid`, bit 0; the soft views have their `valid` in the same place. -/
def hwValid (w : Word) : BitVec 1 := w.extractLsb' 0 1

/-- `hw.writeable`, bit 1. -/
def hwWriteableBit (w : Word) : BitVec 1 := w.extractLsb' 1 1

/-- `hw.pfn`, bits 12 to 51. -/
def hwPfn (w : Word) : BitVec 40 := w.extractLsb' 12 40

/-- `trans.pfn`, `swap.drumslot` and `busy.state`: bits 1 to 61 of the soft views. -/
def softPayload (w : Word) : BitVec 61 := w.extractLsb' 1 61

/-- `kind`, bits 62 and 63 of the soft views. -/
def softKind (w : Word) : BitVec 2 := w.extractLsb' 62 2

/-- `vmp_pte_characterise`. -/
def vmpPteCharacterise (w : Word) : Res PteKind :=
  if w = 0 then .ok .zero
  else if hwValid w = 1 then .ok .valid
  else if softKind w = kSoftPteKindBusy then .ok .busy
  else if softKind w = kSoftPteKindTrans then .ok .trans
  else do
    kassert (softKind w = kSoftPteKindSwap)
    return .swap

/-- `vmp_pte_hw_pfn`. -/
def vmpPteHwPfn (w : Word) : ℕ := (hwPfn w).toNat

/-- `vmp_pte_hw_is_writeable`. -/
def vmpPteHwIsWriteable (w : Word) : Bool := hwWriteableBit w = 1

/-- `vmp_pte_hw_create`: the zero word with `valid`, `writeable` and `pfn` set. -/
def vmpPteHwCreate (pfn : ℕ) (writeable : Bool) : Word :=
  put (put (put (0 : Word) 0 (1 : BitVec 1)) 1 (BitVec.ofBool writeable)) 12 (BitVec.ofNat 40 pfn)

/-- `vmp_pte_zero_create`. -/
def vmpPteZeroCreate : Word := 0

/-- The assignments to `valid`, `kind` and the payload that make a soft entry. The three fields
are the whole word, so its initial value does not matter (`softCreate_eq`). -/
def softCreate (w : Word) (kind : BitVec 2) (payload : BitVec 61) : Word :=
  put (put (put w 0 (0 : BitVec 1)) 62 kind) 1 payload

/-- `vmp_pte_trans_create`. -/
def vmpPteTransCreate (pfn : ℕ) : Word := softCreate 0 kSoftPteKindTrans (BitVec.ofNat 61 pfn)

/-- `vmp_pte_busy_create`: the address of the pager state, less its three low bits. -/
def vmpPteBusyCreate (state : ℕ) : Word :=
  softCreate 0 kSoftPteKindBusy (BitVec.ofNat 61 (state / 2 ^ 3))

/-- `vmp_pte_swap_create`. -/
def vmpPteSwapCreate (drumslot : ℕ) : Word :=
  softCreate 0 kSoftPteKindSwap (BitVec.ofNat 61 drumslot)

/-- `pte->hw.writeable = true`. -/
def hwSetWriteable (w : Word) : Word := put w 1 (1 : BitVec 1)

/-! ## Fields of the constructors' words -/

theorem hwValid_hwCreate (pfn : ℕ) (wr : Bool) : hwValid (vmpPteHwCreate pfn wr) = 1 := by
  rw [hwValid, vmpPteHwCreate, extractLsb'_put_of_disjoint _ _ (by omega),
    extractLsb'_put_of_disjoint _ _ (by omega), extractLsb'_put _ _ (by omega)]

theorem hwWriteableBit_hwCreate (pfn : ℕ) (wr : Bool) :
    hwWriteableBit (vmpPteHwCreate pfn wr) = BitVec.ofBool wr := by
  rw [hwWriteableBit, vmpPteHwCreate, extractLsb'_put_of_disjoint _ _ (by omega),
    extractLsb'_put _ _ (by omega)]

theorem hwPfn_hwCreate (pfn : ℕ) (wr : Bool) :
    hwPfn (vmpPteHwCreate pfn wr) = BitVec.ofNat 40 pfn := by
  rw [hwPfn, vmpPteHwCreate, extractLsb'_put _ _ (by omega)]

theorem hwValid_softCreate (w : Word) (k : BitVec 2) (x : BitVec 61) :
    hwValid (softCreate w k x) = 0 := by
  rw [hwValid, softCreate, extractLsb'_put_of_disjoint _ _ (by omega),
    extractLsb'_put_of_disjoint _ _ (by omega), extractLsb'_put _ _ (by omega)]

theorem softKind_softCreate (w : Word) (k : BitVec 2) (x : BitVec 61) :
    softKind (softCreate w k x) = k := by
  rw [softKind, softCreate, extractLsb'_put_of_disjoint _ _ (by omega),
    extractLsb'_put _ _ (by omega)]

theorem softPayload_softCreate (w : Word) (k : BitVec 2) (x : BitVec 61) :
    softPayload (softCreate w k x) = x := by
  rw [softPayload, softCreate, extractLsb'_put _ _ (by omega)]

/-- The fields `valid`, payload and `kind` determine a word. -/
theorem word_ext {w w' : Word} (h₁ : hwValid w = hwValid w') (h₂ : softPayload w = softPayload w')
    (h₃ : softKind w = softKind w') : w = w' := by
  refine BitVec.eq_of_getLsbD_eq fun i hi => ?_
  rcases Nat.lt_or_ge i 1 with h | h
  · exact getLsbD_eq_of_extractLsb'_eq h₁ (by omega) (by omega)
  · rcases Nat.lt_or_ge i 62 with h' | h'
    · exact getLsbD_eq_of_extractLsb'_eq h₂ h (by omega)
    · exact getLsbD_eq_of_extractLsb'_eq h₃ h' (by omega)

theorem softCreate_eq (w w' : Word) (k : BitVec 2) (x : BitVec 61) :
    softCreate w k x = softCreate w' k x :=
  word_ext (by simp only [hwValid_softCreate]) (by simp only [softPayload_softCreate])
    (by simp only [softKind_softCreate])

theorem softCreate_eq_zero_iff (k : BitVec 2) (x : BitVec 61) :
    softCreate 0 k x = 0 ↔ k = 0 ∧ x = 0 := by
  constructor
  · intro h
    have hk := softKind_softCreate 0 k x
    have hx := softPayload_softCreate 0 k x
    rw [h] at hk hx
    exact ⟨hk.symm.trans (by decide), hx.symm.trans (by decide)⟩
  · rintro ⟨rfl, rfl⟩
    decide

theorem hwCreate_ne_zero (pfn : ℕ) (wr : Bool) : vmpPteHwCreate pfn wr ≠ 0 := by
  have h : hwValid (vmpPteHwCreate pfn wr) ≠ 0 := by
    rw [hwValid_hwCreate]
    decide
  exact ne_zero_of_extractLsb' h

/-! ## Entries taken apart -/

/-- A page table entry taken apart, with `bad` for the words on which `vmp_pte_characterise`
fails its assertion. -/
inductive Pte
  | zero
  | valid (pfn : ℕ) (writeable : Bool)
  | trans (pfn : ℕ)
  | busy (state : ℕ)
  | swap (drumslot : ℕ)
  | bad
  deriving DecidableEq, Repr

/-- The entry in a word: the kind that `vmp_pte_characterise` gives it, and that kind's fields. -/
def view (w : Word) : Pte :=
  match vmpPteCharacterise w with
  | .ok .zero => .zero
  | .ok .valid => .valid (vmpPteHwPfn w) (vmpPteHwIsWriteable w)
  | .ok .trans => .trans (softPayload w).toNat
  | .ok .busy => .busy ((softPayload w).toNat * 2 ^ 3)
  | .ok .swap => .swap (softPayload w).toNat
  | .error _ => .bad

/-- Valid, transition and busy entries keep their table in core. -/
def Pte.isNonswap : Pte → Bool
  | .valid _ _ | .trans _ | .busy _ => true
  | _ => false

/-- The cascade of `vmp_pte_characterise`, with the fields of each kind. -/
theorem view_eq (w : Word) :
    view w =
      if w = 0 then .zero
      else if hwValid w = 1 then .valid (vmpPteHwPfn w) (vmpPteHwIsWriteable w)
      else if softKind w = kSoftPteKindBusy then .busy ((softPayload w).toNat * 2 ^ 3)
      else if softKind w = kSoftPteKindTrans then .trans (softPayload w).toNat
      else if softKind w = kSoftPteKindSwap then .swap (softPayload w).toNat else .bad := by
  unfold view vmpPteCharacterise kassert
  split_ifs <;> rfl

/-- The kind of an entry, as `vmp_pte_characterise` returns it. -/
def Pte.kind : Pte → Res PteKind
  | .zero => .ok .zero
  | .valid _ _ => .ok .valid
  | .trans _ => .ok .trans
  | .busy _ => .ok .busy
  | .swap _ => .ok .swap
  | .bad => .error .kassert

theorem characterise_eq_kind (w : Word) : vmpPteCharacterise w = (view w).kind := by
  rw [view_eq]
  unfold vmpPteCharacterise kassert
  split_ifs <;> rfl

@[simp] theorem view_zero : view 0 = .zero := by decide

theorem view_eq_zero_iff {w : Word} : view w = .zero ↔ w = 0 := by
  rw [view_eq]
  split_ifs <;> simp_all

theorem view_of_valid {w : Word} (h : hwValid w = 1) :
    view w = .valid (vmpPteHwPfn w) (vmpPteHwIsWriteable w) := by
  have h0 : w ≠ 0 := by
    rintro rfl
    exact absurd h (by decide)
  rw [view_eq, if_neg h0, if_pos h]

theorem hwValid_of_view {w : Word} {pfn : ℕ} {wr : Bool} (h : view w = .valid pfn wr) :
    hwValid w = 1 := by
  rw [view_eq] at h
  split_ifs at h
  assumption

/-- `vmp_pte_hw_create` makes a valid entry with its page number cut to 40 bits. -/
theorem view_hwCreate (pfn : ℕ) (wr : Bool) :
    view (vmpPteHwCreate pfn wr) = .valid (pfn % 2 ^ 40) wr := by
  rw [view_of_valid (hwValid_hwCreate pfn wr), vmpPteHwPfn, vmpPteHwIsWriteable, hwPfn_hwCreate,
    hwWriteableBit_hwCreate, BitVec.toNat_ofNat]
  cases wr <;> rfl

theorem view_softCreate (k : BitVec 2) (x : BitVec 61) :
    view (softCreate 0 k x) =
      if k = 0 ∧ x = 0 then .zero
      else if k = kSoftPteKindBusy then .busy (x.toNat * 2 ^ 3)
      else if k = kSoftPteKindTrans then .trans x.toNat
      else if k = kSoftPteKindSwap then .swap x.toNat else .bad := by
  by_cases h0 : k = 0 ∧ x = 0
  · rw [if_pos h0, (softCreate_eq_zero_iff k x).2 h0, view_zero]
  · have hz : softCreate 0 k x ≠ 0 := fun h => h0 ((softCreate_eq_zero_iff k x).1 h)
    rw [view_eq, if_neg hz, if_neg h0, hwValid_softCreate, if_neg (by decide),
      softKind_softCreate, softPayload_softCreate]

/-- `vmp_pte_trans_create` makes a transition entry. -/
theorem view_transCreate (pfn : ℕ) : view (vmpPteTransCreate pfn) = .trans (pfn % 2 ^ 61) := by
  rw [vmpPteTransCreate, view_softCreate, if_neg (by simp [kSoftPteKindTrans]),
    if_neg (by decide), if_pos rfl, BitVec.toNat_ofNat]

/-- `vmp_pte_busy_create` makes a busy entry. -/
theorem view_busyCreate (state : ℕ) :
    view (vmpPteBusyCreate state) = .busy (state / 2 ^ 3 % 2 ^ 61 * 2 ^ 3) := by
  rw [vmpPteBusyCreate, view_softCreate, if_neg (by simp [kSoftPteKindBusy]), if_pos rfl,
    BitVec.toNat_ofNat]

/-- `vmp_pte_swap_create` makes a swap entry, except for a slot that is 0 in its 61 bits: that
word is zero, and so is the entry in it. -/
theorem view_swapCreate (slot : ℕ) :
    view (vmpPteSwapCreate slot) = if slot % 2 ^ 61 = 0 then .zero else .swap (slot % 2 ^ 61) := by
  rw [vmpPteSwapCreate, view_softCreate, BitVec.toNat_ofNat]
  by_cases h : slot % 2 ^ 61 = 0
  · have hx : BitVec.ofNat 61 slot = 0 := BitVec.eq_of_toNat_eq (by simpa using h)
    rw [if_pos ⟨rfl, hx⟩, if_pos h]
  · have hx : BitVec.ofNat 61 slot ≠ 0 := fun e => h (by
      simpa using congrArg BitVec.toNat e)
    rw [if_neg fun e => hx e.2, if_neg (by decide), if_neg (by decide), if_pos rfl, if_neg h]

/-- Setting `hw.writeable` in a valid entry changes nothing else. -/
theorem view_hwSetWriteable {w : Word} {pfn : ℕ} {wr : Bool} (h : view w = .valid pfn wr) :
    view (hwSetWriteable w) = .valid pfn true := by
  have hv := hwValid_of_view h
  rw [view_of_valid hv] at h
  have hv' : hwValid (hwSetWriteable w) = 1 := by
    rw [hwValid, hwSetWriteable, extractLsb'_put_of_disjoint _ _ (by omega), ← hwValid, hv]
  have hp : vmpPteHwPfn (hwSetWriteable w) = vmpPteHwPfn w := by
    rw [vmpPteHwPfn, hwPfn, hwSetWriteable, extractLsb'_put_of_disjoint _ _ (by omega)]
    rfl
  have hw : vmpPteHwIsWriteable (hwSetWriteable w) = true := by
    rw [vmpPteHwIsWriteable, hwWriteableBit, hwSetWriteable, extractLsb'_put _ _ (by omega)]
    rfl
  rw [view_of_valid hv', hp, hw]
  cases h
  rfl

/-- The fields of a busy entry. -/
theorem fields_of_view_busy {w : Word} {state : ℕ} (h : view w = .busy state) :
    hwValid w = 0 ∧ softKind w = kSoftPteKindBusy ∧ (softPayload w).toNat * 2 ^ 3 = state := by
  rw [view_eq] at h
  split_ifs at h with _ hv hk
  exact ⟨by grind, hk, Pte.busy.inj h⟩

/-- A busy entry determines its word. -/
theorem view_busy_injective {w w' : Word} {state : ℕ} (h : view w = .busy state)
    (h' : view w' = .busy state) : w = w' := by
  obtain ⟨hv, hk, hp⟩ := fields_of_view_busy h
  obtain ⟨hv', hk', hp'⟩ := fields_of_view_busy h'
  exact word_ext (hv.trans hv'.symm) (BitVec.eq_of_toNat_eq (by omega)) (hk.trans hk'.symm)

end VmmSim
