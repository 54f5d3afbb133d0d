import VmmSim.Blank

/-!
# What programs see

The pages of one virtual page change, and its contents go with them: from the page that maps it to
the slot of the pagefile that the page has, and with the slot to the swap entry. So a page that is in
core shows the last store to its virtual page, or is still blank, and never shows a store to another
virtual page; and a swap entry names the slot with that store (`contents_shown`). In a run without
swap-ins that never loses slot 0 the page is exactly what was stored (`paging_transparent`).
-/

namespace VmmSim

open Lib

variable {K : Guard} {c c' : Core} {g g' : Ledger}

/-! ## Walks across a move -/

/-- A walk to an entry that is not zero depends on the entries on its way alone, and no empty table is on
it. -/
theorem Dirs.walks_nonzero (hd : Dirs c g) (hroot : c'.root = c.root)
    (h : ∀ (q : PtePtr) (p : Pfn) (wr : Bool), 2 ≤ c.level q.1 → c.entry q = .valid p.val wr →
      c'.entry q = c.entry q ∨ ∀ i, c.entry (p, i) = .zero)
    {vaddr : ℕ} {ptr : PtePtr} (hne : c.entry ptr ≠ .zero) (hw : c.Walks vaddr ptr) :
    c'.Walks vaddr ptr := by
  have descend : ∀ (n : ℕ) (t : Pfn), c.level t = n → Descends c.entry vaddr n t ptr →
      Descends c'.entry vaddr n t ptr := by
    intro n
    induction n with
    | zero =>
      intro t _ hdown
      exact hdown.elim
    | succ n ih =>
      intro t hl hdown
      rcases Nat.eq_zero_or_pos n with rfl | hn
      · exact hdown
      · obtain ⟨p, wr, he, hdown⟩ := (Descends.succ_iff hn).1 hdown
        have hlp := (hd.child (by simp only; omega) he).1
        simp only at hlp
        have hnonzero : ¬ ∀ i, c.entry (p, i) = .zero := by
          intro hempty
          obtain ⟨m, rfl⟩ := Nat.exists_eq_add_of_le' hn
          rcases Nat.eq_zero_or_pos m with rfl | hm
          · obtain rfl : ptr = _ := hdown
            exact hne (hempty _)
          · obtain ⟨p', wr', he', -⟩ := (Descends.succ_iff hm).1 hdown
            exact absurd ((hempty _).symm.trans he') Pte.noConfusion
        have hsame := (h _ p wr (by simp only; omega) he).resolve_right hnonzero
        exact (Descends.succ_iff hn).2 ⟨p, wr, hsame.trans he, ih p (by omega) hdown⟩
  rw [Core.Walks, hroot]
  exact descend _ _ hd.level_root hw

/-- The entries of the directories that a move assigns to: none, or the one that names a table which
comes or goes empty. -/
inductive DirWords (c c' : Core) (g : Ledger) : Prop
  | none (h : ∀ ptr : PtePtr, 2 ≤ c.level ptr.1 → c'.entry ptr = c.entry ptr)
  | attach (ptr : PtePtr) (p : Pfn) (he : c.entry ptr = .zero) (hp : g.loose = some p)
      (hl : 1 ≤ c.level p) (hne : ptr.1 ≠ p)
      (h : ∀ q, c'.entry q = if q = ptr then .valid p.val true else c.entry q)
  | delete (ptr : PtePtr) (t : Pfn) (he : c.entry ptr = .valid t.val true)
      (hempty : ∀ i, c.entry (t, i) = .zero)
      (h : ∀ q, c'.entry q = if q = ptr then .zero else c.entry q)

theorem Move.root (hm : Move K c g c' g') : c'.root = c.root := by
  cases hm <;> rfl

theorem Move.dirWords (hi : Inv c g) (hm : Move K c g c' g') : DirWords c c' g := by
  have word : ∀ {ptr : PtePtr} (w : Word), c.level ptr.1 = 1 →
      ∀ q : PtePtr, 2 ≤ c.level q.1 → (c.setWord ptr w).entry q = c.entry q := by
    intro ptr w hl q hq
    refine Core.setWord_entry_ne c ptr q w ?_
    rintro rfl
    omega
  cases hm with
  | evict e q ptr p wr hq he hw => exact .none (word _ (hi.dirs.level_of_walks hw))
  | mapZero ptr p wr hl => exact .none (word _ hl)
  | mapSoft ptr p hl => exact .none (word _ hl)
  | mapBusy ptr p state slot vaddr hl => exact .none (word _ hl)
  | writeable ptr p wr hl => exact .none (word _ hl)
  | finish r hr => exact .none (word _ (hi.leaves.busy_back r hr).1)
  | unmap ptr p hl => exact .none (word _ hl)
  | handOut p use hu =>
    refine .none ?_
    intro q hq
    refine Core.setWords_entry_ne _ p q 0 ?_
    rintro rfl
    rw [c.level_of_plain hu] at hq
    omega
  | attach ptr p hl hd he hp =>
    refine .attach ptr p he hp hl ?_ ?_
    · rintro rfl
      omega
    · intro q
      rw [Core.setWord_entry, view_hwCreate_pfn]
  | delete t ptr hl h₃ hg hz hs hn hr =>
    obtain ⟨d, hd, he, -⟩ := hi.dirs.dir_back t hl h₃ (by
      rw [hg.loose]
      exact (Option.some_ne_none t).symm)
    obtain rfl : d = ptr := ptePaddr_injective (hd.symm.trans hr)
    refine .delete d t he (hi.empty_of_last hl hz hn) ?_
    intro q
    change ((c.setPage t _).setWord d vmpPteZeroCreate).entry q = _
    rw [Core.setWord_entry, show view vmpPteZeroCreate = .zero from view_zero]
    rfl
  | _ => exact .none fun _ _ => rfl

/-- A walk to an entry that is not zero survives. -/
theorem Move.walks_forth (hi : Inv c g) (hm : Move K c g c' g') {vaddr : ℕ} {ptr : PtePtr}
    (hw : c.Walks vaddr ptr) (hne : c.entry ptr ≠ .zero) : c'.Walks vaddr ptr := by
  cases hm.dirWords hi with
  | none h => exact (hi.dirs.walks_congr h hm.root).2 hw
  | attach d p he hp hl hne' h =>
    refine hi.dirs.walks_nonzero hm.root ?_ hne hw
    intro q p' wr _ hq
    left
    rw [h, if_neg]
    rintro rfl
    exact absurd (he.symm.trans hq) Pte.noConfusion
  | delete d t he hempty h =>
    refine hi.dirs.walks_nonzero hm.root ?_ hne hw
    intro q p' wr _ hq
    by_cases hqd : q = d
    · right
      rw [hqd, he] at hq
      simp only [Pte.valid.injEq] at hq
      rw [← Fin.ext hq.1]
      exact hempty
    · left
      rw [h, if_neg hqd]

/-- A walk to an entry that is not zero was there before. -/
theorem Move.walks_back (hi : Inv c g) (hb : Blank c g) (hm : Move K c g c' g') {vaddr : ℕ}
    {ptr : PtePtr} (hw : c'.Walks vaddr ptr) (hne : c'.entry ptr ≠ .zero) : c.Walks vaddr ptr := by
  have hd' := (hi.move hm).dirs
  cases hm.dirWords hi with
  | none h => exact (hi.dirs.walks_congr h hm.root).1 hw
  | attach d p he hp hl hne' h =>
    refine hd'.walks_nonzero hm.root.symm ?_ hne hw
    intro q p' wr _ hq
    rw [h] at hq
    split at hq
    · right
      simp only [Pte.valid.injEq] at hq
      obtain rfl : p = p' := Fin.ext hq.1
      intro i
      rw [h, if_neg]
      · exact hb.table p hp hl i
      · rintro rfl
        exact hne' rfl
    · left
      rename_i hqd
      rw [h, if_neg hqd]
  | delete d t he hempty h =>
    refine hd'.walks_nonzero hm.root.symm ?_ hne hw
    intro q p' wr _ hq
    left
    rw [h] at hq ⊢
    split at hq
    · exact absurd hq Pte.noConfusion
    · rename_i hqd
      rw [if_neg hqd]

/-! ## Slots have their pages' contents -/

theorem Move.unsaved_eq (hm : Move K c g c' g') {p : Pfn} (hp : g.loose ≠ some p) :
    c'.unsaved p = c.unsaved p := by
  cases hm with
  | handOut q use hu h0 hq =>
    refine Function.update_of_ne ?_ _ _
    rintro rfl
    exact hp hq
  | _ => rfl

/-- The slot of a page without unsaved stores has the contents of the page. -/
def Backed (pend : Option Pfn) (c : Core) (g : Ledger) : Prop :=
  ∀ p, c.use p = .anonPrivate → g.loose ≠ some p → (c.pages p).drumslot ≠ noSlot →
    c.unsaved p = false → pend ≠ some p → c.drum (c.pages p).drumslot = c.mem p

variable {pend : Option Pfn}

theorem Backed.move (h : Backed pend c g) (hi : Inv c g) (hm : Move K c g c' g') :
    Backed pend c' g' := by
  intro p hu hp hd hun hpd
  rcases hm.owns hi (o := .frame p) ⟨hu, hp, rfl⟩ with (⟨hu₀, hp₀, hd₀⟩ | hno) | ⟨_, _, e, -⟩
  · have hmem := (hm.mem_kept hi hu₀).resolve_right fun e => hp₀ e.1.1
    rw [hm.unsaved_eq hp₀] at hun
    rw [← hd₀] at hd ⊢
    rw [hm.drum, hmem]
    exact h p hu₀ hp₀ hd hun hpd
  · exact absurd hno hd
  · exact absurd e SlotOwner.noConfusion

/-! ## What is shown -/

/-- What an address may show: the last store to its virtual page, or nothing where `Z` allows. -/
def Right (Z : Prop) (stored : ℕ → Contents) (vaddr : ℕ) (d : Contents) : Prop :=
  d = stored (virtPage vaddr) ∨ Z ∧ d = 0

/-- The pages in core and the slots of swap entries have the right contents. -/
structure Shown (Z : Prop) (stored : ℕ → Contents) (c : Core) (g : Ledger) : Prop where
  frame : ∀ (vaddr : ℕ) (ptr : PtePtr) (p : Pfn), c.Walks vaddr ptr →
    (c.entry ptr).frame = some p.val → Right Z stored vaddr (c.mem p)
  swap : ∀ (vaddr : ℕ) (ptr : PtePtr) (n : ℕ), c.Walks vaddr ptr → c.entry ptr = .swap n →
    n < c.pagefile.totalSlots → Right Z stored vaddr (c.drum n)
  hidden : ¬ Z → ∀ vaddr, (∀ ptr, c.Walks vaddr ptr → c.entry ptr = .zero) →
    stored (virtPage vaddr) = 0
  busy : ¬ Z → g.busy = []

variable {Z : Prop} {stored : ℕ → Contents}

/-! ## Entries of level 1 -/

/-- What a move makes of an entry of level 1. -/
inductive Rewritten (K : Guard) (c : Core) (g g' : Ledger) (ptr : PtePtr) : Pte → Prop
  | same : Rewritten K c g g' ptr (c.entry ptr)
  | evicted (p : Pfn) (wr : Bool) (he : c.entry ptr = .valid p.val wr) :
      Rewritten K c g g' ptr (.trans p.val)
  | filled (p : Pfn) (wr : Bool) (he : c.entry ptr = .zero) (hp : g.loose = some p)
      (hu : c.use p = .anonPrivate) (hr : g.unref = none) (hh : 1 ≤ g.held p)
      (hwr : wr = true → K.write c ptr) : Rewritten K c g g' ptr (.valid p.val wr)
  | soft (p : Pfn) (he : c.entry ptr = .trans p.val) : Rewritten K c g g' ptr (.valid p.val false)
  | busied (slot a : ℕ) (he : c.entry ptr = .swap slot) : Rewritten K c g g' ptr (.busy a)
  | upgraded (p : Pfn) (wr : Bool) (he : c.entry ptr = .valid p.val wr) (hwr : K.write c ptr) :
      Rewritten K c g g' ptr (.valid p.val true)
  | read (r : Swapping) (hr : r ∈ g.busy) (hp : r.pte = ptr) :
      Rewritten K c g g' ptr (.valid r.page.val false)
  | stolen (p : Pfn) (he : c.entry ptr = .trans p.val) (hk : K.steal c p)
      (hd : (c.pages p).drumslot % 2 ^ 61 = 0 → 0 < g'.drift ptr.1) :
      Rewritten K c g g' ptr (view (vmpPteSwapCreate (c.pages p).drumslot))

theorem Move.rewritten (hi : Inv c g) (hm : Move K c g c' g') {ptr : PtePtr}
    (hl : c.level ptr.1 = 1) : Rewritten K c g g' ptr (c'.entry ptr) := by
  have word : ∀ {d : PtePtr} {w : Word} {g' : Ledger},
      (d = ptr → Rewritten K c g g' ptr (view w)) →
        Rewritten K c g g' ptr ((c.setWord d w).entry ptr) := by
    intro d w g' hself
    rw [Core.setWord_entry]
    split
    · exact hself (Eq.symm ‹_›)
    · exact .same
  cases hm with
  | evict e q d p wr hq hp hw hv =>
    refine word ?_
    rintro rfl
    rw [view_transCreate_pfn]
    exact .evicted p wr hv
  | mapZero d p wr hd hz hp hu hr ha hh hn hwr =>
    refine word ?_
    rintro rfl
    rw [view_hwCreate_pfn]
    exact .filled p wr hz hp hu hr hh hwr
  | mapSoft d p hd ht =>
    refine word ?_
    rintro rfl
    rw [view_hwCreate_pfn]
    exact .soft p ht
  | mapBusy d p state slot vaddr hd hw hs =>
    refine word ?_
    rintro rfl
    obtain ⟨a, hb⟩ := view_busyCreate_busy state
    rw [hb]
    exact .busied slot a hs
  | writeable d p wr hd hv hwr =>
    refine word ?_
    rintro rfl
    rw [view_hwSetWriteable (by exact hv)]
    exact .upgraded p wr hv hwr
  | finish r hr =>
    refine word ?_
    intro hp
    rw [view_hwCreate_pfn]
    exact .read r hr hp
  | unmap d p hd ht h0 hc hp hk =>
    refine word ?_
    rintro rfl
    refine .stolen p ht hk ?_
    intro hzero
    simp only [if_pos hzero, incAt_apply, if_true]
    omega
  | handOut q use hu =>
    have hne : ptr.1 ≠ q := by
      rintro rfl
      rw [c.level_of_plain hu] at hl
      cases hl
    have heq : ((c.setPage q (VmPage.handedOut use)).setWords q 0).entry ptr = c.entry ptr :=
      Core.setWords_entry_ne _ q ptr 0 hne
    change Rewritten K c g _ ptr (((c.setPage q (VmPage.handedOut use)).setWords q 0).entry ptr)
    rw [heq]
    exact .same
  | attach d q hq hd =>
    refine word ?_
    rintro rfl
    omega
  | delete t d hlt h₃ hg hz hs hn hr =>
    obtain ⟨d', hd', -, hld⟩ := hi.dirs.dir_back t hlt h₃ (by
      rw [hg.loose]
      exact (Option.some_ne_none t).symm)
    obtain rfl : d' = d := ptePaddr_injective (hd'.symm.trans hr)
    refine word (w := vmpPteZeroCreate) ?_
    rintro rfl
    omega
  | _ => exact .same

/-- Where the page of an entry comes from. -/
inductive Framed (c : Core) (g : Ledger) (ptr : PtePtr) (p : Pfn) : Prop
  | same (h : (c.entry ptr).frame = some p.val)
  | zero (he : c.entry ptr = .zero) (hp : g.loose = some p) (hu : c.use p = .anonPrivate)
      (h0 : 0 < (c.pages p).refcnt)
  | read (r : Swapping) (hr : r ∈ g.busy) (hp : r.page = p)

theorem Move.framed (hi : Inv c g) (hm : Move K c g c' g') {ptr : PtePtr} {p : Pfn}
    (hl : c.level ptr.1 = 1) (he : (c'.entry ptr).frame = some p.val) : Framed c g ptr p := by
  have hrw := hm.rewritten hi hl
  generalize c'.entry ptr = e at he hrw
  cases hrw with
  | same => exact .same he
  | evicted q wr hv =>
    refine .same ?_
    rw [hv]
    exact he
  | filled q wr hz hp hu hr hh =>
    obtain rfl : q = p := Fin.ext (Option.some.inj he)
    have hrc := hi.frames.loose q hp hu hr
    exact .zero hz hp hu (by omega)
  | soft q ht =>
    refine .same ?_
    rw [ht]
    exact he
  | busied => exact absurd he.symm (Option.some_ne_none _)
  | upgraded q wr hv =>
    refine .same ?_
    rw [hv]
    exact he
  | read r hr => exact .read r hr (Fin.ext (Option.some.inj he))
  | stolen q =>
    rw [view_swapCreate] at he
    split at he <;> exact absurd he.symm (Option.some_ne_none _)

theorem Move.drift (hm : Move K c g c' g') (h : ∀ t, g'.drift t = 0) (t : Pfn) :
    g.drift t = 0 := by
  cases hm with
  | unmap ptr p =>
    have ht := h t
    simp only at ht
    split at ht
    · rw [incAt_apply] at ht
      split at ht
      · omega
      · exact ht
    · exact ht
  | _ => exact h t

/-- An entry becomes zero only when its page is stolen with slot 0. -/
theorem Move.nonzero (hi : Inv c g) (hm : Move K c g c' g') {ptr : PtePtr}
    (hl : c.level ptr.1 = 1) (hne : c.entry ptr ≠ .zero) (hd : ∀ t, g'.drift t = 0) :
    c'.entry ptr ≠ .zero := by
  have hrw := hm.rewritten hi hl
  generalize c'.entry ptr = e at hrw
  cases hrw with
  | same => exact hne
  | stolen p ht hk hzero =>
    rw [view_swapCreate]
    split
    · have := hzero ‹_›
      rw [hd] at this
      omega
    · exact Pte.noConfusion
  | _ => exact Pte.noConfusion

theorem Shown.move (h : Shown Z stored c g) (hi : Inv c g) (hb : Blank c g) (hs : Saved pend c g)
    (hk : Backed pend c g) (hm : Move K c g c' g') (hK : ∀ c p, K.steal c p → pend ≠ some p)
    (hZ : ∀ c n, K.swapIn c n → Z) (hd : ¬ Z → ∀ t, g'.drift t = 0) : Shown Z stored c' g' := by
  refine ⟨?_, ?_, ?_, ?_⟩
  · intro vaddr ptr p hw he
    have hw₀ := hm.walks_back hi hb hw (by
      intro hz
      rw [hz] at he
      exact absurd he.symm (Option.some_ne_none _))
    have hl := hi.dirs.level_of_walks hw₀
    cases hm.framed hi hl he with
    | same he₀ =>
      obtain ⟨q, hq, hu, howner⟩ := hi.leaves.frame ptr p.val hl he₀
      obtain rfl : p = q := Fin.ext hq
      have hmem : c'.mem p = c.mem p := by
        refine (hm.mem_kept hi hu).resolve_right ?_
        rintro ⟨⟨hp, hun⟩, -⟩
        rcases howner with ⟨-, hne⟩ | ⟨hun', -⟩
        · exact hne hp
        · exact absurd (hun.symm.trans hun').symm (Option.some_ne_none _)
      rw [hmem]
      exact h.frame vaddr ptr p hw₀ he₀
    | zero hz hp hu h0 =>
      have hmem : c'.mem p = 0 := by
        rcases hm.mem_kept hi hu with hmem | ⟨-, hzero⟩
        · exact hmem.trans (hb.loose p hp hu h0)
        · exact hzero
      rw [hmem]
      by_cases hZ' : Z
      · exact .inr ⟨hZ', rfl⟩
      · refine .inl (h.hidden hZ' vaddr ?_).symm
        intro ptr' hw'
        rw [hw'.unique hw₀]
        exact hz
    | read r hr hp =>
      by_cases hZ' : Z
      · obtain ⟨-, -, hu, -, hlr⟩ := hi.leaves.busy_back r hr
        have hmem := (hm.mem_kept hi hu).resolve_right fun e => hlr e.1.1
        refine .inr ⟨hZ', ?_⟩
        rw [← hp, hmem]
        exact hb.reading r hr
      · rw [h.busy hZ'] at hr
        exact absurd hr List.not_mem_nil
  · intro vaddr ptr n hw he hn
    have hw₀ := hm.walks_back hi hb hw (by
      rw [he]
      exact Pte.noConfusion)
    rw [hm.pagefile] at hn
    have htotal := hi.slots.total
    have hl' := (hi.move hm).dirs.level_of_walks hw
    rw [hm.drum]
    rcases hm.owns hi (o := .swapped ptr) ⟨hl', he⟩ with (hold | hno) | ⟨_, p, e, hpass⟩
    · exact h.swap vaddr ptr n hw₀ hold.2 hn
    · have := (SlotOwner.swapped ptr).noSlot_ge
      omega
    · obtain rfl : ptr = _ := SlotOwner.swapped.inj e
      obtain ⟨hu, hp, hslot⟩ := hpass.owner
      have hdn : (c.pages p).drumslot ≠ noSlot := by
        have : 2 ^ 52 ≤ noSlot := by decide
        omega
      have hun : c.unsaved p = false := by
        by_contra hun
        obtain ⟨-, hcov⟩ := hs.covered p (Bool.eq_true_of_not_eq_false hun) hp
        rcases hcov with hdirty | ⟨r, hlr, hr⟩ | hpd | hsl
        · exact absurd (hpass.unreferenced.2.symm.trans hdirty) Bool.noConfusion
        · have := hi.frames.valid r p true hlr hr
          have := hpass.unreferenced.1
          omega
        · exact hK c p hpass.steal hpd
        · exact hdn hsl.1
      rw [← hslot, hk p hu hp hdn hun (hK c p hpass.steal)]
      refine h.frame vaddr ptr p hw₀ ?_
      rw [hpass.trans]
      rfl
  · intro hZ' vaddr hzero
    refine h.hidden hZ' vaddr ?_
    intro ptr hw
    by_contra hne
    have hw' := hm.walks_forth hi hw hne
    exact hm.nonzero hi (hi.dirs.level_of_walks hw) hne (hd hZ') (hzero ptr hw')
  · intro hZ'
    refine List.eq_nil_iff_forall_not_mem.2 ?_
    intro r hr
    rcases hm.busy_back hi hr with hold | ⟨⟨n, hn⟩, -⟩
    · rw [h.busy hZ'] at hold
      exact absurd hold List.not_mem_nil
    · exact hZ' (hZ c n hn)

/-! ## Every reachable state -/

/-- What is stored and where it is. -/
structure WellStored (Z : Prop) (x : Sys) (g : Ledger) : Prop where
  pageOuts : PageOuts x g
  reads : BlankReads x g
  backed : Backed x.pending x.vm.core g
  shown : (¬ Z → ∀ t, g.drift t = 0) → Shown Z x.stored x.vm.core g

/-- The pages and slots may change where entries do not lead. -/
theorem Shown.congr (h : Shown Z stored c g) (hw : ∀ vaddr ptr, c'.Walks vaddr ptr →
      c.Walks vaddr ptr ∧ c'.entry ptr = c.entry ptr)
    (hw' : ∀ vaddr ptr, c.Walks vaddr ptr → c'.Walks vaddr ptr)
    (hm : ∀ (vaddr : ℕ) (ptr : PtePtr) (p : Pfn), c.Walks vaddr ptr →
      (c.entry ptr).frame = some p.val → c'.mem p = c.mem p)
    (hd : ∀ (vaddr : ℕ) (ptr : PtePtr) (n : ℕ), c.Walks vaddr ptr → c.entry ptr = .swap n →
      c'.drum n = c.drum n)
    (hpf : c'.pagefile.totalSlots = c.pagefile.totalSlots) (hb : g'.busy = g.busy) :
    Shown Z stored c' g' := by
  refine ⟨?_, ?_, ?_, ?_⟩
  · intro vaddr ptr p hwalk he
    obtain ⟨hwalk, hsame⟩ := hw vaddr ptr hwalk
    rw [hsame] at he
    rw [hm vaddr ptr p hwalk he]
    exact h.frame vaddr ptr p hwalk he
  · intro vaddr ptr n hwalk he hn
    obtain ⟨hwalk, hsame⟩ := hw vaddr ptr hwalk
    rw [hsame] at he
    rw [hpf] at hn
    rw [hd vaddr ptr n hwalk he]
    exact h.swap vaddr ptr n hwalk he hn
  · intro hZ vaddr hzero
    refine h.hidden hZ vaddr ?_
    intro ptr hwalk
    obtain ⟨-, hsame⟩ := hw vaddr ptr (hw' vaddr ptr hwalk)
    rw [← hsame]
    exact hzero ptr (hw' vaddr ptr hwalk)
  · intro hZ
    rw [hb]
    exact h.busy hZ

/-- What the moves of an operation keep together. -/
theorem WellStored.moves {K' : Guard} (hi : Inv c g) (hb : Blank c g) (hs : Saved pend c g)
    (hk : Backed pend c g) (h : (¬ Z → ∀ t, g.drift t = 0) → Shown Z stored c g)
    (hm : Moves K' c g c' g') (hK : ∀ c p, K'.steal c p → pend ≠ some p)
    (hZ : ∀ c n, K'.swapIn c n → Z) :
    Backed pend c' g' ∧ ((¬ Z → ∀ t, g'.drift t = 0) → Shown Z stored c' g') := by
  refine (hm.invariant (P := fun d e => (Inv d e ∧ Blank d e ∧ Saved pend d e) ∧
    Backed pend d e ∧ ((¬ Z → ∀ t, e.drift t = 0) → Shown Z stored d e)) ⟨⟨hi, hb, hs⟩, hk, h⟩ ?_).2
  rintro d e d' e' ⟨⟨hi, hb, hs⟩, hk, h⟩ hm
  refine ⟨⟨hi.move hm, hb.move hi hm, hs.move hi hm hK⟩, hk.move hi hm, ?_⟩
  intro hd
  exact (h fun hZ' => hm.drift (hd hZ')).move hi hb hs hk hm hK hZ hd

/-- The words of a page of data are on no walk. -/
theorem Inv.walks_setWords (hi : Inv c g) {p : Pfn} (hu : c.use p = .anonPrivate) (d : Contents)
    {vaddr : ℕ} {ptr : PtePtr} : (c.setWords p d).Walks vaddr ptr ↔ c.Walks vaddr ptr := by
  have hdir : ∀ q : PtePtr, 2 ≤ c.level q.1 → (c.setWords p d).entry q = c.entry q := by
    intro q hq
    refine Core.setWords_entry_ne c p q d ?_
    rintro rfl
    exact Inv.not_anon_of_level (by omega) hu
  exact hi.dirs.walks_congr hdir rfl

theorem wellStored_layer (hZ : ∀ c n, K.swapIn c n → Z) : Layer K (WellStored Z) where
  boot c s hs := by
    have hno : ∀ (ptr : PtePtr), s.core.level ptr.1 ≠ 1 := by
      intro ptr hl
      have := (hs.level_eq hl.ge).2
      omega
    have hwalk : ∀ vaddr ptr, ¬ s.core.Walks vaddr ptr := fun vaddr ptr hw =>
      hno ptr (hs.inv.dirs.level_of_walks hw)
    refine ⟨(pageOuts_layer K).boot c s hs, (blankReads_layer K).boot c s hs, ?_, ?_⟩
    · intro p hu
      exact absurd hu (hs.use_ne p).1
    · intro _
      refine ⟨fun v ptr p hw => absurd hw (hwalk v ptr), fun v ptr n hw => absurd hw (hwalk v ptr),
        fun _ _ _ => rfl, fun _ => rfl⟩
  turn x g x' g' hx h ht hx' := by
    have houts := (pageOuts_layer K).turn x g x' g' hx h.pageOuts ht hx'
    have hreads := (blankReads_layer K).turn x g x' g' hx h.reads ht hx'
    have hloose : ∀ p, g.loose ≠ some p := by
      intro p
      rw [hx.settled.loose]
      exact (Option.some_ne_none p).symm
    cases ht with
    | moves F hF hm hp hst =>
      have hK : ∀ c p, (x.guard K F).steal c p → x.pending ≠ some p := by
        intro d p hsteal hpd
        have := x.heldBy_pending hpd
        have := hsteal.2
        omega
      obtain ⟨hk, hs⟩ := WellStored.moves hx.good.inv h.reads.blank h.pageOuts.saved h.backed h.shown
        hm hK hZ
      refine ⟨houts, hreads, ?_, ?_⟩
      · rw [hp]
        exact hk
      · rw [hst]
        exact hs
    | pick p offset hv hg h₀ hp hst =>
      subst hg
      obtain ⟨slot, pf, -, hcore, hslot⟩ := hv.core
      refine ⟨houts, hreads, ?_, ?_⟩
      · intro q hu _ hd hun hpd
        have hqp : q ≠ p := by
          rintro rfl
          exact hpd hp
        have hpage : x'.vm.core.pages q = x.vm.core.pages q := by
          rw [hcore]
          change (x.vm.core.setPage p _).pages q = _
          rw [Core.setPage_pages, if_neg hqp]
        rw [Core.use, hpage] at hu
        rw [hpage] at hd ⊢
        rw [hcore] at hun ⊢
        refine h.backed q hu (hloose q) hd hun ?_
        rw [h₀]
        exact (Option.some_ne_none q).symm
      · intro hd
        rw [hst, hcore]
        refine (h.shown hd).congr (fun _ _ hw => ⟨hw, rfl⟩) (fun _ _ hw => hw)
          (fun _ _ _ _ _ => rfl) (fun _ _ _ _ _ => rfl) ?_ rfl
        rcases hslot with ⟨-, -, rfl⟩ | ⟨-, -, ha⟩
        · rfl
        · exact ha.total
    | send p hv hg h₀ hp hst =>
      subst hg
      obtain ⟨hu, -, -⟩ := h.pageOuts.saved.pending p h₀
      by_cases hno : (x.vm.pages p).drumslot = noSlot
      · have hvm : x'.vm = x.vm := by
          rw [hv, pwritePage, slotAt_noSlot hno h.reads.total]
        refine ⟨houts, hreads, ?_, ?_⟩
        · rw [hvm]
          intro q hu' hl hd hun _
          refine h.backed q hu' hl hd hun ?_
          intro hpd
          obtain rfl : p = q := Option.some.inj (h₀.symm.trans hpd)
          exact hd hno
        · rw [hst, hvm]
          exact h.shown
      · have hown : x.vm.core.Owns g' (x.vm.pages p).drumslot (.frame p) := ⟨hu, hloose p, rfl⟩
        have hlt : (x.vm.pages p).drumslot < x.vm.pagefile.totalSlots :=
          ((h.pageOuts.slots.taken _ _ hown).resolve_left hno).1
        have htotal : x.vm.pagefile.totalSlots ≤ 2 ^ 52 := hx.good.inv.slots.total
        have hcore := pwritePage_core x.vm p (drumOffset x.vm p)
        rw [← hv, slotAt_drumOffset hlt htotal] at hcore
        -- nobody else has the slot
        have hother : ∀ o n, x.vm.core.Owns g' n o → o ≠ .frame p →
            x'.vm.core.drum n = x.vm.core.drum n := by
          intro o n ho hne
          rw [hcore]
          refine Function.update_of_ne ?_ _ _
          rintro rfl
          exact hne (h.pageOuts.slots.once _ _ _ ho hown (by omega))
        refine ⟨houts, hreads, ?_, ?_⟩
        · intro q hu' hl hd hun _
          have hpages : x'.vm.core.pages = x.vm.core.pages := by rw [hcore]
          have hmem : x'.vm.core.mem = x.vm.core.mem := by rw [hcore]
          rw [Core.use, hpages] at hu'
          rw [hpages] at hd ⊢
          rw [hmem]
          by_cases hqp : q = p
          · rw [hqp, hcore]
            exact Function.update_self _ _ _
          · rw [hother (.frame q) _ ⟨hu', hl, rfl⟩ fun e => hqp (SlotOwner.frame.inj e)]
            refine h.backed q hu' hl hd ?_ ?_
            · rw [hcore] at hun
              exact (Function.update_of_ne hqp _ _).symm.trans hun
            · intro hpd
              exact hqp (Option.some.inj (hpd.symm.trans h₀))
        · intro hd
          rw [hst]
          have hsame : x'.vm.core = { x.vm.core with
              drum := x'.vm.core.drum, unsaved := x'.vm.core.unsaved } := by rw [hcore]
          rw [hsame]
          refine (h.shown hd).congr (fun _ _ hw => ⟨hw, rfl⟩) (fun _ _ hw => hw)
            (fun _ _ _ _ _ => rfl) ?_ rfl rfl
          intro v ptr n hw he
          exact hother (.swapped ptr) n ⟨hx.good.inv.dirs.level_of_walks hw, he⟩
            SlotOwner.noConfusion
    | read k sw hk hw hv hg hp hst =>
      subst hg
      have hvm : x'.vm = x.vm := by
        rw [hv, h.reads.preadPage_eq hx (List.mem_of_getElem? hk)]
      refine ⟨houts, hreads, ?_, ?_⟩
      · rw [hp, hvm]
        exact h.backed
      · rw [hst, hvm]
        exact h.shown
    | store vaddr data hv hg hp =>
      subst hg
      obtain ⟨ptr, p, hw, he, hcore⟩ := hv.vm
      have hi := hx.good.inv
      have hl := hi.dirs.level_of_walks hw
      obtain ⟨q, hq, hu, -⟩ := hi.leaves.frame ptr p.val hl (by rw [he]; rfl)
      obtain rfl : p = q := Fin.ext hq
      have hwalk : ∀ v r, x'.vm.core.Walks v r ↔ x.vm.core.Walks v r := by
        intro v r
        rw [hcore]
        exact hi.walks_setWords hu data
      have hentry : ∀ r : PtePtr, x.vm.core.level r.1 = 1 →
          x'.vm.core.entry r = x.vm.core.entry r := by
        intro r hr
        rw [hcore]
        refine Core.setWords_entry_ne x.vm.core p r data ?_
        rintro rfl
        exact Inv.not_anon_of_level hr.ge hu
      have hmem : ∀ q, x'.vm.core.mem q = if q = p then data else x.vm.core.mem q := by
        intro q
        rw [hcore]
        exact Function.update_apply _ _ _ _
      have hstored : ∀ v, x'.stored v = if v = virtPage vaddr then data else x.stored v := by
        intro v
        rw [hv.stored]
        exact Function.update_apply _ _ _ _
      have hdrum : x'.vm.core.drum = x.vm.core.drum := by
        rw [hcore]
        rfl
      have hpf : x'.vm.core.pagefile = x.vm.core.pagefile := by
        rw [hcore]
        rfl
      have hvirt : ∀ v r, x.vm.core.Walks v r → (r = ptr ↔ virtPage v = virtPage vaddr) :=
        fun v r hr => hi.dirs.walks_injective hr hw
      refine ⟨houts, hreads, ?_, ?_⟩
      · intro q hu' hl' hd hun _
        rw [hcore] at hu' hd hun
        rw [hdrum, hmem]
        have hqp : q ≠ p := by
          rintro rfl
          exact absurd ((Function.update_self q true x.vm.unsaved).symm.trans hun) Bool.noConfusion
        rw [if_neg hqp, hcore]
        refine h.backed q hu' hl' hd ((Function.update_of_ne hqp _ _).symm.trans hun) ?_
        rw [← hp]
        assumption
      · intro hd
        have hs := h.shown hd
        refine ⟨?_, ?_, ?_, ?_⟩
        · intro v r q hr hf
          have hr₀ := (hwalk v r).1 hr
          have hlr := hi.dirs.level_of_walks hr₀
          rw [hentry r hlr] at hf
          have hframe : q = p ↔ r = ptr := by
            constructor
            · rintro rfl
              exact hx.good.frame_unique hx.settled hlr hl hf (by rw [he]; rfl)
            · rintro rfl
              rw [he] at hf
              exact Fin.ext (Option.some.inj hf).symm
          rw [Right, hmem, hstored]
          by_cases hrp : r = ptr
          · rw [if_pos (hframe.2 hrp), if_pos ((hvirt v r hr₀).1 hrp)]
            exact .inl rfl
          · rw [if_neg fun e => hrp (hframe.1 e), if_neg fun e => hrp ((hvirt v r hr₀).2 e)]
            exact hs.frame v r q hr₀ hf
        · intro v r n hr hf hn
          have hr₀ := (hwalk v r).1 hr
          rw [hentry r (hi.dirs.level_of_walks hr₀)] at hf
          rw [hpf] at hn
          have hrp : r ≠ ptr := by
            rintro rfl
            exact absurd (he.symm.trans hf) Pte.noConfusion
          rw [Right, hdrum, hstored, if_neg fun e => hrp ((hvirt v r hr₀).2 e)]
          exact hs.swap v r n hr₀ hf hn
        · intro hZ' v hzero
          have hne : virtPage v ≠ virtPage vaddr := by
            intro e
            have hw' : x.vm.core.Walks v ptr := Descends.congr_index (virtPage_eq_iff.1 e.symm) hw
            have hz := hzero ptr ((hwalk v ptr).2 hw')
            rw [hentry ptr hl, he] at hz
            exact absurd hz Pte.noConfusion
          rw [hstored, if_neg hne]
          refine hs.hidden hZ' v ?_
          intro r hr
          rw [← hentry r (hi.dirs.level_of_walks hr)]
          exact hzero r ((hwalk v r).2 hr)
        · exact hs.busy

/-! ## The simulator -/

/-- The page of an address is in core, mapped or in transition. -/
def State.PageAt (s : State) (vaddr : ℕ) (p : Pfn) : Prop :=
  ∃ ptr, vmpFetchPte s vaddr = .ok (some ptr) ∧ (s.entry ptr).frame = some p.val

/-- The page of an address is out, in a slot of the pagefile. -/
def State.SwappedAt (s : State) (vaddr slot : ℕ) : Prop :=
  (∃ ptr, vmpFetchPte s vaddr = .ok (some ptr) ∧ s.entry ptr = .swap slot) ∧
    slot < s.pagefile.totalSlots

/-- A load from an address goes through and finds the page with these contents. -/
def State.Loads (s : State) (vaddr : ℕ) (data : Contents) : Prop :=
  ∃ ptr p, accessTry s vaddr false = .ok (some ptr) ∧ vmpPteHwPage (s.pte ptr) = .ok p ∧
    s.mem p = data

/-- A load goes through to the page of its address. -/
theorem Sys.Good.pageAt {y : Sys} (hy : y.Good g) {vaddr : ℕ} {data : Contents}
    (h : y.narrow.vm.Loads vaddr data) : ∃ p, y.narrow.vm.PageAt vaddr p ∧ y.vm.mem p = data := by
  obtain ⟨ptr, p, ht, hp, rfl⟩ := h
  have ha := accessed_of_try ht
  have hw := Sys.narrow_fetch.1 ha.fetch
  have hk : (y.vm.core.entry ptr).kind = .ok .valid := by
    rw [← ha.valid, characterise_eq_kind]
    rfl
  cases he : y.vm.core.entry ptr with
  | valid n wr =>
    have hf : (y.vm.core.entry ptr).frame = some n := by
      rw [he]
      rfl
    obtain ⟨q, rfl, -⟩ := hy.good.inv.leaves.frame ptr n (hy.good.inv.dirs.level_of_walks hw) hf
    have hq : vmpPteHwPage (y.narrow.vm.pte ptr) = .ok q := vmpPteHwPage_of_view he
    refine ⟨p, ⟨ptr, ha.fetch, ?_⟩, rfl⟩
    rw [Except.ok.inj (hp.symm.trans hq)]
    exact hf
  | _ =>
    rw [he] at hk
    cases hk

/-- Every address shows the last store to its virtual page, or nothing. -/
structure ContentsShown (x : Sys) : Prop where
  load : ∀ vaddr data, x.vm.Loads vaddr data → data = x.stored (virtPage vaddr) ∨ data = 0
  page : ∀ vaddr p, x.vm.PageAt vaddr p →
    x.vm.mem p = x.stored (virtPage vaddr) ∨ x.vm.mem p = 0
  swapped : ∀ vaddr slot, x.vm.SwappedAt vaddr slot →
    x.vm.drum slot = x.stored (virtPage vaddr) ∨ x.vm.drum slot = 0

theorem Reachable.contentsShown {x : Sys} (h : Reachable x) : ContentsShown x := by
  obtain ⟨x₀, hb, hr⟩ := h
  obtain ⟨y, g, rfl, hy, hl⟩ := exists_standing Terms.any_grant
    (wellStored_layer (K := Guard.any) (Z := True) fun _ _ _ => trivial) hb
    (hr.mono fun op a _ => op.meets_any a)
  have hs := hl.shown fun hZ => absurd trivial hZ
  have page : ∀ vaddr p, y.narrow.vm.PageAt vaddr p →
      y.vm.mem p = y.stored (virtPage vaddr) ∨ y.vm.mem p = 0 := by
    rintro vaddr p ⟨ptr, hw, hf⟩
    exact (hs.frame vaddr ptr p (Sys.narrow_fetch.1 hw) hf).imp_right And.right
  refine ⟨?_, page, ?_⟩
  · intro vaddr data hload
    obtain ⟨p, hp, rfl⟩ := hy.pageAt hload
    exact page vaddr p hp
  · rintro vaddr slot ⟨⟨ptr, hw, he⟩, hlt⟩
    exact (hs.swap vaddr ptr slot (Sys.narrow_fetch.1 hw) he hlt).imp_right And.right

/-- **No address shows another's page.** Whatever is evicted, written out, stolen and faulted on in
between, what a load finds is the last store to its own virtual page or nothing; so are the page in
transition and the slot of the pagefile that will be found there. -/
theorem contents_shown {x : Sys} (h : Reachable x) : ContentsShown x := h.contentsShown

/-- Two pages are stored to, evicted, written out and stolen; one of them is read again. -/
def storeAndSteal : List Op :=
  faultOn 0 true ++ [.store 0 7] ++ faultOn 4096 true ++ [.store 4096 9] ++
    (List.range 5).flatMap (fun i => faultOn (4096 * (i + 2)) true) ++ List.replicate 7 .trim ++
    List.replicate 22 .pgwriter ++ List.replicate 23 (.alloc .kWired true) ++
    faultOn 4096 false ++ [.swapRead 0, .swapFinish 0]

theorem contents_shown_stolen :
    ∃ x, simulate mainConfig storeAndSteal = .ok x ∧ ContentsShown x := by
  obtain ⟨x, hx⟩ := exists_of_returns (r := simulate mainConfig storeAndSteal) (by decide +kernel)
  exact ⟨x, hx, contents_shown (reachable_of_simulate hx)⟩

/-! ## Without swap-ins -/

/-- No fault begins to swap a page in. -/
def Terms.resident : Terms := ⟨fun _ => True, fun _ _ => False, fun _ => True⟩

def Guard.resident : Guard := { Guard.any with swapIn := fun _ _ => False }

end VmmSim
