import VmmSim.Contents

/-!
# Write permission

An entry becomes writeable when a fault maps a zero page, with the permission of the VAD, or when a
write fault finds it valid, without it. Where no fault of the second kind meets a VAD that is not
writeable, every writeable entry, and so every store, is of a virtual page with a writeable VAD
(`writes_permitted`): evictions, steals and swap-ins never give more permission back.
-/

namespace VmmSim

open Lib

variable {K : Guard} {c c' : Core} {g g' : Ledger}

/-- An address of the virtual page lies in a writeable VAD. -/
def VadTree.Permits (t : VadTree) (page : ℕ) : Prop :=
  ∃ vaddr vad, virtPage vaddr = page ∧ t.find vaddr = some vad ∧ vad.writeable = true

/-- An address of the entry lies in a writeable VAD. -/
def Core.Permits (c : Core) (ptr : PtePtr) : Prop :=
  ∃ vaddr vad, c.Walks vaddr ptr ∧ c.vads.find vaddr = some vad ∧ vad.writeable = true

theorem Core.Permits.page {ptr : PtePtr} (h : c.Permits ptr) (hd : Dirs c g) {vaddr : ℕ}
    (hw : c.Walks vaddr ptr) : c.vads.Permits (virtPage vaddr) := by
  obtain ⟨v, vad, hv, hfind, hwr⟩ := h
  exact ⟨v, vad, (hd.walks_injective hv hw).1 rfl, hfind, hwr⟩

/-- What is writeable, and what was stored to, is permitted. -/
structure Permitted (x : Sys) : Prop where
  entry : ∀ vaddr ptr n, x.vm.core.Walks vaddr ptr → x.vm.core.entry ptr = .valid n true →
    x.vm.core.vads.Permits (virtPage vaddr)
  stored : ∀ page, x.stored page ≠ 0 → x.vm.core.vads.Permits page

/-- An entry is writeable because it was, or because a move may make it so. -/
theorem Move.writeable_back (hi : Inv c g) (hm : Move K c g c' g') {ptr : PtePtr} {n : ℕ}
    (hl : c.level ptr.1 = 1) (he : c'.entry ptr = .valid n true) :
    (∃ n, c.entry ptr = .valid n true) ∨ K.write c ptr := by
  have hrw := hm.rewritten hi hl
  rw [he] at hrw
  generalize hv : Pte.valid n true = e at hrw
  cases hrw with
  | same => exact .inl ⟨n, hv.symm⟩
  | filled p wr hz hp hu hr hh hwr =>
    simp only [Pte.valid.injEq] at hv
    exact .inr (hwr hv.2.symm)
  | upgraded p wr hv hwr => exact .inr hwr
  | stolen p =>
    rw [view_swapCreate] at hv
    split at hv <;> exact Pte.noConfusion hv
  | _ => simp at hv

/-- A write permission is a fact of the VADs, which stay. -/
theorem permitted_moves (hi : Inv c g) (hb : Blank c g) (hm : Moves K c g c' g')
    (hK : ∀ c ptr, K.write c ptr → c.Permits ptr)
    (h : ∀ vaddr ptr n, c.Walks vaddr ptr → c.entry ptr = .valid n true →
      c.vads.Permits (virtPage vaddr)) :
    ∀ vaddr ptr n, c'.Walks vaddr ptr → c'.entry ptr = .valid n true →
      c'.vads.Permits (virtPage vaddr) := by
  refine (hm.invariant (P := fun d e => (Inv d e ∧ Blank d e) ∧ ∀ vaddr ptr n, d.Walks vaddr ptr →
    d.entry ptr = .valid n true → d.vads.Permits (virtPage vaddr)) ⟨⟨hi, hb⟩, h⟩ ?_).2
  rintro d e d' e' ⟨⟨hi, hb⟩, h⟩ hm
  refine ⟨⟨hi.move hm, hb.move hi hm⟩, ?_⟩
  intro vaddr ptr n hw he
  have hw₀ := hm.walks_back hi hb hw (by
    rw [he]
    exact Pte.noConfusion)
  rw [hm.vads]
  rcases hm.writeable_back hi (hi.dirs.level_of_walks hw₀) he with ⟨n, he⟩ | hwr
  · exact h vaddr ptr n hw₀ he
  · exact (hK d ptr hwr).page hi.dirs hw₀

/-! ## Every reachable state -/

/-- The walks, their entries and the VADs are left alone. -/
structure SameEntries (c c' : Core) : Prop where
  vads : c'.vads = c.vads
  walks : ∀ {vaddr : ℕ} {ptr : PtePtr}, c'.Walks vaddr ptr ↔ c.Walks vaddr ptr
  entry : ∀ {vaddr : ℕ} {ptr : PtePtr}, c.Walks vaddr ptr → c'.entry ptr = c.entry ptr

theorem SameEntries.of_eq (hr : c'.root = c.root) (hm : c'.mem = c.mem) (hv : c'.vads = c.vads) :
    SameEntries c c' := by
  have he : c'.entry = c.entry := by
    funext ptr
    rw [Core.entry, hm]
    rfl
  refine ⟨hv, ?_, fun _ => congrFun he _⟩
  intro vaddr ptr
  rw [Core.Walks, hr, he]
  rfl

/-- A turn makes moves, or leaves the entries alone. -/
theorem Turned.entries {x x' : Sys} (hx : x.Good g) (hr : BlankReads x g)
    (h : Turned K x g x' g') : (∃ F, Moves (x.guard K F) x.vm.core g x'.vm.core g') ∨
      SameEntries x.vm.core x'.vm.core := by
  cases h with
  | moves F hF hm => exact .inl ⟨F, hm⟩
  | pick p offset hv =>
    obtain ⟨slot, pf, -, hcore, -⟩ := hv.core
    right
    rw [hcore]
    exact .of_eq rfl rfl rfl
  | send p hv =>
    right
    rw [hv, pwritePage_core]
    split <;> exact .of_eq rfl rfl rfl
  | read k sw hk hw hv =>
    right
    rw [hv, hr.preadPage_eq hx (List.mem_of_getElem? hk)]
    exact .of_eq rfl rfl rfl
  | store vaddr data hv =>
    obtain ⟨ptr, p, hw, he, hcore⟩ := hv.vm
    have hi := hx.good.inv
    obtain ⟨q, hq, hu, -⟩ := hi.leaves.frame ptr p.val (hi.dirs.level_of_walks hw) (by
      rw [he]
      rfl)
    obtain rfl : p = q := Fin.ext hq
    right
    rw [hcore]
    refine ⟨rfl, hi.walks_setWords hu data, ?_⟩
    intro v r hr
    refine Core.setWords_entry_ne x.vm.core p r data ?_
    rintro rfl
    exact Inv.not_anon_of_level (hi.dirs.level_of_walks hr).ge hu

theorem Turned.stored {x x' : Sys} (h : Turned K x g x' g') : x'.stored = x.stored ∨
    ∃ vaddr data ptr n, x.vm.core.Walks vaddr ptr ∧ x.vm.core.entry ptr = .valid n true ∧
      x'.stored = Function.update x.stored (virtPage vaddr) data := by
  cases h with
  | moves F hF hm hp hs => exact .inl hs
  | pick p offset hv hg h₀ hp hs => exact .inl hs
  | send p hv hg h₀ hp hs => exact .inl hs
  | read k sw hk hw hv hg hp hs => exact .inl hs
  | store vaddr data hv =>
    obtain ⟨ptr, p, hw, he, -⟩ := hv.vm
    exact .inr ⟨vaddr, data, ptr, p.val, hw, he, hv.stored⟩

theorem permitted_layer (hK : ∀ c ptr, K.write c ptr → c.Permits ptr) :
    Layer K fun x g => BlankReads x g ∧ Permitted x where
  boot c s hs := by
    refine ⟨(blankReads_layer K).boot c s hs, ?_, fun _ hne => absurd rfl hne⟩
    intro vaddr ptr n _ he
    exact absurd ((hs.entry ptr).symm.trans he) Pte.noConfusion
  turn x g x' g' hx h ht hx' := by
    obtain ⟨hr, hp⟩ := h
    refine ⟨(blankReads_layer K).turn x g x' g' hx hr ht hx', ?_, ?_⟩
    · rcases ht.entries hx hr with ⟨F, hm⟩ | hsame
      · exact permitted_moves hx.good.inv hr.blank hm hK hp.entry
      · intro vaddr ptr n hw he
        rw [hsame.walks] at hw
        rw [hsame.entry hw] at he
        rw [hsame.vads]
        exact hp.entry vaddr ptr n hw he
    · have hvads : x'.vm.core.vads = x.vm.core.vads := by
        rcases ht.entries hx hr with ⟨F, hm⟩ | hsame
        · exact hm.vads
        · exact hsame.vads
      rw [hvads]
      intro page hne
      rcases ht.stored with hs | ⟨vaddr, data, ptr, n, hw, he, hs⟩
      · rw [hs] at hne
        exact hp.stored page hne
      · rw [hs] at hne
        by_cases hpage : page = virtPage vaddr
        · rw [hpage]
          exact hp.entry vaddr ptr n hw he
        · rw [Function.update_of_ne hpage] at hne
          exact hp.stored page hne

/-! ## The simulator -/

/-- The operation is not the part of a write fault that finds a valid entry, in a VAD that is not
writeable. -/
def Op.noOverride : Op → Sys → Bool
  | .faultMain _, x => x.fault.all fun f =>
    match x.vm.entry f.state.pte with
    | .valid _ false => !f.write || f.vad.writeable
    | _ => true
  | _, _ => true

/-- No write fault makes an entry writeable that its VAD does not. -/
def Terms.permitted : Terms := ⟨fun _ => True, fun _ _ => True, fun vad => vad.writeable = true⟩

def Guard.permitted : Guard := { Guard.any with write := Core.Permits }

theorem Terms.permitted_grant : Terms.permitted.Grant Guard.permitted := by
  refine ⟨fun _ _ _ _ _ => trivial, fun _ _ _ _ _ => trivial, ?_⟩
  intro c vaddr ptr vad hw hfind hwr
  exact ⟨vaddr, vad, hw, hfind, hwr.elim id id⟩

theorem Op.meets_permitted {op : Op} {x : Sys} (h : op.noOverride x = true) :
    op.Meets Terms.permitted x := by
  cases op with
  | faultMain pagerState =>
    intro f hf
    refine ⟨fun _ => trivial, ?_, fun _ _ => trivial⟩
    intro n he hwrite hcow
    simp only [Op.noOverride, Option.all_eq_true] at h
    have hwr := h f hf
    rw [State.entry, he] at hwr
    simp only [hwrite, Bool.not_true, Bool.false_or] at hwr
    exact hwr
  | fault vaddr write out => exact fun _ _ => wireAllocs_of_forall (fun _ => trivial) _ _ _ _
  | wire vaddr => exact fun _ _ => wireAllocs_of_forall (fun _ => trivial) _ _ _ _
  | _ => trivial

/-- An address of the virtual page lies in a writeable VAD. -/
def State.Permits (s : State) (page : ℕ) : Prop :=
  ∃ vaddr vad, virtPage vaddr = page ∧ vmpPsVadFind s vaddr = some vad ∧ vad.writeable = true

/-- Writes are permitted. -/
structure WritesPermitted (x : Sys) : Prop where
  /-- A writeable leaf entry is that of a virtual page with a writeable VAD. -/
  entry : ∀ ptr n, x.vm.IsLeaf ptr → x.vm.entry ptr = .valid n true →
    ∃ vaddr, vmpFetchPte x.vm vaddr = .ok (some ptr) ∧ x.vm.Permits (virtPage vaddr)
  /-- So is the page of an address through which a store goes. -/
  access : ∀ vaddr ptr, accessTry x.vm vaddr true = .ok (some ptr) → x.vm.Permits (virtPage vaddr)
  /-- A virtual page without a writeable VAD shows zero. -/
  blank : ∀ vaddr data, x.vm.Loads vaddr data → ¬ x.vm.Permits (virtPage vaddr) → data = 0

/-- **The hardware's permission is within that of the VADs** in a run in which no write fault finds a
valid entry of a VAD that is not writeable. -/
theorem writes_permitted {x₀ x : Sys} (hb : Boot x₀)
    (hr : Run step (fun op x => op.noOverride x = true) x₀ x) : WritesPermitted x := by
  have hreach : Reachable x := ⟨x₀, hb, hr.mono fun _ _ _ => trivial⟩
  have hshown := hreach.contentsShown
  obtain ⟨y, g, rfl, hy, -, hp⟩ := exists_standing Terms.permitted_grant
    (permitted_layer (K := Guard.permitted) fun _ _ h => h) hb
    (hr.mono fun op a h => Op.meets_permitted h)
  have hi := hy.good.inv
  refine ⟨?_, ?_, ?_⟩
  · intro ptr n hl he
    obtain ⟨e, -, -, hw⟩ := hi.mirror.leaf_back ptr ((Sys.narrow_isLeaf ptr).1 hl) (by
      rw [← Sys.narrow_entry, he]
      rfl) (by
      rw [hy.settled.absent]
      exact (Option.some_ne_none ptr).symm)
    exact ⟨e.vaddr, Sys.narrow_fetch.2 hw, hp.entry e.vaddr ptr n hw he⟩
  · intro vaddr ptr ha
    rw [show y.narrow.vm = y.vm.narrow from rfl, accessTry_narrow] at ha
    obtain ⟨hw, n, he⟩ := accessTry_eq_some ha
    exact hp.entry vaddr ptr n hw he
  · intro vaddr data hload hno
    rcases hshown.load vaddr data hload with hs | h0
    · by_contra hne
      rw [hs] at hne
      exact hno (hp.stored _ hne)
    · exact h0

/-- A range of four pages that may be written, and one that may not. -/
def twoVads : Config := { mainConfig with
  vads := .node .nil ⟨0, 4 * 4096, true, true, false, false, 0, none⟩
    (.node .nil ⟨4 * 4096, 8 * 4096, false, true, false, false, 0, none⟩ .nil) }

/-- Both are faulted on for writing, and evicted. -/
def faultBoth : List Op :=
  faultOn 0 true ++ [.store 0 7] ++ faultOn 16384 true ++ [.trim, .trim] ++ faultOn 0 true ++
    faultOn 16384 false ++ faultOn 0 true

theorem writes_permitted_both : ∃ x₀ x, Boot x₀ ∧
    runSteps (checked Op.noOverride .wait step) faultBoth x₀ = .ok x ∧ WritesPermitted x := by
  obtain ⟨s, hs⟩ := exists_of_returns (r := mainInit twoVads) (by decide +kernel)
  have hrun : returns (mainInit twoVads >>= fun s =>
      runSteps (checked Op.noOverride .wait step) faultBoth (bootSys s)) = true := by
    decide +kernel
  rw [hs, ok_bind] at hrun
  obtain ⟨x, hx⟩ := exists_of_returns hrun
  have hb : Boot (bootSys s) := ⟨twoVads, s, hs, rfl⟩
  exact ⟨bootSys s, x, hb, hx, writes_permitted hb (run_of_checked hx)⟩

end VmmSim
