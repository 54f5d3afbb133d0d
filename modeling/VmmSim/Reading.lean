import VmmSim.Reclaim

/-!
# Pages that are being read

A page that a sleeping fault reads has one reference, that of its busy entry, and no slot of the
pagefile: it was just allocated, and nobody else can reach it before the fault ends.
-/

namespace VmmSim

open Lib

variable {K : Guard} {c c' : Core} {g g' : Ledger}

/-- No list holds a page that is being read, and it has no slot. `loose` is about the page that
is about to be read. -/
structure Reading (F : Swapping → Prop) (c : Core) (g : Ledger) : Prop where
  held : ∀ r ∈ g.busy, ¬ F r → g.held r.page = 0
  slot : ∀ r ∈ g.busy, (c.pages r.page).drumslot = noSlot
  loose : ∀ p, g.loose = some p → c.use p = .anonPrivate → g.unref = none → g.held p ≤ 1

/-- Slots stay while a page is read. -/
theorem Reading.slot_kept {F : Swapping → Prop} (h : Reading F c g) (hi : Inv c g)
    (hm : Move K c g c' g') {r : Swapping} (hr : r ∈ g.busy) :
    (c'.pages r.page).drumslot = noSlot := by
  obtain ⟨-, -, hu, -, hl⟩ := hi.leaves.busy_back r hr
  have hpage := hm.settledPage hi (q := r.page)
    (fun ptr h1 he _ => hi.leaves.page_ne h1 (by rw [he]; rfl) hr rfl) hu hl
  exact hpage.2.2.1.trans (h.slot r hr)

/-- A page that an entry names is not about to be read. -/
theorem Leaves.loose_ne (h : Leaves c g) {ptr : PtePtr} {p : Pfn} (hl : c.level ptr.1 = 1)
    (he : (c.entry ptr).frame = some p.val) (hun : g.unref = none) : g.loose ≠ some p := by
  obtain ⟨q, hq, -, hf⟩ := h.frame ptr _ hl he
  obtain rfl : p = q := Fin.ext hq
  rcases hf with ⟨-, hne⟩ | ⟨hp, -⟩
  · exact hne
  · rw [hun] at hp
    cases hp

/-- Changes that give no page that is read, or about to be, a reference. -/
theorem Reading.congr {F : Swapping → Prop} (h : Reading F c g)
    (hslot : ∀ r ∈ g.busy, (c'.pages r.page).drumslot = noSlot)
    (hb : ∀ r ∈ g'.busy, r ∈ g.busy)
    (hheld : ∀ r ∈ g.busy, ¬ F r → g'.held r.page ≤ g.held r.page)
    (hloose : ∀ p, g'.loose = some p → c'.use p = .anonPrivate → g'.unref = none →
      g.loose = some p ∧ c.use p = .anonPrivate ∧ g.unref = none ∧ g'.held p ≤ g.held p) :
    Reading F c' g' := by
  refine ⟨fun r hr hF => ?_, fun r hr => hslot r (hb r hr), fun p hp hu hun => ?_⟩
  · have h₁ := hheld r (hb r hr) hF
    have h₂ := h.held r (hb r hr) hF
    omega
  · obtain ⟨hp, hu, hun, hle⟩ := hloose p hp hu hun
    exact hle.trans (h.loose p hp hu hun)

theorem decAt_le (f : Pfn → ℕ) (p q : Pfn) : decAt f p q ≤ f q := by
  rw [decAt_apply]
  split
  · subst_vars
    omega
  · exact le_rfl

theorem incAt_ne {f : Pfn → ℕ} {p q : Pfn} (h : q ≠ p) : incAt f p q = f q := by
  rw [incAt_apply, if_neg h]

theorem Reading.move (h : Reading K.finish c g) (hi : Inv c g) (hm : Move K c g c' g') :
    Reading K.finish c' g' := by
  have hslot := fun r (hr : r ∈ g.busy) => h.slot_kept hi hm hr
  have hne : ∀ r ∈ g.busy, g.loose ≠ some r.page := fun r hr =>
    (hi.leaves.busy_back r hr).2.2.2.2
  have same : ∀ {t : Pfn} {pg : VmPage}, pg.use = c.use t → ∀ q,
      (c.setPage t pg).use q = .anonPrivate → c.use q = .anonPrivate := fun hpu q hq => by
    rwa [Core.setPage_use_of hpu] at hq
  cases hm with
  | bump t isNew =>
    exact h.congr hslot (fun _ => id) (fun _ _ _ => le_rfl) fun p hp hu hun =>
      ⟨hp, same (VmPage.bump_use isNew (c.pages t)) p hu, hun, le_rfl⟩
  | drop t =>
    exact h.congr hslot (fun _ => id) (fun _ _ _ => le_rfl) fun p hp hu hun =>
      ⟨hp, same (VmPage.drop_use (c.pages t)) p hu, hun, le_rfl⟩
  | decNonzero t =>
    exact h.congr hslot (fun _ => id) (fun _ _ _ => le_rfl) fun p hp hu hun =>
      ⟨hp, same (by dsimp only [Core.use]) p hu, hun, le_rfl⟩
  | evict e q ptr p wr hq he hw hv hd =>
    have hl := hi.dirs.level_of_walks hw
    have hf : (c.entry ptr).frame = some p.val := by rw [hv]; rfl
    refine h.congr hslot (fun _ => id) (fun r hr _ => ?_) fun p' hp hu hun => ⟨hp, hu, hun, ?_⟩
    · exact (incAt_ne (hi.leaves.page_ne hl hf hr)).le
    · refine (incAt_ne fun e => ?_).le
      rw [e] at hp
      exact hi.leaves.loose_ne hl hf hun hp
  | enterLeaf => exact ⟨h.held, hslot, h.loose⟩
  | enterTable => exact ⟨h.held, hslot, h.loose⟩
  | mapZero =>
    exact h.congr hslot (fun _ => id) (fun _ _ _ => decAt_le _ _ _) fun _ _ _ hun =>
      absurd hun (Option.some_ne_none _)
  | setReferent =>
    exact h.congr hslot (fun _ => id) (fun _ _ _ => le_rfl) fun _ e => absurd e (Option.some_ne_none _).symm
  | mapSoft =>
    exact h.congr hslot (fun _ => id) (fun _ _ _ => decAt_le _ _ _) fun p hp hu hun =>
      ⟨hp, hu, hun, decAt_le _ _ _⟩
  | mapBusy ptr p state slot vaddr hl hw he hp hu hr ha hh =>
    have h1 := h.loose p hp hu hr
    have hzero : decAt g.held p p = 0 := by
      rw [decAt_apply, if_pos rfl]
      omega
    refine ⟨fun r hr hF => ?_, fun r hr => ?_, fun _ e => absurd e (Option.some_ne_none _).symm⟩
    · rcases List.mem_append.1 hr with hr | hr
      · have := decAt_le g.held p r.page
        have := h.held r hr hF
        simp only
        omega
      · obtain rfl := List.mem_singleton.1 hr
        exact hzero
    · rcases List.mem_append.1 hr with hr | hr
      · exact hslot r hr
      · obtain rfl := List.mem_singleton.1 hr
        have hrc := hi.frames.loose p hp hu (by assumption)
        have hd := (hi.slots.loose p hp hu).resolve_left (by omega)
        rw [Core.setWord_pages, Core.setReferent, Core.setPage_pages, if_pos rfl]
        exact hd
  | writeable => exact ⟨h.held, hslot, h.loose⟩
  | finish r hr =>
    exact h.congr hslot (fun _ => List.mem_of_mem_erase) (fun _ _ _ => le_rfl) fun p hp hu hun =>
      ⟨hp, hu, hun, le_rfl⟩
  | unmap ptr p hl he h0 =>
    refine ⟨h.held, hslot, fun q hq hu hun => ?_⟩
    obtain rfl : p = q := Option.some.inj hq
    have := hi.frames.trans ptr p hl he
    simp only
    omega
  | pick p hu =>
    refine ⟨h.held, hslot, fun q hq hu' _ => ?_⟩
    obtain rfl : p = q := Option.some.inj hq
    rw [hu] at hu'
    cases hu'
  | handOut p use hu h0 hp hr hf =>
    have h0' : g.held p = 0 := by
      rcases hu with hu | hu
      · by_contra hpos
        have := hi.frames.held_frame p (by omega)
        rw [hu] at this
        cases this
      · have := hi.frames.loose p hp hu hr
        omega
    refine ⟨fun r hrb hF => ?_, hslot, fun q hq hu' _ => ?_⟩
    · have hrp : r.page ≠ p := fun e => hne r hrb (by rw [hp, e])
      have := h.held r hrb hF
      simp only [Ledger.handedOut]
      split
      · rw [incAt_ne hrp]
        exact this
      · exact this
    · simp only [Ledger.handedOut] at hq ⊢
      split at hq
      · obtain rfl : p = q := Option.some.inj hq
        split
        · rw [incAt_apply, if_pos rfl]
          omega
        · omega
      · cases hq
  | initTable p ptr hl hp =>
    exact h.congr hslot (fun _ => id) (fun _ _ _ => le_rfl) fun q hq hu hun =>
      ⟨hq, same (by exact VmPage.bump_use true (c.pages p)) q hu, hun, le_rfl⟩
  | attach =>
    exact h.congr hslot (fun _ => id) (fun _ _ _ => le_rfl) fun _ e => absurd e (Option.some_ne_none _).symm
  | delete t ptr hl h₃ hg =>
    refine h.congr hslot (fun _ => id) (fun _ _ _ => le_rfl) fun q hq => ?_
    exact absurd hq (by rw [hg.loose]; exact (Option.some_ne_none _).symm)
  | free t hu =>
    refine h.congr hslot (fun _ => id) (fun _ _ _ => le_rfl) fun q hq hu' hun => ⟨hq, ?_, hun, le_rfl⟩
    rw [Core.setPage_use] at hu'
    split at hu'
    · cases hu'
    · exact hu'
  | hold p hu hp hb =>
    refine h.congr hslot (fun _ => id) (fun r hr hF => (incAt_ne fun e => hF (hb r hr e)).le)
      fun q hq hu' hun => ⟨hq, same (by dsimp only [Core.use]) q hu', hun, (incAt_ne fun e => ?_).le⟩
    exact hp (by rw [← e]; exact hq)
  | unhold p =>
    exact h.congr hslot (fun _ => id) (fun _ _ _ => decAt_le _ _ _) fun q hq hu hun =>
      ⟨hq, same (by dsimp only [Core.use]) q hu, hun, decAt_le _ _ _⟩
  | markDirty p b =>
    exact h.congr hslot (fun _ => id) (fun _ _ _ => le_rfl) fun q hq hu hun =>
      ⟨hq, same (by dsimp only [Core.use]) q hu, hun, le_rfl⟩

theorem Reading.moves (h : Reading K.finish c g) (hi : Inv c g) (hm : Moves K c g c' g') :
    Reading K.finish c' g' :=
  (hm.invariant (P := fun d e => Inv d e ∧ Reading K.finish d e) ⟨hi, h⟩ fun _ _ _ _ hp hm =>
    ⟨hp.1.move hm, hp.2.move hp.1 hm⟩).2

theorem Reading.of_settled {F : Swapping → Prop} (hg : g.Settled)
    (held : ∀ r ∈ g.busy, ¬ F r → g.held r.page = 0)
    (slot : ∀ r ∈ g.busy, (c.pages r.page).drumslot = noSlot) : Reading F c g :=
  ⟨held, slot, fun p hp => by rw [hg.loose] at hp; cases hp⟩

/-- **A page that is being read** is held by nobody and has no slot, in every reachable state. -/
theorem reading_layer (K : Guard) :
    Layer K fun x g => Reading (fun _ => False) x.vm.core g where
  boot c s hs := .of_settled Ledger.zero_settled nofun nofun
  turn x g x' g' hx h ht hx' := by
    cases ht with
    | moves F hF hm hp hs hr =>
      have hmoved := Reading.moves (K := x.guard K F) ⟨fun r hr _ => h.held r hr id, h.slot, h.loose⟩
        hx.good.inv hm
      refine .of_settled hx'.settled (fun r hr _ => hmoved.held r hr fun hf => ?_) hmoved.slot
      obtain ⟨-, -, -, -, hne⟩ := hF r hf
      rw [hx'.busy] at hr
      obtain ⟨sw, hs, rfl⟩ := List.mem_map.1 hr
      exact hne sw hs rfl
    | pick p offset hv hg h₀ hp hs hr =>
      subst hg
      obtain ⟨slot, pf, -, hcore, -⟩ := hv.core
      have hne : ∀ r ∈ g.busy, r.page ≠ p := fun r hr e => by
        have := hx.good.inv.frames.busy r hr
        have h0 := hv.refcnt
        rw [e] at this
        change (x.vm.pages p).refcnt = _ at this
        omega
      refine .of_settled hx'.settled (fun r hr hF => ?_) fun r hr => ?_
      · exact (incAt_ne (hne r hr)).trans (h.held r hr hF)
      · rw [hcore]
        change ((x.vm.core.setPage p _).pages r.page).drumslot = noSlot
        rw [Core.setPage_pages, if_neg (hne r hr)]
        exact h.slot r hr
    | send p hv hg h₀ hp hs hr =>
      subst hg
      refine .of_settled hx.settled h.held fun r hr => ?_
      rw [hv, pwritePage_core]
      split <;> exact h.slot r hr
    | read k sw hk hw hv hg hp hs hr =>
      subst hg
      refine .of_settled hx.settled h.held fun r hr => ?_
      change ((x'.vm.pages r.page).drumslot) = noSlot
      rw [hv, preadPage_pages]
      exact h.slot r hr
    | store vaddr data hv hg hp hr =>
      subst hg
      obtain ⟨ptr, p, -, -, hcore⟩ := hv.vm
      refine .of_settled hx.settled h.held fun r hr => ?_
      rw [hcore]
      exact h.slot r hr

end VmmSim
