import VmmSim.MoveDirs

/-!
# Moves and the pages of data
-/

namespace VmmSim

open Lib

variable {c c' : Core} {g g' : Ledger}

namespace Leaves

/-- Two entries that keep the same page in core are one. -/
theorem frame_unique (h : Leaves c g) {ptr ptr' : PtePtr} {n : ℕ} (hl : c.level ptr.1 = 1)
    (hl' : c.level ptr'.1 = 1) (he : (c.entry ptr).frame = some n)
    (he' : (c.entry ptr').frame = some n) : ptr = ptr' := by
  obtain ⟨p, rfl, -, hp⟩ := h.frame ptr n hl he
  obtain ⟨p', hpp, -, hp'⟩ := h.frame ptr' _ hl' he'
  obtain rfl := Fin.ext hpp
  rcases hp with ⟨hr, hn⟩ | ⟨hr, hn⟩ <;> rcases hp' with ⟨hr', hn'⟩ | ⟨hr', hn'⟩
  · exact ptePaddr_injective (hr.symm.trans hr')
  · exact absurd hn' hn
  · exact absurd hn hn'
  · exact Option.some.inj (hr.symm.trans hr')

/-- The page that an entry keeps in core. -/
theorem frame_page (h : Leaves c g) {ptr : PtePtr} {p : Pfn} (hl : c.level ptr.1 = 1)
    (he : (c.entry ptr).frame = some p.val) : c.use p = .anonPrivate ∧
      ((c.pages p).referentPte = ptePaddr ptr ∧ g.loose ≠ some p ∨
        g.unref = some ptr ∧ g.loose = some p) := by
  obtain ⟨q, hq, hu, hr⟩ := h.frame ptr _ hl he
  obtain rfl := Fin.ext hq
  exact ⟨hu, hr⟩

/-- The page of a swap-in is not the page of a valid or transition entry. -/
theorem busy_page_ne (h : Leaves c g) {r : Swapping} (hr : r ∈ g.busy) {ptr : PtePtr} {p : Pfn}
    (hl : c.level ptr.1 = 1) (he : (c.entry ptr).frame = some p.val) : r.page ≠ p := by
  rintro rfl
  obtain ⟨-, ⟨a, ha⟩, -, href, hn⟩ := h.busy_back r hr
  rcases (h.frame_page hl he).2 with ⟨hr', -⟩ | ⟨-, hn'⟩
  · obtain rfl := ptePaddr_injective (href.symm.trans hr')
    rw [ha] at he
    cases he
  · exact hn hn'

theorem busy_unique (h : Leaves c g) {r r' : Swapping} (hr : r ∈ g.busy) (hr' : r' ∈ g.busy)
    (he : r.pte = r'.pte) : r = r' :=
  List.inj_on_of_nodup_map h.busy_nodup hr hr' he

/-- Two swap-ins read different pages. -/
theorem busy_page_unique (h : Leaves c g) {r r' : Swapping} (hr : r ∈ g.busy)
    (hr' : r' ∈ g.busy) (he : r.page = r'.page) : r = r' := by
  refine h.busy_unique hr hr' (ptePaddr_injective ?_)
  rw [← (h.busy_back r hr).2.2.2.1, ← (h.busy_back r' hr').2.2.2.1, he]

/-- Changes that the pages of data do not depend on. -/
theorem congr (h : Leaves c g) (hl1 : ∀ p, c'.level p = 1 ↔ c.level p = 1)
    (hu : ∀ p, c'.use p = .anonPrivate ↔ c.use p = .anonPrivate)
    (hr : ∀ p, c.use p = .anonPrivate → (c'.pages p).referentPte = (c.pages p).referentPte)
    (he : ∀ ptr : PtePtr, c.level ptr.1 = 1 → c'.entry ptr = c.entry ptr)
    (hb : g'.busy = g.busy) (hn : g'.unref = g.unref)
    (hl : ∀ p, c.use p = .anonPrivate → (g'.loose = some p ↔ g.loose = some p)) :
    Leaves c' g' := by
  obtain ⟨h₁, h₂, h₃, h₄, h₅, h₆⟩ := h
  refine ⟨fun ptr n h1 hf => ?_, fun ptr a h1 ha => ?_, fun ptr h1 => ?_, fun p hp hnl => ?_,
    fun r hr' => ?_, by rw [hb]; exact h₆⟩
  · rw [hl1] at h1
    rw [he ptr h1] at hf
    obtain ⟨p, rfl, hpu, hp⟩ := h₁ ptr n h1 hf
    refine ⟨p, rfl, (hu p).2 hpu, ?_⟩
    rw [hr p hpu, hn, ne_eq, hl p hpu]
    exact hp
  · rw [hl1] at h1
    rw [he ptr h1] at ha
    rw [hb]
    exact h₂ ptr a h1 ha
  · rw [hl1] at h1
    rw [he ptr h1]
    exact h₃ ptr h1
  · rw [hu] at hp
    rw [ne_eq, hl p hp] at hnl
    obtain ⟨ptr, h1, hpr, hpe⟩ := h₄ p hp hnl
    exact ⟨ptr, (hl1 _).2 h1, by rw [hr p hp]; exact hpr, by rw [he ptr h1, hb]; exact hpe⟩
  · rw [hb] at hr'
    obtain ⟨h1, ha, hu', hpr, hpn⟩ := h₅ r hr'
    exact ⟨(hl1 _).2 h1, by rw [he r.pte h1]; exact ha, (hu _).2 hu', by rw [hr _ hu']; exact hpr,
      by rw [ne_eq, hl _ hu']; exact hpn⟩

/-- Other parts of the core and the ledger do not matter. -/
theorem of_eq (h : Leaves c g) (hp : c'.pages = c.pages) (hm : c'.mem = c.mem)
    (hb : g'.busy = g.busy) (hn : g'.unref = g.unref) (hl : g'.loose = g.loose) : Leaves c' g' :=
  h.congr (fun _ => by rw [Core.level, Core.use, hp]; rfl) (fun _ => by rw [Core.use, hp]; rfl)
    (fun _ _ => by rw [hp]) (fun _ _ => by rw [Core.entry, hm]; rfl) hb hn (fun _ _ => by rw [hl])

/-- Assignments to pages that keep their use, and their address if they are pages of data. -/
theorem setPage (h : Leaves c g) {p : Pfn} {pg : VmPage} (hu : pg.use = c.use p)
    (hr : c.use p = .anonPrivate → pg.referentPte = (c.pages p).referentPte) :
    Leaves (c.setPage p pg) g := by
  refine h.congr (fun q => by rw [Core.setPage_level_of hu])
    (fun q => by rw [Core.setPage_use_of hu]) (fun q hq => ?_) (fun _ _ => rfl) rfl rfl (fun _ _ => Iff.rfl)
  rw [Core.setPage_pages]
  split
  · subst_vars
    exact hr hq
  · rfl

/-- A level 1 entry that keeps the same page in core. -/
theorem setWord_frame (h : Leaves c g) {ptr : PtePtr} {w : Word} {n : ℕ}
    (he : (c.entry ptr).frame = some n) (hw : (view w).frame = some n) :
    Leaves (c.setWord ptr w) g := by
  have hfr : ∀ q : PtePtr, ((c.setWord ptr w).entry q).frame = (c.entry q).frame := fun q => by
    by_cases hq : q = ptr
    · rw [hq, Core.setWord_entry_self, hw, he]
    · rw [Core.setWord_entry_ne _ _ _ _ hq]
  have hent : ∀ q : PtePtr, (c.setWord ptr w).entry q = c.entry q ∨
      ((c.setWord ptr w).entry q).frame = some n := fun q => by
    by_cases hq : q = ptr
    · exact .inr (by rw [hq, Core.setWord_entry_self, hw])
    · exact .inl (Core.setWord_entry_ne _ _ _ _ hq)
  obtain ⟨h₁, h₂, h₃, h₄, h₅, h₆⟩ := h
  refine ⟨fun q m h1 hf => ?_, fun q a h1 ha => ?_, fun q h1 => ?_, fun p hp hnl => ?_,
    fun r hr => ?_, h₆⟩
  · rw [hfr] at hf
    exact h₁ q m h1 hf
  · rcases hent q with hq | hq
    · exact h₂ q a h1 (by rw [← hq]; exact ha)
    · rw [ha] at hq
      cases hq
  · rcases hent q with hq | hq
    · rw [hq]
      exact h₃ q h1
    · intro hb
      rw [hb] at hq
      cases hq
  · obtain ⟨q, hl1, hpr, hpe⟩ := h₄ p hp hnl
    exact ⟨q, hl1, hpr, by rw [hfr]; exact hpe⟩
  · obtain ⟨h1, ⟨a, ha⟩, hu', hpr, hpn⟩ := h₅ r hr
    refine ⟨h1, ⟨a, ?_⟩, hu', hpr, hpn⟩
    rw [Core.setWord_entry_ne _ _ _ _ ?_]
    · exact ha
    · rintro rfl
      rw [ha] at he
      cases he

/-- A zero entry maps the loose page. -/
theorem mapZero (h : Leaves c g) {ptr : PtePtr} {p : Pfn} {wr : Bool}
    (he : c.entry ptr = .zero) (hp : g.loose = some p) (hu : c.use p = .anonPrivate)
    (hr : g.unref = none) (hb : g'.busy = g.busy) (hl : g'.loose = g.loose)
    (hn : g'.unref = some ptr) : Leaves (c.setWord ptr (vmpPteHwCreate p.val wr)) g' := by
  have hw := view_hwCreate_pfn p wr
  refine ⟨fun q m h1 hf => ?_, fun q a h1 ha => ?_, fun q h1 => ?_, fun q hq hnl => ?_,
    fun r hr' => ?_, hb ▸ h.busy_nodup⟩
  · have := h.frame q m h1
    grind [Core.setWord_entry, Core.setWord_use, Core.setWord_pages, Pte.frame]
  · have := h.busy q a h1
    grind [Core.setWord_entry]
  · have := h.ok q h1
    grind [Core.setWord_entry]
  · obtain ⟨r, hr1, hr2, hr3⟩ := h.frame_back q hq (hl ▸ hnl)
    refine ⟨r, hr1, hr2, ?_⟩
    grind [Core.setWord_entry, Pte.frame]
  · obtain ⟨h1, ⟨a, ha⟩, hu', hpr, hpn⟩ := h.busy_back r (hb ▸ hr')
    refine ⟨h1, ⟨a, ?_⟩, hu', hpr, hl ▸ hpn⟩
    grind [Core.setWord_entry]

/-- The loose page gets the address of the entry that maps it. -/
theorem setReferent (h : Leaves c g) {ptr : PtePtr} {p : Pfn} (hl : c.level ptr.1 = 1)
    (he : (c.entry ptr).frame = some p.val) (hp : g.loose = some p) (hr : g.unref = some ptr)
    (hb : g'.busy = g.busy) (hl' : g'.loose = none) : Leaves (c.setReferent p ptr) g' := by
  refine ⟨fun q m h1 hf => ?_, fun q a h1 ha => ?_, fun q h1 => ?_, fun q hq hnl => ?_,
    fun r hr' => ?_, hb ▸ h.busy_nodup⟩
  · rw [Core.setReferent_level] at h1
    obtain ⟨p', hp', hu', hx⟩ := h.frame q m h1 hf
    refine ⟨p', hp', by rw [Core.setReferent_use]; exact hu', .inl ⟨?_, by simp [hl']⟩⟩
    rw [Core.setReferent_referentPte]
    grind
  · rw [Core.setReferent_level] at h1
    rw [hb]
    exact h.busy q a h1 ha
  · rw [Core.setReferent_level] at h1
    exact h.ok q h1
  · rw [Core.setReferent_use] at hq
    simp only [Core.setReferent_level, Core.setReferent_referentPte, Core.setReferent_entry, hb]
    by_cases hqp : q = p
    · exact ⟨ptr, hl, if_pos hqp, .inl (hqp ▸ he)⟩
    · obtain ⟨r, hr1, hr2, hr3⟩ := h.frame_back q hq (by grind)
      exact ⟨r, hr1, (if_neg hqp).trans hr2, hr3⟩
  · obtain ⟨h1, ha, hu', hpr, hpn⟩ := h.busy_back r (hb ▸ hr')
    have hne : r.page ≠ p := fun hx => hpn (hx ▸ hp)
    simp only [Core.setReferent_level, Core.setReferent_referentPte, Core.setReferent_entry,
      Core.setReferent_use, hl']
    exact ⟨h1, ha, hu', (if_neg hne).trans hpr, by simp⟩

/-- A swap entry becomes busy, for the loose page. -/
theorem mapBusy (h : Leaves c g) {ptr : PtePtr} {p : Pfn} {state slot vaddr : ℕ}
    (hl : c.level ptr.1 = 1) (he : c.entry ptr = .swap slot) (hp : g.loose = some p)
    (hu : c.use p = .anonPrivate) (hr : g.unref = none)
    (hb : g'.busy = g.busy ++ [⟨vaddr, ptr, p⟩]) (hl' : g'.loose = none) :
    Leaves ((c.setReferent p ptr).setWord ptr (vmpPteBusyCreate state)) g' := by
  obtain ⟨b, hw⟩ := view_busyCreate_busy state
  have hnot : ∀ r ∈ g.busy, r.pte ≠ ptr := by
    rintro r hr rfl
    obtain ⟨-, ⟨a, ha⟩, -⟩ := h.busy_back r hr
    rw [he] at ha
    cases ha
  refine ⟨fun q m h1 hf => ?_, fun q a h1 ha => ?_, fun q h1 => ?_, fun q hq hnl => ?_,
    fun r hr' => ?_, ?_⟩
  · simp only [Core.setWord_level, Core.setReferent_level, Core.setWord_use, Core.setReferent_use,
      Core.setWord_pages, Core.setReferent_referentPte] at h1 ⊢
    have hq : q ≠ ptr := by
      rintro rfl
      rw [Core.setWord_entry_self, hw] at hf
      cases hf
    rw [Core.setWord_entry_ne _ _ _ _ hq] at hf
    obtain ⟨p', hp', hu', hx⟩ := h.frame q m h1 hf
    refine ⟨p', hp', hu', .inl ⟨?_, by simp [hl']⟩⟩
    grind
  · simp only [Core.setWord_level, Core.setReferent_level] at h1
    by_cases hq : q = ptr
    · exact ⟨⟨vaddr, ptr, p⟩, by simp [hb], hq.symm⟩
    · rw [Core.setWord_entry_ne _ _ _ _ hq] at ha
      obtain ⟨r, hr, hx⟩ := h.busy q a h1 ha
      exact ⟨r, by simp [hb, hr], hx⟩
  · simp only [Core.setWord_level, Core.setReferent_level] at h1
    have := h.ok q h1
    grind [Core.setWord_entry, Core.setReferent_entry]
  · simp only [Core.setWord_use, Core.setReferent_use] at hq
    simp only [Core.setWord_level, Core.setReferent_level, Core.setWord_pages,
      Core.setReferent_referentPte]
    by_cases hqp : q = p
    · exact ⟨ptr, hl, if_pos hqp, .inr ⟨⟨vaddr, ptr, p⟩, by simp [hb], rfl, hqp.symm⟩⟩
    · obtain ⟨r, hr1, hr2, hr3⟩ := h.frame_back q hq (by grind)
      refine ⟨r, hr1, (if_neg hqp).trans hr2, ?_⟩
      rcases hr3 with hf | ⟨r', hr', hx⟩
      · have hne : r ≠ ptr := by
          rintro rfl
          rw [he] at hf
          cases hf
        exact .inl (by rw [Core.setWord_entry_ne _ _ _ _ hne]; exact hf)
      · exact .inr ⟨r', by simp [hb, hr'], hx⟩
  · simp only [Core.setWord_level, Core.setReferent_level, Core.setWord_use, Core.setReferent_use,
      Core.setWord_pages, Core.setReferent_referentPte, hl']
    rw [hb] at hr'
    rcases List.mem_append.1 hr' with hr' | hr'
    · obtain ⟨h1, ⟨a, ha⟩, hu', hpr, hpn⟩ := h.busy_back r hr'
      have hne : r.page ≠ p := fun hx => hpn (hx ▸ hp)
      exact ⟨h1, ⟨a, by rw [Core.setWord_entry_ne _ _ _ _ (hnot r hr')]; exact ha⟩, hu',
        (if_neg hne).trans hpr, by simp⟩
    · obtain rfl := List.mem_singleton.1 hr'
      exact ⟨hl, ⟨b, by rw [Core.setWord_entry_self]; exact hw⟩, hu, if_pos rfl, by simp⟩
  · rw [hb, List.map_append, List.nodup_append]
    exact ⟨h.busy_nodup, by simp, by simpa using fun r hr => hnot r hr⟩

/-- A busy entry becomes valid. -/
theorem finish (h : Leaves c g) {r : Swapping} (hr : r ∈ g.busy) (hb : g'.busy = g.busy.erase r)
    (hl : g'.loose = g.loose) (hn : g'.unref = g.unref) :
    Leaves (c.setWord r.pte (vmpPteHwCreate r.page.val false)) g' := by
  have hw := view_hwCreate_pfn r.page false
  obtain ⟨hr1, ⟨b, hb'⟩, hru, hrr, hrn⟩ := h.busy_back r hr
  have hother : ∀ r', r' ∈ g'.busy ↔ r' ∈ g.busy ∧ r'.pte ≠ r.pte := fun r' => by
    rw [hb, (List.Nodup.of_map _ h.busy_nodup).mem_erase_iff, and_comm]
    exact and_congr_right fun hr' =>
      not_congr ⟨congrArg Swapping.pte, fun e => h.busy_unique hr' hr e⟩
  refine ⟨fun q m h1 hf => ?_, fun q a h1 ha => ?_, fun q h1 => ?_, fun q hq hnl => ?_,
    fun r' hr' => ?_, ?_⟩
  · by_cases hq : q = r.pte
    · rw [hq, Core.setWord_entry_self, hw] at hf
      exact ⟨r.page, (Option.some.inj hf).symm, hru, .inl ⟨by rw [hq]; exact hrr,
        by rw [hl]; exact hrn⟩⟩
    · rw [Core.setWord_entry_ne _ _ _ _ hq] at hf
      rw [hl, hn]
      exact h.frame q m h1 hf
  · by_cases hq : q = r.pte
    · rw [hq, Core.setWord_entry_self, hw] at ha
      cases ha
    · rw [Core.setWord_entry_ne _ _ _ _ hq] at ha
      obtain ⟨r', hr', hx⟩ := h.busy q a h1 ha
      exact ⟨r', (hother r').2 ⟨hr', by rw [hx]; exact hq⟩, hx⟩
  · have := h.ok q h1
    grind [Core.setWord_entry]
  · obtain ⟨ptr, hp1, hp2, hp3⟩ := h.frame_back q hq (hl ▸ hnl)
    refine ⟨ptr, hp1, hp2, ?_⟩
    by_cases hpt : ptr = r.pte
    · subst hpt
      rw [Core.setWord_entry_self, hw]
      rcases hp3 with hf | ⟨r', hr', hx, rfl⟩
      · rw [hb'] at hf
        cases hf
      · rw [h.busy_unique hr' hr hx]
        exact .inl rfl
    · rw [Core.setWord_entry_ne _ _ _ _ hpt]
      refine hp3.imp_right ?_
      rintro ⟨r', hr', hx, hy⟩
      exact ⟨r', (hother r').2 ⟨hr', by rw [hx]; exact hpt⟩, hx, hy⟩
  · obtain ⟨hr', hne⟩ := (hother r').1 hr'
    obtain ⟨h1, ⟨a, ha⟩, hu', hpr, hpn⟩ := h.busy_back r' hr'
    exact ⟨h1, ⟨a, by rw [Core.setWord_entry_ne _ _ _ _ hne]; exact ha⟩, hu', hpr, hl ▸ hpn⟩
  · rw [hb]
    exact ((List.erase_sublist).map _).nodup h.busy_nodup

/-- The transition entry of a page that is being stolen becomes a swap entry, or a zero one. -/
theorem unmap (h : Leaves c g) {ptr : PtePtr} {p : Pfn} {slot : ℕ} (hl : c.level ptr.1 = 1)
    (he : c.entry ptr = .trans p.val) (hp : g.loose = none) (hb : g'.busy = g.busy)
    (hl' : g'.loose = some p) : Leaves (c.setWord ptr (vmpPteSwapCreate slot)) g' := by
  have hw : (view (vmpPteSwapCreate slot)).frame = none ∧
      (∀ a, view (vmpPteSwapCreate slot) ≠ .busy a) ∧ view (vmpPteSwapCreate slot) ≠ .bad := by
    rw [view_swapCreate]
    split <;> simp [Pte.frame]
  obtain ⟨hw₁, hw₂, hw₃⟩ := hw
  have hfp : (c.entry ptr).frame = some p.val := by rw [he]; rfl
  obtain ⟨hpu, hpr⟩ := h.frame_page hl hfp
  have hpr : (c.pages p).referentPte = ptePaddr ptr := by simpa [hp] using hpr
  refine ⟨fun q m h1 hf => ?_, fun q a h1 ha => ?_, fun q h1 => ?_, fun q hq hnl => ?_,
    fun r hr' => ?_, hb ▸ h.busy_nodup⟩
  · have hq : q ≠ ptr := by
      rintro rfl
      rw [Core.setWord_entry_self, hw₁] at hf
      cases hf
    rw [Core.setWord_entry_ne _ _ _ _ hq] at hf
    obtain ⟨p', rfl, hu', hx⟩ := h.frame q m h1 hf
    have hx : (c.pages p').referentPte = ptePaddr q := by simpa [hp] using hx
    refine ⟨p', rfl, hu', .inl ⟨hx, ?_⟩⟩
    rw [hl']
    rintro ⟨⟩
    exact hq (ptePaddr_injective (hx.symm.trans hpr))
  · by_cases hq : q = ptr
    · rw [hq, Core.setWord_entry_self] at ha
      exact absurd ha (hw₂ a)
    · rw [Core.setWord_entry_ne _ _ _ _ hq] at ha
      rw [hb]
      exact h.busy q a h1 ha
  · by_cases hq : q = ptr
    · rw [hq, Core.setWord_entry_self]
      exact hw₃
    · rw [Core.setWord_entry_ne _ _ _ _ hq]
      exact h.ok q h1
  · obtain ⟨r, hr1, hr2, hr3⟩ := h.frame_back q hq (by simp [hp])
    refine ⟨r, hr1, hr2, ?_⟩
    have hne : r ≠ ptr := by
      rintro rfl
      rcases hr3 with hf | ⟨r', hr', rfl, -⟩
      · rw [hfp] at hf
        exact hnl (hl'.trans (congrArg some (Fin.ext (Option.some.inj hf))))
      · obtain ⟨-, ⟨a, ha⟩, -⟩ := h.busy_back r' hr'
        rw [he] at ha
        cases ha
    rw [Core.setWord_entry_ne _ _ _ _ hne, hb]
    exact hr3
  · rw [hb] at hr'
    have hne := h.busy_page_ne hr' hl hfp
    obtain ⟨h1, ⟨a, ha⟩, hu', hpr', hpn⟩ := h.busy_back r hr'
    refine ⟨h1, ⟨a, ?_⟩, hu', hpr', by rw [hl']; simpa using hne.symm⟩
    rw [Core.setWord_entry_ne _ _ _ _ ?_]
    · exact ha
    · rintro rfl
      rw [he] at ha
      cases ha

/-- A loose page that no entry names is handed out. -/
theorem handOut (h : Leaves c g) {p : Pfn} {use : PageUse} (h0 : c.level p = 0)
    (hp : g.loose = some p) (hr : g.unref = none) (hb : g'.busy = g.busy)
    (hl : ∀ q, g'.loose = some q → q = p) (hl' : use = .anonPrivate → g'.loose = some p) :
    Leaves ((c.setPage p (VmPage.handedOut use)).setWords p 0) g' := by
  have huse : ∀ q, q ≠ p →
      ((c.setPage p (VmPage.handedOut use)).setWords p 0).use q = c.use q := fun q hq => by
    rw [Core.setWords_use, Core.setPage_use, if_neg hq]
  have hlv : ∀ q, q ≠ p →
      ((c.setPage p (VmPage.handedOut use)).setWords p 0).level q = c.level q := fun q hq =>
    congrArg PageUse.level (huse q hq)
  have hup : ((c.setPage p (VmPage.handedOut use)).setWords p 0).use p = use := by
    rw [Core.setWords_use, Core.setPage_use, if_pos rfl]
    rfl
  have hpg : ∀ q, q ≠ p →
      ((c.setPage p (VmPage.handedOut use)).setWords p 0).pages q = c.pages q := fun q hq =>
    (Core.setPage_pages _ _ _ _).trans (if_neg hq)
  have hen : ∀ q : PtePtr, ((c.setPage p (VmPage.handedOut use)).setWords p 0).entry q =
      if q.1 = p then .zero else c.entry q := fun q => by
    rw [Core.setWords_entry]
    split
    · exact view_zero
    · rfl
  have hnew : ∀ q : PtePtr, ((c.setPage p (VmPage.handedOut use)).setWords p 0).level q.1 = 1 →
      ((c.setPage p (VmPage.handedOut use)).setWords p 0).entry q ≠ .zero →
      q.1 ≠ p ∧ c.level q.1 = 1 ∧
        ((c.setPage p (VmPage.handedOut use)).setWords p 0).entry q = c.entry q :=
    fun q h1 hz => by
      have hq : q.1 ≠ p := fun hq => hz (by rw [hen, if_pos hq])
      exact ⟨hq, by rw [← hlv _ hq]; exact h1, by rw [hen, if_neg hq]⟩
  refine ⟨fun q m h1 hf => ?_, fun q a h1 ha => ?_, fun q h1 => ?_, fun q hq hnl => ?_,
    fun r hr' => ?_, hb ▸ h.busy_nodup⟩
  · obtain ⟨hq, h1', he⟩ := hnew q h1 (by intro hz; rw [hz] at hf; cases hf)
    rw [he] at hf
    obtain ⟨p', rfl, hu', hx⟩ := h.frame q m h1' hf
    have hx : (c.pages p').referentPte = ptePaddr q ∧ g.loose ≠ some p' := by simpa [hr] using hx
    have hne : p' ≠ p := fun e => hx.2 (e ▸ hp)
    exact ⟨p', rfl, by rw [huse _ hne]; exact hu', .inl ⟨by rw [hpg _ hne]; exact hx.1,
      fun e => hne (hl _ e)⟩⟩
  · obtain ⟨hq, h1', he⟩ := hnew q h1 (by rw [ha]; simp)
    rw [he] at ha
    rw [hb]
    exact h.busy q a h1' ha
  · rw [hen]
    split
    · simp
    · rename_i hq
      exact h.ok q (by rw [← hlv _ hq]; exact h1)
  · have hqp : q ≠ p := by
      rintro rfl
      rw [hup] at hq
      exact hnl (hl' hq)
    rw [huse q hqp] at hq
    obtain ⟨r, hr1, hr2, hr3⟩ := h.frame_back q hq
      fun e => hqp (Option.some.inj (e.symm.trans hp))
    have hne : r.1 ≠ p := by
      rintro e
      rw [e, h0] at hr1
      cases hr1
    exact ⟨r, by rw [hlv _ hne]; exact hr1, by rw [hpg q hqp]; exact hr2,
      by rw [hen, if_neg hne, hb]; exact hr3⟩
  · obtain ⟨h1, ⟨a, ha⟩, hu', hpr, hpn⟩ := h.busy_back r (hb ▸ hr')
    have hne : r.pte.1 ≠ p := by
      rintro e
      rw [e, h0] at h1
      cases h1
    have hnp : r.page ≠ p := fun e => hpn (e ▸ hp)
    exact ⟨by rw [hlv _ hne]; exact h1, ⟨a, by rw [hen, if_neg hne]; exact ha⟩,
      by rw [huse _ hnp]; exact hu', by rw [hpg _ hnp]; exact hpr, fun e => hnp (hl _ e)⟩

/-- An empty table is deleted. -/
theorem delete (h : Leaves c g) {t : Pfn} {ptr : PtePtr} (hl : 1 ≤ c.level t)
    (hd : 2 ≤ c.level ptr.1) (hempty : ∀ i, c.entry (t, i) = .zero) :
    Leaves ((c.setPage t { c.pages t with use := .deleted, nonzeroPtes := 0 }).setWord ptr
      vmpPteZeroCreate) g := by
  have huse : ∀ q, ((c.setPage t { c.pages t with
      use := .deleted, nonzeroPtes := 0 }).setWord ptr vmpPteZeroCreate).use q =
        if q = t then .deleted else c.use q := fun q => by
    rw [Core.setWord_use, Core.setPage_use]
  have hlv : ∀ q, ((c.setPage t { c.pages t with
      use := .deleted, nonzeroPtes := 0 }).setWord ptr vmpPteZeroCreate).level q = 1 ↔
        q ≠ t ∧ c.level q = 1 := fun q => by
    rw [Core.level, huse]
    by_cases hq : q = t
    · simp [hq, PageUse.level]
    · simp [hq, Core.level]
  have hpu : ∀ q, c.use q = .anonPrivate → q ≠ t := by
    rintro q hq rfl
    rw [c.level_of_plain (.inr hq)] at hl
    omega
  have hpg : ∀ q, q ≠ t → ((c.setPage t { c.pages t with
      use := .deleted, nonzeroPtes := 0 }).setWord ptr vmpPteZeroCreate).pages q = c.pages q :=
    fun q hq => (Core.setPage_pages _ _ _ _).trans (if_neg hq)
  have hen : ∀ q : PtePtr, c.level q.1 = 1 → ((c.setPage t { c.pages t with
      use := .deleted, nonzeroPtes := 0 }).setWord ptr vmpPteZeroCreate).entry q = c.entry q :=
    fun q hq => (Core.setWord_entry_ne _ _ _ _ (by rintro rfl; omega))
  have htab : ∀ q : PtePtr, c.entry q ≠ .zero → q.1 ≠ t := by
    rintro ⟨q, i⟩ hq rfl
    exact hq (hempty i)
  refine ⟨fun q m h1 hf => ?_, fun q a h1 ha => ?_, fun q h1 => ?_, fun q hq hnl => ?_,
    fun r hr' => ?_, h.busy_nodup⟩
  · rw [hlv] at h1
    rw [hen q h1.2] at hf
    obtain ⟨p', rfl, hu', hx⟩ := h.frame q m h1.2 hf
    exact ⟨p', rfl, by rw [huse, if_neg (hpu _ hu')]; exact hu',
      by rw [hpg _ (hpu _ hu')]; exact hx⟩
  · rw [hlv] at h1
    rw [hen q h1.2] at ha
    exact h.busy q a h1.2 ha
  · rw [hlv] at h1
    rw [hen q h1.2]
    exact h.ok q h1.2
  · rw [huse] at hq
    have hqt : q ≠ t := by
      rintro rfl
      simp at hq
    rw [if_neg hqt] at hq
    obtain ⟨r, hr1, hr2, hr3⟩ := h.frame_back q hq hnl
    refine ⟨r, (hlv _).2 ⟨htab r fun hz => ?_, hr1⟩, by rw [hpg q hqt]; exact hr2,
      by rw [hen r hr1]; exact hr3⟩
    rcases hr3 with hf | ⟨r', hr', rfl, -⟩
    · rw [hz] at hf
      cases hf
    · obtain ⟨-, ⟨a, ha⟩, -⟩ := h.busy_back r' hr'
      rw [hz] at ha
      cases ha
  · obtain ⟨h1, ⟨a, ha⟩, hu', hpr, hpn⟩ := h.busy_back r hr'
    refine ⟨(hlv _).2 ⟨htab r.pte (by rw [ha]; simp), h1⟩, ⟨a, by rw [hen _ h1]; exact ha⟩,
      by rw [huse, if_neg (hpu _ hu')]; exact hu', by rw [hpg _ (hpu _ hu')]; exact hpr, hpn⟩

end Leaves

end VmmSim
