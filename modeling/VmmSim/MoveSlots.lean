import VmmSim.MoveMirror

/-!
# Moves and the slots of the pagefile

The moves against `Slots`: slot 0 is free, or one page has it, or it was lost with the page.
-/

namespace VmmSim

open Lib

variable {c c' : Core} {g g' : Ledger}

theorem sum_incAt (f : Pfn → ℕ) (p : Pfn) : ∑ q, incAt f p q = (∑ q, f q) + 1 := by
  have : incAt f p = fun q => f q + if q = p then 1 else 0 := by
    funext q
    rw [incAt_apply]
    split <;> simp_all
  rw [this, Finset.sum_add_distrib]
  simp

namespace Slots

/-- Changes that the slots do not depend on. -/
theorem congr (h : Slots c g) (hpf : c'.pagefile = c.pagefile)
    (hr : ∀ p, c'.use p = .anonPrivate → (c'.pages p).drumslot < 2 ^ 52 ∨
      (c'.pages p).drumslot = noSlot)
    (hl : ∀ p, g'.loose = some p → c'.use p = .anonPrivate →
      (c'.pages p).refcnt = 0 ∨ (c'.pages p).drumslot = noSlot)
    (hz : ∀ p, c'.HasSlotZero g' p ↔ c.HasSlotZero g p) (gd : g'.drift = g.drift) :
    Slots c' g' := by
  refine ⟨by rw [hpf]; exact h.total, by rw [hpf]; exact h.bitmap, hr, hl, ?_⟩
  rw [hpf, gd, ← h.zero]
  congr 2
  ext p
  simp [hz]

/-- Other parts of the core and the ledger do not matter. -/
theorem of_eq (h : Slots c g) (hp : c'.pages = c.pages) (hpf : c'.pagefile = c.pagefile)
    (gd : g'.drift = g.drift) (gl : g'.loose = g.loose) : Slots c' g' := by
  have huse : ∀ p, c'.use p = c.use p := fun p => by rw [Core.use, hp]; rfl
  refine h.congr hpf (fun p => ?_) (fun p => ?_) (fun p => ?_) gd
  · rw [huse, hp]
    exact h.range p
  · rw [gl, huse, hp]
    exact h.loose p
  · rw [Core.HasSlotZero, huse, hp, gl]
    rfl

/-- Assignments to a page that keep its use and its slot. -/
theorem setPage (h : Slots c g) {p : Pfn} {pg : VmPage} (hu : pg.use = c.use p)
    (hs : pg.drumslot = (c.pages p).drumslot)
    (hl : g.loose = some p → c.use p = .anonPrivate → pg.refcnt = 0 ∨ pg.drumslot = noSlot) :
    Slots (c.setPage p pg) g := by
  have huse := Core.setPage_use_of hu
  have hsl : ∀ q, ((c.setPage p pg).pages q).drumslot = (c.pages q).drumslot := fun q => by
    rw [Core.setPage_pages]
    split
    · rw [hs, ‹q = p›]
    · rfl
  refine h.congr rfl (fun q hq => ?_) (fun q hq hqu => ?_) (fun q => ?_) rfl
  · rw [huse] at hq
    rw [hsl]
    exact h.range q hq
  · rw [huse] at hqu
    rw [Core.setPage_pages]
    split
    · subst_vars
      exact hl hq hqu
    · exact h.loose q hq hqu
  · rw [Core.HasSlotZero, huse, hsl]
    rfl

/-- Changes of the ledger in which no page of data stops being loose, or one without slot 0. -/
theorem setLedger (h : Slots c g) {g' : Ledger} (gd : g'.drift = g.drift)
    (hl : ∀ p, c.use p = .anonPrivate → g'.loose = some p → g.loose = some p)
    (hl' : ∀ p, c.use p = .anonPrivate → g.loose = some p → g'.loose = some p ∨
      (c.pages p).drumslot % 2 ^ 61 ≠ 0) : Slots c g' := by
  refine h.congr rfl h.range (fun p hp hu => h.loose p (hl p hu hp) hu) (fun p => ?_) gd
  refine and_congr_right fun hu => ?_
  constructor
  · rintro ⟨hn, hz⟩
    refine ⟨fun e => ?_, hz⟩
    rcases hl' p hu e with e' | e'
    · exact hn e'
    · exact e' hz
  · rintro ⟨hn, hz⟩
    exact ⟨fun e => hn (hl p hu e), hz⟩

/-- A page that is being stolen gives up its slot; slot 0 is lost. -/
theorem unmap (h : Slots c g) {ptr : PtePtr} {p : Pfn} {w : Word} (hu : c.use p = .anonPrivate)
    (h0 : (c.pages p).refcnt = 0) (hp : g.loose = none) {g' : Ledger}
    (gd : g'.drift = if (c.pages p).drumslot % 2 ^ 61 = 0 then incAt g.drift ptr.1 else g.drift)
    (gl : g'.loose = some p) : Slots (c.setWord ptr w) g' := by
  have hl : ∀ q, g'.loose = some q → (c.pages q).refcnt = 0 ∨
      (c.pages q).drumslot = noSlot := fun q hq => by
    obtain rfl := Option.some.inj (gl.symm.trans hq)
    exact .inl h0
  by_cases hz : (c.pages p).drumslot % 2 ^ 61 = 0
  · rw [if_pos hz] at gd
    refine ⟨h.total, h.bitmap, h.range, fun q hq _ => hl q hq, ?_⟩
    have hmem : p ∈ Finset.univ.filter (c.HasSlotZero g) :=
      Finset.mem_filter.2 ⟨Finset.mem_univ p, hu, by simp [hp], hz⟩
    have hset : Finset.univ.filter ((c.setWord ptr w).HasSlotZero g') =
        (Finset.univ.filter (c.HasSlotZero g)).erase p := by
      ext q
      simp only [Core.HasSlotZero, Core.setWord_use, Core.setWord_pages, gl, hp,
        Finset.mem_filter, Finset.mem_univ, true_and, Finset.mem_erase]
      constructor
      · rintro ⟨hqu, hne, hqz⟩
        exact ⟨fun e => hne (by rw [e]), hqu, by simp, hqz⟩
      · rintro ⟨hne, hqu, -, hqz⟩
        exact ⟨hqu, fun e => hne (Option.some.inj e).symm, hqz⟩
    have hcard := Finset.card_pos.2 ⟨p, hmem⟩
    have := h.zero
    rw [hset, Finset.card_erase_of_mem hmem, gd, sum_incAt]
    change _ = c.pagefile.slotZeroTaken.toNat
    omega
  · rw [if_neg hz] at gd
    refine h.congr rfl h.range (fun q hq _ => hl q hq) (fun q => ?_) gd
    simp only [Core.HasSlotZero, Core.setWord_use, Core.setWord_pages, gl, hp]
    refine and_congr_right fun _ => ?_
    constructor
    · rintro ⟨-, hqz⟩
      exact ⟨by simp, hqz⟩
    · rintro ⟨-, hqz⟩
      refine ⟨fun e => ?_, hqz⟩
      obtain rfl := Option.some.inj e
      exact hz hqz

/-- A loose page is handed out, without a slot. -/
theorem handOut (h : Slots c g) {p : Pfn} {use : PageUse} (hp : g.loose = some p) :
    Slots ((c.setPage p (VmPage.handedOut use)).setWords p 0) (g.handedOut p use) := by
  have hup : ((c.setPage p (VmPage.handedOut use)).setWords p 0).use p = use := by
    rw [Core.setWords_use, Core.setPage_use, if_pos rfl]
    rfl
  have huse : ∀ q, q ≠ p →
      ((c.setPage p (VmPage.handedOut use)).setWords p 0).use q = c.use q := fun q hq => by
    rw [Core.setWords_use, Core.setPage_use, if_neg hq]
  have hpp : ((c.setPage p (VmPage.handedOut use)).setWords p 0).pages p = VmPage.handedOut use :=
    (Core.setPage_pages _ _ _ _).trans (if_pos rfl)
  have hpg : ∀ q, q ≠ p →
      ((c.setPage p (VmPage.handedOut use)).setWords p 0).pages q = c.pages q := fun q hq =>
    (Core.setPage_pages _ _ _ _).trans (if_neg hq)
  have hlo : ∀ q, (g.handedOut p use).loose = some q → q = p := fun q hq => by
    simp only [Ledger.handedOut] at hq
    split at hq
    · exact (Option.some.inj hq).symm
    · cases hq
  refine h.congr rfl (fun q hq => ?_) (fun q hq _ => ?_) (fun q => ?_) rfl
  · by_cases hqp : q = p
    · rw [hqp, hpp]
      exact .inr rfl
    · rw [huse q hqp] at hq
      rw [hpg q hqp]
      exact h.range q hq
  · rw [hlo q hq, hpp]
    exact .inr rfl
  · by_cases hqp : q = p
    · subst hqp
      refine iff_of_false (fun hx => ?_) fun hx => hx.2.1 hp
      obtain ⟨hu, hn, -⟩ := hx
      rw [hup] at hu
      exact hn (by simp [Ledger.handedOut, hu])
    · rw [Core.HasSlotZero, Core.HasSlotZero, huse q hqp, hpg q hqp]
      refine and_congr_right fun _ => and_congr_left fun _ => ?_
      exact iff_of_true (fun e => hqp (hlo q e))
        (fun e => hqp (Option.some.inj (e.symm.trans hp)))

end Slots

end VmmSim
