import VmmSim.Move

/-!
# Moves and the directories

Only three moves touch the naming of tables: a page handed out as a table, a table attached to its
directory, and a table deleted from it.
-/

namespace VmmSim

open Lib

variable {c c' : Core} {g g' : Ledger}

/-- The page number of a page fits the fields of an entry. -/
theorem view_hwCreate_pfn (p : Pfn) (wr : Bool) :
    view (vmpPteHwCreate p.val wr) = .valid p.val wr := by
  have hp := p.isLt
  simp only [softNPages] at hp
  rw [view_hwCreate, Nat.mod_eq_of_lt (by omega)]

theorem view_transCreate_pfn (p : Pfn) : view (vmpPteTransCreate p.val) = .trans p.val := by
  have hp := p.isLt
  simp only [softNPages] at hp
  rw [view_transCreate, Nat.mod_eq_of_lt (by omega)]

theorem view_busyCreate_busy (state : ℕ) : ∃ a, view (vmpPteBusyCreate state) = .busy a :=
  ⟨_, view_busyCreate state⟩

namespace Core

theorem level_of_use {p : Pfn} {u : PageUse} (h : c.use p = u) : c.level p = u.level := by
  rw [Core.level, h]

theorem level_of_plain {p : Pfn} (h : c.use p = .free ∨ c.use p = .anonPrivate) :
    c.level p = 0 := by
  rcases h with h | h <;> rw [c.level_of_use h] <;> rfl

end Core

namespace Dirs

/-- Changes that the directories do not depend on. -/
theorem congr (h : Dirs c g) (hlv : ∀ p, c'.level p = c.level p)
    (hr : ∀ p, 1 ≤ c.level p → g.loose ≠ some p →
      (c'.pages p).referentPte = (c.pages p).referentPte)
    (he : ∀ ptr : PtePtr, 2 ≤ c.level ptr.1 → c'.entry ptr = c.entry ptr)
    (hroot : c'.root = c.root)
    (hl : ∀ p, 1 ≤ c.level p → (g'.loose = some p ↔ g.loose = some p)) : Dirs c' g' := by
  obtain ⟨h₁, h₂, h₃, h₄⟩ := h
  refine ⟨by rw [hroot, hlv, h₁], fun p => by rw [hlv, hroot]; exact h₂ p, fun ptr h2 => ?_,
    fun p hp hp3 hn => ?_⟩
  · rw [hlv] at h2
    rw [he ptr h2, hlv]
    refine (h₃ ptr h2).imp_right ?_
    rintro ⟨p, hp, hpl, hpr, hpn⟩
    have h1 : 1 ≤ c.level p := by omega
    exact ⟨p, hp, by rw [hlv]; exact hpl, by rw [hr p h1 hpn]; exact hpr,
      fun hx => hpn ((hl p h1).1 hx)⟩
  · rw [hlv] at hp hp3
    have hn' : g.loose ≠ some p := fun hx => hn ((hl p hp).2 hx)
    obtain ⟨ptr, hpr, hpe, hpl⟩ := h₄ p hp hp3 hn'
    exact ⟨ptr, by rw [hr p hp hn']; exact hpr, by rw [he ptr (by omega)]; exact hpe,
      by rw [hlv, hlv]; exact hpl⟩

/-- Other parts of the core and the ledger do not matter. -/
theorem of_eq (h : Dirs c g) (hp : c'.pages = c.pages) (hm : c'.mem = c.mem)
    (hr : c'.root = c.root) (hl : g'.loose = g.loose) : Dirs c' g' :=
  h.congr (fun _ => by rw [Core.level, Core.use, hp]; rfl) (fun _ _ _ => by rw [hp])
    (fun _ _ => by rw [Core.entry, hm]; rfl) hr (fun _ _ => by rw [hl])

/-- Assignments to pages that keep their use, and their address if they are tables. -/
theorem setPage (h : Dirs c g) {p : Pfn} {pg : VmPage} (hu : pg.use = c.use p)
    (hr : 1 ≤ c.level p → g.loose ≠ some p → pg.referentPte = (c.pages p).referentPte) :
    Dirs (c.setPage p pg) g := by
  refine h.congr (Core.setPage_level_of hu) (fun q hq hn => ?_) (fun _ _ => rfl) rfl
    (fun _ _ => Iff.rfl)
  rw [Core.setPage_pages]
  split
  · subst_vars
    exact hr hq hn
  · rfl

/-- Assignments to the words of level 1 tables. -/
theorem setWord (h : Dirs c g) {ptr : PtePtr} {w : Word} (hl : c.level ptr.1 = 1) :
    Dirs (c.setWord ptr w) g :=
  h.congr (fun _ => rfl) (fun _ _ _ => rfl)
    (fun q hq => Core.setWord_entry_ne _ _ _ _ (by rintro rfl; omega)) rfl (fun _ _ => Iff.rfl)

/-- Only tables matter to the directories as loose pages. -/
theorem setLedger (h : Dirs c g)
    (hl : ∀ p, 1 ≤ c.level p → (g'.loose = some p ↔ g.loose = some p)) : Dirs c g' :=
  h.congr (fun _ => rfl) (fun _ _ _ => rfl) (fun _ _ => rfl) rfl hl

/-- A page without a level is handed out. -/
theorem handOut (h : Dirs c g) {p : Pfn} {use : PageUse} (h0 : c.level p = 0)
    (hp : g.loose = some p) (h₃ : use.level ≤ 3)
    (hl : ∀ q, g'.loose = some q → q = p) (hl' : 1 ≤ use.level → g'.loose = some p) :
    Dirs ((c.setPage p (VmPage.handedOut use)).setWords p 0) g' := by
  have hlv : ∀ q, q ≠ p →
      ((c.setPage p (VmPage.handedOut use)).setWords p 0).level q = c.level q := fun q hq => by
    rw [Core.setWords_level, Core.setPage_level, if_neg hq]
  have hlp : ((c.setPage p (VmPage.handedOut use)).setWords p 0).level p = use.level := by
    rw [Core.setWords_level, Core.setPage_level, if_pos rfl]
    rfl
  have hpg : ∀ q, q ≠ p →
      ((c.setPage p (VmPage.handedOut use)).setWords p 0).pages q = c.pages q := fun q hq =>
    (Core.setPage_pages _ _ _ _).trans (if_neg hq)
  have hen : ∀ q : PtePtr, q.1 ≠ p →
      ((c.setPage p (VmPage.handedOut use)).setWords p 0).entry q = c.entry q := fun q hq =>
    Core.setWords_entry_ne _ _ _ _ hq
  have hrp : c.root ≠ p := by
    rintro hr
    have := h.level_root
    rw [hr, h0] at this
    cases this
  obtain ⟨h₁, h₂, h₃', h₄⟩ := h
  refine ⟨(hlv _ hrp).trans h₁, fun q hq => ?_, fun ptr h2 => ?_, fun q hq hq3 hn => ?_⟩
  · by_cases hqp : q = p
    · rw [hqp, hlp] at hq
      simp only [vmpTableLevels] at hq
      omega
    · exact h₂ q (by rw [← hlv q hqp]; exact hq)
  · by_cases hqp : ptr.1 = p
    · exact .inl (by rw [Core.setWords_entry, if_pos hqp]; exact view_zero)
    · rw [hlv _ hqp] at h2 ⊢
      rw [hen ptr hqp]
      refine (h₃' ptr h2).imp_right ?_
      rintro ⟨q, hq, hql, hqr, hqn⟩
      have hne : q ≠ p := by
        rintro rfl
        exact hqn hp
      exact ⟨q, hq, by rw [hlv q hne]; exact hql, by rw [hpg q hne]; exact hqr,
        fun hx => hne (hl q hx)⟩
  · by_cases hqp : q = p
    · rw [hqp, hlp] at hq
      exact absurd (hqp ▸ hl' hq) hn
    · rw [hlv q hqp] at hq hq3
      obtain ⟨ptr, hpr, hpe, hpl⟩ := h₄ q hq hq3 fun hx => hqp (Option.some.inj (hx.symm.trans hp))
      have hne : ptr.1 ≠ p := by
        intro hx
        rw [hx, h0] at hpl
        omega
      exact ⟨ptr, by rw [hpg q hqp]; exact hpr, by rw [hen ptr hne]; exact hpe,
        by rw [hlv _ hne, hlv _ hqp]; exact hpl⟩

/-- A new table is attached. -/
theorem attach (h : Dirs c g) {ptr : PtePtr} {p : Pfn} (hl : 1 ≤ c.level p)
    (hd : c.level ptr.1 = c.level p + 1) (he : c.entry ptr = .zero) (hp : g.loose = some p)
    (hpr : (c.pages p).referentPte = ptePaddr ptr) (hg : g'.loose = none) :
    Dirs (c.setWord ptr (vmpPteHwCreate p.val true)) g' := by
  obtain ⟨h₁, h₂, h₃, h₄⟩ := h
  refine ⟨h₁, h₂, fun q h2 => ?_, fun q hq hq3 _ => ?_⟩
  · simp only [Core.setWord_level, Core.setWord_pages] at h2 ⊢
    by_cases hq : q = ptr
    · subst hq
      rw [Core.setWord_entry_self, view_hwCreate_pfn]
      exact .inr ⟨p, rfl, hd.symm, hpr, by simp [hg]⟩
    · rw [Core.setWord_entry_ne _ _ _ _ hq]
      refine (h₃ q h2).imp_right ?_
      rintro ⟨r, hr, hrl, hrr, -⟩
      exact ⟨r, hr, hrl, hrr, by simp [hg]⟩
  · simp only [Core.setWord_level, Core.setWord_pages] at hq hq3 ⊢
    by_cases hqp : q = p
    · subst hqp
      exact ⟨ptr, hpr, by rw [Core.setWord_entry_self, view_hwCreate_pfn], hd⟩
    · obtain ⟨r, hrr, hre, hrl⟩ := h₄ q hq hq3 fun hx => hqp (Option.some.inj (hx.symm.trans hp))
      refine ⟨r, hrr, ?_, hrl⟩
      rw [Core.setWord_entry_ne _ _ _ _ ?_]
      · exact hre
      · rintro rfl
        rw [he] at hre
        cases hre

/-- An empty table is deleted. -/
theorem delete (h : Dirs c g) {t : Pfn} {ptr : PtePtr} (hl : 1 ≤ c.level t) (h₃ : c.level t ≤ 3)
    (hp : g.loose = none) (hempty : ∀ i, c.entry (t, i) = .zero)
    (hr : (c.pages t).referentPte = ptePaddr ptr) :
    Dirs ((c.setPage t { c.pages t with use := .deleted, nonzeroPtes := 0 }).setWord ptr
      vmpPteZeroCreate) g := by
  obtain ⟨ptr', hpr, hpe, hpl⟩ := h.dir_back t hl h₃ (by simp [hp])
  obtain rfl := ptePaddr_injective (hr.symm.trans hpr)
  have hlv : ∀ q, q ≠ t → ((c.setPage t { c.pages t with
      use := .deleted, nonzeroPtes := 0 }).setWord ptr vmpPteZeroCreate).level q = c.level q :=
    fun q hq => by rw [Core.setWord_level, Core.setPage_level, if_neg hq]
  have hlt : ((c.setPage t { c.pages t with
      use := .deleted, nonzeroPtes := 0 }).setWord ptr vmpPteZeroCreate).level t = 0 := by
    rw [Core.setWord_level, Core.setPage_level, if_pos rfl]
    rfl
  have hpg : ∀ q, q ≠ t → ((c.setPage t { c.pages t with
      use := .deleted, nonzeroPtes := 0 }).setWord ptr vmpPteZeroCreate).pages q = c.pages q :=
    fun q hq => (Core.setPage_pages _ _ _ _).trans (if_neg hq)
  have hrt : c.root ≠ t := by
    rintro hr
    have := h.level_root
    simp only [vmpTableLevels] at this
    rw [hr] at this
    omega
  have hchild := @h.child
  obtain ⟨h₁, h₂, h₃', h₄⟩ := h
  refine ⟨(hlv _ hrt).trans h₁, fun q hq => ?_, fun q h2 => ?_, fun q hq hq3 hn => ?_⟩
  · have hqt : q ≠ t := by
      rintro rfl
      rw [hlt] at hq
      cases hq
    exact h₂ q (by rw [← hlv q hqt]; exact hq)
  · have hqt : q.1 ≠ t := by
      intro hqt
      rw [hqt, hlt] at h2
      omega
    rw [hlv _ hqt] at h2 ⊢
    by_cases hq : q = ptr
    · exact .inl (by rw [hq, Core.setWord_entry_self]; exact view_zero)
    · rw [Core.setWord_entry_ne _ _ _ _ hq, Core.setPage_entry]
      refine (h₃' q h2).imp_right ?_
      rintro ⟨r, hre, hrl, hrr, hrn⟩
      have hrt : r ≠ t := by
        rintro rfl
        exact hq (ptePaddr_injective (hrr.symm.trans hr))
      exact ⟨r, hre, by rw [hlv r hrt]; exact hrl, by rw [hpg r hrt]; exact hrr, hrn⟩
  · have hqt : q ≠ t := by
      rintro rfl
      rw [hlt] at hq
      omega
    rw [hlv q hqt] at hq hq3
    obtain ⟨r, hrr, hre, hrl⟩ := h₄ q hq hq3 hn
    have hr1 : r.1 ≠ t := by
      intro hr1
      have hz : c.entry r = .zero := by
        rw [← hempty r.2, ← hr1]
      rw [hz] at hre
      cases hre
    refine ⟨r, by rw [hpg q hqt]; exact hrr, ?_, by rw [hlv _ hr1, hlv _ hqt]; exact hrl⟩
    rw [Core.setWord_entry_ne _ _ _ _ ?_, Core.setPage_entry]
    · exact hre
    · rintro rfl
      rw [hpe] at hre
      exact hqt (Fin.ext (Pte.valid.inj hre).1.symm)

end Dirs

end VmmSim
