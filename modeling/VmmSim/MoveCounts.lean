import VmmSim.MoveLeaves

/-!
# Moves and the counters
-/

namespace VmmSim

open Lib

variable {c c' : Core} {g g' : Ledger}

/-! ## The counters of tables -/

namespace TableCounts

/-- Changes that the counters of tables do not depend on. -/
theorem congr (h : TableCounts c g) (hlv : ∀ t, c'.level t = c.level t)
    (hns : ∀ t, 1 ≤ c.level t → (c'.pages t).nonswapPtes = (c.pages t).nonswapPtes)
    (hnz : ∀ t, 1 ≤ c.level t → (c'.pages t).nonzeroPtes = (c.pages t).nonzeroPtes)
    (hrc : ∀ t, 1 ≤ c.level t → (c'.pages t).refcnt = (c.pages t).refcnt)
    (he : ∀ ptr : PtePtr, 1 ≤ c.level ptr.1 → c'.entry ptr = c.entry ptr)
    (gns : g'.ns = g.ns) (gnz : g'.nz = g.nz) (gd : g'.drift = g.drift)
    (gl : ∀ t, 1 ≤ c.level t → g.loose = some t → g'.loose = some t) : TableCounts c' g' := by
  have hcount : ∀ (f : Pte → Bool) (t : Pfn), 1 ≤ c.level t → c'.count f t = c.count f t :=
    fun f t ht => Core.count_congr fun i => he (t, i) ht
  obtain ⟨h₁, h₂, h₃, h₄, h₅, h₆, h₇⟩ := h
  refine ⟨fun t ht => ?_, fun t ht => ?_, fun t ht => ?_, fun t ht h3 hl => ?_, ?_, ?_, ?_⟩
  · rw [hlv] at ht
    rw [hns t ht, hcount _ t ht, gns, h₁ t ht]
  · rw [hlv] at ht
    rw [hnz t ht, hcount _ t ht, gnz, gd, h₂ t ht]
  · rw [hlv] at ht
    rw [hrc t ht, hns t ht, h₃ t ht]
  · rw [hlv] at ht h3
    rw [hcount _ t ht, gnz, gd]
    exact h₄ t ht h3 fun e => hl (gl t ht e)
  · rw [gnz, gns]
    exact h₅
  · rw [gns]
    exact fun t ht => by rw [hlv]; exact h₆ t ht
  · rw [gd]
    exact fun t ht => by rw [hlv]; exact h₇ t ht

/-- Other parts of the core and the ledger do not matter. -/
theorem of_eq (h : TableCounts c g) (hp : c'.pages = c.pages) (hm : c'.mem = c.mem)
    (gns : g'.ns = g.ns) (gnz : g'.nz = g.nz) (gd : g'.drift = g.drift)
    (gl : g'.loose = g.loose) : TableCounts c' g' :=
  h.congr (fun _ => by rw [Core.level, Core.use, hp]; rfl) (fun _ _ => by rw [hp])
    (fun _ _ => by rw [hp]) (fun _ _ => by rw [hp]) (fun _ _ => by rw [Core.entry, hm]; rfl) gns gnz
    gd (fun _ _ => by rw [gl]; exact id)

/-- Assignments to a page that keep its use, and its counters if it is a table. -/
theorem setPage (h : TableCounts c g) {p : Pfn} {pg : VmPage} (hu : pg.use = c.use p)
    (hp : 1 ≤ c.level p → pg.nonswapPtes = (c.pages p).nonswapPtes ∧
      pg.nonzeroPtes = (c.pages p).nonzeroPtes ∧ pg.refcnt = (c.pages p).refcnt) :
    TableCounts (c.setPage p pg) g := by
  refine h.congr (Core.setPage_level_of hu) (fun q hq => ?_) (fun q hq => ?_) (fun q hq => ?_)
    (fun _ _ => rfl) rfl rfl rfl (fun _ _ e => e)
  all_goals
    rw [Core.setPage_pages]
    split
    · subst_vars
      simp [hp hq]
    · rfl

/-- A change of one entry, and what it trades for in the ledger. -/
theorem setWord (h : TableCounts c g) {ptr : PtePtr} {w : Word}
    (hns : (view w).isNonswap.toNat + g'.ns ptr.1 =
      (c.entry ptr).isNonswap.toNat + g.ns ptr.1)
    (hnz : (view w).isNonzero.toNat + g'.nz ptr.1 + g'.drift ptr.1 =
      (c.entry ptr).isNonzero.toNat + g.nz ptr.1 + g.drift ptr.1)
    (ons : ∀ t, t ≠ ptr.1 → g'.ns t = g.ns t) (onz : ∀ t, t ≠ ptr.1 → g'.nz t = g.nz t)
    (od : ∀ t, t ≠ ptr.1 → g'.drift t = g.drift t) (hl : 1 ≤ c.level ptr.1)
    (hle : g'.nz ptr.1 ≤ g'.ns ptr.1)
    (hlo : ∀ t, 1 ≤ c.level t → g.loose = some t → g'.loose = some t ∨ 0 < g'.nz t) :
    TableCounts (c.setWord ptr w) g' := by
  have cns : ∀ t, (c.setWord ptr w).count Pte.isNonswap t + g'.ns t = c.count Pte.isNonswap t + g.ns t :=
    fun t => by
      have := c.count_setWord ptr w Pte.isNonswap t
      by_cases ht : t = ptr.1
      · subst ht
        simp only [if_true] at this
        omega
      · simp only [if_neg ht] at this
        rw [ons t ht]
        omega
  have cnz : ∀ t, (c.setWord ptr w).count Pte.isNonzero t + g'.nz t + g'.drift t =
      c.count Pte.isNonzero t + g.nz t + g.drift t := fun t => by
    have := c.count_setWord ptr w Pte.isNonzero t
    by_cases ht : t = ptr.1
    · subst ht
      simp only [if_true] at this
      omega
    · simp only [if_neg ht] at this
      rw [onz t ht, od t ht]
      omega
  obtain ⟨h₁, h₂, h₃, h₄, h₅, h₆, h₇⟩ := h
  refine ⟨fun t ht => ?_, fun t ht => ?_, h₃, fun t ht h3 hn => ?_, fun t => ?_, fun t ht => ?_,
    fun t ht => ?_⟩
  · rw [cns]
    exact h₁ t ht
  · rw [cnz]
    exact h₂ t ht
  · rw [cnz]
    by_cases hg : g.loose = some t
    · have := (hlo t ht hg).resolve_left hn
      have := cnz t
      omega
    · exact h₄ t ht h3 hg
  · by_cases ht : t = ptr.1
    · rw [ht]
      exact hle
    · rw [ons t ht, onz t ht]
      exact h₅ t
  · by_cases htp : t = ptr.1
    · rw [htp]
      exact hl
    · exact h₆ t (by rw [← ons t htp]; exact ht)
  · by_cases htp : t = ptr.1
    · rw [htp]
      exact hl
    · exact h₇ t (by rw [← od t htp]; exact ht)

/-- A change of a table's counters, and what is owed for it. -/
theorem setTable (h : TableCounts c g) {t : Pfn} {pg : VmPage} (hl : 1 ≤ c.level t)
    (hu : pg.use = c.use t)
    (hns : pg.nonswapPtes + g.ns t = (c.pages t).nonswapPtes + g'.ns t)
    (hnz : ∀ n, (c.pages t).nonzeroPtes = (n + g.nz t) % 2 ^ 16 →
      pg.nonzeroPtes = (n + g'.nz t) % 2 ^ 16)
    (hrc : pg.refcnt = pg.nonswapPtes + 1)
    (ons : ∀ q, q ≠ t → g'.ns q = g.ns q) (onz : ∀ q, q ≠ t → g'.nz q = g.nz q)
    (hd : g'.drift = g.drift) (hle : g'.nz t ≤ g'.ns t)
    (hlive : c.level t ≤ 3 → g.loose ≠ some t → 0 < c.count Pte.isNonzero t + g'.nz t + g.drift t)
    (hlo : g'.loose = g.loose) : TableCounts (c.setPage t pg) g' := by
  have hlv := Core.setPage_level_of hu
  have hct : ∀ (f : Pte → Bool) (q : Pfn), (c.setPage t pg).count f q = c.count f q :=
    fun _ _ => rfl
  obtain ⟨h₁, h₂, h₃, h₄, h₅, h₆, h₇⟩ := h
  refine ⟨fun q hq => ?_, fun q hq => ?_, fun q hq => ?_, fun q hq h3 hn => ?_, fun q => ?_,
    fun q hq => ?_, fun q hq => ?_⟩
  · rw [hlv] at hq
    rw [hct, Core.setPage_pages]
    split
    · subst_vars
      have := h₁ q hl
      omega
    · rename_i hqt
      rw [ons q hqt]
      exact h₁ q hq
  · rw [hlv] at hq
    rw [hct, Core.setPage_pages, hd]
    split
    · subst_vars
      rw [add_right_comm]
      refine hnz _ ?_
      rw [h₂ q hl, add_right_comm]
    · rename_i hqt
      rw [onz q hqt]
      exact h₂ q hq
  · rw [hlv] at hq
    rw [Core.setPage_pages]
    split
    · exact hrc
    · exact h₃ q hq
  · rw [hlv] at hq h3
    rw [hct, hd]
    rw [hlo] at hn
    by_cases hqt : q = t
    · subst hqt
      exact hlive h3 hn
    · rw [onz q hqt]
      exact h₄ q hq h3 hn
  · by_cases hqt : q = t
    · rw [hqt]
      exact hle
    · rw [ons q hqt, onz q hqt]
      exact h₅ q
  · rw [hlv]
    by_cases hqt : q = t
    · rw [hqt]
      exact hl
    · exact h₆ q (by rw [← ons q hqt]; exact hq)
  · rw [hlv]
    rw [hd] at hq
    exact h₇ q hq

/-- A page that is no table is handed out, empty. -/
theorem handOut (h : TableCounts c g) {p : Pfn} {use : PageUse} (h0 : c.level p = 0)
    (gns : g'.ns = g.ns) (gnz : g'.nz = g.nz) (gd : g'.drift = g.drift)
    (hl : 1 ≤ use.level → g'.loose = some p)
    (hl' : ∀ t, g.loose = some t → t = p) :
    TableCounts ((c.setPage p (VmPage.handedOut use)).setWords p 0) g' := by
  have hlv : ∀ q, q ≠ p →
      ((c.setPage p (VmPage.handedOut use)).setWords p 0).level q = c.level q := fun q hq => by
    rw [Core.setWords_level, Core.setPage_level, if_neg hq]
  have hlp : ((c.setPage p (VmPage.handedOut use)).setWords p 0).level p = use.level := by
    rw [Core.setWords_level, Core.setPage_level, if_pos rfl]
    rfl
  have hpg : ∀ q, ((c.setPage p (VmPage.handedOut use)).setWords p 0).pages q =
      if q = p then VmPage.handedOut use else c.pages q := fun q => Core.setPage_pages _ _ _ _
  have hct : ∀ (f : Pte → Bool) (q : Pfn), q ≠ p →
      ((c.setPage p (VmPage.handedOut use)).setWords p 0).count f q = c.count f q :=
    fun f q hq => Core.count_congr fun i => Core.setWords_entry_ne _ _ _ _ hq
  have hz : ∀ f : Pte → Bool, f .zero = false →
      ((c.setPage p (VmPage.handedOut use)).setWords p 0).count f p = 0 := fun f hf =>
    (Core.count_eq_zero _).2 fun i => by
      rw [Core.setWords_entry, if_pos rfl]
      exact (congrArg f view_zero).trans hf
  obtain ⟨h₁, h₂, h₃, h₄, h₅, h₆, h₇⟩ := h
  have ns0 : g.ns p = 0 := by
    by_contra hp
    have := h₆ p (by omega)
    omega
  have d0 : g.drift p = 0 := by
    by_contra hp
    have := h₇ p (by omega)
    omega
  have nz0 : g.nz p = 0 := by
    have := h₅ p
    omega
  refine ⟨fun q hq => ?_, fun q hq => ?_, fun q hq => ?_, fun q hq h3 hn => ?_,
    by rw [gns, gnz]; exact h₅, fun q hq => ?_, fun q hq => ?_⟩
  · rw [hpg, gns]
    by_cases hqp : q = p
    · subst hqp
      rw [if_pos rfl, hz _ rfl, ns0]
      rfl
    · rw [if_neg hqp, hct _ _ hqp]
      exact h₁ q (by rw [← hlv q hqp]; exact hq)
  · rw [hpg, gnz, gd]
    by_cases hqp : q = p
    · subst hqp
      rw [if_pos rfl, hz _ rfl, nz0, d0]
      rfl
    · rw [if_neg hqp, hct _ _ hqp]
      exact h₂ q (by rw [← hlv q hqp]; exact hq)
  · rw [hpg]
    by_cases hqp : q = p
    · rw [if_pos hqp]
      rfl
    · rw [if_neg hqp]
      exact h₃ q (by rw [← hlv q hqp]; exact hq)
  · by_cases hqp : q = p
    · subst hqp
      rw [hlp] at hq
      exact absurd (hl hq) hn
    · rw [hlv q hqp] at hq h3
      rw [hct _ _ hqp, gnz, gd]
      exact h₄ q hq h3 fun e => hqp (hl' q e)
  · have hqp : q ≠ p := by
      rintro rfl
      rw [gns, ns0] at hq
      omega
    rw [hlv q hqp]
    exact h₆ q (by rw [← gns]; exact hq)
  · have hqp : q ≠ p := by
      rintro rfl
      rw [gd, d0] at hq
      omega
    rw [hlv q hqp]
    exact h₇ q (by rw [← gd]; exact hq)

/-- A table to which nothing is owed stops being one. -/
theorem retire (h : TableCounts c g) {t : Pfn} {pg : VmPage} (hl : pg.use.level = 0)
    (ns0 : g'.ns t = 0) (d0 : g'.drift t = 0) (ons : ∀ q, q ≠ t → g'.ns q = g.ns q)
    (onz : ∀ q, q ≠ t → g'.nz q = g.nz q) (hd : g'.drift = g.drift) (hle : g'.nz t ≤ g'.ns t)
    (hlo : g'.loose = g.loose) : TableCounts (c.setPage t pg) g' := by
  have hlt : ∀ q, 1 ≤ (c.setPage t pg).level q → q ≠ t := by
    rintro q hq rfl
    rw [Core.setPage_level, if_pos rfl] at hq
    omega
  have hlv : ∀ q, q ≠ t → (c.setPage t pg).level q = c.level q := fun q hq => by
    rw [Core.setPage_level, if_neg hq]
  have hct : ∀ (f : Pte → Bool) (q : Pfn), (c.setPage t pg).count f q = c.count f q :=
    fun _ _ => rfl
  obtain ⟨h₁, h₂, h₃, h₄, h₅, h₆, h₇⟩ := h
  refine ⟨fun q hq => ?_, fun q hq => ?_, fun q hq => ?_, fun q hq h3 hn => ?_, fun q => ?_,
    fun q hq => ?_, fun q hq => ?_⟩
  · have hqt := hlt q hq
    rw [hlv q hqt] at hq
    rw [hct, Core.setPage_pages, if_neg hqt, ons q hqt]
    exact h₁ q hq
  · have hqt := hlt q hq
    rw [hlv q hqt] at hq
    rw [hct, Core.setPage_pages, if_neg hqt, onz q hqt, hd]
    exact h₂ q hq
  · have hqt := hlt q hq
    rw [hlv q hqt] at hq
    rw [Core.setPage_pages, if_neg hqt]
    exact h₃ q hq
  · have hqt := hlt q hq
    rw [hlv q hqt] at hq h3
    rw [hct, onz q hqt, hd]
    exact h₄ q hq h3 (by rw [← hlo]; exact hn)
  · by_cases hqt : q = t
    · rw [hqt]
      exact hle
    · rw [ons q hqt, onz q hqt]
      exact h₅ q
  · have hqt : q ≠ t := by
      rintro rfl
      omega
    rw [hlv q hqt]
    exact h₆ q (by rw [← ons q hqt]; exact hq)
  · have hqt : q ≠ t := by
      rintro rfl
      omega
    rw [hlv q hqt]
    exact h₇ q (by rw [← hd]; exact hq)

end TableCounts

/-! ## The references of pages of data -/

namespace FrameCounts

/-- Changes that the references of pages of data do not depend on. -/
theorem congr (h : FrameCounts c g) (hlf : Leaves c g)
    (hl1 : ∀ p, c'.level p = 1 → c.level p = 1)
    (hu : ∀ p, c'.use p = .anonPrivate ↔ c.use p = .anonPrivate)
    (hr : ∀ p, c.use p = .anonPrivate → (c'.pages p).refcnt = (c.pages p).refcnt)
    (he : ∀ ptr : PtePtr, c'.level ptr.1 = 1 → c'.entry ptr = c.entry ptr)
    (gh : g'.held = g.held) (gb : g'.busy = g.busy) (gl : ∀ p, c.use p = .anonPrivate →
      g'.loose = some p → g'.unref = none → g.loose = some p ∧ g.unref = none) :
    FrameCounts c' g' := by
  obtain ⟨h₁, h₂, h₃, h₄, h₅⟩ := h
  refine ⟨fun ptr p wr h1 hv => ?_, fun ptr p h1 hv => ?_, fun r hr' => ?_,
    fun p hp hpu hn => ?_, fun p hp => ?_⟩
  · rw [he ptr h1] at hv
    have hpu := (hlf.frame_page (hl1 _ h1) (by rw [hv]; rfl)).1
    rw [hr p hpu, gh]
    exact h₁ ptr p wr (hl1 _ h1) hv
  · rw [he ptr h1] at hv
    have hpu := (hlf.frame_page (hl1 _ h1) (by rw [hv]; rfl)).1
    rw [hr p hpu, gh]
    exact h₂ ptr p (hl1 _ h1) hv
  · rw [gb] at hr'
    rw [hr _ (hlf.busy_back r hr').2.2.1, gh]
    exact h₃ r hr'
  · rw [hu] at hpu
    obtain ⟨hl, hn⟩ := gl p hpu hp hn
    rw [hr p hpu, gh]
    exact h₄ p hl hpu hn
  · rw [gh] at hp
    exact (hu p).2 (h₅ p hp)

/-- Other parts of the core and the ledger do not matter. -/
theorem of_eq (h : FrameCounts c g) (hlf : Leaves c g) (hp : c'.pages = c.pages)
    (hm : c'.mem = c.mem) (gh : g'.held = g.held) (gb : g'.busy = g.busy)
    (gl : g'.loose = g.loose) (gu : g'.unref = g.unref) : FrameCounts c' g' :=
  h.congr hlf (fun _ => by rw [Core.level, Core.use, hp]; exact id)
    (fun _ => by rw [Core.use, hp]; rfl) (fun _ _ => by rw [hp])
    (fun _ _ => by rw [Core.entry, hm]; rfl) gh gb (fun _ _ => by rw [gl, gu]; exact And.intro)

/-- A change of one entry, of the references owed to one page, or of both. -/
theorem setWord (h : FrameCounts c g) {ptr : PtePtr} {w : Word} {p : Pfn}
    (hother : ∀ q : PtePtr, q ≠ ptr → c.level q.1 = 1 → (c.entry q).frame ≠ some p.val)
    (hv : ∀ (q : Pfn) (wr : Bool), view w = .valid q.val wr →
      q = p ∧ (c.pages p).refcnt = g'.held p + 1)
    (ht : ∀ q : Pfn, view w = .trans q.val → q = p ∧ (c.pages p).refcnt = g'.held p)
    (gh : ∀ q, q ≠ p → g'.held q = g.held q) (gp : 0 < g'.held p → c.use p = .anonPrivate)
    (gb : ∀ r ∈ g'.busy, r ∈ g.busy ∧ r.page ≠ p ∨
      r.page = p ∧ (c.pages p).refcnt = g'.held p + 1)
    (gl : ∀ q, g'.loose = some q → c.use q = .anonPrivate → g'.unref = none →
      (c.pages q).refcnt = g'.held q) : FrameCounts (c.setWord ptr w) g' := by
  obtain ⟨h₁, h₂, h₃, h₄, h₅⟩ := h
  refine ⟨fun q r wr h1 hq => ?_, fun q r h1 hq => ?_, fun r hr => ?_, gl, fun q hq => ?_⟩
  · by_cases hqp : q = ptr
    · rw [hqp, Core.setWord_entry_self] at hq
      obtain ⟨rfl, hr⟩ := hv r wr hq
      exact hr
    · rw [Core.setWord_entry_ne _ _ _ _ hqp] at hq
      have hne : r ≠ p := by
        rintro rfl
        exact hother q hqp h1 (by rw [hq]; rfl)
      rw [gh r hne]
      exact h₁ q r wr h1 hq
  · by_cases hqp : q = ptr
    · rw [hqp, Core.setWord_entry_self] at hq
      obtain ⟨rfl, hr⟩ := ht r hq
      exact hr
    · rw [Core.setWord_entry_ne _ _ _ _ hqp] at hq
      have hne : r ≠ p := by
        rintro rfl
        exact hother q hqp h1 (by rw [hq]; rfl)
      rw [gh r hne]
      exact h₂ q r h1 hq
  · rcases gb r hr with ⟨hr, hne⟩ | ⟨rfl, hr⟩
    · rw [gh _ hne]
      exact h₃ r hr
    · exact hr
  · by_cases hqp : q = p
    · subst hqp
      exact gp hq
    · exact h₅ q (by rw [← gh q hqp]; exact hq)

/-- A reference more or less, and what is owed for it. -/
theorem setRefcnt (h : FrameCounts c g) {p : Pfn} {v : VmPage} (hu : v.use = c.use p)
    (hr : v.refcnt + g.held p = (c.pages p).refcnt + g'.held p)
    (gh : ∀ q, q ≠ p → g'.held q = g.held q) (gp : 0 < g'.held p → c.use p = .anonPrivate)
    (gb : g'.busy = g.busy) (gl : g'.loose = g.loose) (gu : g'.unref = g.unref) :
    FrameCounts (c.setPage p v) g' := by
  have huse := Core.setPage_use_of hu
  have key : ∀ q k, (c.pages q).refcnt = g.held q + k →
      ((c.setPage p v).pages q).refcnt = g'.held q + k := fun q k hq => by
    rw [Core.setPage_pages]
    split
    · subst_vars
      omega
    · rename_i hqp
      rw [gh q hqp]
      exact hq
  obtain ⟨h₁, h₂, h₃, h₄, h₅⟩ := h
  refine ⟨fun q r wr h1 hq => ?_, fun q r h1 hq => ?_, fun r hr => ?_, fun q hq hqu hn => ?_,
    fun q hq => ?_⟩
  · rw [Core.level, huse] at h1
    exact key r 1 (h₁ q r wr h1 hq)
  · rw [Core.level, huse] at h1
    exact key r 0 (h₂ q r h1 hq)
  · rw [gb] at hr
    exact key _ 1 (h₃ r hr)
  · rw [gl] at hq
    rw [gu] at hn
    rw [huse] at hqu
    exact key q 0 (h₄ q hq hqu hn)
  · rw [huse]
    by_cases hqp : q = p
    · subst hqp
      exact gp hq
    · exact h₅ q (by rw [← gh q hqp]; exact hq)

/-- A page without references is handed out. -/
theorem handOut (h : FrameCounts c g) (hlf : Leaves c g) {p : Pfn} {use : PageUse}
    (hu : c.use p = .free ∨ c.use p = .anonPrivate) (h0 : (c.pages p).refcnt = 0)
    (hp : g.loose = some p) (hr : g.unref = none) :
    FrameCounts ((c.setPage p (VmPage.handedOut use)).setWords p 0) (g.handedOut p use) := by
  have hl0 : c.level p = 0 := c.level_of_plain hu
  have held0 : g.held p = 0 := by
    rcases hu with hu | hu
    · by_contra hn
      rw [h.held_frame p (by omega)] at hu
      cases hu
    · rw [← h.loose p hp hu hr]
      exact h0
  have huse : ∀ q, q ≠ p →
      ((c.setPage p (VmPage.handedOut use)).setWords p 0).use q = c.use q := fun q hq => by
    rw [Core.setWords_use, Core.setPage_use, if_neg hq]
  have hup : ((c.setPage p (VmPage.handedOut use)).setWords p 0).use p = use := by
    rw [Core.setWords_use, Core.setPage_use, if_pos rfl]
    rfl
  have hpg : ∀ q, q ≠ p →
      ((c.setPage p (VmPage.handedOut use)).setWords p 0).pages q = c.pages q := fun q hq =>
    (Core.setPage_pages _ _ _ _).trans (if_neg hq)
  have hgh : ∀ q, q ≠ p → (g.handedOut p use).held q = g.held q := fun q hq => by
    simp only [Ledger.handedOut]
    split
    · rw [incAt_apply, if_neg hq]
    · rfl
  -- an entry of a level 1 table that is not zero is an old one, of another page
  have hold : ∀ (q : PtePtr) (r : Pfn),
      ((c.setPage p (VmPage.handedOut use)).setWords p 0).level q.1 = 1 →
      (((c.setPage p (VmPage.handedOut use)).setWords p 0).entry q).frame = some r.val →
      c.level q.1 = 1 ∧
        ((c.setPage p (VmPage.handedOut use)).setWords p 0).entry q = c.entry q ∧ r ≠ p := by
    intro q r h1 hf
    have hq : q.1 ≠ p := by
      intro hq
      rw [Core.setWords_entry, if_pos hq] at hf
      change (view 0).frame = _ at hf
      rw [view_zero] at hf
      cases hf
    have he := Core.setWords_entry_ne (c.setPage p (VmPage.handedOut use)) p q 0 hq
    have h1' : c.level q.1 = 1 := by
      rw [Core.level, huse _ hq] at h1
      exact h1
    refine ⟨h1', he, ?_⟩
    rintro rfl
    rw [he] at hf
    rcases (hlf.frame_page h1' hf).2 with ⟨-, hn⟩ | ⟨hn, -⟩
    · exact hn hp
    · rw [hr] at hn
      cases hn
  have hlf' := hlf.busy_back
  obtain ⟨h₁, h₂, h₃, h₄, h₅⟩ := h
  refine ⟨fun q r wr h1 hq => ?_, fun q r h1 hq => ?_, fun r hr' => ?_, fun q hq hqu hn => ?_,
    fun q hq => ?_⟩
  · obtain ⟨h1', he, hne⟩ := hold q r h1 (by rw [hq]; rfl)
    rw [hpg r hne, hgh r hne]
    exact h₁ q r wr h1' (he ▸ hq)
  · obtain ⟨h1', he, hne⟩ := hold q r h1 (by rw [hq]; rfl)
    rw [hpg r hne, hgh r hne]
    exact h₂ q r h1' (he ▸ hq)
  · have hne : r.page ≠ p := fun e => (hlf' r hr').2.2.2.2 (e ▸ hp)
    rw [hpg _ hne, hgh _ hne]
    exact h₃ r hr'
  · have hqp : q = p := by
      simp only [Ledger.handedOut] at hq
      split at hq
      · exact (Option.some.inj hq).symm
      · cases hq
    subst hqp
    rw [hup] at hqu
    subst hqu
    simp only [Ledger.handedOut, if_true, incAt_apply, held0]
    exact (congrArg VmPage.refcnt ((Core.setPage_pages _ _ _ _).trans (if_pos rfl)))
  · by_cases hqp : q = p
    · subst hqp
      rw [hup]
      by_contra hne
      simp only [Ledger.handedOut, if_neg hne, held0] at hq
      omega
    · rw [huse q hqp]
      exact h₅ q (by rw [← hgh q hqp]; exact hq)

end FrameCounts

/-! ## Pages that are no tables -/

namespace Idle

/-- Other parts of the core do not matter. -/
theorem of_eq (h : Idle c) (hp : c'.pages = c.pages) (hm : c'.mem = c.mem) : Idle c' := by
  have huse : ∀ p, c'.use p = c.use p := fun p => by rw [Core.use, hp]; rfl
  refine ⟨fun p => ?_, fun p => ?_, fun p => ?_⟩ <;> rw [huse, hp]
  · exact h.plain p
  · exact h.free p
  · exact fun hq => ⟨(h.cleared p hq).1, fun i => by
      rw [Core.entry, hm]
      exact (h.cleared p hq).2 i⟩

/-- Assignments to a page that is neither free nor deleted. -/
theorem setPage (h : Idle c) {p : Pfn} {pg : VmPage} (hf : pg.use ≠ .free) (hd : pg.use ≠ .deleted)
    (hu : pg.use = .anonPrivate → pg.nonzeroPtes = 0 ∧ pg.nonswapPtes = 0) :
    Idle (c.setPage p pg) := by
  obtain ⟨h₁, h₂, h₃⟩ := h
  refine ⟨fun q hq => ?_, fun q hq => ?_, fun q hq => ?_⟩ <;>
    rw [Core.setPage_use] at hq <;> rw [Core.setPage_pages]
  · by_cases hqp : q = p
    · rw [if_pos hqp] at hq ⊢
      exact hu (hq.resolve_left hf)
    · rw [if_neg hqp] at hq ⊢
      exact h₁ q hq
  · by_cases hqp : q = p
    · rw [if_pos hqp] at hq
      exact absurd hq hf
    · rw [if_neg hqp] at hq ⊢
      exact h₂ q hq
  · by_cases hqp : q = p
    · rw [if_pos hqp] at hq
      exact absurd hq (by simp [hf, hd])
    · rw [if_neg hqp] at hq ⊢
      exact h₃ q hq

/-- Assignments to the fields of a page of data or a table, other than its use and, for a page of
data, its counters. -/
theorem setPage_of_use (h : Idle c) {p : Pfn} {pg : VmPage} (hu : pg.use = c.use p)
    (hp : c.use p = .anonPrivate ∧ pg.nonzeroPtes = (c.pages p).nonzeroPtes ∧
      pg.nonswapPtes = (c.pages p).nonswapPtes ∨ 1 ≤ c.level p) : Idle (c.setPage p pg) := by
  rcases hp with ⟨hp, hz, hn⟩ | hl
  · obtain ⟨h₁, h₂⟩ := h.plain p (.inr hp)
    exact h.setPage (by rw [hu, hp]; simp) (by rw [hu, hp]; simp)
      fun _ => ⟨hz.trans h₁, hn.trans h₂⟩
  · have key : ∀ u : PageUse, u.level = 0 → pg.use ≠ u := by
      rintro u hu' rfl
      rw [hu] at hu'
      exact absurd hl (by rw [Core.level, hu']; simp)
    exact h.setPage (key _ rfl) (key _ rfl) fun e => absurd e (key _ rfl)

/-- Assignments to words of tables. -/
theorem setWord (h : Idle c) {ptr : PtePtr} {w : Word} (hl : 1 ≤ c.level ptr.1) :
    Idle (c.setWord ptr w) := by
  refine ⟨h.plain, h.free, fun q hq => ⟨(h.cleared q hq).1, fun i => ?_⟩⟩
  rw [Core.setWord_entry_ne _ _ _ _ ?_]
  · exact (h.cleared q hq).2 i
  · rintro rfl
    rcases hq with hq | hq <;> simp [c.level_of_use hq, PageUse.level] at hl

theorem handOut (h : Idle c) {p : Pfn} {use : PageUse} (hf : use ≠ .free)
    (hd : use ≠ .deleted) : Idle ((c.setPage p (VmPage.handedOut use)).setWords p 0) := by
  have h' : Idle (c.setPage p (VmPage.handedOut use)) := h.setPage hf hd fun _ => ⟨rfl, rfl⟩
  refine ⟨h'.plain, h'.free, fun q hq => ⟨(h'.cleared q hq).1, fun i => ?_⟩⟩
  rw [Core.setWords_entry]
  split
  · exact view_zero
  · exact (h'.cleared q hq).2 i

/-- An empty table is deleted. -/
theorem delete (h : Idle c) {t : Pfn} {pg : VmPage} (hu : pg.use = .deleted)
    (hz : pg.nonzeroPtes = 0) (hempty : ∀ i, c.entry (t, i) = .zero) : Idle (c.setPage t pg) := by
  obtain ⟨h₁, h₂, h₃⟩ := h
  refine ⟨fun q hq => ?_, fun q hq => ?_, fun q hq => ?_⟩ <;>
    rw [Core.setPage_use] at hq <;> rw [Core.setPage_pages]
  · by_cases hqp : q = t
    · rw [if_pos hqp, hu] at hq
      simp at hq
    · rw [if_neg hqp] at hq ⊢
      exact h₁ q hq
  · by_cases hqp : q = t
    · rw [if_pos hqp, hu] at hq
      cases hq
    · rw [if_neg hqp] at hq ⊢
      exact h₂ q hq
  · by_cases hqp : q = t
    · subst hqp
      rw [if_pos rfl]
      exact ⟨hz, hempty⟩
    · rw [if_neg hqp] at hq ⊢
      exact h₃ q hq

/-- A deleted table becomes a free page. -/
theorem free_page (h : Idle c) {t : Pfn} (hu : c.use t = .deleted) :
    Idle (c.setPage t { c.pages t with
      use := .free, refcnt := 0, nonswapPtes := 0, referentPte := 0 }) := by
  have ht := h.cleared t (.inr hu)
  obtain ⟨h₁, h₂, h₃⟩ := h
  refine ⟨fun q hq => ?_, fun q hq => ?_, fun q hq => ?_⟩ <;>
    rw [Core.setPage_use] at hq <;> rw [Core.setPage_pages]
  · by_cases hqp : q = t
    · rw [if_pos hqp]
      exact ⟨ht.1, rfl⟩
    · rw [if_neg hqp] at hq ⊢
      exact h₁ q hq
  · by_cases hqp : q = t
    · rw [if_pos hqp]
      exact ⟨rfl, rfl⟩
    · rw [if_neg hqp] at hq ⊢
      exact h₂ q hq
  · by_cases hqp : q = t
    · subst hqp
      rw [if_pos rfl]
      exact ht
    · rw [if_neg hqp] at hq ⊢
      exact h₃ q hq

end Idle

end VmmSim
