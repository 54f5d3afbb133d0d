import VmmSim.Unwiring

/-!
# Wiring as moves

`vmp_wire_pte` goes down from the root. At each level it takes a reference to the table that the
directory names, or makes that table: it allocates a page, counts its own reference, puts it into
the working set and then names it in the directory. Either way it has the tables of the walk of
its address (`WalkTables`), and every walk that was possible before still is (`Grow`).
-/

namespace VmmSim

open Lib

variable {K : Guard} {s s' : State} {g g' : Ledger}

/-- The tables of the walk of an address from a level up to the root, the lowest first. -/
inductive WalkTables (c : Core) (vaddr : ℕ) : ℕ → List (Option Pfn) → Prop
  | root : WalkTables c vaddr vmpTableLevels [some c.root]
  | down {n : ℕ} {t p : Pfn} {pages : List (Option Pfn)} (h : WalkTables c vaddr (n + 1) (some t :: pages))
      (hn : 1 ≤ n) (he : c.entry (t, vmpAddrUnpack vaddr (n + 1)) = .valid p.val true) :
      WalkTables c vaddr n (some p :: some t :: pages)

namespace WalkTables

variable {c c' : Core} {vaddr n : ℕ} {t : Pfn} {ptr : PtePtr} {pages : List (Option Pfn)}

theorem le (h : WalkTables c vaddr n pages) : n ≤ vmpTableLevels := by
  induction h with
  | root => exact le_rfl
  | down _ _ _ ih => omega

theorem level (h : WalkTables c vaddr n (some t :: pages)) (hd : Dirs c g) : c.level t = n := by
  generalize hl : some t :: pages = l at h
  induction h generalizing t pages with
  | root =>
    simp only [List.cons.injEq, Option.some.injEq] at hl
    rw [hl.1, hd.level_root]
  | down h hn he ih =>
    simp only [List.cons.injEq, Option.some.injEq] at hl
    have hlt := ih rfl
    have := (hd.child (by simp only; omega) he).1
    simp only at this
    rw [hl.1]
    omega

/-- A walk from the last of the tables is a walk from the root. -/
theorem walks (h : WalkTables c vaddr n (some t :: pages)) (hw : Descends c.entry vaddr n t ptr) :
    c.Walks vaddr ptr := by
  generalize hl : some t :: pages = l at h
  induction h generalizing t pages with
  | root =>
    simp only [List.cons.injEq, Option.some.injEq] at hl
    rw [hl.1] at hw
    exact hw
  | down h hn he ih =>
    simp only [List.cons.injEq, Option.some.injEq] at hl
    rw [hl.1] at hw
    exact ih ((Descends.succ_iff hn).2 ⟨_, true, he, hw⟩) rfl

theorem grow (h : WalkTables c vaddr n pages) (hd : Dirs c g) (hg : Grow c c') :
    WalkTables c' vaddr n pages := by
  induction h with
  | root =>
    rw [← hg.root]
    exact .root
  | down h hn he ih =>
    have hlt := h.level hd
    refine .down ih hn ?_
    rw [hg.dir _ (by simp only; omega) (by rw [he]; nofun), he]

/-- The tables of the walk of an address are tables. -/
theorem mem_level (h : WalkTables c vaddr n pages) (hd : Dirs c g) {p : Pfn} (hp : some p ∈ pages) :
    1 ≤ n → 1 ≤ c.level p := by
  induction h with
  | root =>
    simp only [List.mem_singleton, Option.some.injEq] at hp
    rw [hp, hd.level_root]
    exact fun _ => by decide
  | down h hn he ih =>
    intro _
    rcases List.mem_cons.1 hp with hp | hp
    · obtain rfl := Option.some.inj hp
      have := (WalkTables.down h hn he).level hd
      omega
    · exact ih hp (by omega)

end WalkTables

/-! ## What is owed for a wiring -/

/-- What is owed when tables have been wired, and pages were stolen on the way. -/
def Ledger.wire (g : Ledger) (drift : Pfn → ℕ) (pages : List (Option Pfn)) : Ledger :=
  { g with
    drift := drift
    ns := fun p => g.ns p + pages.count (some p)
    nz := fun p => g.nz p + pages.count (some p) }

theorem Ledger.wire_settled (hg : g.Settled) (d : Pfn → ℕ) (pages : List (Option Pfn)) :
    (g.wire d pages).Settled := ⟨hg.loose, hg.unref, hg.fresh, hg.absent⟩

/-- Wiring one table after others. -/
theorem Ledger.wire_wire (g : Ledger) (d d' : Pfn → ℕ) (pages pages' : List (Option Pfn)) :
    (g.wire d pages).wire d' pages' = g.wire d' (pages' ++ pages) := by
  simp only [Ledger.wire, List.count_append, Ledger.mk.injEq, and_true]
  constructor <;>
  · funext q
    omega

theorem Ledger.wire_single (g : Ledger) (d : Pfn → ℕ) (p : Pfn) :
    g.wire d [some p] = { g with drift := d, ns := incAt g.ns p, nz := incAt g.nz p } := by
  simp only [Ledger.wire, Ledger.mk.injEq, and_true]
  constructor <;>
  · funext q
    rw [incAt_apply]
    by_cases h : q = p
    · simp [h]
    · rw [if_neg h, List.count_eq_zero_of_not_mem (by simpa using h), Nat.add_zero]

/-- Releasing a wiring settles what is owed for it. -/
theorem Ledger.unwireAll_wire (g : Ledger) (d : Pfn → ℕ) (pages : List (Option Pfn)) :
    (g.wire d pages).unwireAll pages = { g with drift := d } := by
  simp only [Ledger.unwireAll, Ledger.wire, Nat.add_sub_cancel]

/-- What is owed for a table that was handed out. -/
theorem Ledger.handedOut_table (g : Ledger) (p : Pfn) {use : PageUse} (hu : 1 ≤ use.level) :
    g.handedOut p use = { g with loose := some p, fresh := some p } := by
  have hne : use ≠ .anonPrivate := by
    rintro rfl
    cases hu
  simp only [Ledger.handedOut, if_neg hne, or_true, if_true, hu]

theorem PageUse.handed_ofLevel {n : ℕ} (h₁ : 1 ≤ n) (h₃ : n ≤ 3) : (PageUse.ofLevel n).Handed := by
  obtain rfl | rfl | rfl : n = 1 ∨ n = 2 ∨ n = 3 := by omega
  all_goals exact ⟨by decide, by decide, by decide⟩

/-! ## Making a table -/

theorem Grow.setPage {c : Core} {p : Pfn} {pg : VmPage} (hu : 1 ≤ c.level p → pg.use = c.use p) :
    Grow c (c.setPage p pg) := by
  refine ⟨rfl, rfl, fun q hq => ?_, fun _ _ _ => rfl⟩
  rw [Core.setPage_use]
  split
  · subst_vars
    exact hu hq
  · rfl

theorem Grow.setWord {c : Core} {ptr : PtePtr} {w : Word} (he : c.entry ptr = .zero) :
    Grow c (c.setWord ptr w) :=
  ⟨rfl, rfl, fun _ _ => rfl, fun _ _ hx => Core.setWord_entry_ne _ _ _ _ fun e => hx (e ▸ he)⟩

/-- A wired table that is in the working set and not yet in its directory. -/
structure NewTable (K : Guard) (s : State) (g : Ledger) (p : Pfn) (ptr : PtePtr) (s' : State) :
    Prop where
  made : Made K none s g s'
    { g with ns := incAt g.ns p, nz := incAt g.nz p, fresh := none }
  grow : Grow s.core s'.core
  level : s'.core.level p = s.core.level p
  referent : (s'.pages p).referentPte = ptePaddr ptr
  entry : ∀ x : PtePtr, 2 ≤ s.core.level x.1 → s'.core.entry x = s.core.entry x

theorem wp_wireNewTable (hK : K.maps) (h : Good none s g) {p : Pfn} (ptr : PtePtr)
    (hl : 1 ≤ s.core.level p) (h₃ : s.core.level p ≤ 3) (hlo : g.loose = some p)
    (hf : g.fresh = some p) (h1 : (s.pages p).refcnt = 1) :
    Wp Halt.Defined (wireNewTable s.narrow p ptr) fun r => ∃ s', r = s'.narrow ∧
      NewTable K s g p ptr s' := by
  have hinit : Move K s.core g
      (s.core.setPage p { (s.core.pages p).bump true with referentPte := ptePaddr ptr })
      { g with ns := incAt g.ns p, nz := incAt g.nz p } := .initTable p ptr hl hlo hf h1 hK
  have hmade : Made K none s g
      (s.modifyPage p fun pg => { pg.bump true with referentPte := ptePaddr ptr })
      { g with ns := incAt g.ns p, nz := incAt g.nz p } := by
    refine .of_move hinit rfl (h.queues.modifyActive (by omega) ?_ ?_) (.of_wsl rfl rfl)
    · simp [VmPage.bump]
    · simp only [VmPage.bump, h1]
      decide
  have heq : wireNewTable s.narrow p ptr = vmpWslInsert
      (s.modifyPage p fun pg => { pg.bump true with referentPte := ptePaddr ptr }).narrow
      (s.tableVaddr p) true true := by
    have hset := State.narrow_modifyPage
      (s.modifyPage p fun pg => { pg with refcnt := pg.refcnt + 1 }) p
      (f := fun pg => { pg with
        nonzeroPtes := inc16 pg.nonzeroPtes
        nonswapPtes := inc16 pg.nonswapPtes
        referentPte := ptePaddr ptr })
      (k := fun pg => { pg with
        nonzeroPtes := inc16 pg.nonzeroPtes
        nonswapPtes := inc16 pg.nonswapPtes
        referentPte := ptePaddr ptr }) (VmPage.narrow_counters _ _ _ _)
    simp only [wireNewTable, vmpPageRetainLocked_active (show (s.pages p).refcnt ≠ 0 by omega)
      (show (s.pages p).refcnt < 2 ^ 16 by omega), ok_bind]
    rw [hset]
    simp only [State.modifyPage, Function.update_self, Function.update_idem, VmPage.bump, if_true]
    rfl
  rw [heq]
  have hu : ({ (s.core.pages p).bump true with referentPte := ptePaddr ptr } : VmPage).use =
      s.core.use p := VmPage.bump_use true (s.core.pages p)
  have hlv : ∀ q, (s.core.setPage p
      { (s.core.pages p).bump true with referentPte := ptePaddr ptr }).level q = s.core.level q :=
    Core.setPage_level_of hu
  have insert := wp_vmpWslInsert_table (K := K) (hmade.good h) (t := p) hlo hf
    (hl.trans (hlv p).ge) ((hlv p).le.trans h₃)
    (by simp only [incAt_apply, if_true]; omega)
  refine ((vmpWslInsert_narrow _ _ _ _).wp insert
    (by rintro e rfl; exact Halt.defined_kassert)).mono ?_
  rintro r ⟨s₁, rfl, hs₁⟩
  have hcalm := hs₁.made.calm (hmade.good h).inv
  have hlp := (hcalm.level (hl.trans (hlv p).ge)).trans (hlv p)
  refine ⟨s₁, rfl, hmade.trans hs₁.made.mono, (Grow.setPage fun _ => hu).trans hcalm.grow, hlp,
    ?_, fun x hx => ?_⟩
  · refine (hcalm.referent p (hl.trans (hlv p).ge)).trans ?_
    simp [State.core]
  · have hx' : 2 ≤ (s.core.setPage p
        { (s.core.pages p).bump true with referentPte := ptePaddr ptr }).level x.1 := by
      rw [hlv]
      exact hx
    exact hcalm.entry x (le_trans (by decide) hx') (.inl hx')

/-- What wiring one table leaves. -/
structure Wired (K : Guard) (s : State) (g : Ledger) (s' : State) (pages : List (Option Pfn)) :
    Prop where
  made : ∃ d, Made K none s g s' (g.wire d pages)
  grow : Grow s.core s'.core

/-- `vmp_md_setup_table_pointers` for a new table. -/
theorem wp_setupTablePointers (hK : K.maps) (h : Good none s g) {p : Pfn} {ptr : PtePtr}
    (hl : 1 ≤ s.core.level p) (hd : s.core.level ptr.1 = s.core.level p + 1)
    (hlo : g.loose = some p) (hf : g.fresh = none) (hz : 0 < g.nz p)
    (he : s.core.entry ptr = .zero) (hr : (s.pages p).referentPte = ptePaddr ptr) :
    Wp (fun _ => True) (vmpMdSetupTablePointers s.narrow ptr.1 p ptr true) fun r =>
      ∃ s', r = s'.narrow ∧ Made K none s g s' { g with loose := none } ∧ Grow s.core s'.core ∧
        s'.core.entry ptr = .valid p.val true := by
  unfold vmpMdSetupTablePointers
  refine Wp.bind (wp_nonswapPteCreated_wrapped (K := K.calm) h (t := ptr.1) true
    (by omega) (by rw [hf]; nofun)) ?_
  rintro r ⟨s₁, rfl, hs₁, hc₁⟩
  have hcalm := hs₁.calm h.inv
  have hl₁ := hcalm.level hl
  have hd₁ := hcalm.level (p := ptr.1) (by omega)
  have he₁ : s₁.core.entry ptr = .zero := by
    rw [hcalm.entry ptr (by omega) (.inl (by omega)), he]
  have hr₁ : (s₁.core.pages p).referentPte = ptePaddr ptr := (hcalm.referent p hl).trans hr
  have hattach : Move K s₁.core
      { g with ns := incAt g.ns ptr.1, nz := if true then incAt g.nz ptr.1 else g.nz }
      (s₁.core.setWord ptr (vmpPteHwCreate p.val true)) { g with loose := none } := by
    have := Move.attach (K := K) (c := s₁.core) (g :=
      { g with ns := incAt g.ns ptr.1, nz := if true then incAt g.nz ptr.1 else g.nz }) ptr p
      (by omega) (by omega) he₁ hlo hf hr₁ (by simp [incAt_apply])
      (by simp only [if_true, incAt_apply]; split <;> omega) hK
    simpa only [if_true, decAt_incAt] using this
  refine ⟨s₁.setPte ptr (vmpPteHwCreate p.val true), rfl,
    hs₁.mono.trans (.of_move hattach rfl hs₁.queues (.of_wsl rfl rfl)), hcalm.grow.trans (.setWord he₁), ?_⟩
  rw [core_setPte, Core.setWord_entry_self, view_hwCreate_pfn]

/-! ## Wiring -/

/-- The zero case of `vmp_wire_pte`. -/
theorem wp_wireZero (hK : K.maps) (h : Good none s g) (hg : g.Settled) {level : ℕ} {ptr : PtePtr}
    (hd : s.core.level ptr.1 = level) (h2 : 2 ≤ level) (he : s.core.entry ptr = .zero)
    (hs : StealOk K s) :
    Wp (fun _ => True) (wireZero s.narrow level ptr.1 ptr) fun r => ∃ s', r.2 = s'.narrow ∧
      Wired K s g s' [some r.1] ∧ s'.core.entry ptr = .valid r.1.val true := by
  have hle := (s.core.use ptr.1).level_le
  have h4 : level ≤ 4 := hd ▸ hle
  have hu := PageUse.handed_ofLevel (n := level - 1) (by omega) (by omega)
  have hlu := PageUse.level_ofLevel (n := level - 1) (by omega) (by omega)
  unfold wireZero
  refine Wp.bind (wp_alloc h hg hs hu false).weaken ?_
  rintro ⟨page, r⟩ ⟨s₁, rfl, hs₁⟩
  cases page with
  | none => trivial
  | some p =>
    obtain ⟨d, hmade⟩ := hs₁.made
    rw [Ledger.handedOut_table _ _ (by omega)] at hmade
    have hcalm := hmade.calm h.inv
    have hgood := hmade.good h
    have hlp : s₁.core.level p = level - 1 := by
      rw [Core.level, Core.use, show s₁.core.pages p = s₁.pages p from rfl, hs₁.page]
      exact hlu
    have hld := hcalm.level (p := ptr.1) (by omega)
    refine Wp.bind (wp_wireNewTable hK hgood ptr (by omega) (by omega) rfl rfl
      (by rw [hs₁.page]; rfl)).weaken ?_
    rintro r ⟨s₂, rfl, hs₂⟩
    have hgrow := hcalm.grow.trans hs₂.grow
    have he₂ : s₂.core.entry ptr = .zero := by
      rw [hs₂.entry ptr (by omega), hcalm.entry ptr (by omega) (.inl (by omega)), he]
    have hl₂ := hs₂.level
    have hld₂ := hgrow.level (p := ptr.1) (by omega)
    refine Wp.bind (wp_setupTablePointers hK (hs₂.made.good hgood) (p := p)
      (by omega) (by omega) rfl rfl (by simp [incAt_apply]) he₂ hs₂.referent) ?_
    rintro r ⟨s₃, rfl, hs₃, hgrow₃, he₃⟩
    refine ⟨s₃, rfl, ⟨⟨d, ((hmade.mono.trans hs₂.made).trans hs₃).cast ?_⟩, hgrow.trans hgrow₃⟩, he₃⟩
    simp only [Ledger.wire_single, hg.loose, hg.fresh]

/-- The switch of `vmp_wire_pte`. -/
theorem wp_wireLevel (hK : K.maps) (h : Good none s g) (hg : g.Settled) {level : ℕ} {ptr : PtePtr}
    (hd : s.core.level ptr.1 = level) (h2 : 2 ≤ level)
    (hs : s.core.entry ptr = .zero → StealOk K s) :
    Wp (fun _ => True) (wireLevel s.narrow level ptr.1 ptr) fun r => ∃ s', r.2 = s'.narrow ∧
      Wired K s g s' [some r.1] ∧ s'.core.entry ptr = .valid r.1.val true := by
  unfold wireLevel
  rw [State.narrow_pte, characterise_eq_kind]
  obtain he | ⟨p, he, hlp, -, -⟩ := h.inv.dirs.dir ptr (by omega)
  · rw [show view (s.pte ptr) = .zero from he]
    exact wp_wireZero hK h hg hd h2 he (hs he)
  · have hv : view (s.pte ptr) = .valid p.val true := he
    simp only [hv, Pte.kind, ok_bind, vmpPteHwPage_of_view hv]
    refine Wp.bind (wp_nonswapPteCreated_wrapped (K := K.calm) h (t := p) true
      (by omega) (by rw [hg.fresh]; exact (Option.some_ne_none _).symm)) ?_
    rintro r ⟨s₁, rfl, hs₁, hc₁⟩
    have hcalm := hs₁.calm h.inv
    refine ⟨s₁, rfl, ⟨⟨g.drift, hs₁.mono.cast ?_⟩, hcalm.grow⟩, ?_⟩
    · simp only [Ledger.wire_single, if_true]
    rw [hcalm.entry ptr (by omega) (.inl (by omega)), he]

/-- `P` holds of each state in which the loop of `vmp_wire_pte` allocates a table. -/
def wireAllocs (P : State → Prop) (vaddr : ℕ) : ℕ → State → Pfn → Prop
  | 0, _, _ => True
  | 1, _, _ => True
  | level + 1, s, table =>
    (s.pte (table, vmpAddrUnpack vaddr (level + 1)) = 0 → P s) ∧
      ∀ page s', wireLevel s (level + 1) table (table, vmpAddrUnpack vaddr (level + 1)) =
        .ok (page, s') → wireAllocs P vaddr level s' page

theorem wireAllocs_of_forall {P : State → Prop} (hP : ∀ s, P s) (vaddr : ℕ) : ∀ (level : ℕ)
    (s : State) (table : Pfn), wireAllocs P vaddr level s table
  | 0, _, _ => trivial
  | 1, _, _ => trivial
  | level + 2, s, _ => ⟨fun _ => hP s, fun page s' _ => wireAllocs_of_forall hP vaddr (level + 1) s' page⟩

/-- Where `P` holds and as many references are held as in `g`, the next page may be stolen. -/
def AllocsOk (K : Guard) (P : State → Prop) (g : Ledger) : Prop :=
  ∀ s g', Good none s g' → g'.Settled → g'.held = g.held → P s.narrow → StealOk K s

/-- What wiring an address leaves. -/
structure WiredPte (K : Guard) (vaddr : ℕ) (s : State) (g : Ledger) (st : WireState) (s' : State) :
    Prop extends Wired K s g s' st.pages where
  walks : s'.core.Walks vaddr st.pte
  tables : WalkTables s'.core vaddr 1 st.pages
  head : st.pages.head? = some (some st.pte.1)
  pte : st.pte.2 = vmpAddrUnpack vaddr 1

/-- The loop of `vmp_wire_pte`, for the tables wired since `s₀`. -/
theorem wp_wireFrom (hK : K.maps) {P : State → Prop} (hP : AllocsOk K P g)
    (vaddr : ℕ) {s₀ : State} (h₀ : Good none s₀ g) (hg : g.Settled) : ∀ (level : ℕ) {s : State}
    {t : Pfn} {pages : List (Option Pfn)}, Wired K s₀ g s (some t :: pages) →
    WalkTables s.core vaddr level (some t :: pages) → wireAllocs P vaddr level s.narrow t →
    Wp (fun _ => True) (wireFrom vaddr level s.narrow t (some t :: pages)) fun r =>
      ∃ s', r.2 = s'.narrow ∧ WiredPte K vaddr s₀ g r.1 s' := by
  intro level
  induction level with
  | zero => exact fun _ _ _ => trivial
  | succ n ih =>
    intro s t pages hw ht ha
    obtain ⟨d, hmade⟩ := hw.made
    have hgood := hmade.good h₀
    have hlt := ht.level hgood.inv.dirs
    cases n with
    | zero => exact ⟨s, rfl, hw, ht.walks rfl, ht, rfl, rfl⟩
    | succ n =>
      have hsettled := Ledger.wire_settled hg d (some t :: pages)
      have level_ : Wp _ (wireLevel s.narrow (n + 2) t (t, vmpAddrUnpack vaddr (n + 2))) _ :=
        wp_wireLevel hK hgood hsettled hlt (by omega)
        fun he => hP s _ hgood hsettled (by rfl) (ha.1 (view_eq_zero_iff.1 he))
      refine Wp.bind (R := fun r => ∃ s', r.2 = s'.narrow ∧
        Wired K s (g.wire d (some t :: pages)) s' [some r.1] ∧
        s'.core.entry (t, vmpAddrUnpack vaddr (n + 2)) = .valid r.1.val true ∧
        wireAllocs P vaddr (n + 1) r.2 r.1) ?_ ?_
      · refine Wp.intro (fun r hr => ?_) fun _ _ => trivial
        obtain ⟨s', hs', hw', he'⟩ := level_.of_ok hr
        exact ⟨s', hs', hw', he', ha.2 r.1 r.2 hr⟩
      · rintro ⟨p, r⟩ ⟨s₁, rfl, hw₁, he₁, ha₁⟩
        obtain ⟨d₁, hmade₁⟩ := hw₁.made
        exact ih ⟨⟨d₁, (hmade.trans hmade₁).cast (Ledger.wire_wire g d d₁ _ [some p])⟩,
          hw.grow.trans hw₁.grow⟩ (.down (ht.grow hgood.inv.dirs hw₁.grow) (by omega) he₁) ha₁

/-- `P` holds of each state in which `vmp_wire_pte` allocates a table. -/
def wirePteAllocs (P : State → Prop) (s : State) (vaddr : ℕ) : Prop :=
  ∀ s', vmpPagetablePageNonswapPteCreated s s.pml4Page true = .ok s' →
    wireAllocs P vaddr vmpTableLevels s' s.pml4Page

/-- **Wiring an address makes moves.** -/
theorem wp_vmpWirePte (hK : K.maps) {P : State → Prop} (hP : AllocsOk K P g)
    (h : Good none s g) (hg : g.Settled) (vaddr : ℕ) (ha : wirePteAllocs P s.narrow vaddr) :
    Wp (fun _ => True) (vmpWirePte s.narrow vaddr) fun r => ∃ s', r.2 = s'.narrow ∧
      WiredPte K vaddr s g r.1 s' := by
  have hroot : s.core.level s.pml4Page = 4 := h.inv.dirs.level_root
  have bump := wp_nonswapPteCreated_wrapped (K := K.calm) h (t := s.pml4Page) true
    (by omega) (by rw [hg.fresh]; nofun)
  unfold vmpWirePte
  refine Wp.bind (R := fun r => (∃ s', r = s'.narrow ∧ Made K.calm none s g s'
    { g with ns := incAt g.ns s.pml4Page, nz := incAt g.nz s.pml4Page }) ∧
    wireAllocs P vaddr vmpTableLevels r s.pml4Page) ?_ ?_
  · refine Wp.intro (fun r hr => ?_) fun _ _ => trivial
    obtain ⟨s', hs', hm, -⟩ := bump.of_ok hr
    exact ⟨⟨s', hs', hm⟩, ha r hr⟩
  · rintro r ⟨⟨s₁, rfl, hm⟩, ha₁⟩
    have hcalm := hm.calm h.inv
    have hr₁ : s₁.pml4Page = s.pml4Page := hcalm.root
    rw [State.narrow_pml4Page, hr₁]
    refine wp_wireFrom hK hP vaddr h hg vmpTableLevels ⟨⟨g.drift, hm.mono.cast ?_⟩, hcalm.grow⟩ ?_ ha₁
    · rw [Ledger.wire_single]
    · have h₁ : WalkTables s₁.core vaddr vmpTableLevels [some s₁.core.root] := .root
      rwa [show s₁.core.root = s.pml4Page from hr₁] at h₁

end VmmSim
