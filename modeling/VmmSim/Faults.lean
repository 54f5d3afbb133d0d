import VmmSim.Wiring

/-!
# Faults as moves

Each branch of the second part of `do_fault` maps the page of one entry by a few moves, fills a
slot of the caller's list, and gives the wiring back. What a branch leaves of the ledger is the same
for all (`Faulted`): the references of the wiring are gone, a page in the list has one more
reference, and a fault that went to sleep has a swap-in under way.
-/

namespace VmmSim

open Lib

variable {K : Guard} {s s' : State} {g g' : Ledger}

theorem incAt_decAt {f : Pfn → ℕ} {p : Pfn} (h : 1 ≤ f p) : incAt (decAt f p) p = f := by
  funext q
  rw [incAt_apply, decAt_apply, decAt_apply]
  split
  · subst_vars
    rw [if_pos rfl]
    omega
  · rfl

/-- A leaf entry is on the way of no walk. -/
theorem Dirs.walks_setWord {c : Core} (h : Dirs c g) {ptr x : PtePtr} (hl : c.level ptr.1 = 1)
    (w : Word) {vaddr : ℕ} : (c.setWord ptr w).Walks vaddr x ↔ c.Walks vaddr x := by
  have hdir : ∀ y : PtePtr, 2 ≤ c.level y.1 → (c.setWord ptr w).entry y = c.entry y :=
    fun y hy => c.setWord_entry_ne _ _ _ fun e => by
      rw [e] at hy
      omega
  exact h.walks_congr hdir rfl

/-! ## Memory descriptor lists -/

/-- The slots of a list from its offset on are empty. -/
structure Mdl.Ok (m : Mdl) : Prop where
  aligned : m.offset % pgSize = 0
  empty : ∀ i p, m.offset / pgSize ≤ i → m.pages[i]? ≠ some (some p)

/-- The number of slots of a caller's list that hold a page. -/
def mdlSlots (out : Option Mdl) (p : Pfn) : ℕ :=
  match out with
  | none => 0
  | some m => m.pages.count (some p)

/-- A list with one more slot filled. -/
def Mdl.fill (p : Pfn) (m : Mdl) : Mdl :=
  { m with
    pages := m.pages.set (m.offset / pgSize) (some p)
    offset := m.offset + pgSize }

/-- A caller's list, if there is one, has a slot free. -/
def HasSlot (out : Option Mdl) : Prop := ∀ m ∈ out, m.offset / pgSize < m.pages.length

/-- What filling a slot of a caller's list leaves. -/
structure Filled (K : Guard) (s : State) (g : Ledger) (out : Option Mdl) (s' : State) (g' : Ledger)
    (out' : Option Mdl) : Prop where
  made : Made K none s g s' g'
  held : ∃ h, g' = { g with held := h } ∧ ∀ p, h p + mdlSlots out p = g.held p + mdlSlots out' p
  ok : ∀ m ∈ out', m.Ok
  some_iff : out'.isSome = out.isSome
  entry : s'.core.entry = s.core.entry
  root : s'.core.root = s.core.root

namespace Filled

variable {out : Option Mdl}

theorem refl (h : Good none s g) (ho : ∀ m ∈ out, m.Ok) : Filled K s g out s g out :=
  ⟨.refl h, ⟨g.held, rfl, fun _ => rfl⟩, ho, rfl, rfl, rfl⟩

theorem walks {s' : State} {g' : Ledger} {out' : Option Mdl} (h : Filled K s g out s' g' out')
    {vaddr : ℕ} {ptr : PtePtr} (hw : s.core.Walks vaddr ptr) : s'.core.Walks vaddr ptr := by
  rw [Core.Walks, h.entry, h.root]
  exact hw

end Filled

/-- A slot that was empty is filled. -/
theorem count_set_none {l : List (Option Pfn)} {i : ℕ} (hi : i < l.length)
    (he : ∀ q, l[i]? ≠ some (some q)) (p q : Pfn) :
    (l.set i (some p)).count (some q) = l.count (some q) + if q = p then 1 else 0 := by
  have hn : l[i] = none := by
    cases hl : l[i] with
    | none => rfl
    | some q => exact absurd (by rw [List.getElem?_eq_getElem hi, hl]) (he q)
  rw [List.count_set hi, hn]
  by_cases h : q = p
  · simp [h]
  · simp [h, Ne.symm h]

theorem wp_fillMdl (h : Good none s g) {p : Pfn} (hu : s.core.use p = .anonPrivate)
    (hp : g.loose ≠ some p) (hb : ∀ r ∈ g.busy, r.page = p → K.finish r) {out : Mdl} (ho : out.Ok) :
    Wp (fun _ => True) (fillMdl s.narrow p out) fun r => ∃ s' g', r.2 = s'.narrow ∧
      Filled K s g (some out) s' g' (some r.1) ∧ r.1 = out.fill p ∧ HasSlot (some out) := by
  unfold fillMdl
  refine Wp.bind (wp_vmpPageRetainLocked_hold_wrapped h (by nofun) hu hp hb) ?_
  rintro r ⟨s₁, rfl, hs₁, hc₁⟩
  split
  · rename_i hlt
    have hcount := count_set_none hlt (fun q => ho.empty _ q le_rfl) p
    have hdiv : (out.offset + pgSize) / pgSize = out.offset / pgSize + 1 := by
      simp only [pgSize]
      omega
    refine ⟨s₁, _, rfl, ⟨hs₁, ⟨_, rfl, fun q => ?_⟩, ?_, rfl, by rw [hc₁]; rfl, by rw [hc₁]; rfl⟩, rfl,
      fun m hm => Option.some.inj hm ▸ hlt⟩
    · simp only [mdlSlots, hcount, incAt_apply]
      split
      · subst_vars
        omega
      · omega
    · rintro m hm
      obtain rfl := Option.some.inj hm
      refine ⟨?_, fun i q hi => ?_⟩
      · have := ho.aligned
        simp only [pgSize] at *
        omega
      · simp only [hdiv] at hi
        rw [List.getElem?_set_ne (by omega)]
        exact ho.empty i q (by omega)
  · trivial

/-- Filling a slot of the list, when there is one. -/
theorem wp_fillOut (h : Good none s g) {p : Pfn} (hu : s.core.use p = .anonPrivate)
    (hp : g.loose ≠ some p) (hb : ∀ r ∈ g.busy, r.page = p → K.finish r) {out : Option Mdl}
    (ho : ∀ m ∈ out, m.Ok) :
    Wp (fun _ => True) (fillOut s.narrow p out) fun r => ∃ s' g', r.2 = s'.narrow ∧
      Filled K s g out s' g' r.1 ∧ r.1 = out.map (Mdl.fill p) ∧ HasSlot out := by
  cases out with
  | none => exact ⟨s, g, rfl, .refl h ho, rfl, nofun⟩
  | some out =>
    refine Wp.bind (wp_fillMdl h hu hp hb (ho out rfl)) ?_
    rintro ⟨out', r⟩ ⟨s', g', rfl, hf, hfill, hslot⟩
    exact ⟨s', g', rfl, hf, congrArg some hfill, hslot⟩

/-- The same for the page of a valid entry. -/
theorem wp_fillFromPte (h : Good none s g) {p : Pfn} (hu : s.core.use p = .anonPrivate)
    (hp : g.loose ≠ some p) {ptr : PtePtr} {wr : Bool} (hl : s.core.level ptr.1 = 1)
    (he : s.core.entry ptr = .valid p.val wr) {out : Option Mdl} (ho : ∀ m ∈ out, m.Ok) :
    Wp (fun _ => True) (fillFromPte s.narrow ptr out) fun r => ∃ s' g', r.2 = s'.narrow ∧
      Filled K s g out s' g' r.1 ∧ r.1 = out.map (Mdl.fill p) ∧ HasSlot out := by
  cases out with
  | none => exact ⟨s, g, rfl, .refl h ho, rfl, nofun⟩
  | some out =>
    have hpage : vmpPteHwPage (s.narrow.pte ptr) = .ok p := vmpPteHwPage_of_view he
    simp only [fillFromPte, hpage, ok_bind]
    exact wp_fillOut h hu hp (fun r hr hrp => absurd hrp
      (h.inv.leaves.page_ne hl (by rw [he]; rfl) hr)) ho

/-! ## The branches -/

/-- What the second part of a fault needs of its wiring. -/
structure FaultReady (s : State) (g : Ledger) (vaddr : ℕ) (st : WireState) : Prop where
  walks : s.core.Walks vaddr st.pte
  head : st.pages.head? = some (some st.pte.1)
  owed : ∀ p, st.pages.count (some p) ≤ g.nz p

namespace FaultReady

variable {vaddr : ℕ} {st : WireState}

theorem table (h : FaultReady s g vaddr st) : wiredTable st = .ok st.pte.1 := by
  obtain ⟨pages, hp⟩ := List.head?_eq_some_iff.1 h.head
  simp only [wiredTable, hp]

theorem nz_pos (h : FaultReady s g vaddr st) : 1 ≤ g.nz st.pte.1 := by
  obtain ⟨pages, hp⟩ := List.head?_eq_some_iff.1 h.head
  have := h.owed st.pte.1
  rw [hp, List.count_cons_self] at this
  omega

theorem calm (h : FaultReady s g vaddr st) (hd : Dirs s.core g) (hc : Calm s.core s'.core)
    (hn : g'.nz = g.nz) : FaultReady s' g' vaddr st :=
  ⟨(hc.walks hd).2 h.walks, h.head, by rw [hn]; exact h.owed⟩

end FaultReady

/-- What a fault leaves, once it has given back the wiring of some pages. -/
structure Faulted (K : Guard) (s : State) (g : Ledger) (out : Option Mdl) (busy : List Swapping)
    (pages : List (Option Pfn)) (s' : State) (g' : Ledger) (out' : Option Mdl) : Prop where
  made : Made K none s g s' g'
  settled : g'.Settled
  ns : g'.ns = fun p => g.ns p - pages.count (some p)
  nz : g'.nz = fun p => g.nz p - pages.count (some p)
  held : ∀ p, g'.held p + mdlSlots out p = g.held p + mdlSlots out' p
  busy : g'.busy = g.busy ++ busy
  ok : ∀ m ∈ out', m.Ok
  some_iff : out'.isSome = out.isSome

namespace Faulted

variable {out out' : Option Mdl} {busy : List Swapping}

/-- A branch that filled a slot. -/
theorem of_filled {s₁ : State} {g₁ : Ledger} (hm : Made K none s g s₁ g₁)
    (hg : g₁ = { g with drift := g₁.drift, busy := g.busy ++ busy }) (hs : g.Settled)
    (hf : Filled K s₁ g₁ out s' g' out') : Faulted K s g out busy [] s' g' out' := by
  obtain ⟨held, rfl, hh⟩ := hf.held
  refine ⟨hm.trans hf.made, ?_, ?_, ?_, fun p => ?_, ?_, hf.ok, hf.some_iff⟩
  · rw [hg]
    exact ⟨hs.loose, hs.unref, hs.fresh, hs.absent⟩
  · rw [hg]
    simp
  · rw [hg]
    simp
  · have := hh p
    rw [hg] at this
    exact this
  · rw [hg]

/-- The end of a branch. -/
theorem release (hK : K.maps) (h : Good none s g) (hf : Faulted K s g out busy [] s' g' out')
    {pages : List (Option Pfn)} (hn : ∀ p, pages.count (some p) ≤ g.nz p) :
    Wp (fun _ => True) (releaseWired s'.narrow pages) fun r => ∃ s'' g'', r = s''.narrow ∧
      Made K none s' g' s'' g'' ∧ Faulted K s g out busy pages s'' g'' out' ∧
        Untouched s' s'' := by
  have hnz : g'.nz = g.nz := hf.nz
  have hns : g'.ns = g.ns := hf.ns
  have wp := wp_releaseWired hK pages (hf.made.good h) hf.settled (by rw [hnz]; exact hn)
  refine ((releaseWired_narrow pages s').wp wp.weaken fun _ _ => trivial).mono ?_
  rintro r ⟨s'', rfl, hm, hkept⟩
  refine ⟨s'', _, rfl, hm, ⟨hf.made.trans hm, ?_, ?_, ?_, hf.held, hf.busy, hf.ok, hf.some_iff⟩,
    hkept⟩
  · exact ⟨hf.settled.loose, hf.settled.unref, hf.settled.fresh, hf.settled.absent⟩
  · rw [Ledger.unwireAll, hns]
  · rw [Ledger.unwireAll, hnz]

end Faulted

/-- The swap-in that a fault leaves under way. -/
def FaultEnd.swapping (vaddr : ℕ) (st : WireState) : FaultEnd → List Swapping
  | .ret _ => []
  | .sleep page => [⟨vaddr, st.pte, page⟩]

/-- What a fault that returns 0 makes of the entry and of the caller's list: one case for each
branch. -/
inductive Served (write : Bool) (vad : Vad) (out : Option Mdl) : Pte → Pte → Option Mdl → Prop
  | zeroFill (p : Pfn) (hs : HasSlot out) :
      Served write vad out .zero (.valid p.val (write && vad.writeable)) (out.map (Mdl.fill p))
  | soft (p : Pfn) (hs : write = false → HasSlot out) :
      Served write vad out (.trans p.val) (.valid p.val false)
        (if write then out else out.map (Mdl.fill p))
  | resident (p : Pfn) (wr : Bool) (h : write = true → wr = true) (hs : HasSlot out) :
      Served write vad out (.valid p.val wr) (.valid p.val wr) (out.map (Mdl.fill p))
  | upgrade (p : Pfn) (hw : write = true) (hc : vad.cow = false) (hs : HasSlot out) :
      Served write vad out (.valid p.val false) (.valid p.val true) (out.map (Mdl.fill p))
  | swapIn (slot : ℕ) (p : Pfn) (hs : HasSlot out) :
      Served write vad out (.swap slot) (.valid p.val false) (out.map (Mdl.fill p))

theorem Served.valid {write : Bool} {vad : Vad} {out out' : Option Mdl} {e e' : Pte}
    (h : Served write vad out e e' out') : ∃ (p : Pfn) (wr : Bool), e' = .valid p.val wr := by
  cases h with
  | zeroFill p => exact ⟨p, _, rfl⟩
  | soft p => exact ⟨p, _, rfl⟩
  | resident p wr => exact ⟨p, _, rfl⟩
  | upgrade p => exact ⟨p, _, rfl⟩
  | swapIn slot p => exact ⟨p, _, rfl⟩

/-- What the second part of a fault ends in. -/
def FaultDone (K : Guard) (s : State) (g : Ledger) (vaddr : ℕ) (write : Bool) (vad : Vad)
    (st : WireState) (out : Option Mdl) (pagerState : ℕ) (r : FaultEnd × Option Mdl × State) : Prop :=
  ∃ (s' : State) (g' : Ledger), r.2.2 = s'.narrow ∧
    Faulted K s g out (r.1.swapping vaddr st) st.pages s' g' r.2.1 ∧
    (∀ page, r.1 = .sleep page → (∃ slot, s.core.entry st.pte = .swap slot) ∧
      s'.core.entry st.pte = view (vmpPteBusyCreate pagerState) ∧ r.2.1 = out) ∧
    (r.1 = .ret 0 → s'.core.Walks vaddr st.pte ∧
      Served write vad out (s.core.entry st.pte) (s'.core.entry st.pte) r.2.1)

variable {vaddr pagerState : ℕ} {st : WireState} {out : Option Mdl} {write : Bool} {vad : Vad}

/-- An entry that maps a page survives the release of the wiring, and so does its walk. -/
theorem Untouched.leaf (hk : Untouched s s') (h : Good none s g) (h' : Good none s' g')
    (hg : g.Settled) (hg' : g'.Settled) {ptr : PtePtr} {p : Pfn} {wr : Bool}
    (hw : s.core.Walks vaddr ptr) (he : s.core.entry ptr = .valid p.val wr) :
    s'.core.entry ptr = s.core.entry ptr ∧ s'.core.Walks vaddr ptr := by
  have hl := h.inv.dirs.level_of_walks hw
  obtain ⟨q, hq, hu, hown⟩ := h.inv.leaves.frame ptr p.val hl (by rw [he]; rfl)
  obtain rfl : p = q := Fin.ext hq
  have href : (s.core.pages p).referentPte = ptePaddr ptr :=
    (hown.resolve_right fun e => by rw [hg.loose] at e; cases e.2).1
  have hpage : s'.core.pages p = s.core.pages p := hk.pages p (s.core.level_of_plain (.inr hu))
  -- the page is still there, and so is the table that its address is in
  obtain ⟨x, hx, hxr, -⟩ := h'.inv.leaves.frame_back p (by rw [Core.use, hpage]; exact hu)
    (by rw [hg'.loose]; exact (Option.some_ne_none _).symm)
  rw [hpage, href] at hxr
  obtain rfl : ptr = x := ptePaddr_injective hxr
  refine ⟨?_, ?_⟩
  · exact congrArg (fun d : Contents => view (d ptr.2)) (hk.mem ptr.1 hl.le)
  · obtain ⟨hroot, hdown⟩ := hk.descends h.inv.dirs h'.inv.dirs hg'.loose hx
      h.inv.dirs.level_root (by decide) hw
    rw [Core.Walks, h'.inv.dirs.root_only _ hroot |>.symm]
    exact hdown

theorem wp_faultOut (hK : K.maps) (h : Good none s g) (hr : FaultReady s g vaddr st) {s₁ : State}
    {g₁ : Ledger} {out₁ : Option Mdl} (hf : Faulted K s g out [] [] s₁ g₁ out₁) (res : ℤ)
    (hserved : res = 0 → s₁.core.Walks vaddr st.pte ∧
      Served write vad out (s.core.entry st.pte) (s₁.core.entry st.pte) out₁) :
    Wp (fun _ => True) (faultOut s₁.narrow st out₁ res)
      (FaultDone K s g vaddr write vad st out pagerState) := by
  refine Wp.bind (hf.release hK h hr.owed) ?_
  rintro r ⟨s', g', rfl, hm, hs', hk⟩
  refine ⟨s', g', rfl, hs', nofun, fun hres => ?_⟩
  obtain ⟨hw, hserve⟩ := hserved (FaultEnd.ret.inj hres)
  obtain ⟨p, wr, he⟩ := hserve.valid
  have hgood := hf.made.good h
  obtain ⟨hentry, hwalk⟩ := hk.leaf hgood (hm.good hgood) hf.settled hs'.settled hw he
  exact ⟨hwalk, hentry ▸ hserve⟩

/-- A page of data that is neither held nor read by a fault that is not in its tables. -/
theorem wp_faultZeroFill (hK : K.maps) (h : Good none s g) (hr : FaultReady s g vaddr st)
    {page : Pfn} (hlo : g.loose = some page) (hun : g.unref = none) (hfr : g.fresh = none)
    (hab : g.absent = none) (hu : s.core.use page = .anonPrivate) (hh : 1 ≤ g.held page)
    (he : s.core.entry st.pte = .zero)
    (hw : (write && vad.writeable) = true → K.write s.core st.pte) :
    Wp (fun _ => True) (faultZeroFill s.narrow vaddr write vad st page) fun r => ∃ s', r = s'.narrow ∧
      Made K none s g s' { g with held := decAt g.held page, loose := none } ∧
      s'.core.use page = .anonPrivate ∧ s'.core.Walks vaddr st.pte ∧
      s'.core.entry st.pte = .valid page.val (write && vad.writeable) := by
  have hl := h.inv.dirs.level_of_walks hr.walks
  have hnz := hr.nz_pos
  have hle := h.inv.tables.nz_le st.pte.1
  have hview := view_hwCreate_pfn page (write && vad.writeable)
  -- the entry maps the page, and its table counts it
  have hmap : Move K s.core g (s.core.setWord st.pte (vmpPteHwCreate page.val (write && vad.writeable)))
      { g with
        ns := decAt g.ns st.pte.1
        nz := decAt g.nz st.pte.1
        held := decAt g.held page
        unref := some st.pte
        absent := some st.pte } :=
    .mapZero st.pte page _ hl he hlo hu hun hab hh hnz hw hK
  have hmade : Made K none s g
      (s.setPte st.pte (vmpPteHwCreate page.val (write && vad.writeable))) _ :=
    .of_move hmap rfl h.queues (.of_wsl rfl rfl)
  have hgrow : Grow s.core
      (s.setPte st.pte (vmpPteHwCreate page.val (write && vad.writeable))).core := .setWord he
  unfold faultZeroFill
  simp only [hr.table, ok_bind, State.narrow_setPte]
  refine Wp.bind (wp_nonswapPteCreated_wrapped (K := K.calm) (hmade.good h) (t := st.pte.1)
    true ((hgrow.level hl.ge).trans hl).ge (by dsimp only; rw [hfr]; nofun)) ?_
  rintro r ⟨s₂, rfl, hs₂, hc₂⟩
  have hcalm₂ := hs₂.calm (hmade.good h).inv
  have hmade₂ := (hmade.trans hs₂.mono).cast
    (show _ = ({ g with
        held := decAt g.held page
        unref := some st.pte
        absent := some st.pte } : Ledger) by
      simp only [if_true, incAt_decAt hnz, incAt_decAt (hnz.trans hle)])
  have hgood₂ := hmade₂.good h
  have hgrow₂ := hgrow.trans hcalm₂.grow
  have he₂ : s₂.core.entry st.pte = .valid page.val (write && vad.writeable) := by
    rw [hc₂, ← hview]
    exact s.core.setWord_entry_self st.pte _
  have hlf : ({ g with
        held := decAt g.held page
        unref := some st.pte
        absent := some st.pte } : Ledger).LooseFresh s₂.core := by
    intro p hp hlp
    obtain rfl := Option.some.inj (hlo.symm.trans hp)
    have h0 : s₂.core.level page = s.core.level page := by
      rw [hc₂]
      exact Core.setPage_level_of (VmPage.bump_use true _) page
    rw [h0, s.core.level_of_plain (.inr hu)] at hlp
    omega
  have insert := wp_vmpWslInsert_leaf (K := K) hgood₂ hlf vaddr false rfl
    (hgrow₂.walks h.inv.dirs hr.walks) (by rw [he₂]; rfl) (by rw [he₂]; rfl)
    (fun r hb hp => by
      obtain ⟨-, ⟨a, ha⟩, -⟩ := hgood₂.inv.leaves.busy_back r hb
      rw [hp, he₂] at ha
      cases ha)
  refine Wp.bind ((vmpWslInsert_narrow _ _ _ _).wp insert.weaken fun _ _ => trivial) ?_
  rintro r ⟨s₃, rfl, hs₃⟩
  have hgood₃ := hs₃.made.mono.good hgood₂
  have he₃ := (hs₃.absent st.pte rfl).trans he₂
  have hcalm₃ := hs₃.made.calm hgood₂.inv
  have hw₃ : s₃.core.Walks vaddr st.pte :=
    (hcalm₃.walks hgood₂.inv.dirs).2 (hgrow₂.walks h.inv.dirs hr.walks)
  have hl₃ : s₃.core.level st.pte.1 = 1 := by
    rw [hcalm₃.level (by rw [hgrow₂.level hl.ge]; omega), hgrow₂.level hl.ge, hl]
  have hu₃ : s₃.core.use page = .anonPrivate := by
    obtain ⟨p, hp, hup, -⟩ := hgood₃.inv.leaves.frame st.pte page.val hl₃ (by rw [he₃]; rfl)
    rwa [← Fin.ext hp] at hup
  have href : Move K s₃.core
      { g with held := decAt g.held page, unref := some st.pte, absent := none }
      (s₃.core.setReferent page st.pte)
      { g with held := decAt g.held page, absent := none, loose := none, unref := none } :=
    .setReferent st.pte page _ hl₃ he₃ hlo rfl hK
  have hqueues : (s₃.modifyPage page fun pg => { pg with referentPte := ptePaddr st.pte }).Queues
      none :=
    hs₃.made.queues.congr (fun p => by rw [State.modifyPage_pages]; split <;> simp_all)
      (fun p _ => by rw [State.modifyPage_pages]; split <;> simp_all)
      (fun p _ => by rw [State.modifyPage_pages]; split <;> simp_all)
  have hmade₄ : Made K none s₃ _
      (s₃.modifyPage page fun pg => { pg with referentPte := ptePaddr st.pte }) _ :=
    .of_move href rfl hqueues (.of_wsl rfl rfl)
  refine ⟨s₃.modifyPage page fun pg => { pg with referentPte := ptePaddr st.pte }, ?_,
    ((hmade₂.trans hs₃.made.mono).trans hmade₄).cast ?_, ?_, hw₃, he₃⟩
  · exact State.narrow_modifyPage s₃ page rfl
  · simp only [hun, hab]
  · exact (Core.setReferent_use _ _ _ _).trans hu₃

/-- What is owed for a page of data that was handed out. -/
theorem Ledger.handedOut_anon (g : Ledger) (p : Pfn) (hf : g.fresh = none) :
    g.handedOut p .anonPrivate = { g with held := incAt g.held p, loose := some p } := by
  simp only [Ledger.handedOut, if_true, true_or, PageUse.level]
  simp [hf]

theorem PageUse.handed_anon : PageUse.Handed .anonPrivate := ⟨by decide, by decide, by decide⟩

/-- An allocation that was refused leaves nothing to do. -/
theorem Faulted.refused {s₁ : State} (h : Good none s g) (hg : g.Settled)
    (hs : s₁.core = s.core ∧ s₁.Queues none ∧ s.SameWsl s₁) (ho : ∀ m ∈ out, m.Ok) :
    Faulted K s g out [] [] s₁ g out := by
  obtain ⟨hc, hq, hw⟩ := hs
  have hmade : Made K none s g s₁ g := ⟨by rw [hc], hq, hw.sizes⟩
  exact .of_filled hmade (by simp) hg (.refl ⟨hq, hc ▸ h.inv⟩ ho)

/-- A fault on a zero entry. -/
theorem wp_faultZero (hK : K.maps) (h : Good none s g) (hg : g.Settled)
    (hr : FaultReady s g vaddr st) (he : s.core.entry st.pte = .zero) (ho : ∀ m ∈ out, m.Ok)
    (hs : StealOk K s)
    (hw : (write && vad.writeable) = true → ∀ c, Calm s.core c → K.write c st.pte) :
    Wp (fun _ => True) (faultZero s.narrow vaddr write vad st out)
      (FaultDone K s g vaddr write vad st out pagerState) := by
  have hl := h.inv.dirs.level_of_walks hr.walks
  unfold faultZero
  split
  · trivial
  · refine Wp.bind (wp_alloc h hg hs PageUse.handed_anon false).weaken ?_
    rintro ⟨page, r⟩ ⟨s₁, rfl, hs₁⟩
    cases page with
    | none => exact wp_faultOut hK h hr (.refused h hg hs₁ ho) _ nofun
    | some page =>
      obtain ⟨d, hmade⟩ := hs₁.made
      rw [Ledger.handedOut_anon { g with drift := d } page hg.fresh] at hmade
      have hgood := hmade.good h
      have hcalm := hmade.calm h.inv
      have hu : s₁.core.use page = .anonPrivate := congrArg VmPage.use hs₁.page
      refine Wp.bind (wp_faultZeroFill hK hgood (hr.calm h.inv.dirs hcalm rfl) rfl hg.unref hg.fresh
        hg.absent hu (by simp [incAt_apply])
        (by rw [hcalm.entry _ (by omega) (.inr (by rw [he]; rfl)), he])
        fun hwr => hw hwr _ hcalm) ?_
      rintro r ⟨s₂, rfl, hm₂, hu₂, hw₂, he₂⟩
      have hm := (hmade.mono.trans hm₂).cast (show _ = ({ g with drift := d } : Ledger) by
        simp only [decAt_incAt, hg.loose])
      have hbusy : ∀ r ∈ g.busy, r.page ≠ page := fun r hr e => by
        obtain ⟨-, -, -, -, hne⟩ := hgood.inv.leaves.busy_back r hr
        exact hne (congrArg some e.symm)
      refine Wp.bind (wp_fillOut (K := K) (hm.good h) hu₂ (by dsimp only; rw [hg.loose]; nofun)
        (fun r hr hrp => absurd hrp (hbusy r hr)) ho) ?_
      rintro ⟨out', r⟩ ⟨s₃, g₃, rfl, hf, rfl, hslot⟩
      refine wp_faultOut hK h hr (.of_filled hm (by simp) hg hf) 0 fun _ => ⟨hf.walks hw₂, ?_⟩
      rw [hf.entry, he₂, he]
      exact .zeroFill page hslot

/-- A fault on a transition entry. -/
theorem wp_faultSoft (hK : K.maps) (h : Good none s g) (hg : g.Settled)
    (hr : FaultReady s g vaddr st) {p : Pfn} (he : s.core.entry st.pte = .trans p.val)
    (ho : ∀ m ∈ out, m.Ok) :
    Wp (fun _ => True) (faultSoft s.narrow vaddr write st out) (FaultDone K s g vaddr write vad st out pagerState) := by
  have hl := h.inv.dirs.level_of_walks hr.walks
  have hu : s.core.use p = .anonPrivate := by
    obtain ⟨q, hq, hu, -⟩ := h.inv.leaves.frame st.pte p.val hl (by rw [he]; rfl)
    rwa [← Fin.ext hq] at hu
  have hpage : vmpPteTransPage (s.narrow.pte st.pte) = .ok p := vmpPteTransPage_of_view he
  unfold faultSoft
  simp only [hpage, ok_bind]
  refine Wp.bind (wp_vmpPageRetainLocked_hold_wrapped (K := K.calm) h (by nofun) hu
    (by rw [hg.loose]; nofun) fun r hr' hrp => absurd hrp
      (h.inv.leaves.page_ne hl (by rw [he]; rfl) hr')) ?_
  rintro r ⟨s₁, rfl, hs₁, hc₁⟩
  have hcalm₁ := hs₁.calm h.inv
  have he₁ : s₁.core.entry st.pte = .trans p.val := by
    rw [hc₁]
    exact he
  have hl₁ := (hcalm₁.level hl.ge).trans hl
  have hmap : Move K s₁.core { g with held := incAt g.held p }
      (s₁.core.setWord st.pte (vmpPteHwCreate p.val false)) { g with absent := some st.pte } := by
    have := Move.mapSoft (K := K) (c := s₁.core) (g := { g with held := incAt g.held p }) st.pte p
      hl₁ he₁ hg.loose hg.absent (by simp [incAt_apply]) hK
    simpa only [decAt_incAt] using this
  have hmade₂ : Made K none s g (s₁.setPte st.pte (vmpPteHwCreate p.val false))
      { g with absent := some st.pte } :=
    hs₁.mono.trans (.of_move hmap rfl hs₁.queues (.of_wsl rfl rfl))
  have hgood₂ := hmade₂.good h
  have hcalm₂ : Calm s₁.core (s₁.setPte st.pte (vmpPteHwCreate p.val false)).core :=
    .setWord hl₁ (n := p.val) (by rw [he₁]; rfl)
  have he₂ : (s₁.setPte st.pte (vmpPteHwCreate p.val false)).core.entry st.pte =
      .valid p.val false := by
    rw [core_setPte, Core.setWord_entry_self, view_hwCreate_pfn]
  have insert := wp_vmpWslInsert_leaf (K := K) hgood₂
    (fun q hq => by rw [hg.loose] at hq; cases hq) vaddr false rfl
    (((hcalm₁.trans hcalm₂).walks h.inv.dirs).2 hr.walks) (by rw [he₂]; rfl) (by rw [he₂]; rfl)
    (fun r hb hp => by
      obtain ⟨-, ⟨a, ha⟩, -⟩ := hgood₂.inv.leaves.busy_back r hb
      rw [hp, he₂] at ha
      cases ha)
  rw [State.narrow_setPte]
  refine Wp.bind ((vmpWslInsert_narrow _ _ _ _).wp insert.weaken fun _ _ => trivial) ?_
  rintro r ⟨s₃, rfl, hs₃⟩
  have hm := (hmade₂.trans hs₃.made.mono).cast (show _ = g by simp [← hg.absent])
  have hgood₃ := hm.good h
  have hcalm₃ := (hcalm₁.trans hcalm₂).trans (hs₃.made.calm hgood₂.inv)
  have hw₃ : s₃.core.Walks vaddr st.pte := (hcalm₃.walks h.inv.dirs).2 hr.walks
  have hl₃ : s₃.core.level st.pte.1 = 1 := by rw [hcalm₃.level hl.ge, hl]
  have he₃ : s₃.core.entry st.pte = .valid p.val false := (hs₃.absent st.pte rfl).trans he₂
  have hu₃ : s₃.core.use p = .anonPrivate := by
    obtain ⟨q, hq, hu, -⟩ := hgood₃.inv.leaves.frame st.pte p.val hl₃
      (by rw [he₃]; rfl)
    rwa [← Fin.ext hq] at hu
  have hfill : Wp (fun _ => True)
      (if write then .ok (out, s₃.narrow) else fillOut s₃.narrow p out) fun r => ∃ s' g',
        r.2 = s'.narrow ∧ Filled K s₃ g out s' g' r.1 ∧
          r.1 = (if write then out else out.map (Mdl.fill p)) ∧ (write = false → HasSlot out) := by
    split
    · rename_i hwrite
      exact ⟨s₃, g, rfl, .refl hgood₃ ho, rfl, fun hread => absurd hwrite (by rw [hread]; nofun)⟩
    · refine (wp_fillOut (K := K) hgood₃ hu₃ (by rw [hg.loose]; nofun) (fun r hr' hrp => absurd hrp
        (hgood₃.inv.leaves.page_ne hl₃ (by rw [he₃]; rfl) hr')) ho).mono ?_
      rintro r ⟨s', g', hs', hf, hfilled, hslot⟩
      exact ⟨s', g', hs', hf, hfilled, fun _ => hslot⟩
  refine Wp.bind hfill ?_
  rintro ⟨out', r⟩ ⟨s₄, g₄, rfl, hf, rfl, hslot⟩
  refine wp_faultOut hK h hr (.of_filled hm (by simp) hg hf) 0 fun _ => ⟨hf.walks hw₃, ?_⟩
  rw [hf.entry, he₃, he]
  exact .soft p hslot

/-- A fault on a valid entry that permits the access. -/
theorem wp_faultResident (hK : K.maps) (h : Good none s g) (hg : g.Settled)
    (hr : FaultReady s g vaddr st) {p : Pfn} {wr : Bool} (he : s.core.entry st.pte = .valid p.val wr)
    (hu : s.core.use p = .anonPrivate) (hwr : write = true → wr = true) (ho : ∀ m ∈ out, m.Ok) :
    Wp (fun _ => True) (faultResident s.narrow st out) (FaultDone K s g vaddr write vad st out pagerState) := by
  refine Wp.bind (wp_fillFromPte (K := K) h hu (by rw [hg.loose]; nofun)
    (h.inv.dirs.level_of_walks hr.walks) he ho) ?_
  rintro ⟨out', r⟩ ⟨s₁, g₁, rfl, hf, rfl, hslot⟩
  refine wp_faultOut hK h hr (.of_filled (.refl h) (by simp) hg hf) 0 fun _ =>
    ⟨hf.walks hr.walks, ?_⟩
  rw [hf.entry, he]
  exact .resident p wr hwr hslot

/-- A write to a valid entry that is not writeable. -/
theorem wp_faultWriteable (hK : K.maps) (h : Good none s g) (hg : g.Settled)
    (hr : FaultReady s g vaddr st) {p : Pfn} (he : s.core.entry st.pte = .valid p.val false)
    (hu : s.core.use p = .anonPrivate) (hwrite : write = true) (ho : ∀ m ∈ out, m.Ok)
    (hw : vad.cow = false → K.write s.core st.pte) :
    Wp (fun _ => True) (faultWriteable s.narrow vad st out) (FaultDone K s g vaddr write vad st out pagerState) := by
  have hl := h.inv.dirs.level_of_walks hr.walks
  unfold faultWriteable
  split
  · trivial
  · rename_i hcow
    have hmove : Move K s.core g (s.core.setWord st.pte (hwSetWriteable (s.pte st.pte))) g :=
      .writeable st.pte p false hl he (hw (by simpa using hcow)) hK
    have hmade : Made K none s g (s.setPte st.pte (hwSetWriteable (s.pte st.pte))) g :=
      .of_move hmove rfl h.queues (.of_wsl rfl rfl)
    have he₁ : (s.setPte st.pte (hwSetWriteable (s.pte st.pte))).core.entry st.pte =
        .valid p.val true := by
      rw [core_setPte, Core.setWord_entry_self]
      exact view_hwSetWriteable he
    simp only [State.narrow_pte, State.narrow_setPte]
    refine Wp.bind (wp_fillFromPte (K := K) (hmade.good h) hu (by rw [hg.loose]; nofun) hl he₁ ho) ?_
    rintro ⟨out', r⟩ ⟨s₁, g₁, rfl, hf, rfl, hslot⟩
    have hw₁ : (s.setPte st.pte (hwSetWriteable (s.pte st.pte))).core.Walks vaddr st.pte :=
      (h.inv.dirs.walks_setWord hl _).2 hr.walks
    refine wp_faultOut hK h hr (.of_filled hmade (by simp) hg hf) 0 fun _ => ⟨hf.walks hw₁, ?_⟩
    rw [hf.entry, he₁, he]
    exact .upgrade p hwrite (by simpa using hcow) hslot

/-- The page gets the address of the entry, and the entry a new word. -/
def State.prepare (s : State) (page : Pfn) (ptr : PtePtr) (w : Word) : State :=
  (s.modifyPage page fun pg => { pg with referentPte := ptePaddr ptr }).setPte ptr w

theorem State.prepare_pages_ne (s : State) {t page : Pfn} {ptr : PtePtr} {w : Word} (h : t ≠ page) :
    (s.prepare page ptr w).pages t = s.pages t := by
  rw [prepare, setPte_pages, modifyPage_pages_ne _ _ h]

theorem State.prepare_narrow (s : State) (page : Pfn) (ptr : PtePtr) (w : Word) :
    s.narrow.prepare page ptr w = (s.prepare page ptr w).narrow := by
  rw [prepare, State.narrow_modifyPage s page
    (f := fun pg => { pg with referentPte := ptePaddr ptr }) rfl, narrow_setPte, prepare]

theorem State.Queues.prepare (h : s.Queues none) (page : Pfn) (ptr : PtePtr) (w : Word) :
    (s.prepare page ptr w).Queues none :=
  h.congr (fun p => by simp only [State.prepare, State.setPte_pages, State.modifyPage_pages]
                       split <;> simp_all)
    (fun p _ => by simp only [State.prepare, State.setPte_pages, State.modifyPage_pages]
                   split <;> simp_all)
    (fun p _ => by simp only [State.prepare, State.setPte_pages, State.modifyPage_pages]
                   split <;> simp_all)

/-- Counting an entry of a table does not depend on what is done to another page and an entry. -/
theorem nonswapPteCreated_prepare {t page : Pfn} {ptr : PtePtr} {w : Word} {isNew : Bool}
    (h0 : (s.pages t).refcnt ≠ 0) (hr : (s.pages t).refcnt < 2 ^ 16) (hne : t ≠ page) :
    vmpPagetablePageNonswapPteCreated (s.prepare page ptr w).narrow t isNew =
      (vmpPagetablePageNonswapPteCreated s.narrow t isNew).map fun r => r.prepare page ptr w := by
  have hpage : (s.prepare page ptr w).pages t = s.pages t := State.prepare_pages_ne s hne
  have hlevel : (s.prepare page ptr w).core.level t = s.core.level t :=
    congrArg (fun pg : VmPage => pg.use.level) hpage
  have hset : (s.prepare page ptr w).modifyPage t (VmPage.bump isNew) =
      (s.modifyPage t (VmPage.bump isNew)).prepare page ptr w := by
    simp only [State.prepare, State.modifyPage, State.setPte, Function.update_of_ne hne,
      Function.update_of_ne hne.symm, State.mk.injEq, and_true]
    exact Function.update_comm hne.symm _ _ _
  rw [nonswapPteCreated_eq (by rwa [hpage]) (by rwa [hpage]), nonswapPteCreated_eq h0 hr, hpage,
    hlevel, hset]
  split
  · rw [← State.prepare_narrow]
    simp only [vmpWslLockEntry]
    rw [show vmpWslFind ((s.modifyPage t (VmPage.bump isNew)).narrow.prepare page ptr w)
      ((s.prepare page ptr w).tableVaddr t) =
        vmpWslFind (s.modifyPage t (VmPage.bump isNew)).narrow (s.tableVaddr t) from rfl]
    split
    · rfl
    · rename_i e _
      change (tailqRemove s.wsl.queue e >>= _) = _
      simp only [State.narrow_wsl, State.modifyPage_wsl]
      cases tailqRemove s.wsl.queue e <;> rfl
  · rw [← State.prepare_narrow]
    rfl

/-- The entry of a page that is to be read becomes busy. -/
theorem wp_faultBusy (hK : K.maps) (h : Good none s g) (hr : FaultReady s g vaddr st) {page : Pfn}
    (hlo : g.loose = some page) (hun : g.unref = none) (hfr : g.fresh = none)
    (hab : g.absent = none) (hu : s.core.use page = .anonPrivate) (hh : 1 ≤ g.held page) {slot : ℕ}
    (he : s.core.entry st.pte = .swap slot) (pagerState : ℕ)
    (hk : ∀ c, Calm s.core c → c.drum = s.core.drum → K.swapIn c slot) :
    Wp (fun _ => True) (faultBusy s.narrow vaddr st page pagerState) fun r => ∃ s', r = s'.narrow ∧
      Made K none s g s' { g with
        held := decAt g.held page
        busy := g.busy ++ [⟨vaddr, st.pte, page⟩]
        loose := none } ∧
      s'.core.entry st.pte = view (vmpPteBusyCreate pagerState) := by
  have hl := h.inv.dirs.level_of_walks hr.walks
  have hne : st.pte.1 ≠ page := fun e => by
    rw [e, s.core.level_of_plain (.inr hu)] at hl
    omega
  have h0 : (s.pages st.pte.1).refcnt ≠ 0 := by
    rw [h.refcnt_table hl.ge]
    omega
  unfold faultBusy
  dsimp only
  simp only [Wp.bind_iff, wp_kassert, implies_true, and_true]
  intro hps
  have hcode : (s.narrow.modifyPage page fun pg => { pg with referentPte := ptePaddr st.pte }).setPte
      st.pte (vmpPteBusyCreate pagerState) =
        (s.prepare page st.pte (vmpPteBusyCreate pagerState)).narrow := State.prepare_narrow ..
  rw [hcode, hr.table, Wp.ok_iff]
  -- the count of the table is made first: a busy entry counts
  rcases Nat.lt_or_ge (s.pages st.pte.1).refcnt (2 ^ 16) with hlt | hge
  swap
  · refine Wp.intro (fun r hok => ?_) fun _ _ => trivial
    obtain ⟨r', hret, -⟩ := bind_eq_ok.1 hok
    refine absurd hret (vmpPageRetainLocked_wrapped (h.queues.prepare _ _ _) ?_)
    rwa [State.prepare_pages_ne s hne]
  rw [nonswapPteCreated_prepare h0 hlt hne]
  have bump := wp_nonswapPteCreated (K := K.calm) h false hl.ge
    (by rw [hfr]; nofun) hlt
  obtain ⟨r, hok, s₁, rfl, hs₁, hc₁⟩ := wp_false_iff.1 bump
  rw [hok]
  change Wp _ (vmpWslInsert (s₁.narrow.prepare _ _ _) _ _ _) _
  rw [State.prepare_narrow]
  have hcalm₁ := hs₁.calm h.inv
  have he₁ : s₁.core.entry st.pte = .swap slot := by
    rw [hc₁]
    exact he
  have hl₁ := (hcalm₁.level hl.ge).trans hl
  have hu₁ : s₁.core.use page = .anonPrivate := by
    rw [hc₁]
    exact (Core.setPage_use_of (VmPage.bump_use false _) page).trans hu
  have hle := h.inv.tables.nz_le st.pte.1
  have hmap : Move K s₁.core { g with ns := incAt g.ns st.pte.1 }
      ((s₁.core.setReferent page st.pte).setWord st.pte (vmpPteBusyCreate pagerState))
      { g with
        held := decAt g.held page
        busy := g.busy ++ [⟨vaddr, st.pte, page⟩]
        loose := none
        absent := some st.pte } := by
    have := Move.mapBusy (K := K) (c := s₁.core) (g := { g with ns := incAt g.ns st.pte.1 }) st.pte
      page pagerState slot vaddr hl₁ ((hcalm₁.walks h.inv.dirs).2 hr.walks) he₁ hlo hu₁ hun hab hh
      (by simp only [incAt_apply, if_true]; omega) (hk _ hcalm₁ (by rw [hc₁]; rfl)) hK
    simpa only [decAt_incAt] using this
  have hmade₂ : Made K none s g (s₁.prepare page st.pte (vmpPteBusyCreate pagerState)) _ :=
    hs₁.mono.trans (.of_move hmap rfl (hs₁.queues.prepare _ _ _) (.of_wsl rfl rfl))
  have hgood₂ := hmade₂.good h
  have hentry : (s₁.prepare page st.pte (vmpPteBusyCreate pagerState)).core.entry st.pte =
      view (vmpPteBusyCreate pagerState) :=
    (s₁.core.setReferent page st.pte).setWord_entry_self st.pte _
  have hview := view_busyCreate pagerState
  have hwalk : (s₁.prepare page st.pte (vmpPteBusyCreate pagerState)).core.Walks vaddr st.pte := by
    have hroot : (s₁.prepare page st.pte (vmpPteBusyCreate pagerState)).core.root = s₁.core.root := rfl
    refine ((hs₁.good h).inv.dirs.walks_congr (fun x hx => ?_) hroot).2
      ((hcalm₁.walks h.inv.dirs).2 hr.walks)
    refine (s₁.core.setReferent page st.pte).setWord_entry_ne st.pte x _ fun e => ?_
    rw [e] at hx
    omega
  have insert := wp_vmpWslInsert_leaf (K := K) hgood₂ (fun q hq => by cases hq)
    vaddr true rfl hwalk (by rw [hentry, hview]; rfl)
    (by rw [hentry, hview]; rfl) (fun r hb hp => by
      have hnodup := hgood₂.inv.leaves.busy_nodup
      have hmem : (⟨vaddr, st.pte, page⟩ : Swapping) ∈ g.busy ++ [⟨vaddr, st.pte, page⟩] := by simp
      exact congrArg Swapping.vaddr (List.inj_on_of_nodup_map hnodup hb hmem hp))
  refine ((vmpWslInsert_narrow _ _ _ _).wp insert.weaken fun _ _ => trivial).mono ?_
  rintro r ⟨s₃, rfl, hs₃⟩
  refine ⟨s₃, rfl, (hmade₂.trans hs₃.made.mono).cast ?_, ?_⟩
  · simp only [hab]
  · rw [hs₃.absent st.pte rfl, hentry]

/-- A fault on a swap entry. -/
theorem wp_faultSwap (hK : K.maps) (hF : ∀ r, ¬ K.finish r) (h : Good none s g) (hg : g.Settled)
    (hr : FaultReady s g vaddr st) {slot : ℕ} (he : s.core.entry st.pte = .swap slot)
    (ho : ∀ m ∈ out, m.Ok) (hs : StealOk K s)
    (hk : ∀ c, Calm s.core c → c.drum = s.core.drum → K.swapIn c slot) :
    Wp (fun _ => True) (faultSwap s.narrow vaddr st out pagerState)
      (FaultDone K s g vaddr write vad st out pagerState) := by
  have hl := h.inv.dirs.level_of_walks hr.walks
  unfold faultSwap
  refine Wp.bind (wp_alloc h hg hs PageUse.handed_anon false).weaken ?_
  rintro ⟨page, r⟩ ⟨s₁, rfl, hs₁⟩
  cases page with
  | none => exact wp_faultOut hK h hr (.refused h hg hs₁ ho) _ nofun
  | some page =>
    obtain ⟨d, hmade⟩ := hs₁.made
    rw [Ledger.handedOut_anon { g with drift := d } page hg.fresh] at hmade
    have hgood := hmade.good h
    have hcalm := hmade.calm h.inv
    have hu : s₁.core.use page = .anonPrivate := congrArg VmPage.use hs₁.page
    have he₁ : s₁.core.entry st.pte = .swap slot := by
      rw [hcalm.entry _ (by omega) (.inr (by rw [he]; rfl)), he]
    refine Wp.bind (wp_faultBusy hK hgood (hr.calm h.inv.dirs hcalm rfl) rfl hg.unref hg.fresh
      hg.absent hu (by simp [incAt_apply]) he₁ pagerState
      fun c hc hd => hk c (hcalm.trans hc) (hd.trans hmade.moves.drum)) ?_
    rintro r ⟨s₂, rfl, hm₂, he₂⟩
    have hm := (hmade.mono.trans hm₂).cast (show _ = ({ g with
        drift := d
        busy := g.busy ++ [⟨vaddr, st.pte, page⟩] } : Ledger) by
      simp only [decAt_incAt, hg.loose])
    have hgood₂ := hm.good h
    refine Wp.bind ((Faulted.of_filled hm rfl hg (.refl hgood₂ ho)).release hK h hr.owed) ?_
    rintro r ⟨s₃, g₃, rfl, hm₃, hs₃, -⟩
    refine ⟨s₃, g₃, rfl, hs₃, fun _ _ => ⟨⟨slot, he⟩, ?_, rfl⟩, nofun⟩
    rw [(hm₃.moves.busy hgood₂.inv (hF ⟨vaddr, st.pte, page⟩) (by simp)).2, he₂]

/-- What the second part of a fault has to be allowed. -/
structure FaultAllowed (K : Guard) (s : State) (write : Bool) (vad : Vad) (st : WireState) : Prop where
  steal : (s.core.entry st.pte).frame = none → StealOk K s
  zeroFill : s.core.entry st.pte = .zero → (write && vad.writeable) = true →
    ∀ c, Calm s.core c → K.write c st.pte
  writeable : ∀ n, s.core.entry st.pte = .valid n false → write = true → vad.cow = false →
    K.write s.core st.pte
  swapIn : ∀ slot, s.core.entry st.pte = .swap slot →
    ∀ c, Calm s.core c → c.drum = s.core.drum → K.swapIn c slot

/-- **The second part of a fault makes moves.** -/
theorem wp_faultMain (hK : K.maps) (hF : ∀ r, ¬ K.finish r) (h : Good none s g) (hg : g.Settled)
    (hr : FaultReady s g vaddr st) (ho : ∀ m ∈ out, m.Ok)
    (ha : FaultAllowed K s write vad st) :
    Wp (fun _ => True) (faultMain s.narrow vaddr write vad st out pagerState)
      (FaultDone K s g vaddr write vad st out pagerState) := by
  have hl := h.inv.dirs.level_of_walks hr.walks
  have frame : ∀ n, (s.core.entry st.pte).frame = some n →
      ∃ p : Pfn, n = p.val ∧ s.core.use p = .anonPrivate := fun n hn => by
    obtain ⟨p, hp, hu, -⟩ := h.inv.leaves.frame st.pte n hl hn
    exact ⟨p, hp, hu⟩
  have hview : view (s.pte st.pte) = s.core.entry st.pte := rfl
  unfold faultMain
  rw [State.narrow_pte, characterise_eq_kind, hview]
  cases he : s.core.entry st.pte with
  | zero =>
    simp only [Pte.kind, ok_bind, reduceCtorEq, false_and, if_false]
    exact wp_faultZero hK h hg hr he ho (ha.steal (by rw [he]; rfl)) (ha.zeroFill he)
  | trans n =>
    obtain ⟨p, rfl, hu⟩ := frame n (by rw [he]; rfl)
    simp only [Pte.kind, ok_bind, reduceCtorEq, false_and, if_false]
    exact wp_faultSoft hK h hg hr he ho
  | swap slot =>
    simp only [Pte.kind, ok_bind, reduceCtorEq, false_and, if_false]
    exact wp_faultSwap hK hF h hg hr he ho (ha.steal (by rw [he]; rfl)) (ha.swapIn slot he)
  | busy a =>
    simp only [Pte.kind, ok_bind, reduceCtorEq, false_and, if_false]
    trivial
  | bad => trivial
  | valid n wr =>
    obtain ⟨p, rfl, hu⟩ := frame n (by rw [he]; rfl)
    have hwr : vmpPteHwIsWriteable (s.pte st.pte) = wr := by
      have hv : view (s.pte st.pte) = .valid p.val wr := he
      rw [view_of_valid (hwValid_of_view hv)] at hv
      exact (Pte.valid.inj hv).2
    simp only [Pte.kind, ok_bind, hwr, true_and]
    split
    · rename_i hc
      have hwf : wr = false := by simpa using hc.1
      subst hwf
      exact wp_faultWriteable hK h hg hr he hu hc.2 ho (ha.writeable p.val he hc.2)
    · rename_i hc
      refine wp_faultResident hK h hg hr he hu (fun hw => ?_) ho
      by_contra hf
      exact hc ⟨by simpa using hf, hw⟩

/-! ## The end of a swap-in -/

/-- The swap-in of a fault that sleeps. -/
def SwapIn.swapping (sw : SwapIn) : Swapping := ⟨sw.vaddr, sw.pte, sw.page⟩

/-- What the end of a swap-in leaves. -/
structure Resumed (K : Guard) (s : State) (g : Ledger) (sw : SwapIn) (out : Option Mdl) (s' : State)
    (g' : Ledger) (out' : Option Mdl) : Prop where
  made : Made K none s g s' g'
  settled : g'.Settled
  ns : g'.ns = g.ns
  nz : g'.nz = g.nz
  held : ∀ p, g'.held p + mdlSlots out p = g.held p + mdlSlots out' p
  busy : g'.busy = g.busy.erase sw.swapping
  ok : ∀ m ∈ out', m.Ok
  some_iff : out'.isSome = out.isSome
  filled : out' = out.map (Mdl.fill sw.page)
  slot : HasSlot out
  walks : s'.core.Walks sw.vaddr sw.pte
  entry : s'.core.entry sw.pte = .valid sw.page.val false

/-- **The end of a swap-in makes moves.** -/
theorem wp_swapInFinish (h : Good none s g) (hg : g.Settled) (sw : SwapIn)
    (hs : sw.swapping ∈ g.busy) (hF : K.finish sw.swapping) (ho : ∀ m ∈ out, m.Ok) :
    Wp (fun _ => True) (swapInFinish s.narrow sw out) fun r => ∃ s' g', r.2 = s'.narrow ∧
      Resumed K s g sw out s' g' r.1 := by
  obtain ⟨hl, -, hu, href, -⟩ := h.inv.leaves.busy_back _ hs
  -- a page is read by one fault at a time
  have hb : ∀ r ∈ g.busy, r.page = sw.page → K.finish r := fun r hr e => by
    obtain ⟨-, -, -, href', -⟩ := h.inv.leaves.busy_back r hr
    rw [e] at href'
    have hpte : r.pte = sw.swapping.pte := ptePaddr_injective (href'.symm.trans href)
    rwa [List.inj_on_of_nodup_map h.inv.leaves.busy_nodup hr hs hpte]
  unfold swapInFinish
  refine Wp.bind (wp_fillOut h hu (by rw [hg.loose]; nofun) hb ho) ?_
  rintro ⟨out', r⟩ ⟨s₁, g₁, rfl, hf, hfill, hslot⟩
  obtain ⟨held, rfl, hh⟩ := hf.held
  have hgood := hf.made.good h
  have hl₁ : s₁.core.level sw.pte.1 = 1 := (hgood.inv.leaves.busy_back _ hs).1
  have hmem : (⟨sw.vaddr, false⟩ : Wsle) ∈ s₁.wsl.tree :=
    ((hgood.inv.mirror.busy _ hs).2).resolve_left (by rw [hg.absent]; nofun)
  have hfind : vmpWslFind (s₁.setPte sw.pte (vmpPteHwCreate sw.page.val false)) sw.vaddr =
      some ⟨sw.vaddr, false⟩ := hgood.inv.mirror.find hmem
  have unlock := vmpWslUnlockEntry_of_find (e := ⟨sw.vaddr, false⟩) hfind
  have follows := vmpWslUnlockEntry_narrow (s₁.setPte sw.pte (vmpPteHwCreate sw.page.val false))
    sw.vaddr
  refine Wp.bind (follows.wp (F := fun _ => True) (Q := fun r => r = (s₁.setPte sw.pte
    (vmpPteHwCreate sw.page.val false)).unlockWsle ⟨sw.vaddr, false⟩) ?_ fun _ _ => trivial) ?_
  · rw [unlock]
    rfl
  · rintro r ⟨s₂, rfl, rfl⟩
    have hfinish : Move K s₁.core { g with held := held } _
        { ({ g with held := held } : Ledger) with busy := g.busy.erase sw.swapping } :=
      .finish sw.swapping hs hg.absent hF
    have hwalks : (s₁.setPte sw.pte (vmpPteHwCreate sw.page.val false)).core.Walks sw.vaddr sw.pte :=
      (hgood.inv.dirs.walks_setWord hl₁ _).2 (hgood.inv.mirror.busy _ hs).1
    refine ⟨_, _, rfl, hf.made.trans (.of_move hfinish rfl hgood.queues (.of_tree rfl rfl rfl rfl)),
      ⟨hg.loose, hg.unref, hg.fresh, hg.absent⟩, rfl, rfl, hh, rfl, hf.ok, hf.some_iff, hfill,
      hslot, hwalks, ?_⟩
    exact (s₁.core.setWord_entry_self sw.pte _).trans (view_hwCreate_pfn sw.page false)

end VmmSim
