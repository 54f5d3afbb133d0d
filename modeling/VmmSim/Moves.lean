import VmmSim.MoveInv

/-!
# Sequences of moves

`Moves` is a sequence of moves, and every one keeps the invariants. Moves that map nothing leave
alone the tables, the directories and the entries that keep no page in core (`Calm`); the moves of
a wiring, which makes new tables, still leave alone every entry of a directory that is not zero
(`Grow`), so that a walk that was possible stays possible.
-/

namespace VmmSim

variable {K : Guard} {c c' c'' : Core} {g g' g'' : Ledger}

/-- A sequence of moves. -/
abbrev Moves (K : Guard) (c : Core) (g : Ledger) (c' : Core) (g' : Ledger) : Prop :=
  Relation.ReflTransGen (fun a b : Core × Ledger => Move K a.1 a.2 b.1 b.2) (c, g) (c', g')

theorem Move.moves (h : Move K c g c' g') : Moves K c g c' g' := .single h

namespace Moves

/-- What holds at first and survives every move holds at last. -/
theorem invariant {P : Core → Ledger → Prop} (h : Moves K c g c' g') (h0 : P c g)
    (hs : ∀ c g c' g', P c g → Move K c g c' g' → P c' g') : P c' g' := by
  suffices key : ∀ x y : Core × Ledger,
      Relation.ReflTransGen (fun a b : Core × Ledger => Move K a.1 a.2 b.1 b.2) x y →
        P x.1 x.2 → P y.1 y.2 from key _ _ h h0
  intro x y hxy
  induction hxy with
  | refl => exact id
  | tail _ hm ih => exact fun hx => hs _ _ _ _ (ih hx) hm

/-- **The invariants survive sequences of moves.** -/
theorem inv (h : Moves K c g c' g') (hi : Inv c g) : Inv c' g' :=
  h.invariant hi fun _ _ _ _ hi hm => hi.move hm

end Moves

/-- What `K` allows, `K'` allows. -/
structure Guard.Le (K K' : Guard) : Prop where
  steal : ∀ {c p}, K.steal c p → K'.steal c p
  swapIn : ∀ {c slot}, K.swapIn c slot → K'.swapIn c slot
  write : ∀ {c ptr}, K.write c ptr → K'.write c ptr
  maps : K.maps → K'.maps
  finish : ∀ {r}, K.finish r → K'.finish r

theorem Move.mono {K' : Guard} (hK : K.Le K') (h : Move K c g c' g') : Move K' c g c' g' := by
  cases h with
  | bump t isNew hl hf hr => exact .bump t isNew hl hf hr
  | drop t hl hf hn hr => exact .drop t hl hf hn hr
  | decNonzero t hl hn hk => exact .decNonzero t hl hn hk
  | evict e q ptr p wr hq he hw hv hd => exact .evict e q ptr p wr hq he hw hv hd
  | enterLeaf vaddr ptr locked ha hw hk hm hv hb => exact .enterLeaf vaddr ptr locked ha hw hk hm hv hb
  | enterTable t hf h₁ h₃ hk hn => exact .enterTable t hf h₁ h₃ hk hn
  | mapZero ptr p wr hl he hp hu hr ha hh hn hwr hc =>
    exact .mapZero ptr p wr hl he hp hu hr ha hh hn (fun h => hK.write (hwr h)) (hK.maps hc)
  | setReferent ptr p wr hl he hp hr hc => exact .setReferent ptr p wr hl he hp hr (hK.maps hc)
  | mapSoft ptr p hl he hp ha hh hc => exact .mapSoft ptr p hl he hp ha hh (hK.maps hc)
  | mapBusy ptr p state slot vaddr hl hw he hp hu hr ha hh hn hk hc =>
    exact .mapBusy ptr p state slot vaddr hl hw he hp hu hr ha hh hn (hK.swapIn hk) (hK.maps hc)
  | writeable ptr p wr hl he hwr hc => exact .writeable ptr p wr hl he (hK.write hwr) (hK.maps hc)
  | finish r hr ha hc => exact .finish r hr ha (hK.finish hc)
  | unmap ptr p hl he h0 hd hp hk => exact .unmap ptr p hl he h0 hd hp (hK.steal hk)
  | pick p hu hp => exact .pick p hu hp
  | handOut p use hu h0 hp hr hf ha hn hd h₃ => exact .handOut p use hu h0 hp hr hf ha hn hd h₃
  | initTable p ptr hl hp hf h1 hc => exact .initTable p ptr hl hp hf h1 (hK.maps hc)
  | attach ptr p hl hd he hp hf hpr hn hz hc =>
    exact .attach ptr p hl hd he hp hf hpr hn hz (hK.maps hc)
  | delete t ptr hl h₃ hg hz hs hn hr hc => exact .delete t ptr hl h₃ hg hz hs hn hr (hK.maps hc)
  | free t hu hc => exact .free t hu (hK.maps hc)
  | hold p hu hp hb => exact .hold p hu hp fun r hr e => hK.finish (hb r hr e)
  | unhold p hh h0 hr => exact .unhold p hh h0 hr
  | markDirty p b hu => exact .markDirty p b hu

theorem Moves.mono {K' : Guard} (hK : K.Le K') (h : Moves K c g c' g') : Moves K' c g c' g' :=
  h.invariant (P := fun d e => Moves K' c g d e) .refl fun _ _ _ _ ih hm => ih.tail (hm.mono hK)

/-- The guard that allows no move to map anything. -/
def Guard.calm (K : Guard) : Guard := { K with maps := False, finish := fun _ => False }

theorem Guard.calm_le (K : Guard) : K.calm.Le K := ⟨id, id, id, False.elim, False.elim⟩

/-! ## What is left alone -/

/-- The tables, the directories and the entries that keep no page in core are left alone. -/
structure Calm (c c' : Core) : Prop where
  root : c'.root = c.root
  softPages : c'.softPages = c.softPages
  vads : c'.vads = c.vads
  use : ∀ p, 1 ≤ c.level p → c'.use p = c.use p
  referent : ∀ p, 1 ≤ c.level p → (c'.pages p).referentPte = (c.pages p).referentPte
  entry : ∀ ptr : PtePtr, 1 ≤ c.level ptr.1 → 2 ≤ c.level ptr.1 ∨ (c.entry ptr).frame = none →
    c'.entry ptr = c.entry ptr

namespace Calm

theorem refl (c : Core) : Calm c c :=
  ⟨rfl, rfl, rfl, fun _ _ => rfl, fun _ _ => rfl, fun _ _ _ => rfl⟩

theorem level (h : Calm c c') {p : Pfn} (hp : 1 ≤ c.level p) : c'.level p = c.level p :=
  congrArg PageUse.level (h.use p hp)

theorem trans (h : Calm c c') (h' : Calm c' c'') : Calm c c'' where
  root := h'.root.trans h.root
  softPages := h'.softPages.trans h.softPages
  vads := h'.vads.trans h.vads
  use p hp := (h'.use p (by rwa [h.level hp])).trans (h.use p hp)
  referent p hp := (h'.referent p (by rwa [h.level hp])).trans (h.referent p hp)
  entry ptr hl he := by
    refine (h'.entry ptr (by rwa [h.level hl]) ?_).trans (h.entry ptr hl he)
    rw [h.level hl, h.entry ptr hl he]
    exact he

theorem tableWsle (h : Calm c c') (p : Pfn) : c'.tableWsle p = c.tableWsle p := by
  rw [Core.tableWsle, h.softPages, Core.tableWsle]

/-- Walks depend on the directories alone. -/
theorem walks (h : Calm c c') (hd : Dirs c g) {vaddr : ℕ} {ptr : PtePtr} :
    c'.Walks vaddr ptr ↔ c.Walks vaddr ptr :=
  hd.walks_congr (fun x hx => h.entry x (by omega) (.inl hx)) h.root

/-- Assignments to pages that keep their use, or that were no tables. -/
theorem of_pages (hp : ∀ p, 1 ≤ c.level p → c'.use p = c.use p ∧
      (c'.pages p).referentPte = (c.pages p).referentPte)
    (hm : c'.mem = c.mem) (hr : c'.root = c.root) (hs : c'.softPages = c.softPages)
    (hv : c'.vads = c.vads) : Calm c c' :=
  ⟨hr, hs, hv, fun p h => (hp p h).1, fun p h => (hp p h).2, fun ptr _ _ => by
    rw [Core.entry, hm]
    rfl⟩

theorem setPage {p : Pfn} {pg : VmPage} (hp : 1 ≤ c.level p → pg.use = c.use p ∧
    pg.referentPte = (c.pages p).referentPte) : Calm c (c.setPage p pg) := by
  refine of_pages (fun q hq => ?_) rfl rfl rfl rfl
  rw [Core.setPage_use, Core.setPage_pages]
  split
  · subst_vars
    exact hp hq
  · exact ⟨rfl, rfl⟩

/-- An entry of level 1 that keeps a page in core changes. -/
theorem setWord {ptr : PtePtr} {w : Word} {n : ℕ} (hl : c.level ptr.1 = 1)
    (he : (c.entry ptr).frame = some n) : Calm c (c.setWord ptr w) := by
  refine ⟨rfl, rfl, rfl, fun _ _ => rfl, fun _ _ => rfl, fun x _ hx => Core.setWord_entry_ne _ _ _ _ ?_⟩
  rintro rfl
  rcases hx with hx | hx
  · omega
  · rw [he] at hx
    cases hx

end Calm

theorem Move.calm (hi : Inv c g) (h : Move K.calm c g c' g') : Calm c c' := by
  cases h with
  | bump t isNew =>
    refine Calm.of_pages (fun q hq => ?_) rfl rfl rfl rfl
    change (c.setPage t _).use q = _ ∧ ((c.setPage t _).pages q).referentPte = _
    rw [Core.setPage_use_of (VmPage.bump_use isNew (c.pages t)), Core.setPage_pages]
    split
    · subst_vars
      exact ⟨rfl, rfl⟩
    · exact ⟨rfl, rfl⟩
  | drop t =>
    refine Calm.of_pages (fun q hq => ?_) rfl rfl rfl rfl
    change (c.setPage t _).use q = _ ∧ ((c.setPage t _).pages q).referentPte = _
    rw [Core.setPage_use_of (VmPage.drop_use (c.pages t)), Core.setPage_pages]
    split
    · subst_vars
      exact ⟨rfl, VmPage.drop_referentPte _⟩
    · exact ⟨rfl, rfl⟩
  | decNonzero t => exact .setPage fun _ => ⟨by dsimp only [Core.use], by dsimp only⟩
  | evict e q ptr p wr hq he hw hv =>
    have h : Calm c (c.setWord ptr (vmpPteTransCreate p.val)) :=
      .setWord (hi.dirs.level_of_walks hw) (n := p.val) (by rw [hv]; rfl)
    exact ⟨h.root, h.softPages, h.vads, h.use, h.referent, h.entry⟩
  | enterLeaf => exact .of_pages (fun _ _ => ⟨rfl, rfl⟩) rfl rfl rfl rfl
  | enterTable => exact .of_pages (fun _ _ => ⟨rfl, rfl⟩) rfl rfl rfl rfl
  | unmap ptr p hl he => exact .setWord hl (n := p.val) (by rw [he]; rfl)
  | pick => exact .refl c
  | handOut p use hu =>
    have h0 := c.level_of_plain hu
    have hne : ∀ q, 1 ≤ c.level q → q ≠ p := fun q hq e => by
      rw [e] at hq
      omega
    refine ⟨rfl, rfl, rfl, fun q hq => ?_, fun q hq => ?_, fun x hx _ => ?_⟩
    · exact (Core.setPage_use c p q _).trans (if_neg (hne q hq))
    · change ((c.setPage p _).pages q).referentPte = _
      rw [Core.setPage_pages, if_neg (hne q hq)]
    · exact Core.setWords_entry_ne (c.setPage p _) p x 0 (hne x.1 hx)
  | hold p => exact .setPage fun _ => ⟨by dsimp only [Core.use], by dsimp only⟩
  | unhold p => exact .setPage fun _ => ⟨by dsimp only [Core.use], by dsimp only⟩
  | markDirty p => exact .setPage fun _ => ⟨rfl, rfl⟩
  | mapZero _ _ _ _ _ _ _ _ _ _ _ _ hc => exact hc.elim
  | setReferent _ _ _ _ _ _ _ hc => exact hc.elim
  | mapSoft _ _ _ _ _ _ _ hc => exact hc.elim
  | mapBusy _ _ _ _ _ _ _ _ _ _ _ _ _ _ _ hc => exact hc.elim
  | writeable _ _ _ _ _ _ hc => exact hc.elim
  | finish _ _ _ hc => exact hc.elim
  | initTable _ _ _ _ _ _ hc => exact hc.elim
  | attach _ _ _ _ _ _ _ _ _ _ hc => exact hc.elim
  | delete _ _ _ _ _ _ _ _ _ hc => exact hc.elim
  | free _ _ hc => exact hc.elim

theorem Moves.calm (h : Moves K.calm c g c' g') (hi : Inv c g) : Calm c c' :=
  (h.invariant (P := fun d e => Inv d e ∧ Calm c d) ⟨hi, .refl c⟩ fun _ _ _ _ hp hm =>
    ⟨hp.1.move hm, hp.2.trans (hm.calm hp.1)⟩).2

/-- The tables and the entries of the directories that are not zero are left alone. -/
structure Grow (c c' : Core) : Prop where
  root : c'.root = c.root
  softPages : c'.softPages = c.softPages
  use : ∀ p, 1 ≤ c.level p → c'.use p = c.use p
  dir : ∀ ptr : PtePtr, 2 ≤ c.level ptr.1 → c.entry ptr ≠ .zero → c'.entry ptr = c.entry ptr

theorem Calm.grow (h : Calm c c') : Grow c c' :=
  ⟨h.root, h.softPages, h.use, fun x hx _ => h.entry x (by omega) (.inl hx)⟩

namespace Grow

theorem refl (c : Core) : Grow c c := (Calm.refl c).grow

theorem level (h : Grow c c') {p : Pfn} (hp : 1 ≤ c.level p) : c'.level p = c.level p :=
  congrArg PageUse.level (h.use p hp)

theorem trans (h : Grow c c') (h' : Grow c' c'') : Grow c c'' where
  root := h'.root.trans h.root
  softPages := h'.softPages.trans h.softPages
  use p hp := (h'.use p (by rwa [h.level hp])).trans (h.use p hp)
  dir ptr hl he := by
    have e := h.dir ptr hl he
    exact (h'.dir ptr (by rwa [h.level (by omega)]) (by rwa [e])).trans e

/-- A walk that was possible stays possible. -/
theorem descends (h : Grow c c') (hd : Dirs c g) {vaddr n : ℕ} {t : Pfn} {ptr : PtePtr}
    (hl : c.level t = n) (hw : Descends c.entry vaddr n t ptr) :
    Descends c'.entry vaddr n t ptr := by
  induction n generalizing t with
  | zero => exact hw.elim
  | succ n ih =>
    rcases Nat.eq_zero_or_pos n with rfl | hn
    · exact hw
    · obtain ⟨p, wr, he, hw⟩ := (Descends.succ_iff hn).1 hw
      have hlt : 2 ≤ c.level (t, vmpAddrUnpack vaddr (n + 1)).1 := by
        simp only
        omega
      have hp := (hd.child hlt he).1
      refine (Descends.succ_iff hn).2 ⟨p, wr, ?_, ih (by simp only at hp; omega) hw⟩
      rw [h.dir _ hlt (by rw [he]; nofun), he]

theorem walks (h : Grow c c') (hd : Dirs c g) {vaddr : ℕ} {ptr : PtePtr}
    (hw : c.Walks vaddr ptr) : c'.Walks vaddr ptr := by
  rw [Core.Walks, h.root]
  exact h.descends hd hd.level_root hw

end Grow

/-! ## The pagefile -/

theorem Move.pagefile (h : Move K c g c' g') : c'.pagefile = c.pagefile := by cases h <;> rfl

theorem Move.drum (h : Move K c g c' g') : c'.drum = c.drum := by cases h <;> rfl

theorem Moves.pagefile (h : Moves K c g c' g') : c'.pagefile = c.pagefile :=
  h.invariant (P := fun d _ => d.pagefile = c.pagefile) rfl fun _ _ _ _ hp hm =>
    hm.pagefile.trans hp

theorem Moves.drum (h : Moves K c g c' g') : c'.drum = c.drum :=
  h.invariant (P := fun d _ => d.drum = c.drum) rfl fun _ _ _ _ hp hm => hm.drum.trans hp

theorem Move.vads (h : Move K c g c' g') : c'.vads = c.vads := by cases h <;> rfl

theorem Moves.vads (h : Moves K c g c' g') : c'.vads = c.vads :=
  h.invariant (P := fun d _ => d.vads = c.vads) rfl fun _ _ _ _ hp hm => hm.vads.trans hp

/-! ## Entries that are being read -/

/-- An assignment to an entry that is not busy leaves alone those that are. -/
theorem Leaves.busy_setWord (h : Leaves c g) {r : Swapping} (hr : r ∈ g.busy) {ptr : PtePtr}
    {w : Word} (hp : c.level ptr.1 = 1 → ∀ a, c.entry ptr ≠ .busy a) :
    (c.setWord ptr w).entry r.pte = c.entry r.pte := by
  obtain ⟨hl, ⟨a, ha⟩, -⟩ := h.busy_back r hr
  refine Core.setWord_entry_ne _ _ _ _ fun e => ?_
  rw [← e] at hp
  exact hp hl a ha

/-- A swap-in stays under way, and its entry busy, until its end. -/
theorem Move.busy (hi : Inv c g) {r : Swapping} (hK : ¬ K.finish r) (h : Move K c g c' g')
    (hr : r ∈ g.busy) : r ∈ g'.busy ∧ c'.entry r.pte = c.entry r.pte := by
  have hw : ∀ {ptr : PtePtr} {w : Word} {e : Pte}, c.entry ptr = e → (∀ a, e ≠ .busy a) →
      (c.setWord ptr w).entry r.pte = c.entry r.pte := fun he hne =>
    hi.leaves.busy_setWord hr fun _ a => by
      rw [he]
      exact hne a
  have hdir : ∀ {ptr : PtePtr} {w : Word}, 2 ≤ c.level ptr.1 →
      (c.setWord ptr w).entry r.pte = c.entry r.pte := fun hl =>
    hi.leaves.busy_setWord hr fun h1 => by omega
  cases h with
  | bump t isNew => exact ⟨hr, rfl⟩
  | drop t => exact ⟨hr, rfl⟩
  | decNonzero t => exact ⟨hr, rfl⟩
  | evict e q ptr p wr hq he hwalk hv => exact ⟨hr, hw hv nofun⟩
  | enterLeaf => exact ⟨hr, rfl⟩
  | enterTable => exact ⟨hr, rfl⟩
  | mapZero ptr p wr hl he => exact ⟨hr, hw he nofun⟩
  | setReferent => exact ⟨hr, rfl⟩
  | mapSoft ptr p hl he => exact ⟨hr, hw he nofun⟩
  | mapBusy ptr p state slot vaddr hl hwalk he => exact ⟨List.mem_append_left _ hr, hw he nofun⟩
  | writeable ptr p wr hl he => exact ⟨hr, hw he nofun⟩
  | finish r' hr' _ hc =>
    have hne : r ≠ r' := fun e => hK (e ▸ hc)
    have hpte : r.pte ≠ r'.pte := fun e =>
      hne (List.inj_on_of_nodup_map hi.leaves.busy_nodup hr hr' e)
    exact ⟨(List.mem_erase_of_ne hne).2 hr, Core.setWord_entry_ne _ _ _ _ hpte⟩
  | unmap ptr p hl he => exact ⟨hr, hw he nofun⟩
  | pick => exact ⟨hr, rfl⟩
  | handOut p use hu =>
    have h0 := c.level_of_plain hu
    have hl := (hi.leaves.busy_back r hr).1
    refine ⟨hr, Core.setWords_entry_ne (c.setPage p _) p r.pte 0 fun e => ?_⟩
    rw [e] at hl
    omega
  | initTable => exact ⟨hr, rfl⟩
  | attach ptr p hl hd => exact ⟨hr, hdir (by omega)⟩
  | delete t ptr hl h₃ hg hz hs hn hrp =>
    obtain ⟨d, hd, -, hld⟩ := hi.dirs.dir_back t hl h₃ (by rw [hg.loose]; nofun)
    obtain rfl : d = ptr := ptePaddr_injective (hd.symm.trans hrp)
    exact ⟨hr, hdir (by omega)⟩
  | free => exact ⟨hr, rfl⟩
  | hold => exact ⟨hr, rfl⟩
  | unhold => exact ⟨hr, rfl⟩
  | markDirty => exact ⟨hr, rfl⟩

theorem Moves.busy (h : Moves K c g c' g') (hi : Inv c g) {r : Swapping} (hK : ¬ K.finish r)
    (hr : r ∈ g.busy) : r ∈ g'.busy ∧ c'.entry r.pte = c.entry r.pte := by
  refine (h.invariant (P := fun d e => Inv d e ∧ r ∈ e.busy ∧ d.entry r.pte = c.entry r.pte)
    ⟨hi, hr, rfl⟩ fun _ _ _ _ hp hm => ?_).2
  obtain ⟨hb, he⟩ := hm.busy hp.1 hK hp.2.1
  exact ⟨hp.1.move hm, hb, he.trans hp.2.2⟩

/-! ## Pages that are not stolen -/

/-- A page of data in the tables stays one, with its slot and its contents, until it is stolen. -/
theorem Move.settledPage (hi : Inv c g) {q : Pfn}
    (hK : ∀ ptr : PtePtr, c.level ptr.1 = 1 → c.entry ptr = .trans q.val → ¬ K.steal c q)
    (h : Move K c g c' g') (hu : c.use q = .anonPrivate) (hq : g.loose ≠ some q) :
    c'.use q = .anonPrivate ∧ g'.loose ≠ some q ∧
      (c'.pages q).drumslot = (c.pages q).drumslot ∧ c'.mem q = c.mem q := by
  have hl : c.level q = 0 := c.level_of_plain (.inr hu)
  have page : ∀ (t : Pfn) {v : VmPage}, v.use = c.use t →
      v.drumslot = (c.pages t).drumslot → (c.setPage t v).use q = .anonPrivate ∧
        ((c.setPage t v).pages q).drumslot = (c.pages q).drumslot := fun t v hpu hpd => by
    rw [Core.setPage_use_of hpu, Core.setPage_pages]
    refine ⟨hu, ?_⟩
    split
    · rw [hpd, ‹q = _›]
    · rfl
  have word : ∀ {ptr : PtePtr} {w : Word}, 1 ≤ c.level ptr.1 → (c.setWord ptr w).mem q = c.mem q :=
    fun hp => Function.update_of_ne (fun e => by rw [e] at hl; omega) _ _
  cases h with
  | bump t isNew =>
    obtain ⟨h₁, h₂⟩ := page t (VmPage.bump_use isNew (c.pages t)) (VmPage.bump_drumslot isNew _)
    exact ⟨h₁, hq, h₂, rfl⟩
  | drop t =>
    obtain ⟨h₁, h₂⟩ := page t (VmPage.drop_use (c.pages t)) (VmPage.drop_drumslot _)
    exact ⟨h₁, hq, h₂, rfl⟩
  | decNonzero t =>
    obtain ⟨h₁, h₂⟩ := page t (v := { c.pages t with
      nonzeroPtes := dec16 (c.pages t).nonzeroPtes }) (by dsimp only [Core.use]) (by dsimp only)
    exact ⟨h₁, hq, h₂, rfl⟩
  | evict e q' ptr p wr hqe he hw => exact ⟨hu, hq, rfl, word (hi.dirs.level_of_walks hw).ge⟩
  | enterLeaf => exact ⟨hu, hq, rfl, rfl⟩
  | enterTable => exact ⟨hu, hq, rfl, rfl⟩
  | mapZero ptr p wr hl' => exact ⟨hu, hq, rfl, word hl'.ge⟩
  | setReferent ptr p =>
    obtain ⟨h₁, h₂⟩ := page p (v := { c.pages p with referentPte := ptePaddr ptr })
      (by dsimp only [Core.use]) (by dsimp only)
    exact ⟨h₁, (Option.some_ne_none _).symm, h₂, rfl⟩
  | mapSoft ptr p hl' => exact ⟨hu, hq, rfl, word hl'.ge⟩
  | mapBusy ptr p state slot vaddr hl' =>
    obtain ⟨h₁, h₂⟩ := page p (v := { c.pages p with referentPte := ptePaddr ptr })
      (by dsimp only [Core.use]) (by dsimp only)
    exact ⟨h₁, (Option.some_ne_none _).symm, h₂, word hl'.ge⟩
  | writeable ptr p wr hl' => exact ⟨hu, hq, rfl, word hl'.ge⟩
  | finish r hr => exact ⟨hu, hq, rfl, word (hi.leaves.busy_back r hr).1.ge⟩
  | unmap ptr p hl' he h0 hd hp hk =>
    refine ⟨hu, fun e => ?_, rfl, word hl'.ge⟩
    obtain rfl : p = q := Option.some.inj e
    exact hK ptr hl' he hk
  | pick p hp =>
    refine ⟨hu, fun e => ?_, rfl, rfl⟩
    obtain rfl : p = q := Option.some.inj e
    rw [hu] at hp
    cases hp
  | handOut p use hp h0 hlo =>
    have hne : q ≠ p := fun e => hq (e ▸ hlo)
    refine ⟨?_, ?_, ?_, ?_⟩
    · exact (Core.setPage_use c p q _).trans (if_neg hne) |>.trans hu
    · simp only [Ledger.handedOut]
      split
      · exact fun e => hne (Option.some.inj e).symm
      · exact (Option.some_ne_none _).symm
    · change ((c.setPage p _).pages q).drumslot = _
      rw [Core.setPage_pages, if_neg hne]
    · exact Function.update_of_ne hne _ _
  | initTable p ptr =>
    obtain ⟨h₁, h₂⟩ := page p (v := { (c.pages p).bump true with
      referentPte := ptePaddr ptr }) (VmPage.bump_use true (c.pages p))
      (VmPage.bump_drumslot true (c.pages p))
    exact ⟨h₁, hq, h₂, rfl⟩
  | attach ptr p hl' hd => exact ⟨hu, (Option.some_ne_none _).symm, rfl, word (by omega)⟩
  | delete t ptr hl' h₃ hg hz hs hn hrp =>
    obtain ⟨d, hd, -, hld⟩ := hi.dirs.dir_back t hl' h₃ (by rw [hg.loose]; exact (Option.some_ne_none _).symm)
    obtain rfl : d = ptr := ptePaddr_injective (hd.symm.trans hrp)
    have hne : q ≠ t := fun e => by
      rw [e] at hl
      omega
    refine ⟨?_, hq, ?_, word (by omega)⟩
    · exact (Core.setPage_use c t q _).trans (if_neg hne) |>.trans hu
    · change ((c.setPage t _).pages q).drumslot = _
      rw [Core.setPage_pages, if_neg hne]
  | free t ht =>
    have hne : q ≠ t := fun e => by
      rw [← e, hu] at ht
      cases ht
    refine ⟨(Core.setPage_use c t q _).trans (if_neg hne) |>.trans hu, hq, ?_, rfl⟩
    rw [Core.setPage_pages, if_neg hne]
  | hold p =>
    obtain ⟨h₁, h₂⟩ := page p (v := { c.pages p with refcnt := (c.pages p).refcnt + 1 })
      (by dsimp only [Core.use]) (by dsimp only)
    exact ⟨h₁, hq, h₂, rfl⟩
  | unhold p =>
    obtain ⟨h₁, h₂⟩ := page p (v := { c.pages p with
      refcnt := dec16 (c.pages p).refcnt }) (by dsimp only [Core.use]) (by dsimp only)
    exact ⟨h₁, hq, h₂, rfl⟩
  | markDirty p b =>
    obtain ⟨h₁, h₂⟩ := page p (v := { c.pages p with dirty := (c.pages p).dirty || b })
      (by dsimp only [Core.use]) (by dsimp only)
    exact ⟨h₁, hq, h₂, rfl⟩

theorem Moves.settledPage (h : Moves K c g c' g') (hi : Inv c g) {q : Pfn}
    (hK : ∀ c, ¬ K.steal c q) (hu : c.use q = .anonPrivate) (hq : g.loose ≠ some q) :
    c'.use q = .anonPrivate ∧ g'.loose ≠ some q ∧
      (c'.pages q).drumslot = (c.pages q).drumslot ∧ c'.mem q = c.mem q := by
  refine (h.invariant (P := fun d e => Inv d e ∧ d.use q = .anonPrivate ∧ e.loose ≠ some q ∧
    (d.pages q).drumslot = (c.pages q).drumslot ∧ d.mem q = c.mem q)
    ⟨hi, hu, hq, rfl, rfl⟩ fun _ _ _ _ hp hm => ?_).2
  obtain ⟨hu', hl', hd', hm'⟩ := hm.settledPage hp.1 (fun _ _ _ => hK _) hp.2.1 hp.2.2.1
  exact ⟨hp.1.move hm, hu', hl', hd'.trans hp.2.2.2.1, hm'.trans hp.2.2.2.2⟩

end VmmSim
