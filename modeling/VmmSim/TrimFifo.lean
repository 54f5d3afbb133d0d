import VmmSim.MdlContract

/-!
# Trimming in the order of the queue

`vmp_wsl_trim_n` takes entries off the front of the queue. Where they stand for pages of data, what
a whole call does is known exactly (`TrimmedFifo`): the pages leave the working set in the order of
the queue, each keeps its frame in transition, and those that nobody else refers to go to the tail
of the queue that their dirty flag names. Nothing else changes. The loop is followed with the exact
state beside the one of the code, since the invariants are those of the former.
-/

namespace VmmSim

open Lib

/-! ## The release of a page of data -/

/-- The end of a release sets flags and events, and nothing else. -/
theorem releaseSufficience_eq (s : State) : ∃ a b c d, releaseSufficience s = { s with
    wasShortage := a
    sufficientPagesEvent := b
    pgwriterEvent := c
    balancerEvent := d } := by
  obtain ⟨a, b, c, d, hc⟩ : ∃ a b c d, (checkShortage s).2 = { s with
      wasShortage := a
      sufficientPagesEvent := b
      pgwriterEvent := c
      balancerEvent := d } := by
    unfold checkShortage
    dsimp only
    split
    · split <;> split <;> exact ⟨_, _, _, _, rfl⟩
    · exact ⟨_, _, _, _, rfl⟩
  unfold releaseSufficience
  rw [hc]
  dsimp only
  split <;> exact ⟨_, _, _, _, rfl⟩

/-- A page of data with one reference less. -/
def State.releaseFrame (s : State) (p : Pfn) : State :=
  let s' := s.modifyPage p fun pg => { pg with refcnt := dec16 pg.refcnt }
  if (s.pages p).refcnt = 1 then
    releaseSufficience (enqueuePageable { s' with vmstat.nactive := s'.vmstat.nactive - 1 } p)
  else s'

theorem vmpPageReleaseLocked_anon {s : State} {p : Pfn} (hu : (s.pages p).use = .anonPrivate)
    (h0 : 0 < (s.pages p).refcnt) : vmpPageReleaseLocked s p = .ok (s.releaseFrame p) := by
  have hfree : (s.pages p).use ≠ .free := by rw [hu]; decide
  simp only [vmpPageReleaseLocked, kassert_of h0, kassert_of hfree, ok_bind, State.releaseFrame]
  split
  · simp only [releaseLast, State.modifyPage_pages_self, hu]
  · rfl

/-- The page joins the queue of unreferenced pages with its dirty flag, or no queue. -/
def State.joins (s : State) (p : Pfn) (dirty : Bool) : List Pfn :=
  if (s.pages p).refcnt = 1 ∧ (s.pages p).dirty = dirty then [p] else []

/-- What a release leaves. -/
structure Released (s : State) (p : Pfn) (s' : State) : Prop where
  pages : s'.pages = Function.update s.pages p
    { s.pages p with refcnt := dec16 (s.pages p).refcnt }
  mem : s'.mem = s.mem
  wsl : s'.wsl = s.wsl
  modified : s'.modifiedPgq = s.modifiedPgq ++ s.joins p true
  standby : s'.standbyPgq = s.standbyPgq ++ s.joins p false
  free : s'.freePgq = s.freePgq
  root : s'.pml4Page = s.pml4Page

theorem State.released (s : State) (p : Pfn) : Released s p (s.releaseFrame p) := by
  unfold releaseFrame
  dsimp only
  split
  · rename_i h1
    obtain ⟨a, b, c, d, hs⟩ := releaseSufficience_eq (enqueuePageable
      { s.modifyPage p fun pg => { pg with refcnt := dec16 pg.refcnt } with
        vmstat.nactive := s.vmstat.nactive - 1 } p)
    rw [show (s.modifyPage p fun pg => { pg with refcnt := dec16 pg.refcnt }).vmstat.nactive =
      s.vmstat.nactive from rfl, hs]
    unfold enqueuePageable
    cases hd : (s.pages p).dirty <;>
      simp only [modifyPage_pages_self, hd, Bool.false_eq_true, if_false, if_true] <;>
      exact ⟨rfl, rfl, rfl, by simp [joins, h1, hd, modifyPage], by simp [joins, h1, hd, modifyPage],
        rfl, rfl⟩
  · rename_i h1
    exact ⟨rfl, rfl, rfl, by simp [joins, h1, modifyPage], by simp [joins, h1, modifyPage], rfl, rfl⟩

/-! ## One round -/

/-- The page that an entry maps is evicted. -/
def State.evictLeaf (s : State) (ptr : PtePtr) (p : Pfn) (wr : Bool) : State :=
  ((s.modifyPage p fun pg => { pg with dirty := pg.dirty || wr }).setPte ptr
    (vmpPteTransCreate p.val)).releaseFrame p

/-- A round of the loop on an entry that stands for a page of data. -/
theorem wslTrim1_leaf {s : State} {e : Wsle} {q : List Wsle} {p : Pfn} {ptr : PtePtr} {wr : Bool}
    (hq : s.wsl.queue = e :: q) (ht : wsleTarget s e = .ok (p, ptr))
    (hu : (s.pages p).use = .anonPrivate) (hv : view (s.pte ptr) = .valid p.val wr)
    (h0 : 0 < (s.pages p).refcnt) :
    wslTrim1 s = .ok (some e, (s.takeWsle e q).evictLeaf ptr p wr) := by
  have htarget : wsleTarget (s.takeWsle e q) e = .ok (p, ptr) := ht
  have hevict : wslEvict (s.takeWsle e q) p ptr =
      .ok ((s.takeWsle e q).evictLeaf ptr p wr) := by
    have husep : ((s.takeWsle e q).pages p).use = .anonPrivate := hu
    rw [wslEvict_anon wr husep hv, vmpPageReleaseLocked_anon]
    · rfl
    · rw [State.setPte_pages, State.modifyPage_pages_self]
      exact hu
    · rw [State.setPte_pages, State.modifyPage_pages_self]
      exact h0
  rw [wslTrim1_cons hq, htarget, ok_bind, hevict, ok_bind]
  rfl

/-! ## The whole loop -/

/-- The pages and entries that the first entries of the queue stand for. -/
def State.victims (s : State) (n : ℕ) : List (Pfn × PtePtr) :=
  (s.wsl.queue.take n).filterMap fun e => (wsleTarget s e).toOption

/-- What trimming the first `n` entries of the queue does, when they stand for pages of data. -/
structure TrimmedFifo (s : State) (n : ℕ) (s' : State) : Prop where
  queue : s'.wsl.queue = s.wsl.queue.drop n
  tree : s'.wsl.tree = s.wsl.tree.filter fun e => e ∉ s.wsl.queue.take n
  nentries : s'.wsl.nentries + n = s.wsl.nentries
  limits : s'.wsl.nlocked = s.wsl.nlocked ∧ s'.wsl.max = s.wsl.max
  target : ∀ e ∈ s.wsl.queue.take n, ∃ r, wsleTarget s e = .ok r
  /-- A page that was trimmed is in transition, dirty if it was or could be written, and has one
  reference less. -/
  evicted : ∀ p ptr, (p, ptr) ∈ s.victims n → ∃ wr, view (s.pte ptr) = .valid p.val wr ∧
    s'.pte ptr = vmpPteTransCreate p.val ∧ 0 < (s.pages p).refcnt ∧
    s'.pages p = { s.pages p with
      dirty := (s.pages p).dirty || wr
      refcnt := (s.pages p).refcnt - 1 }
  entries : ∀ ptr, (∀ p, (p, ptr) ∉ s.victims n) → s'.pte ptr = s.pte ptr
  pages : ∀ p, (∀ ptr, (p, ptr) ∉ s.victims n) → s'.pages p = s.pages p
  /-- The pages without references are queued in the order of their eviction. -/
  modified : s'.modifiedPgq = s.modifiedPgq ++ ((s.victims n).map Prod.fst).filter fun p =>
    (s'.pages p).refcnt = 0 ∧ (s'.pages p).dirty = true
  standby : s'.standbyPgq = s.standbyPgq ++ ((s.victims n).map Prod.fst).filter fun p =>
    (s'.pages p).refcnt = 0 ∧ (s'.pages p).dirty = false
  free : s'.freePgq = s.freePgq
  root : s'.pml4Page = s.pml4Page

variable {s s' : State} {g : Ledger} {n : ℕ}

theorem TrimmedFifo.zero (s : State) : TrimmedFifo s 0 s where
  queue := rfl
  tree := by simp
  nentries := rfl
  limits := ⟨rfl, rfl⟩
  target := by simp
  evicted := by simp [State.victims]
  entries _ _ := rfl
  pages _ _ := rfl
  modified := by simp [State.victims]
  standby := by simp [State.victims]
  free := rfl
  root := rfl

theorem State.mem_victims {p : Pfn} {ptr : PtePtr} : (p, ptr) ∈ s.victims n ↔
    ∃ e ∈ s.wsl.queue.take n, wsleTarget s e = .ok (p, ptr) := by
  simp only [State.victims, List.mem_filterMap]
  refine exists_congr fun e => and_congr_right fun _ => ⟨toOption_eq_some, fun h => ?_⟩
  rw [h]
  rfl

theorem State.victims_succ {e : Wsle} {p : Pfn} {ptr : PtePtr} (he : s.wsl.queue[n]? = some e)
    (ht : wsleTarget s e = .ok (p, ptr)) : s.victims (n + 1) = s.victims n ++ [(p, ptr)] := by
  rw [State.victims, List.take_add_one, he, List.filterMap_append]
  simp [ht, Except.toOption, State.victims]

/-- The first entries of the queue stand for pages of data. -/
def State.LeavesFirst (s : State) (n : ℕ) : Prop :=
  ∀ e ∈ s.wsl.queue.take n, e.isPagetable = false

theorem State.LeavesFirst.mono {m : ℕ} (h : s.LeavesFirst n) (hm : m ≤ n) : s.LeavesFirst m :=
  fun e he => h e (List.take_subset_take_left _ hm he)

/-- A leaf entry of the queue: what it stands for. -/
theorem Good.target (h : Good none s g) {e : Wsle} (he : e ∈ s.wsl.queue)
    (ht : e.isPagetable = false) : ∃ p ptr wr, s.core.Walks e.vaddr ptr ∧
      s.core.entry ptr = .valid p.val wr ∧ s.core.use p = .anonPrivate ∧
        wsleTarget s.narrow e = .ok (p, ptr) := by
  obtain ⟨p, ptr, wr, hw, -, hv, hu, htarget⟩ :=
    wsleTarget_leaf h (s := s.narrow) (h.inv.mirror.sub e he) he ht rfl rfl
  exact ⟨p, ptr, wr, hw, hv, hu, htarget⟩

/-- The frame of a valid entry is that of no other entry. -/
theorem Good.frame_unique (h : Good none s g) (hg : g.Settled) {ptr ptr' : PtePtr} {p : Pfn}
    (hl : s.core.level ptr.1 = 1) (hl' : s.core.level ptr'.1 = 1)
    (he : (s.core.entry ptr).frame = some p.val) (he' : (s.core.entry ptr').frame = some p.val) :
    ptr = ptr' := by
  have owner : ∀ {x : PtePtr}, s.core.level x.1 = 1 → (s.core.entry x).frame = some p.val →
      (s.core.pages p).referentPte = ptePaddr x := fun hx hex => by
    obtain ⟨q, hq, -, hown⟩ := h.inv.leaves.frame _ p.val hx hex
    obtain rfl : p = q := Fin.ext hq
    exact (hown.resolve_right fun hun => by
      rw [hg.loose] at hun
      exact Option.some_ne_none _ hun.2.symm).1
  exact ptePaddr_injective ((owner hl he).symm.trans (owner hl' he'))

/-- What a page or entry that was trimmed is. -/
theorem Good.of_victim (h : Good none s g) (hf : s.LeavesFirst n) {p : Pfn} {ptr : PtePtr}
    (hv : (p, ptr) ∈ s.narrow.victims n) : ∃ e ∈ s.wsl.queue.take n, ∃ wr,
      s.core.Walks e.vaddr ptr ∧ s.core.entry ptr = .valid p.val wr := by
  obtain ⟨e, he, ht⟩ := State.mem_victims.1 hv
  obtain ⟨p', ptr', wr, hw, hval, -, ht'⟩ := h.target (List.mem_of_mem_take he) (hf e he)
  obtain ⟨rfl, rfl⟩ := Prod.mk.inj (Except.ok.inj (ht'.symm.trans ht))
  exact ⟨e, he, wr, hw, hval⟩

/-- What is known after some rounds of the loop, with the exact state beside the code's. -/
structure Trimming (s : State) (g : Ledger) (n : ℕ) (s' : State) : Prop where
  made : Made Guard.any.calm none s g s' g
  fifo : TrimmedFifo s.narrow n s'.narrow

/-- What an eviction leaves. -/
theorem State.evictLeaf_pages {ptr : PtePtr} {p : Pfn} {wr : Bool}
    (h0 : 0 < (s.pages p).refcnt) (hle : (s.pages p).refcnt ≤ 2 ^ 16) :
    (s.evictLeaf ptr p wr).pages = Function.update s.pages p
      { s.pages p with
        dirty := (s.pages p).dirty || wr
        refcnt := (s.pages p).refcnt - 1 } := by
  rw [evictLeaf, (State.released _ p).pages]
  simp only [setPte_pages, modifyPage, Function.update_self, Function.update_idem,
    dec16_of_pos h0 hle]

/-- The queue that an evicted page joins, if it was the last reference. -/
theorem filter_victims {l : List Pfn} {f f' : Pfn → VmPage} {p : Pfn} {d : Bool} (hp : p ∉ l)
    (hf : ∀ q, q ≠ p → f' q = f q) :
    ((l ++ [p]).filter fun q => (f' q).refcnt = 0 ∧ (f' q).dirty = d) =
      (l.filter fun q => (f q).refcnt = 0 ∧ (f q).dirty = d) ++
        if (f' p).refcnt = 0 ∧ (f' p).dirty = d then [p] else [] := by
  rw [List.filter_append]
  congr 1
  · refine List.filter_congr fun q hq => ?_
    rw [hf q fun e => hp (e ▸ hq)]
  · by_cases hc : (f' p).refcnt = 0 ∧ (f' p).dirty = d
    · rw [if_pos hc, List.filter_singleton]
      simp [hc]
    · rw [if_neg hc]
      exact List.filter_eq_nil_iff.2 fun q hq => by
        rw [List.mem_singleton.1 hq]
        simpa using hc

/-- A round more: the entry it takes stands for a page that was not touched before. -/
theorem TrimmedFifo.succ {e : Wsle} {p : Pfn} {ptr : PtePtr} {wr : Bool}
    (h : TrimmedFifo s n s') (htree : s.wsl.tree.Nodup)
    (he : s.wsl.queue[n]? = some e) (ht : wsleTarget s e = .ok (p, ptr))
    (hv : view (s.pte ptr) = .valid p.val wr) (hptr : ∀ q, (q, ptr) ∉ s.victims n)
    (hpage : ∀ x, (p, x) ∉ s.victims n) (h0 : 0 < (s.pages p).refcnt)
    (hle : (s.pages p).refcnt ≤ 2 ^ 16) (hn : 1 ≤ s'.wsl.nentries) :
    TrimmedFifo s (n + 1)
      ((s'.takeWsle e (s.wsl.queue.drop (n + 1))).evictLeaf ptr p wr) := by
  set t := s'.takeWsle e (s.wsl.queue.drop (n + 1)) with ht_def
  have hsame : t.pages p = s.pages p := h.pages p hpage
  have hpages : (t.evictLeaf ptr p wr).pages = Function.update t.pages p
      { t.pages p with
        dirty := (t.pages p).dirty || wr
        refcnt := (t.pages p).refcnt - 1 } :=
    State.evictLeaf_pages (by rw [hsame]; exact h0) (by rw [hsame]; exact hle)
  rw [hsame] at hpages
  have hrel := State.released ((t.modifyPage p fun pg => { pg with dirty := pg.dirty || wr }).setPte
    ptr (vmpPteTransCreate p.val)) p
  have hmem : ∀ x, (t.evictLeaf ptr p wr).pte x =
      if x = ptr then vmpPteTransCreate p.val else s'.pte x := fun x => by
    rw [State.pte, State.evictLeaf, hrel.mem]
    exact State.setPte_pte _ _ _ x
  have hvict := State.victims_succ he ht
  have htake : s.wsl.queue.take (n + 1) = s.wsl.queue.take n ++ [e] := by
    rw [List.take_add_one, he]
    rfl
  have hother : ∀ q, q ≠ p → (t.evictLeaf ptr p wr).pages q = s'.pages q := fun q hq => by
    rw [hpages, Function.update_of_ne hq]
    rfl
  have hself : (t.evictLeaf ptr p wr).pages p = { s.pages p with
      dirty := (s.pages p).dirty || wr
      refcnt := (s.pages p).refcnt - 1 } := by
    rw [hpages, Function.update_self]
  have hnotin : p ∉ (s.victims n).map Prod.fst := fun hp => by
    obtain ⟨⟨q, x⟩, hx, rfl⟩ := List.mem_map.1 hp
    exact hpage x hx
  have hjoins : ∀ d, ((t.modifyPage p fun pg => { pg with dirty := pg.dirty || wr }).setPte ptr
      (vmpPteTransCreate p.val)).joins p d = if ((t.evictLeaf ptr p wr).pages p).refcnt = 0 ∧
        ((t.evictLeaf ptr p wr).pages p).dirty = d then [p] else [] := fun d => by
    have hone : (s.pages p).refcnt = 1 ↔ (s.pages p).refcnt - 1 = 0 := by omega
    rw [hself, State.joins, State.setPte_pages, State.modifyPage_pages_self, hsame]
    simp only [hone]
  refine ⟨?_, ?_, ?_, ?_, ?_, ?_, ?_, ?_, ?_, ?_, ?_, ?_⟩
  · exact congrArg Wsl.queue hrel.wsl
  · have herase : (t.evictLeaf ptr p wr).wsl.tree = s'.wsl.tree.erase e :=
      congrArg Wsl.tree hrel.wsl
    rw [herase, h.tree, (htree.filter _).erase_eq_filter, List.filter_filter]
    refine List.filter_congr fun x _ => ?_
    rw [htake]
    by_cases hx : x = e <;> simp [hx]
  · have hcount : (t.evictLeaf ptr p wr).wsl.nentries = s'.wsl.nentries - 1 :=
      congrArg Wsl.nentries hrel.wsl
    have := h.nentries
    omega
  · exact ⟨(congrArg Wsl.nlocked hrel.wsl).trans h.limits.1,
      (congrArg Wsl.max hrel.wsl).trans h.limits.2⟩
  · intro x hx
    rw [htake] at hx
    rcases List.mem_append.1 hx with hx | hx
    · exact h.target x hx
    · obtain rfl := List.mem_singleton.1 hx
      exact ⟨_, ht⟩
  · intro q x hx
    rw [hvict] at hx
    rcases List.mem_append.1 hx with hx | hx
    · obtain ⟨wr', hval, hpte, hpos, hpg⟩ := h.evicted q x hx
      have hxp : x ≠ ptr := fun e => hptr q (e ▸ hx)
      have hqp : q ≠ p := fun e => hpage x (e ▸ hx)
      exact ⟨wr', hval, by rw [hmem, if_neg hxp, hpte], hpos, by rw [hother q hqp, hpg]⟩
    · obtain ⟨rfl, rfl⟩ := Prod.mk.inj (List.mem_singleton.1 hx)
      exact ⟨wr, hv, by rw [hmem, if_pos rfl], h0, hself⟩
  · intro x hx
    have hxp : x ≠ ptr := fun e => hx p (by rw [hvict, e]; simp)
    rw [hmem, if_neg hxp]
    exact h.entries x fun q hq => hx q (by rw [hvict]; exact List.mem_append_left _ hq)
  · intro q hq
    have hqp : q ≠ p := fun e => hq ptr (by rw [hvict, e]; simp)
    rw [hother q hqp]
    exact h.pages q fun x hx => hq x (by rw [hvict]; exact List.mem_append_left _ hx)
  · rw [hvict, List.map_append, List.map_singleton, filter_victims hnotin hother, ← hjoins,
      ← List.append_assoc, ← h.modified]
    exact hrel.modified
  · rw [hvict, List.map_append, List.map_singleton, filter_victims hnotin hother, ← hjoins,
      ← List.append_assoc, ← h.standby]
    exact hrel.standby
  · exact hrel.free.trans h.free
  · exact hrel.root.trans h.root

section Loop

variable (h : Good none s g) (hg : g.Settled) (hz : s.Sized)

include h hg hz

/-- A round of the loop, with the exact state beside the code's. -/
theorem Trimming.succ (hr : ∀ p, g.held p + 1 < 2 ^ 16) (ht : Trimming s g n s')
    (hf : s.LeavesFirst (n + 1)) {e : Wsle} (he : s.wsl.queue[n]? = some e) :
    ∃ s'', wslTrim1 s'.narrow = .ok (some e, s''.narrow) ∧ Trimming s g (n + 1) s'' := by
  have h' := ht.made.good h
  have hcalm := ht.made.calm h.inv
  have hmem := List.mem_of_getElem? he
  have htake : s.wsl.queue.take (n + 1) = s.wsl.queue.take n ++ [e] := by
    rw [List.take_add_one, he]
    rfl
  have hleaf : e.isPagetable = false := hf e (by rw [htake]; simp)
  have hf' : s.LeavesFirst n := hf.mono (Nat.le_succ n)
  have hqueue : s'.wsl.queue = e :: s.wsl.queue.drop (n + 1) := by
    obtain ⟨hlt, hget⟩ := List.getElem?_eq_some_iff.1 he
    rw [show s'.wsl.queue = s.wsl.queue.drop n from ht.fifo.queue, List.drop_eq_getElem_cons hlt,
      hget]
  -- the entry is new to the victims
  obtain ⟨p, ptr, wr, hw, hval, hu, htarget⟩ := h.target hmem hleaf
  have hl := h.inv.dirs.level_of_walks hw
  have hptr : ∀ q, (q, ptr) ∉ s.narrow.victims n := fun q hq => by
    obtain ⟨x, hx, wr', hwx, -⟩ := h.of_victim hf' hq
    obtain rfl := h.inv.mirror.leaf_unique x (h.inv.mirror.sub x (List.mem_of_mem_take hx)) e
      (h.inv.mirror.sub e hmem) (hf' x hx) hleaf ptr hwx hw
    have hnodup : (s.wsl.queue.take (n + 1)).Nodup :=
      List.Nodup.sublist (List.take_sublist _ _) h.inv.mirror.nodup
    rw [htake, List.nodup_append] at hnodup
    exact hnodup.2.2 x hx x (List.mem_singleton_self x) rfl
  have hpage : ∀ x, (p, x) ∉ s.narrow.victims n := fun x hx => by
    obtain ⟨e', -, wr', hwx, hvx⟩ := h.of_victim hf' hx
    obtain rfl := h.frame_unique hg (h.inv.dirs.level_of_walks hwx) hl (by rw [hvx]; rfl)
      (by rw [hval]; rfl)
    exact hptr p hx
  -- in the state of this round it still stands for the same page
  have hmem' : e ∈ s'.wsl.queue := by rw [hqueue]; exact List.mem_cons_self
  obtain ⟨p', ptr', wr', hw', hval', hu', htarget'⟩ := h'.target hmem' hleaf
  obtain rfl : ptr' = ptr := ((hcalm.walks h.inv.dirs).1 hw').unique hw
  have hword : s'.pte ptr' = s.pte ptr' := ht.fifo.entries ptr' hptr
  have hentry : s'.core.entry ptr' = s.core.entry ptr' := congrArg view hword
  obtain ⟨hp, rfl⟩ := Pte.valid.inj (hval'.symm.trans (hentry.trans hval))
  obtain rfl : p' = p := Fin.ext hp
  have hrc : (s.pages p').refcnt = g.held p' + 1 := h.inv.frames.valid ptr' p' wr' hl hval
  have hlt : (s.pages p').refcnt < 2 ^ 16 := by
    rw [hrc]
    exact hr p'
  have hnarrow : (s.narrow.pages p').refcnt = (s.pages p').refcnt :=
    VmPage.narrow_refcnt_of_lt hlt
  have h0 : 0 < (s.narrow.pages p').refcnt := by
    rw [hnarrow, hrc]
    omega
  have hcode := wslTrim1_leaf (s := s'.narrow) hqueue htarget' hu' hval' (by
    rw [ht.fifo.pages p' hpage]
    exact h0)
  have trim := wp_wslTrim1 (K := Guard.any) h' fun q hq => by
    rw [hg.loose] at hq
    cases hq
  have follow := (wslTrim1_narrow s').wp trim.weaken fun _ _ => trivial
  obtain ⟨⟨e', s''⟩, hs'', htrimmed, -⟩ := follow.of_ok hcode
  obtain ⟨rfl, hstate⟩ := Prod.mk.inj hs''
  refine ⟨s'', by rw [hcode, hstate], ht.made.trans htrimmed.made, ?_⟩
  rw [← show _ = s''.narrow from hstate]
  have hentries : 1 ≤ s'.narrow.wsl.nentries := by
    have hpos := List.length_pos_of_mem (h'.inv.mirror.sub e hmem')
    have := (hz.of_sizes ht.made.sizes).entries
    have hsize : 0 < s'.wsl.tree.length := hpos
    change 1 ≤ s'.wsl.nentries
    omega
  exact ht.fifo.succ (List.Nodup.of_map _ h.inv.mirror.keys) he htarget hval hptr hpage h0
    (by rw [hnarrow]; exact hlt.le) hentries

/-- The loop, after some rounds: it goes on until it has made them all, or the queue is empty. -/
theorem Trimming.loop (hr : ∀ p, g.held p + 1 < 2 ^ 16) (count : ℕ) : ∀ {i : ℕ} {s' : State},
    Trimming s g i s' → i ≤ s.wsl.queue.length →
    s.LeavesFirst (min (i + count) s.wsl.queue.length) →
      ∃ s'', wslTrimFrom i count s'.narrow = .ok (min (i + count) s.wsl.queue.length, s''.narrow) ∧
        Trimming s g (min (i + count) s.wsl.queue.length) s'' := by
  induction count with
  | zero =>
    intro i s' ht hi _
    rw [Nat.add_zero, min_eq_left hi]
    exact ⟨s', rfl, ht⟩
  | succ count ih =>
    intro i s' ht hi hf
    rcases Nat.lt_or_ge i s.wsl.queue.length with hlt | hge
    · have he := List.getElem?_eq_getElem hlt
      have hf' : s.LeavesFirst (i + 1) := hf.mono (by omega)
      obtain ⟨s'', hstep, ht'⟩ := ht.succ h hg hz hr hf' he
      obtain ⟨s₃, hloop, ht₃⟩ := ih ht' hlt (by rwa [show i + 1 + count = i + (count + 1) by omega])
      refine ⟨s₃, ?_, by rwa [show i + (count + 1) = i + 1 + count by omega]⟩
      rw [wslTrimFrom, hstep, ok_bind]
      simp only [reduceCtorEq, if_false]
      rw [hloop, show i + 1 + count = i + (count + 1) by omega]
    · have hend : i = s.wsl.queue.length := by omega
      have hqueue : s'.narrow.wsl.queue = [] := by
        rw [ht.fifo.queue, hend]
        exact List.drop_length
      refine ⟨s', ?_, by rwa [min_eq_right (by omega), ← hend]⟩
      rw [wslTrimFrom, wslTrim1, hqueue, min_eq_right (by omega), ← hend]
      rfl

end Loop

end VmmSim
