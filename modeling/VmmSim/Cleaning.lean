import VmmSim.Refault

/-!
# A whole pass of the page writer

The page writer takes pages off the modified queue, at most as many as it has requests, gives each a
slot, writes it, and in the end releases them all. A pass that nobody interrupts moves the front of
the modified queue to the tail of the standby queue, in its order, and the slot of every page then
holds its contents (`pgwriter_pass`). A page for which the pagefile has no slot left is moved too,
and written nowhere.
-/

namespace VmmSim

open Lib

variable {x y z : Sys} {p : Pfn}

/-! ## What the page writer finds -/

/-- `k` turns of the page writer, and of nobody else. -/
def WriterTurns (k : ℕ) (x y : Sys) : Prop :=
  runSteps step (List.replicate k .pgwriter) x = .ok y

theorem WriterTurns.refl (x : Sys) : WriterTurns 0 x x := rfl

theorem WriterTurns.one (h : pgwriterTurn x = .ok y) : WriterTurns 1 x y := by
  rw [WriterTurns, List.replicate_one, runSteps, show step .pgwriter x = _ from h]
  rfl

theorem WriterTurns.trans {j k : ℕ} (h : WriterTurns j x y) (h' : WriterTurns k y z) :
    WriterTurns (j + k) x z := by
  rw [WriterTurns, List.replicate_add, runSteps_append, show runSteps step _ x = _ from h]
  exact h'

/-- The slot for a page with this one, which may be none. -/
def Pagefile.assign (pf : Pagefile) (slot : ℕ) : Res (ℕ × Pagefile) :=
  if slot = noSlot then vmpPagefileAlloc pf else .ok (slot, pf)

/-- What a page is given. -/
structure Assigned (pf : Pagefile) (slot slot' : ℕ) (pf' : Pagefile) : Prop where
  kept : slot ≠ noSlot → slot' = slot ∧ pf' = pf
  fresh : slot = noSlot → slot' ≠ noSlot → pf.taken slot' = false
  full : slot' = noSlot → pf'.Full
  total : pf'.totalSlots = pf.totalSlots
  taken : ∀ i, pf'.taken i = true ↔ pf.taken i = true ∨ slot = noSlot ∧ slot' ≠ noSlot ∧ i = slot'

theorem Pagefile.Counted.assign {pf : Pagefile} (h : pf.Counted) (slot : ℕ) :
    ∃ slot' pf', pf.assign slot = .ok (slot', pf') ∧ Assigned pf slot slot' pf' := by
  by_cases hs : slot = noSlot
  · obtain ⟨⟨slot', pf'⟩, hok, hexact⟩ := wp_false_iff.1 (wp_pagefileAlloc h)
    refine ⟨slot', pf', by rw [Pagefile.assign, if_pos hs, hok], ?_⟩
    by_cases hno : slot' = noSlot
    · obtain rfl : pf' = pf := hexact.unchanged hno
      refine ⟨fun hne => absurd hs hne, fun _ hne => absurd hno hne, fun _ => hexact.full.1 hno,
        rfl, ?_⟩
      intro i
      simp [hno]
    · obtain ⟨htaken, -, htotal⟩ := hexact.taken hno
      obtain ⟨-, -, -, hfree, -⟩ := hexact.first hno
      refine ⟨fun hne => absurd hs hne, fun _ _ => hfree, fun hno' => absurd hno' hno, htotal, ?_⟩
      intro i
      simp [htaken i, hs, hno]
  · refine ⟨slot, pf, if_neg hs, fun _ => ⟨rfl, rfl⟩, fun hno => absurd hno hs,
      fun hno => absurd hno hs, rfl, ?_⟩
    intro i
    simp [hs]

theorem Assigned.full_kept {pf pf' : Pagefile} {slot slot' : ℕ} (h : Assigned pf slot slot' pf')
    (hf : pf.Full) : pf'.Full := by
  intro i hi
  rw [h.total] at hi
  exact (h.taken i).2 (.inl (hf i hi))

/-- The first page of the modified queue is picked, and given the slot. -/
def State.picked (s : State) (p : Pfn) (rest : List Pfn) (slot : ℕ) (pf : Pagefile) : State :=
  { s with
    pages := Function.update s.pages p
      { s.pages p with refcnt := 1, dirty := false, drumslot := slot }
    modifiedPgq := rest
    vmstat := { s.vmstat with
      nmodified := s.vmstat.nmodified - 1
      nactive := s.vmstat.nactive + 1 }
    pagefile := pf }

/-- The page is written to its slot. -/
def State.written (s : State) (p : Pfn) (slot : ℕ) : State :=
  if slot = noSlot then s else { s with
    drum := Function.update s.drum slot (s.mem p)
    unsaved := Function.update s.unsaved p false }

section Written

variable (s : State) (p : Pfn) (slot : ℕ)

theorem State.written_eq : s.written p slot = { s with
    drum := (s.written p slot).drum
    unsaved := (s.written p slot).unsaved } := by
  unfold written
  split <;> rfl

@[simp] theorem State.written_pages : (s.written p slot).pages = s.pages := by
  rw [written_eq]

@[simp] theorem State.written_pagefile : (s.written p slot).pagefile = s.pagefile := by
  rw [written_eq]

theorem State.written_drum {i : ℕ} (hi : slot ≠ noSlot → slot ≠ i) :
    (s.written p slot).drum i = s.drum i := by
  unfold written
  split
  · rfl
  · rename_i hno
    exact Function.update_of_ne (hi hno).symm _ _

theorem State.written_unsaved {q : Pfn} (hq : q ≠ p) :
    (s.written p slot).unsaved q = s.unsaved q := by
  unfold written
  split
  · rfl
  · exact Function.update_of_ne hq _ _

theorem State.written_self {slot : ℕ} (hno : slot ≠ noSlot) :
    (s.written p slot).drum slot = s.mem p ∧ (s.written p slot).unsaved p = false := by
  rw [written, if_neg hno]
  exact ⟨Function.update_self .., Function.update_self ..⟩

end Written

/-- A page that the pass has taken: it is clean, and its slot holds its contents. A page without a
slot had none, when there was none left. -/
structure CleanedPage (s s' : State) (refcnt : ℕ) (p : Pfn) : Prop where
  page : s'.pages p = { s.pages p with
    refcnt := refcnt
    dirty := false
    drumslot := (s'.pages p).drumslot }
  kept : (s.pages p).drumslot ≠ noSlot → (s'.pages p).drumslot = (s.pages p).drumslot
  fresh : (s.pages p).drumslot = noSlot → (s'.pages p).drumslot ≠ noSlot →
    s.pagefile.taken (s'.pages p).drumslot = false
  written : (s'.pages p).drumslot ≠ noSlot →
    s'.drum (s'.pages p).drumslot = s.mem p ∧ s'.unsaved p = false
  full : (s'.pages p).drumslot = noSlot → s'.pagefile.Full

/-- What no turn of the page writer touches. -/
structure SameRest (s s' : State) : Prop where
  mem : s'.mem = s.mem
  freePgq : s'.freePgq = s.freePgq
  wsl : s'.wsl = s.wsl
  vmparam : s'.vmparam = s.vmparam
  softPages : s'.softPages = s.softPages
  pml4Page : s'.pml4Page = s.pml4Page
  vadTree : s'.vadTree = s.vadTree
  totalSlots : s'.pagefile.totalSlots = s.pagefile.totalSlots

theorem SameRest.trans {s s' s'' : State} (h : SameRest s s') (h' : SameRest s' s'') :
    SameRest s s'' :=
  ⟨h'.mem.trans h.mem, h'.freePgq.trans h.freePgq, h'.wsl.trans h.wsl, h'.vmparam.trans h.vmparam,
    h'.softPages.trans h.softPages, h'.pml4Page.trans h.pml4Page, h'.vadTree.trans h.vadTree,
    h'.totalSlots.trans h.totalSlots⟩

/-- A pass under way: the pages that are released, and those that are still in the batch. -/
structure Cleaning (s : State) (done batch : List Pfn) (s' : State) : Prop where
  modified : s.modifiedPgq = done ++ batch ++ s'.modifiedPgq
  standby : s'.standbyPgq = s.standbyPgq ++ done
  vmstat : s'.vmstat = { s.vmstat with
    nmodified := s.vmstat.nmodified - (done.length + batch.length)
    nstandby := s.vmstat.nstandby + done.length
    nactive := s.vmstat.nactive + batch.length }
  released : ∀ p ∈ done, CleanedPage s s' 0 p
  waiting : ∀ p ∈ batch, CleanedPage s s' 1 p
  others : ∀ p, p ∉ done → p ∉ batch → s'.pages p = s.pages p ∧ s'.unsaved p = s.unsaved p
  drum : ∀ slot, (∀ p, p ∈ done ∨ p ∈ batch → (s'.pages p).drumslot ≠ slot) →
    s'.drum slot = s.drum slot
  taken : ∀ i, s'.pagefile.taken i = true ↔ s.pagefile.taken i = true ∨
    i ≠ noSlot ∧ ∃ p, (p ∈ done ∨ p ∈ batch) ∧ (s.pages p).drumslot = noSlot ∧
      (s'.pages p).drumslot = i
  rest : SameRest s s'

theorem Cleaning.refl (s : State) : Cleaning s [] [] s where
  modified := rfl
  standby := (List.append_nil _).symm
  vmstat := rfl
  released p hp := absurd hp List.not_mem_nil
  waiting p hp := absurd hp List.not_mem_nil
  others p _ _ := ⟨rfl, rfl⟩
  drum slot _ := rfl
  taken i := by simp
  rest := ⟨rfl, rfl, rfl, rfl, rfl, rfl, rfl, rfl⟩

variable {s s' : State}

/-- A page of the pass when another one is taken. -/
theorem CleanedPage.picked {refcnt slot : ℕ} {q : Pfn} {rest : List Pfn} {pf : Pagefile}
    (h : CleanedPage s s' refcnt q) (hne : q ≠ p)
    (ha : Assigned s'.pagefile (s'.pages p).drumslot slot pf)
    (hslot : (s'.pages q).drumslot ≠ noSlot → (s'.pages q).drumslot ≠ slot) :
    CleanedPage s ((s'.picked p rest slot pf).written p slot) refcnt q := by
  have hpage : ((s'.picked p rest slot pf).written p slot).pages q = s'.pages q := by
    rw [State.written_pages]
    exact Function.update_of_ne hne _ _
  refine ⟨?_, ?_, ?_, ?_, ?_⟩
  · rw [hpage]
    exact h.page
  · rw [hpage]
    exact h.kept
  · rw [hpage]
    exact h.fresh
  · rw [hpage]
    intro hno
    rw [State.written_drum _ _ _ fun _ => (hslot hno).symm, State.written_unsaved _ _ _ hne]
    exact h.written hno
  · rw [hpage, State.written_pagefile]
    intro hno
    exact ha.full_kept (h.full hno)

/-- The first page of the queue joins the batch. -/
theorem Cleaning.collect {batch rest : List Pfn} {slot : ℕ} {pf : Pagefile}
    (h : Cleaning s [] batch s') (hn : s.modifiedPgq.Nodup)
    (hu : ∀ q ∈ s.modifiedPgq, (s.pages q).use = .anonPrivate) (hq : s'.modifiedPgq = p :: rest)
    (ha : Assigned s'.pagefile (s'.pages p).drumslot slot pf)
    (hslot : ∀ q, q ≠ p → (s'.pages q).use = .anonPrivate → (s'.pages q).drumslot ≠ noSlot →
      (s'.pages q).drumslot ≠ slot) :
    Cleaning s [] (batch ++ [p]) ((s'.picked p rest slot pf).written p slot) := by
  have hall : s.modifiedPgq = batch ++ p :: rest := by
    rw [h.modified, hq]
    rfl
  have hp : p ∉ batch := by
    intro hmem
    rw [hall, List.nodup_append] at hn
    exact hn.2.2 p hmem p List.mem_cons_self rfl
  obtain ⟨hpage, hun⟩ := h.others p List.not_mem_nil hp
  have hself : ((s'.picked p rest slot pf).written p slot).pages p =
      { s.pages p with refcnt := 1, dirty := false, drumslot := slot } := by
    rw [State.written_pages, ← hpage]
    exact Function.update_self ..
  have hne : ∀ q, q ≠ p → ((s'.picked p rest slot pf).written p slot).pages q = s'.pages q := by
    intro q hqp
    rw [State.written_pages]
    exact Function.update_of_ne hqp _ _
  have hwaiting : ∀ q ∈ batch, CleanedPage s ((s'.picked p rest slot pf).written p slot) 1 q := by
    intro q hmem
    have hqp : q ≠ p := by
      rintro rfl
      exact hp hmem
    have hold := h.waiting q hmem
    refine hold.picked hqp ha (hslot q hqp ?_)
    rw [hold.page]
    exact hu q (by rw [hall]; exact List.mem_append_left _ hmem)
  have hnew : CleanedPage s ((s'.picked p rest slot pf).written p slot) 1 p := by
    refine ⟨?_, ?_, ?_, ?_, ?_⟩
    · rw [hself]
    · rw [hself]
      intro hno
      exact (ha.kept (by rwa [hpage])).1.trans (congrArg VmPage.drumslot hpage)
    · rw [hself]
      intro hno hne
      have hfree := ha.fresh (by rwa [hpage]) hne
      by_contra htaken
      have hold := (h.taken slot).2 (.inl (Bool.eq_true_of_not_eq_false htaken))
      exact Bool.noConfusion (hfree.symm.trans hold)
    · rw [hself]
      intro hno
      rw [← h.rest.mem]
      exact State.written_self _ _ hno
    · rw [hself, State.written_pagefile]
      exact ha.full
  refine ⟨?_, ?_, ?_, ?_, ?_, ?_, ?_, ?_, ?_⟩
  · rw [State.written_eq, hall]
    exact (List.append_assoc batch [p] rest).symm
  · rw [State.written_eq]
    exact h.standby
  · rw [State.written_eq]
    change { s'.vmstat with
      nmodified := s'.vmstat.nmodified - 1
      nactive := s'.vmstat.nactive + 1 } = _
    rw [h.vmstat, List.length_append, List.length_singleton, ← Nat.add_assoc, Nat.sub_sub,
      Nat.add_assoc]
    rfl
  · intro q hmem
    exact absurd hmem List.not_mem_nil
  · intro q hmem
    rcases List.mem_append.1 hmem with hmem | hmem
    · exact hwaiting q hmem
    · rw [List.mem_singleton.1 hmem]
      exact hnew
  · intro q hd hb
    have hqp : q ≠ p := by
      rintro rfl
      exact hb (List.mem_append_right _ List.mem_cons_self)
    rw [hne q hqp, State.written_unsaved _ _ _ hqp]
    exact h.others q hd fun hmem => hb (List.mem_append_left _ hmem)
  · intro i hi
    rw [State.written_drum]
    · apply h.drum
      rintro q (hmem | hmem)
      · exact absurd hmem List.not_mem_nil
      · rw [← hne q (fun heq => hp (heq ▸ hmem))]
        exact hi q (.inr (List.mem_append_left _ hmem))
    · intro _
      have hip := hi p (.inr (List.mem_append_right _ List.mem_cons_self))
      rwa [hself] at hip
  · intro i
    rw [State.written_pagefile]
    refine (ha.taken i).trans ?_
    rw [h.taken, hpage]
    constructor
    · rintro ((hold | ⟨hi, q, hmem, hno, rfl⟩) | ⟨hno, hs, rfl⟩)
      · exact .inl hold
      · have hmem : q ∈ batch := hmem.resolve_left List.not_mem_nil
        refine .inr ⟨hi, q, .inr (List.mem_append_left _ hmem), hno, ?_⟩
        rw [hne q fun heq => hp (heq ▸ hmem)]
      · exact .inr ⟨hs, p, .inr (List.mem_append_right _ List.mem_cons_self), hno, by rw [hself]⟩
    · rintro (hold | ⟨hi, q, hmem, hno, hd⟩)
      · exact .inl (.inl hold)
      · rcases List.mem_append.1 (hmem.resolve_left List.not_mem_nil) with hmem | hmem
        · refine .inl (.inr ⟨hi, q, .inr hmem, hno, ?_⟩)
          rw [← hne q fun heq => hp (heq ▸ hmem)]
          exact hd
        · obtain rfl := List.mem_singleton.1 hmem
          rw [hself] at hd
          obtain rfl : slot = i := hd
          exact .inr ⟨hno, hi, rfl⟩
  · rw [State.written_eq]
    exact ⟨h.rest.mem, h.rest.freePgq, h.rest.wsl, h.rest.vmparam, h.rest.softPages,
      h.rest.pml4Page, h.rest.vadTree, ha.total.trans h.rest.totalSlots⟩

/-- A page of data that is clean loses its last reference. -/
theorem State.releaseFrame_clean (h1 : (s.pages p).refcnt = 1) (hd : (s.pages p).dirty = false) :
    ∃ a b c d, s.releaseFrame p = { s with
      pages := Function.update s.pages p { s.pages p with refcnt := 0 }
      standbyPgq := s.standbyPgq ++ [p]
      vmstat := { s.vmstat with
        nstandby := s.vmstat.nstandby + 1
        nactive := s.vmstat.nactive - 1 } }.withEvents a b c d := by
  obtain ⟨a, b, c, d, h⟩ := s.releaseFrame_eq p
  have hmodified : s.joins p true = [] := if_neg fun h => Bool.noConfusion (hd.symm.trans h.2)
  have hstandby : s.joins p false = [p] := if_pos ⟨h1, hd⟩
  refine ⟨a, b, c, d, ?_⟩
  rw [h, if_pos h1, hd, h1, hmodified, hstandby, List.append_nil]
  rfl

theorem CleanedPage.congr {s'' : State} {refcnt : ℕ} (h : CleanedPage s s' refcnt p)
    (hp : s''.pages p = s'.pages p) (hd : s''.drum = s'.drum) (hu : s''.unsaved = s'.unsaved)
    (hpf : s''.pagefile = s'.pagefile) : CleanedPage s s'' refcnt p := by
  refine ⟨?_, ?_, ?_, ?_, ?_⟩
  · rw [hp]
    exact h.page
  · rw [hp]
    exact h.kept
  · rw [hp]
    exact h.fresh
  · rw [hp, hd, hu]
    exact h.written
  · rw [hp, hpf]
    exact h.full

/-- The first page of the batch is released. -/
theorem Cleaning.release {done batch : List Pfn} (h : Cleaning s done (p :: batch) s')
    (hn : s.modifiedPgq.Nodup) : Cleaning s (done ++ [p]) batch (s'.releaseFrame p) := by
  have hnodup : (done ++ p :: batch).Nodup := by
    rw [h.modified, List.nodup_append] at hn
    exact hn.1
  rw [List.nodup_append, List.nodup_cons] at hnodup
  obtain ⟨-, ⟨hpb, -⟩, hdisj⟩ := hnodup
  have hpd : p ∉ done := fun hmem => hdisj p hmem p List.mem_cons_self rfl
  have hold := h.waiting p List.mem_cons_self
  have h1 : (s'.pages p).refcnt = 1 := by rw [hold.page]
  have hd : (s'.pages p).dirty = false := by rw [hold.page]
  obtain ⟨a, b, c, d, hrel⟩ := State.releaseFrame_clean h1 hd
  have hself : (s'.releaseFrame p).pages p = { s'.pages p with refcnt := 0 } := by
    rw [hrel]
    exact Function.update_self ..
  have hne : ∀ q, q ≠ p → (s'.releaseFrame p).pages q = s'.pages q := by
    intro q hqp
    rw [hrel]
    exact Function.update_of_ne hqp _ _
  have hslots : ∀ q, ((s'.releaseFrame p).pages q).drumslot = (s'.pages q).drumslot := by
    intro q
    by_cases hqp : q = p
    · rw [hqp, hself]
    · rw [hne q hqp]
  have hdrum : (s'.releaseFrame p).drum = s'.drum := by
    rw [hrel]
    rfl
  have hunsaved : (s'.releaseFrame p).unsaved = s'.unsaved := by
    rw [hrel]
    rfl
  have hpf : (s'.releaseFrame p).pagefile = s'.pagefile := by
    rw [hrel]
    rfl
  have hmoved : ∀ q, q ∈ done ++ [p] ∨ q ∈ batch ↔ q ∈ done ∨ q ∈ p :: batch := by
    intro q
    simp only [List.mem_append, List.mem_cons, List.not_mem_nil, or_false, or_assoc]
  refine ⟨?_, ?_, ?_, ?_, ?_, ?_, ?_, ?_, ?_⟩
  · rw [hrel, h.modified]
    simp only [List.append_assoc, List.cons_append, List.nil_append]
    rfl
  · rw [hrel, ← List.append_assoc, ← h.standby]
    rfl
  · rw [hrel]
    change { s'.vmstat with
      nstandby := s'.vmstat.nstandby + 1
      nactive := s'.vmstat.nactive - 1 } = _
    rw [h.vmstat]
    simp only [List.length_append, List.length_cons, List.length_nil, VmStat.mk.injEq, true_and]
    omega
  · intro q hmem
    rcases List.mem_append.1 hmem with hqd | hqp
    · exact (h.released q hqd).congr (hne q fun heq => hpd (heq ▸ hqd)) hdrum hunsaved hpf
    · obtain rfl := List.mem_singleton.1 hqp
      refine ⟨?_, ?_, ?_, ?_, ?_⟩
      · rw [hself, hold.page]
      · rw [hself]
        exact hold.kept
      · rw [hself]
        exact hold.fresh
      · rw [hself, hdrum, hunsaved]
        exact hold.written
      · rw [hself, hpf]
        exact hold.full
  · intro q hqb
    have hold' := h.waiting q (List.mem_cons_of_mem p hqb)
    exact hold'.congr (hne q fun heq => hpb (heq ▸ hqb)) hdrum hunsaved hpf
  · intro q hqd hqb
    have hqp : q ≠ p := by
      rintro rfl
      exact hqd (List.mem_append_right _ List.mem_cons_self)
    rw [hne q hqp, hunsaved]
    refine h.others q (fun hmem => hqd (List.mem_append_left _ hmem)) ?_
    intro hmem
    exact hqb ((List.mem_cons.1 hmem).resolve_left hqp)
  · intro i hi
    rw [hdrum]
    apply h.drum
    intro q hq
    rw [← hslots q]
    exact hi q ((hmoved q).2 hq)
  · intro i
    rw [hpf, h.taken]
    simp only [hslots, hmoved]
  · rw [hrel]
    exact ⟨h.rest.mem, h.rest.freePgq, h.rest.wsl, h.rest.vmparam, h.rest.softPages,
      h.rest.pml4Page, h.rest.vadTree, h.rest.totalSlots⟩

/-- The turn between the loops. -/
theorem Cleaning.turn {batch : List Pfn} (h : Cleaning s [] batch s') (x : Sys)
    (hbatch : batch.length = min maxIops s.modifiedPgq.length) : ∃ s'',
      WriterTurns 1 { x with vm := s', pgwriter := ⟨.collect, batch⟩ }
        { x with vm := s'', pgwriter := ⟨.release, batch⟩ } ∧ Cleaning s [] batch s'' := by
  by_cases hlen : batch.length < maxIops
  · have hempty : s'.modifiedPgq = [] := by
      have hlength := congrArg List.length h.modified
      simp only [List.nil_append, List.length_append] at hlength
      apply List.eq_nil_of_length_eq_zero
      omega
    refine ⟨{ s' with pgwriterEvent := false }, ?_, ?_⟩
    · apply WriterTurns.one
      rw [pgwriterTurn]
      dsimp only
      rw [if_pos hlen, hempty]
    · exact ⟨h.modified, h.standby, h.vmstat, fun p hp => (h.released p hp).congr rfl rfl rfl rfl,
        fun p hp => (h.waiting p hp).congr rfl rfl rfl rfl, h.others, h.drum, h.taken,
        ⟨h.rest.mem, h.rest.freePgq, h.rest.wsl, h.rest.vmparam, h.rest.softPages, h.rest.pml4Page,
          h.rest.vadTree, h.rest.totalSlots⟩⟩
  · refine ⟨s', ?_, h⟩
    apply WriterTurns.one
    rw [pgwriterTurn]
    dsimp only
    rw [if_neg hlen]

end VmmSim
