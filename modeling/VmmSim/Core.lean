import VmmSim.PteFormat

/-!
# The core of a state

The part of a state that page tables, reference counts and the working set are about: what
`State.core` keeps of a state, less its queues, counters, flags and events. An entry of a page is
read as a `Pte` (`Core.entry`); `Walks` is the way from the root table down to the entry of an
address, and is what `vmp_fetch_pte` finds (`fetchPteFrom_eq_some_iff`).
-/

namespace VmmSim

open Lib

/-- The level of a page table; 0 for a page of any other use. -/
def PageUse.level : PageUse → ℕ
  | .pml1 => 1
  | .pml2 => 2
  | .pml3 => 3
  | .pml4 => 4
  | _ => 0

theorem PageUse.level_le (u : PageUse) : u.level ≤ 4 := by cases u <;> decide

theorem PageUse.level_ofLevel {n : ℕ} (h₁ : 1 ≤ n) (h₄ : n ≤ 4) : (PageUse.ofLevel n).level = n := by
  obtain rfl | rfl | rfl | rfl : n = 1 ∨ n = 2 ∨ n = 3 ∨ n = 4 := by omega
  all_goals rfl

theorem PageUse.level_eq_four {u : PageUse} : u.level = 4 ↔ u = .pml4 := by cases u <;> decide

/-- The page an entry maps, or keeps in core for a fault to map again. -/
def Pte.frame : Pte → Option ℕ
  | .valid pfn _ | .trans pfn => some pfn
  | _ => none

/-- Valid and busy entries have a working set entry. -/
def Pte.isMapped : Pte → Bool
  | .valid _ _ | .busy _ => true
  | _ => false

def Pte.isValid : Pte → Bool
  | .valid _ _ => true
  | _ => false

def Pte.isNonzero (e : Pte) : Bool := e ≠ .zero

/-- What the invariants read of a state. -/
structure Core where
  pages : Pfn → VmPage
  mem : Pfn → Contents
  tree : List Wsle
  queue : List Wsle
  nlocked : ℕ
  root : Pfn
  softPages : ℕ
  pagefile : Pagefile
  drum : ℕ → Contents
  unsaved : Pfn → Bool
  vads : VadTree

/-- The core of a state. -/
def State.core (s : State) : Core :=
  ⟨s.pages, s.mem, s.wsl.tree, s.wsl.queue, s.wsl.nlocked, s.pml4Page, s.softPages, s.pagefile,
    s.drum, s.unsaved, s.vadTree⟩

namespace Core

variable (c : Core)

/-- The entry in a word of a page. -/
def entry (ptr : PtePtr) : Pte := view (c.mem ptr.1 ptr.2)

def use (p : Pfn) : PageUse := (c.pages p).use

def level (p : Pfn) : ℕ := (c.use p).level

/-- The number of entries of a kind in a page. -/
def count (f : Pte → Bool) (t : Pfn) : ℕ := countWhere f fun i => c.entry (t, i)

/-- The working set entry of a page table. -/
def tableWsle (p : Pfn) : Wsle := ⟨vmpPagePaddr p + c.softPages, true⟩

/-- Assign to the fields of a page. -/
def setPage (p : Pfn) (pg : VmPage) : Core := { c with pages := Function.update c.pages p pg }

/-- Assign the address of an entry to a page. -/
def setReferent (p : Pfn) (ptr : PtePtr) : Core :=
  c.setPage p { c.pages p with referentPte := ptePaddr ptr }

/-- Assign to a word of a page. -/
def setWord (ptr : PtePtr) (w : Word) : Core :=
  { c with mem := Function.update c.mem ptr.1 (Function.update (c.mem ptr.1) ptr.2 w) }

/-- Assign to all the words of a page. -/
def setWords (p : Pfn) (d : Contents) : Core := { c with mem := Function.update c.mem p d }

/-- Take an entry off the queue of the working set. -/
def lock (e : Wsle) : Core := { c with queue := c.queue.erase e, nlocked := c.nlocked + 1 }

/-- Put an entry back on the queue of the working set. -/
def unlock (e : Wsle) : Core := { c with queue := c.queue ++ [e], nlocked := c.nlocked - 1 }

end Core

theorem State.core_tableWsle (s : State) (p : Pfn) : s.core.tableWsle p = s.tableWsle p := rfl

/-! ## Reading back an assignment -/

namespace Core

variable (c : Core) (p q : Pfn) (pg : VmPage) (ptr r : PtePtr) (w : Word) (d : Contents) (e : Wsle)

theorem setPage_pages : (c.setPage p pg).pages q = if q = p then pg else c.pages q := by
  simp [setPage, Function.update_apply]

theorem setPage_use : (c.setPage p pg).use q = if q = p then pg.use else c.use q := by
  rw [use, setPage_pages]
  split <;> rfl

theorem setPage_level : (c.setPage p pg).level q = if q = p then pg.use.level else c.level q := by
  rw [level, setPage_use]
  split <;> rfl

/-- An assignment that keeps the use of a page. -/
theorem setPage_use_of {c : Core} {p : Pfn} {pg : VmPage} (h : pg.use = c.use p) (q : Pfn) :
    (c.setPage p pg).use q = c.use q := by
  rw [setPage_use]
  split
  · rw [h, ‹q = p›]
  · rfl

theorem setPage_level_of {c : Core} {p : Pfn} {pg : VmPage} (h : pg.use = c.use p) (q : Pfn) :
    (c.setPage p pg).level q = c.level q := congrArg PageUse.level (setPage_use_of h q)

@[simp] theorem setPage_entry : (c.setPage p pg).entry r = c.entry r := rfl

theorem setReferent_referentPte : ((c.setReferent p ptr).pages q).referentPte =
    if q = p then ptePaddr ptr else (c.pages q).referentPte := by
  rw [setReferent, setPage_pages]
  split <;> rfl

@[simp] theorem setReferent_use : (c.setReferent p ptr).use q = c.use q :=
  setPage_use_of (by rfl) q

@[simp] theorem setReferent_level : (c.setReferent p ptr).level q = c.level q :=
  setPage_level_of (by rfl) q

@[simp] theorem setReferent_entry : (c.setReferent p ptr).entry r = c.entry r := rfl

theorem setWord_entry : (c.setWord ptr w).entry r = if r = ptr then view w else c.entry r := by
  obtain ⟨t, i⟩ := ptr
  obtain ⟨t', i'⟩ := r
  by_cases ht : t' = t
  · subst ht
    by_cases hi : i' = i <;> simp [entry, setWord, hi]
  · simp [entry, setWord, ht]

theorem setWord_entry_self : (c.setWord ptr w).entry ptr = view w := by simp [setWord_entry]

theorem setWord_entry_ne (h : r ≠ ptr) : (c.setWord ptr w).entry r = c.entry r := by
  simp [setWord_entry, h]

@[simp] theorem setWord_pages : (c.setWord ptr w).pages = c.pages := rfl

@[simp] theorem setWord_use : (c.setWord ptr w).use q = c.use q := rfl

@[simp] theorem setWord_level : (c.setWord ptr w).level q = c.level q := rfl

theorem setWords_entry :
    (c.setWords p d).entry r = if r.1 = p then view (d r.2) else c.entry r := by
  by_cases h : r.1 = p <;> simp [entry, setWords, h]

theorem setWords_entry_ne (h : r.1 ≠ p) : (c.setWords p d).entry r = c.entry r := by
  simp [setWords_entry, h]

@[simp] theorem setWords_use : (c.setWords p d).use q = c.use q := rfl

@[simp] theorem setWords_level : (c.setWords p d).level q = c.level q := rfl

/-! Counting the entries of a table. -/

theorem count_congr {c c' : Core} {f : Pte → Bool} {t : Pfn}
    (h : ∀ i, c'.entry (t, i) = c.entry (t, i)) : c'.count f t = c.count f t :=
  countWhere_congr fun i => by rw [h i]

theorem count_setWord (f : Pte → Bool) (t : Pfn) :
    (c.setWord ptr w).count f t + (if t = ptr.1 then (f (c.entry ptr)).toNat else 0) =
      c.count f t + if t = ptr.1 then (f (view w)).toNat else 0 := by
  by_cases h : t = ptr.1
  · subst h
    have hf : (fun i => (c.setWord ptr w).entry (ptr.1, i)) =
        Function.update (fun i => c.entry (ptr.1, i)) ptr.2 (view w) := by
      funext i
      by_cases hi : i = ptr.2
      · subst hi
        simp [setWord_entry]
      · rw [Function.update_of_ne hi, setWord_entry_ne]
        exact fun e => hi (congrArg Prod.snd e)
    have := countWhere_update f (fun i => c.entry (ptr.1, i)) ptr.2 (view w)
    simpa [count, hf] using this
  · have hc : (c.setWord ptr w).count f t = c.count f t :=
      count_congr fun i => setWord_entry_ne _ _ _ _ fun e => h (congrArg Prod.fst e)
    simp [h, hc]

theorem count_eq_zero {f : Pte → Bool} {t : Pfn} :
    c.count f t = 0 ↔ ∀ i, f (c.entry (t, i)) = false := countWhere_eq_zero

end Core

/-! ## Walking the tables -/

/-- From the table `t` at a level, the walk of an address goes down to the entry `ptr`. -/
def Descends (entry : PtePtr → Pte) (vaddr : ℕ) : ℕ → Pfn → PtePtr → Prop
  | 0, _, _ => False
  | 1, t, ptr => ptr = (t, vmpAddrUnpack vaddr 1)
  | level + 1, t, ptr => ∃ (p : Pfn) (wr : Bool),
      entry (t, vmpAddrUnpack vaddr (level + 1)) = .valid p.val wr ∧
        Descends entry vaddr level p ptr

namespace Descends

variable {entry entry' : PtePtr → Pte} {vaddr level : ℕ} {t : Pfn} {ptr ptr' : PtePtr}

theorem succ_iff (h : 1 ≤ level) : Descends entry vaddr (level + 1) t ptr ↔
    ∃ (p : Pfn) (wr : Bool), entry (t, vmpAddrUnpack vaddr (level + 1)) = .valid p.val wr ∧
      Descends entry vaddr level p ptr := by
  obtain ⟨n, rfl⟩ := Nat.exists_eq_add_of_le' h
  rfl

/-- A walk finds one entry. -/
theorem unique (h : Descends entry vaddr level t ptr) (h' : Descends entry vaddr level t ptr') :
    ptr = ptr' := by
  induction level generalizing t with
  | zero => exact h.elim
  | succ n ih =>
    cases n with
    | zero => exact h.trans h'.symm
    | succ n =>
      obtain ⟨p, wr, he, hd⟩ := h
      obtain ⟨p', wr', he', hd'⟩ := h'
      rw [he] at he'
      simp only [Pte.valid.injEq] at he'
      obtain rfl : p = p' := Fin.ext he'.1
      exact ih hd hd'

end Descends

/-- The walk of an address from the root goes down to the entry `ptr`. -/
def Core.Walks (c : Core) (vaddr : ℕ) (ptr : PtePtr) : Prop :=
  Descends c.entry vaddr vmpTableLevels c.root ptr

theorem Core.Walks.unique {c : Core} {vaddr : ℕ} {ptr ptr' : PtePtr} (h : c.Walks vaddr ptr)
    (h' : c.Walks vaddr ptr') : ptr = ptr' := Descends.unique h h'

theorem vmpPteCharacterise_eq_valid_iff {w : Word} :
    vmpPteCharacterise w = .ok .valid ↔ ∃ pfn wr, view w = .valid pfn wr := by
  unfold view
  split <;> simp_all

theorem hwTable_of_view {w : Word} {p : Pfn} {wr : Bool} (h : view w = .valid p.val wr) :
    hwTable w = .ok p := by
  have hp : vmpPteHwPfn w = p.val := by
    rw [view_of_valid (hwValid_of_view h)] at h
    exact (Pte.valid.inj h).1
  have hlt : vmpPteHwPfn w < softNPages := hp ▸ p.isLt
  rw [hwTable, dif_pos hlt]
  exact congrArg Except.ok (Fin.ext hp)

/-- `vmp_fetch_pte` finds the entry that the walk goes down to. -/
theorem fetchPteFrom_eq_some_iff {s : State} {vaddr level : ℕ} {t : Pfn} {ptr : PtePtr} :
    fetchPteFrom s vaddr level t = .ok (some ptr) ↔
      Descends s.core.entry vaddr level t ptr := by
  induction level generalizing t with
  | zero => simp [fetchPteFrom, Descends]
  | succ n ih =>
    cases n with
    | zero =>
      exact ⟨fun h => (Option.some.inj (Except.ok.inj h)).symm, fun h => by cases h; rfl⟩
    | succ n =>
      rw [Descends.succ_iff (by omega)]
      simp only [fetchPteFrom, bind_eq_ok]
      constructor
      · rintro ⟨kind, hk, hrest⟩
        split at hrest
        · cases hrest
        · rename_i hv
          obtain rfl : kind = .valid := by simpa using hv
          obtain ⟨u, hu, hrest⟩ := bind_eq_ok.1 hrest
          obtain ⟨pfn, wr, hview⟩ := vmpPteCharacterise_eq_valid_iff.1 hk
          have hp : vmpPteHwPfn (s.pte (t, vmpAddrUnpack vaddr (n + 1 + 1))) = pfn := by
            rw [view_of_valid (hwValid_of_view hview)] at hview
            exact (Pte.valid.inj hview).1
          unfold hwTable at hu
          split at hu
          · rename_i hlt
            cases hu
            exact ⟨_, wr, by rw [← hp] at hview; exact hview, ih.1 hrest⟩
          · cases hu
      · rintro ⟨p, wr, hview, hd⟩
        refine ⟨.valid, vmpPteCharacterise_eq_valid_iff.2 ⟨_, _, hview⟩, ?_⟩
        have hu : hwTable (s.pte (t, vmpAddrUnpack vaddr (n + 1 + 1))) = .ok p := hwTable_of_view hview
        rw [if_neg (by simp), hu]
        exact ih.2 hd

theorem vmpFetchPte_eq_some_iff {s : State} {vaddr : ℕ} {ptr : PtePtr} :
    vmpFetchPte s vaddr = .ok (some ptr) ↔ s.core.Walks vaddr ptr := fetchPteFrom_eq_some_iff

end VmmSim
