import Mathlib

/-!
# Search trees under a comparator

Binary trees searched and grown by a comparison of a key to the elements, as `RB_FIND` and
`RB_INSERT` do. A comparison guides a sequence when it sends the key past some first elements, and
before all later ones; then the search finds the element that the key equals, and an insertion puts
a new element at its place in the sequence. Nothing else about the comparison is used, so that it
may compare keys of one kind to elements of another. How a tree is balanced plays no part: what is
said of a tree is said of its elements in order.
-/

namespace VmmSim.Lib

universe u

variable {α : Type u}

/-- A binary tree with an element in each node. -/
inductive SearchTree (α : Type u)
  | nil
  | node (left : SearchTree α) (a : α) (right : SearchTree α)

namespace SearchTree

/-- The elements in order. -/
def toList : SearchTree α → List α
  | nil => []
  | node left a right => left.toList ++ a :: right.toList

@[simp] theorem toList_nil : (nil : SearchTree α).toList = [] := rfl

@[simp] theorem toList_node (left : SearchTree α) (a : α) (right : SearchTree α) :
    (node left a right).toList = left.toList ++ a :: right.toList := rfl

/-- Descend by the comparison of the key to the elements. -/
def find (cmp : α → ℤ) : SearchTree α → Option α
  | nil => none
  | node left a right =>
    if cmp a < 0 then left.find cmp
    else if 0 < cmp a then right.find cmp
    else some a

/-- Descend in the same way and add `x` where the descent ends, unless it meets an element that
compares equal. -/
def insert (cmp : α → ℤ) (x : α) : SearchTree α → Option (SearchTree α)
  | nil => some (node nil x nil)
  | node left a right =>
    if cmp a < 0 then (left.insert cmp x).map fun t => node t a right
    else if 0 < cmp a then (right.insert cmp x).map fun t => node left a t
    else none

end SearchTree

/-- The comparison sends the key past some first elements and before all later ones. -/
def Guides (cmp : α → ℤ) (l : List α) : Prop := l.Pairwise fun a b => cmp a ≤ 0 → cmp b < 0

namespace Guides

variable {cmp : α → ℤ} {l₁ l₂ : List α} {a : α}

theorem left (h : Guides cmp (l₁ ++ a :: l₂)) : Guides cmp l₁ :=
  (List.pairwise_append.1 h).1

theorem right (h : Guides cmp (l₁ ++ a :: l₂)) : Guides cmp l₂ :=
  (List.pairwise_cons.1 (List.pairwise_append.1 h).2.1).2

theorem past (h : Guides cmp (l₁ ++ a :: l₂)) (ha : 0 ≤ cmp a) {b : α} (hb : b ∈ l₁) :
    0 < cmp b := by
  by_contra hle
  have := (List.pairwise_append.1 h).2.2 b hb a List.mem_cons_self (by omega)
  omega

theorem before (h : Guides cmp (l₁ ++ a :: l₂)) (ha : cmp a ≤ 0) {b : α} (hb : b ∈ l₂) :
    cmp b < 0 :=
  (List.pairwise_cons.1 (List.pairwise_append.1 h).2.1).1 b hb ha

end Guides

namespace SearchTree

variable {cmp : α → ℤ} {x : α}

/-- What a search finds compares equal, whether the comparison guides it or not. -/
theorem of_find {t : SearchTree α} (h : t.find cmp = some x) : x ∈ t.toList ∧ cmp x = 0 := by
  induction t with
  | nil => cases h
  | node left a right ihl ihr =>
    simp only [find] at h
    rw [toList_node, List.mem_append, List.mem_cons]
    split at h
    · exact ⟨.inl (ihl h).1, (ihl h).2⟩
    split at h
    · exact ⟨.inr (.inr (ihr h).1), (ihr h).2⟩
    · obtain rfl : a = x := Option.some.inj h
      exact ⟨.inr (.inl rfl), by omega⟩

/-- **The search is exact**: it finds the element that the key equals. -/
theorem find_eq_some_iff {t : SearchTree α} (h : Guides cmp t.toList) :
    t.find cmp = some x ↔ x ∈ t.toList ∧ cmp x = 0 := by
  refine ⟨of_find, fun ⟨hmem, hx⟩ => ?_⟩
  induction t with
  | nil => simp at hmem
  | node left a right ihl ihr =>
    simp only [find]
    rcases List.mem_append.1 hmem with hl | hr
    · have hgt : cmp a < 0 := by
        by_contra hge
        have := Guides.past h (by omega) hl
        omega
      rw [if_pos hgt]
      exact ihl (Guides.left h) ⟨hl, hx⟩ hl
    rcases List.mem_cons.1 hr with rfl | hr
    · rw [if_neg (by omega), if_neg (by omega)]
    · have hlt : 0 < cmp a := by
        by_contra hle
        have := Guides.before h (by omega) hr
        omega
      rw [if_neg (by omega), if_pos hlt]
      exact ihr (Guides.right h) ⟨hr, hx⟩ hr

theorem find_eq_none_iff {t : SearchTree α} (h : Guides cmp t.toList) :
    t.find cmp = none ↔ ∀ x ∈ t.toList, cmp x ≠ 0 := by
  rw [Option.eq_none_iff_forall_ne_some]
  exact ⟨fun hn x hx hc => hn x ((find_eq_some_iff h).2 ⟨hx, hc⟩),
    fun hn x hs => hn x ((find_eq_some_iff h).1 hs).1 ((find_eq_some_iff h).1 hs).2⟩

/-- What an insertion does to the sequence: the new element stands after those that its key is past,
and before the others. -/
structure Inserts (cmp : α → ℤ) (x : α) (l l' : List α) : Prop where
  exists_split : ∃ l₁ l₂, l = l₁ ++ l₂ ∧ l' = l₁ ++ x :: l₂ ∧ (∀ a ∈ l₁, 0 < cmp a) ∧
    ∀ a ∈ l₂, cmp a < 0

/-- **An insertion puts the element at its place.** -/
theorem inserts_of_insert {t t' : SearchTree α} (h : Guides cmp t.toList) (hi : t.insert cmp x = some t') :
    Inserts cmp x t.toList t'.toList := by
  induction t generalizing t' with
  | nil =>
    obtain rfl : node nil x nil = t' := Option.some.inj hi
    exact ⟨[], [], rfl, rfl, by simp, by simp⟩
  | node left a right ihl ihr =>
    simp only [insert] at hi
    split at hi
    · rename_i hlt
      obtain ⟨u, hu, rfl⟩ := Option.map_eq_some_iff.1 hi
      obtain ⟨l₁, l₂, hl, hl', h₁, h₂⟩ := (ihl (Guides.left h) hu).exists_split
      refine ⟨l₁, l₂ ++ a :: right.toList, by simp [hl], by simp [hl'], h₁, fun b hb => ?_⟩
      rcases List.mem_append.1 hb with hb | hb
      · exact h₂ b hb
      · rcases List.mem_cons.1 hb with rfl | hb
        · exact hlt
        · exact Guides.before h hlt.le hb
    split at hi
    · rename_i hgt
      obtain ⟨u, hu, rfl⟩ := Option.map_eq_some_iff.1 hi
      obtain ⟨l₁, l₂, hl, hl', h₁, h₂⟩ := (ihr (Guides.right h) hu).exists_split
      refine ⟨left.toList ++ a :: l₁, l₂, by simp [hl], by simp [hl'], fun b hb => ?_, h₂⟩
      rcases List.mem_append.1 hb with hb | hb
      · exact Guides.past h hgt.le hb
      · rcases List.mem_cons.1 hb with rfl | hb
        · exact hgt
        · exact h₁ b hb
    · cases hi

/-- An insertion fails exactly when an element compares equal. -/
theorem insert_eq_none_iff {t : SearchTree α} (h : Guides cmp t.toList) :
    t.insert cmp x = none ↔ ∃ y ∈ t.toList, cmp y = 0 := by
  suffices key : t.insert cmp x = none ↔ t.find cmp ≠ none by
    rw [key, Ne, find_eq_none_iff h]
    simp
  clear h
  induction t with
  | nil => simp [insert, find]
  | node left a right ihl ihr =>
    simp only [insert, find]
    split
    · rw [Option.map_eq_none_iff, ihl]
    split
    · rw [Option.map_eq_none_iff, ihr]
    · simp

end SearchTree

namespace SearchTree.Inserts

variable {cmp : α → ℤ} {x : α} {l l' : List α}

theorem perm (h : Inserts cmp x l l') : l'.Perm (x :: l) := by
  obtain ⟨l₁, l₂, rfl, rfl, -, -⟩ := h.exists_split
  exact List.perm_middle

/-- A relation that holds along the sequence, and between the new element and those on its two
sides, holds along the new sequence. -/
theorem pairwise {R : α → α → Prop} (h : Inserts cmp x l l') (hl : l.Pairwise R)
    (hpast : ∀ a ∈ l, 0 < cmp a → R a x) (hbefore : ∀ a ∈ l, cmp a < 0 → R x a) :
    l'.Pairwise R := by
  obtain ⟨l₁, l₂, rfl, rfl, h₁, h₂⟩ := h.exists_split
  obtain ⟨hp₁, hp₂, hp⟩ := List.pairwise_append.1 hl
  refine List.pairwise_append.2 ⟨hp₁, List.pairwise_cons.2 ⟨fun b hb => ?_, hp₂⟩, fun a ha b hb => ?_⟩
  · exact hbefore b (List.mem_append_right _ hb) (h₂ b hb)
  · rcases List.mem_cons.1 hb with rfl | hb
    · exact hpast a (List.mem_append_left _ ha) (h₁ a ha)
    · exact hp a ha b hb

end SearchTree.Inserts

namespace SearchTree

/-- A tree whose elements stand along its right edge. -/
def ofList : List α → SearchTree α
  | [] => nil
  | a :: l => node nil a (ofList l)

theorem toList_ofList (l : List α) : (ofList l).toList = l := by
  induction l with
  | nil => rfl
  | cons a l ih => rw [ofList, toList_node, toList_nil, List.nil_append, ih]

end SearchTree

/-- What a balanced tree does beside the descents: it rebalances after an insertion, and it removes
elements. Both keep the rest of the sequence. -/
structure Balancer (α : Type u) [DecidableEq α] where
  rebalance : SearchTree α → SearchTree α
  remove : α → SearchTree α → SearchTree α
  toList_rebalance : ∀ t, (rebalance t).toList = t.toList
  toList_remove : ∀ x t, (remove x t).toList = t.toList.erase x

namespace Balancer

variable [DecidableEq α]

/-- The tree after an insertion, or the same tree when an element compared equal. -/
def insert (b : Balancer α) (cmp : α → ℤ) (x : α) (t : SearchTree α) : SearchTree α :=
  match t.insert cmp x with
  | none => t
  | some t' => b.rebalance t'

variable {b : Balancer α} {cmp : α → ℤ} {x : α} {t : SearchTree α}

theorem toList_insert (h : Guides cmp t.toList) (hx : ∀ y ∈ t.toList, cmp y ≠ 0) :
    SearchTree.Inserts cmp x t.toList (b.insert cmp x t).toList := by
  unfold insert
  cases ht : t.insert cmp x with
  | none =>
    obtain ⟨y, hy, h0⟩ := (SearchTree.insert_eq_none_iff h).1 ht
    exact absurd h0 (hx y hy)
  | some t' =>
    simp only [b.toList_rebalance]
    exact SearchTree.inserts_of_insert h ht

theorem insert_of_equal (h : Guides cmp t.toList) {y : α} (hy : y ∈ t.toList) (h0 : cmp y = 0) :
    b.insert cmp x t = t := by
  unfold insert
  rw [(SearchTree.insert_eq_none_iff h).2 ⟨y, hy, h0⟩]

/-- No balance at all. -/
def plain : Balancer α where
  rebalance t := t
  remove x t := .ofList (t.toList.erase x)
  toList_rebalance _ := rfl
  toList_remove _ _ := SearchTree.toList_ofList _

end Balancer

end VmmSim.Lib
