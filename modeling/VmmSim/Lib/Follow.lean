import VmmSim.Lib.Wp

/-!
# A computation that follows another

`Follows E f x y` says that `y` does what `x` does, with its result seen through `f`, unless it
halts for a reason that `E` allows. What is known of the results of `x` is then known of those of
`y` (`Follows.wp`), and a computation is followed step by step (`Follows.bind`).
-/

namespace VmmSim.Lib

universe u v

variable {ε : Type u} {α α' β β' : Type v}

/-- `y` does what `x` does, seen through `f`, or halts for a reason that `E` allows. -/
def Follows (E : ε → Prop) (f : α → β) (x : Except ε α) (y : Except ε β) : Prop :=
  (∃ e, E e ∧ y = .error e) ∨ y = x.map f

namespace Follows

variable {E : ε → Prop} {f : α → β} {g : α' → β'} {x : Except ε α} {y : Except ε β}

theorem of_eq (h : y = x.map f) : Follows E f x y := .inr h

theorem halt {e : ε} (h : E e) : Follows E f x (.error e) := .inl ⟨e, h, rfl⟩

theorem ok (a : α) : Follows E f (.ok a) (.ok (f a)) := .inr rfl

theorem pure (a : α) : Follows E f (pure a) (pure (f a)) := .inr rfl

theorem error (e : ε) : Follows E f (.error e : Except ε α) (.error e) := .inr rfl

/-- What is known of the results of `x` is known of those of `y`. -/
theorem wp {F : ε → Prop} {Q : α → Prop} (h : Follows E f x y) (hx : Wp F x Q)
    (hE : ∀ e, E e → F e) : Wp F y fun b => ∃ a, b = f a ∧ Q a := by
  rcases h with ⟨e, he, rfl⟩ | rfl
  · exact hE e he
  · cases x with
    | ok a => exact ⟨a, rfl, hx⟩
    | error e => exact hx

/-- The rule for sequencing. -/
theorem bind {k : α → Except ε α'} {k' : β → Except ε β'} (h : Follows E f x y)
    (hk : ∀ a, Follows E g (k a) (k' (f a))) : Follows E g (x >>= k) (y >>= k') := by
  rcases h with ⟨e, he, rfl⟩ | rfl
  · exact .inl ⟨e, he, rfl⟩
  · cases x with
    | ok a => exact hk a
    | error e => exact .inr rfl

/-- The rule for sequencing after a first part whose result is known. -/
theorem bind_ok {a : α} {k : α → Except ε α'} {k' : β → Except ε β'} (h : Follows E f x y)
    (hx : x = .ok a) (hk : Follows E g (k a) (k' (f a))) :
    Follows E g (x >>= k) (y >>= k') := by
  subst hx
  rcases h with ⟨e, he, rfl⟩ | rfl
  · exact .inl ⟨e, he, rfl⟩
  · exact hk

/-- The rule for a first part that both have in common. -/
theorem bind_same {γ : Type v} {z : Except ε γ} {k : γ → Except ε α'} {k' : γ → Except ε β'}
    (hk : ∀ a, Follows E g (k a) (k' a)) : Follows E g (z >>= k) (z >>= k') := by
  cases z with
  | ok a => exact hk a
  | error e => exact .inr rfl

theorem ite {c : Prop} [Decidable c] {x' : Except ε α} {y' : Except ε β}
    (h : c → Follows E f x y) (h' : ¬ c → Follows E f x' y') :
    Follows E f (if c then x else x') (if c then y else y') := by
  split
  · exact h ‹_›
  · exact h' ‹_›

end Follows

end VmmSim.Lib
