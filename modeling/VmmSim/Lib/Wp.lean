import Mathlib

/-!
# Computations that may halt

A computation of type `Except ε α` returns a value or halts with a reason. `Wp E x Q` says that
if `x` returns, the value has `Q`, and that if `x` halts, the reason has `E`. With `E` everywhere
false it is total correctness (`wp_false_iff`); with `E` everywhere true it is partial correctness.
The rules below take a computation apart at its binds and branches.
-/

namespace VmmSim.Lib

universe u v

variable {ε : Type u} {α β : Type v}

/-- `x` returns a value with `Q`, or halts for a reason that `E` allows. -/
def Wp (E : ε → Prop) (x : Except ε α) (Q : α → Prop) : Prop :=
  match x with
  | .ok a => Q a
  | .error e => E e

namespace Wp

variable {E E' : ε → Prop} {x : Except ε α} {Q R : α → Prop}

@[simp] theorem ok_iff (a : α) : Wp E (.ok a) Q ↔ Q a := Iff.rfl

@[simp] theorem error_iff (e : ε) : Wp E (.error e : Except ε α) Q ↔ E e := Iff.rfl

@[simp] theorem pure_iff (a : α) : Wp E (pure a : Except ε α) Q ↔ Q a := Iff.rfl

@[simp] theorem throw_iff (e : ε) : Wp E (throw e : Except ε α) Q ↔ E e := Iff.rfl

/-- The rule for sequencing: the continuation starts from a value the first part may return. -/
@[simp] theorem bind_iff {f : α → Except ε β} {Q : β → Prop} :
    Wp E (x >>= f) Q ↔ Wp E x fun a => Wp E (f a) Q := by
  cases x <;> rfl

theorem bind {f : α → Except ε β} {Q : β → Prop} (hx : Wp E x R)
    (hf : ∀ a, R a → Wp E (f a) Q) : Wp E (x >>= f) Q := by
  cases x with
  | ok a => exact hf a hx
  | error e => exact hx

/-- The rule of consequence. -/
theorem mono (hx : Wp E x R) (h : ∀ a, R a → Q a) : Wp E x Q := by
  cases x with
  | ok a => exact h a hx
  | error e => exact hx

theorem mono_halt (hx : Wp E x Q) (h : ∀ e, E e → E' e) : Wp E' x Q := by
  cases x with
  | ok a => exact hx
  | error e => exact h e hx

theorem and (hx : Wp E x Q) (hx' : Wp E x R) : Wp E x fun a => Q a ∧ R a := by
  cases x with
  | ok a => exact ⟨hx, hx'⟩
  | error e => exact hx

/-- Adding a partial-correctness fact. -/
theorem and_weak (hx : Wp E x Q) (hx' : Wp (fun _ => True) x R) :
    Wp E x fun a => Q a ∧ R a := by
  cases x with
  | ok a => exact ⟨hx, hx'⟩
  | error e => exact hx

/-- Partial correctness says nothing about the reasons to halt. -/
theorem weaken (hx : Wp E x Q) : Wp (fun _ => True) x Q := hx.mono_halt fun _ _ => trivial

theorem of_ok {a : α} (hx : Wp E x Q) (h : x = .ok a) : Q a := by
  subst h
  exact hx

theorem of_error {e : ε} (hx : Wp E x Q) (h : x = .error e) : E e := by
  subst h
  exact hx

theorem ite {c : Prop} [Decidable c] {y : Except ε α} (hx : c → Wp E x Q)
    (hy : ¬ c → Wp E y Q) : Wp E (if c then x else y) Q := by
  split
  · exact hx ‹_›
  · exact hy ‹_›

/-- Partial correctness from a fact about each returned value. -/
theorem intro (ho : ∀ a, x = .ok a → Q a) (he : ∀ e, x = .error e → E e) : Wp E x Q := by
  cases x with
  | ok a => exact ho a rfl
  | error e => exact he e rfl

end Wp

theorem wp_true (x : Except ε α) : Wp (fun _ => True) x fun _ => True := by
  cases x <;> trivial

/-- Total correctness: with no reason to halt allowed, the computation returns. -/
theorem wp_false_iff {x : Except ε α} {Q : α → Prop} :
    Wp (fun _ => False) x Q ↔ ∃ a, x = .ok a ∧ Q a := by
  cases x <;> simp

/-! ## Inversion at a bind -/

theorem bind_eq_ok {x : Except ε α} {f : α → Except ε β} {b : β} :
    x >>= f = .ok b ↔ ∃ a, x = .ok a ∧ f a = .ok b := by
  cases x with
  | ok a => exact ⟨fun h => ⟨a, rfl, h⟩, by rintro ⟨_, ⟨⟩, h⟩; exact h⟩
  | error e => exact ⟨fun h => (nomatch h), by rintro ⟨_, h, _⟩; cases h⟩

@[simp] theorem ok_bind (a : α) (f : α → Except ε β) : (.ok a : Except ε α) >>= f = f a := rfl

@[simp] theorem error_bind (e : ε) (f : α → Except ε β) :
    (.error e : Except ε α) >>= f = .error e := rfl

end VmmSim.Lib
