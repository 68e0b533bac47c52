import Mathlib.Algebra.Order.Group.Nat
import Mathlib.Logic.Function.Iterate
import Mathlib.Tactic.Common

/-! Iteration of a step that lowers a rank as long as it changes anything. It changes
something a number of times that the rank bounds, and nothing from then on. -/

namespace Iterates

variable {α : Type*} {f : α → α} {P : α → Prop} {rank : α → ℕ}

theorem iterate_keeps (hkeeps : ∀ a, P a → P (f a)) {a : α} (ha : P a) (i : ℕ) : P (f^[i] a) := by
  induction i with
  | zero => exact ha
  | succ i ih =>
    rw [Function.iterate_succ_apply']
    exact hkeeps _ ih

/-- From a state that the step leaves alone on, all iterates are that state. -/
theorem iterate_of_settled {a : α} {n i : ℕ} (hn : f^[n + 1] a = f^[n] a) (hle : n ≤ i) :
    f^[i] a = f^[n] a := by
  induction i, hle using Nat.le_induction with
  | base => rfl
  | succ i _ ih => rw [Function.iterate_succ_apply', ih, ← Function.iterate_succ_apply' f n a, hn]

theorem exists_settles (hkeeps : ∀ a, P a → P (f a))
    (hdown : ∀ a, P a → f a ≠ a → rank (f a) < rank a) {a : α} (ha : P a) :
    ∃ n ≤ rank a, ∀ i, f^[i + 1] a = f^[i] a ↔ n ≤ i := by
  induction hr : rank a using Nat.strong_induction_on generalizing a with
  | _ r ih =>
    by_cases hfix : f a = a
    · refine ⟨0, Nat.zero_le _, fun i => ⟨fun _ => Nat.zero_le i, fun _ => ?_⟩⟩
      rw [Function.iterate_fixed hfix, Function.iterate_fixed hfix]
    · have hlt := hdown a ha hfix
      obtain ⟨n, hn, hsettles⟩ := ih (rank (f a)) (hr ▸ hlt) (hkeeps a ha) rfl
      refine ⟨n + 1, by omega, fun i => ?_⟩
      cases i with
      | zero => exact ⟨fun h => absurd h hfix, fun h => absurd h (Nat.not_succ_le_zero n)⟩
      | succ i =>
        have hi := hsettles i
        rw [← Function.iterate_succ_apply, ← Function.iterate_succ_apply] at hi
        rw [hi, Nat.succ_le_succ_iff]

/-- What no step raises, no iterate raises either. -/
theorem iterate_antitone (hkeeps : ∀ a, P a → P (f a)) {v : α → ℕ} (hle : ∀ a, P a → v (f a) ≤ v a)
    {a : α} (ha : P a) {i j : ℕ} (hij : i ≤ j) : v (f^[j] a) ≤ v (f^[i] a) := by
  induction j, hij using Nat.le_induction with
  | base => exact le_rfl
  | succ j _ ih =>
    rw [Function.iterate_succ_apply']
    exact (hle _ (iterate_keeps hkeeps ha j)).trans ih

end Iterates
