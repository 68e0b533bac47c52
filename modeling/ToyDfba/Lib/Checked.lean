import Mathlib.Data.Fin.Basic
import Mathlib.Tactic.Common
import ToyDfba.Lib.Totals

/-! Machine words below a bound, with the arithmetic of a build that checks for
overflow: an operation whose exact result does not fit, or a division by zero,
has no value. Every rule is an equivalence on the exact results, so a success
needs no side condition on the way. -/

namespace Checked

variable {m : ℕ}

/-- The word for an exact result, when it fits. -/
def ofNat? (m n : ℕ) : Option (Fin m) := if h : n < m then some ⟨n, h⟩ else none

def add (a b : Fin m) : Option (Fin m) := ofNat? m (a.val + b.val)

def sub (a b : Fin m) : Option (Fin m) := if b.val ≤ a.val then ofNat? m (a.val - b.val) else none

def mul (a b : Fin m) : Option (Fin m) := ofNat? m (a.val * b.val)

def div (a b : Fin m) : Option (Fin m) := if b.val = 0 then none else ofNat? m (a.val / b.val)

@[simp] theorem ofNat?_eq_some {n : ℕ} {c : Fin m} : ofNat? m n = some c ↔ n = c.val := by
  unfold ofNat?
  split_ifs with h
  · simp [Fin.ext_iff]
  · exact ⟨fun he => (nomatch he), fun he => absurd c.isLt (he ▸ h)⟩

@[simp] theorem add_eq_some {a b c : Fin m} : add a b = some c ↔ a.val + b.val = c.val :=
  ofNat?_eq_some

@[simp] theorem mul_eq_some {a b c : Fin m} : mul a b = some c ↔ a.val * b.val = c.val :=
  ofNat?_eq_some

@[simp] theorem sub_eq_some {a b c : Fin m} : sub a b = some c ↔ a.val = b.val + c.val := by
  unfold sub
  split_ifs with h
  · rw [ofNat?_eq_some]; omega
  · exact ⟨fun he => (nomatch he), fun he => by omega⟩

@[simp] theorem div_eq_some {a b c : Fin m} :
    div a b = some c ↔ b.val ≠ 0 ∧ a.val / b.val = c.val := by
  unfold div
  split_ifs with h
  · simp [h]
  · simp [h]

/-- Adding up the amounts `f` of the items that satisfy `c`, one checked addition
at a time, succeeds with `v` exactly when `v` is the exact total. The partial sums
are below the total, so none of them is a reason of its own to fail. -/
theorem foldlM_add_eq_some {α : Type*} (c : α → Prop) [DecidablePred c] (f : α → ℕ)
    (step : Fin m → α → Option (Fin m)) (items : List α)
    (hstep : ∀ x ∈ items, ∀ v w, step v x = some w ↔ v.val + f x = w.val) (v₀ v : Fin m) :
    items.foldlM (fun v x => if c x then step v x else some v) v₀ = some v ↔
      v₀.val + Totals.total f (fun x => c x) items = v.val := by
  induction items generalizing v₀ with
  | nil => simp [Fin.ext_iff]
  | cons x items ih =>
    have hx := hstep x (by simp)
    have ih := ih (fun y hy => hstep y (List.mem_cons_of_mem x hy))
    by_cases hc : c x
    · simp only [List.foldlM_cons, hc, if_true, Option.bind_eq_bind, Option.bind_eq_some_iff,
        hx, ih, Totals.total_cons, decide_true]
      refine ⟨fun ⟨w, hw, hv⟩ => by omega, fun hv => ?_⟩
      · have hlt := v.isLt
        exact ⟨⟨v₀.val + f x, by omega⟩, rfl, by simp only; omega⟩
    · simp [List.foldlM_cons, hc, ih]

end Checked
