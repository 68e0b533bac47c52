import Mathlib.Algebra.BigOperators.Group.List.Basic
import Mathlib.Algebra.GroupWithZero.Nat
import Mathlib.Algebra.Order.BigOperators.Group.List
import Mathlib.Algebra.Order.Monoid.Canonical.Defs
import Mathlib.Algebra.Order.Group.Nat
import Mathlib.Data.List.Basic
import Mathlib.Data.List.Perm.Basic
import Mathlib.Tactic.Common

/-! The total weight of the items of a list that a test accepts. -/

namespace Totals

variable {ι κ : Type*} (w : ι → ℕ)

def total (c : ι → Bool) (xs : List ι) : ℕ := ((xs.filter c).map w).sum

@[simp] theorem total_nil (c : ι → Bool) : total w c [] = 0 := rfl

@[simp] theorem total_cons (c : ι → Bool) (x : ι) (xs : List ι) :
    total w c (x :: xs) = (if c x then w x else 0) + total w c xs := by
  cases h : c x <;> simp [total, h]

theorem total_append (c : ι → Bool) (xs ys : List ι) :
    total w c (xs ++ ys) = total w c xs + total w c ys := by
  simp [total]

theorem total_perm {c : ι → Bool} {xs ys : List ι} (h : xs.Perm ys) :
    total w c xs = total w c ys :=
  ((h.filter c).map w).sum_eq

theorem total_congr {c d : ι → Bool} {xs : List ι} (h : ∀ x ∈ xs, c x = d x) :
    total w c xs = total w d xs := by
  unfold total
  rw [List.filter_congr h]

theorem total_congr_weight {w' : ι → ℕ} {c : ι → Bool} {xs : List ι}
    (h : ∀ x ∈ xs, c x → w x = w' x) : total w c xs = total w' c xs := by
  unfold total
  refine congrArg List.sum (List.map_congr_left fun x hx => ?_)
  obtain ⟨hx, hc⟩ := List.mem_filter.mp hx
  exact h x hx hc

theorem total_congr_terms {w' : ι → ℕ} {c d : ι → Bool} {xs : List ι}
    (h : ∀ x ∈ xs, (if c x then w x else 0) = if d x then w' x else 0) :
    total w c xs = total w' d xs := by
  induction xs with
  | nil => rfl
  | cons x xs ih =>
    rw [total_cons, total_cons, h x List.mem_cons_self, ih fun y hy => h y (List.mem_cons_of_mem x hy)]

theorem total_mono_weight {w' : ι → ℕ} {c : ι → Bool} {xs : List ι} (h : ∀ x ∈ xs, w x ≤ w' x) :
    total w c xs ≤ total w' c xs :=
  List.sum_le_sum fun x hx => h x (List.mem_filter.mp hx).1

theorem total_le {c d : ι → Bool} {xs : List ι} (h : ∀ x ∈ xs, c x → d x) :
    total w c xs ≤ total w d xs := by
  induction xs with
  | nil => simp
  | cons x xs ih =>
    have ih := ih fun y hy => h y (List.mem_cons_of_mem x hy)
    have hx := h x (by simp)
    simp only [total_cons]
    cases hc : c x
    · simp only [Bool.false_eq_true, if_false]; omega
    · simp only [hx hc, if_true]; omega

theorem le_total {c : ι → Bool} {xs : List ι} {x : ι} (hx : x ∈ xs) (hc : c x) :
    w x ≤ total w c xs :=
  List.le_sum_of_mem (List.mem_map_of_mem (List.mem_filter.mpr ⟨hx, hc⟩))

theorem total_le_mul {c : ι → Bool} {xs : List ι} {b : ℕ} (h : ∀ x ∈ xs, w x ≤ b) :
    total w c xs ≤ xs.length * b := by
  induction xs with
  | nil => simp
  | cons x xs ih =>
    have hx := h x (by simp)
    have hxs := ih fun y hy => h y (List.mem_cons_of_mem x hy)
    rw [total_cons, List.length_cons, Nat.succ_mul]
    split_ifs <;> omega

theorem total_pos_iff {c : ι → Bool} {xs : List ι} :
    0 < total w c xs ↔ ∃ x ∈ xs, c x ∧ 0 < w x := by
  induction xs with
  | nil => simp
  | cons x xs ih =>
    simp only [total_cons, List.exists_mem_cons_iff, ← ih]
    cases hc : c x
    · simp
    · simp only [if_true, true_and]; omega

theorem total_eq_zero_iff {c : ι → Bool} {xs : List ι} :
    total w c xs = 0 ↔ ∀ x ∈ xs, c x → w x = 0 := by
  rw [← not_iff_not, ← ne_eq, ← Nat.pos_iff_ne_zero, total_pos_iff]
  simp only [not_forall, exists_prop, Nat.pos_iff_ne_zero, ne_eq]

theorem total_true_eq_zero_iff {xs : List ι} (h : ∀ x ∈ xs, 0 < w x) :
    total w (fun _ => true) xs = 0 ↔ xs = [] := by
  rw [total_eq_zero_iff, List.eq_nil_iff_forall_not_mem]
  exact forall₂_congr fun x hx => by simp [(h x hx).ne']

/-- A test that tells no two of the items apart accepts all of them or none. -/
theorem total_of_const {c : ι → Bool} {b : Bool} {xs : List ι} (h : ∀ x ∈ xs, c x = b) :
    total w c xs = if b then (xs.map w).sum else 0 := by
  rw [total_congr w h]
  cases b <;> simp [total]

theorem total_filter (c d : ι → Bool) (xs : List ι) :
    total w c (xs.filter d) = total w (fun x => c x && d x) xs := by
  simp [total, List.filter_filter]

theorem total_ite (c d : ι → Bool) (xs : List ι) :
    total (fun x => if d x then w x else 0) c xs = total w (fun x => c x && d x) xs := by
  induction xs with
  | nil => rfl
  | cons x xs ih => cases hd : d x <;> simp [hd, ih]

theorem total_map (f : κ → ι) (c : ι → Bool) (xs : List κ) :
    total w c (xs.map f) = total (fun x => w (f x)) (fun x => c (f x)) xs := by
  simp [total, List.filter_map, Function.comp_def]

theorem total_mul (k : ℕ) (c : ι → Bool) (xs : List ι) :
    total (fun x => k * w x) c xs = k * total w c xs := by
  induction xs with
  | nil => rfl
  | cons x xs ih =>
    rw [total_cons, total_cons, ih, Nat.mul_add]
    split_ifs <;> simp

/-- Two tests that never accept the same item add up. -/
theorem total_or {c d : ι → Bool} {xs : List ι} (h : ∀ x ∈ xs, c x → d x = false) :
    total w (fun x => c x || d x) xs = total w c xs + total w d xs := by
  induction xs with
  | nil => simp
  | cons x xs ih =>
    have ih := ih fun y hy => h y (List.mem_cons_of_mem x hy)
    have hx := h x (by simp)
    simp only [total_cons, ih]
    cases hc : c x
    · simp only [Bool.false_or, Bool.false_eq_true, if_false]; omega
    · simp only [hx hc, Bool.or_false, if_true, Bool.false_eq_true, if_false]; omega

variable [DecidableEq κ]

/-- The weight of several classes is the sum of the weights of each. -/
theorem total_classes (key : ι → κ) {ks : List κ} (hks : ks.Nodup) (xs : List ι) :
    total w (fun x => key x ∈ ks) xs = (ks.map fun k => total w (fun x => key x = k) xs).sum := by
  induction ks with
  | nil => simp [total]
  | cons k ks ih =>
    obtain ⟨hk, hks⟩ := List.nodup_cons.mp hks
    rw [List.map_cons, List.sum_cons, ← ih hks, ← total_or]
    · apply total_congr
      simp
    · intro x _ hx
      simp only [decide_eq_true_eq] at hx
      simp [hx, hk]

end Totals
