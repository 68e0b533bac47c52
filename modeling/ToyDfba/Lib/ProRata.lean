import Mathlib.Algebra.Order.Floor.Semiring
import Mathlib.Data.Nat.ModEq
import Mathlib.Tactic.Common
import Mathlib.Tactic.Ring

/-! The pro rata rule with floor division: of a volume `q` handed to a level whose
members want `total` together, a member that wants `r` gets `r * q / total`. -/

namespace ProRata

def share (r q total : ℕ) : ℕ := r * q / total

@[simp] theorem share_zero (r total : ℕ) : share r 0 total = 0 := by simp [share]

theorem share_le {q total : ℕ} (r : ℕ) (h : q ≤ total) : share r q total ≤ r := by
  unfold share
  rcases Nat.eq_zero_or_pos total with rfl | hpos
  · simp
  · exact Nat.div_le_of_le_mul (by rw [Nat.mul_comm total]; exact Nat.mul_le_mul_left r h)

/-- A member gets nothing exactly when its part is below one unit. -/
theorem share_eq_zero_iff {r q total : ℕ} (h : 0 < total) :
    share r q total = 0 ↔ r * q < total :=
  Nat.div_eq_zero_iff_lt h

theorem share_mono_volume {q q' : ℕ} (r total : ℕ) (h : q ≤ q') :
    share r q total ≤ share r q' total :=
  Nat.div_le_div_right (Nat.mul_le_mul_left r h)

/-- A level that gets all it wants loses nothing to rounding. -/
theorem share_full {total : ℕ} (r : ℕ) (h : 0 < total) : share r total total = r :=
  Nat.mul_div_cancel r h

/-- A level of one member passes on what it gets. -/
theorem share_whole {total : ℕ} (q : ℕ) (h : 0 < total) : share total q total = q :=
  Nat.mul_div_cancel_left q h

/-- Counted in units that are `k` times as small, a member gets what it got and less than
one unit of the old ones more. -/
theorem share_scale {k : ℕ} (hk : 0 < k) (r q total : ℕ) :
    k * share r q total ≤ share (k * r) (k * q) (k * total) ∧
      share (k * r) (k * q) (k * total) < k * share r q total + k := by
  have hcancel : share (k * r) (k * q) (k * total) = k * (r * q) / total := by
    rw [share, show k * r * (k * q) = k * (k * (r * q)) by ring, Nat.mul_div_mul_left _ _ hk]
  rw [hcancel, share]
  rcases Nat.eq_zero_or_pos total with rfl | hpos
  · simpa using hk
  · constructor
    · exact Nat.mul_div_le_mul_div_assoc k (r * q) total
    · rw [Nat.div_lt_iff_lt_mul hpos, ← Nat.mul_succ, Nat.mul_assoc, Nat.mul_comm _ total]
      exact Nat.mul_lt_mul_of_pos_left (Nat.lt_mul_div_succ (r * q) hpos) hk

theorem share_le_volume {r total : ℕ} (q : ℕ) (h : r ≤ total) : share r q total ≤ q := by
  rw [share, Nat.mul_comm]
  exact share_le q h

/-- A larger member of a level gets at least as much, although its size adds to the
level. The rest of the level wants `e`. -/
theorem share_mono_member {r r' : ℕ} (q e : ℕ) (h : r ≤ r') :
    share r q (r + e) ≤ share r' q (r' + e) := by
  rcases Nat.eq_zero_or_pos r with rfl | hpos
  · simp [share]
  · rw [share, share, Nat.le_div_iff_mul_le (by omega)]
    have hcross : r * (r' + e) ≤ r' * (r + e) := by
      rw [Nat.mul_add, Nat.mul_add, Nat.mul_comm r r']
      exact Nat.add_le_add_left (Nat.mul_le_mul_right e h) _
    refine Nat.le_of_mul_le_mul_right ?_ (show 0 < r + e by omega)
    calc r * q / (r + e) * (r' + e) * (r + e)
        = r * q / (r + e) * (r + e) * (r' + e) := by ring
      _ ≤ r * q * (r' + e) := Nat.mul_le_mul_right _ (Nat.div_mul_le_self _ _)
      _ = q * (r * (r' + e)) := by ring
      _ ≤ q * (r' * (r + e)) := Nat.mul_le_mul_left q hcross
      _ = r' * q * (r + e) := by ring

/-- Of a volume that covers the rest `e` of the level and `y` more, a member gets at
least `y`. -/
theorem le_share {y r : ℕ} (e : ℕ) (h : y ≤ r) : y ≤ share r (y + e) (r + e) := by
  rcases Nat.eq_zero_or_pos r with rfl | hpos
  · omega
  · rw [share, Nat.le_div_iff_mul_le (by omega), Nat.mul_add, Nat.mul_add, Nat.mul_comm y r]
    exact Nat.add_le_add_left (Nat.mul_le_mul_right e h) _

/-- Two members get no more apart than they would get as one, and at most one unit less. -/
theorem share_add_le (r r' q total : ℕ) :
    share r q total + share r' q total ≤ share (r + r') q total := by
  rw [share, share, share, Nat.add_mul]
  exact Nat.div_add_div_le_add_div

theorem le_share_add (r r' q total : ℕ) :
    share (r + r') q total ≤ share r q total + share r' q total + 1 := by
  rw [share, share, share, Nat.add_mul]
  exact Nat.add_div_le_div_add_div_add_one _ _ _

section Sums

variable {ι : Type*} (w : ι → ℕ)

theorem sum_share_le (q total : ℕ) (xs : List ι) :
    (xs.map fun x => share (w x) q total).sum ≤ share (xs.map w).sum q total := by
  induction xs with
  | nil => simp
  | cons x xs ih =>
    simp only [List.map_cons, List.sum_cons]
    have hadd := share_add_le (w x) (xs.map w).sum q total
    omega

/-- Rounding costs several members at most one unit each, and one of them nothing. -/
theorem share_sum_le (q total : ℕ) (xs : List ι) :
    share (xs.map w).sum q total ≤
      (xs.map fun x => share (w x) q total).sum + (xs.length - 1) := by
  induction xs with
  | nil => simp [share]
  | cons x xs ih =>
    by_cases hxs : xs = []
    · subst hxs
      simp
    · have hlen := List.length_pos_iff.mpr hxs
      have hadd := le_share_add (w x) (xs.map w).sum q total
      simp only [List.map_cons, List.sum_cons, List.length_cons]
      omega

end Sums

end ProRata
