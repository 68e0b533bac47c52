import Mathlib.Algebra.Order.Group.Nat
import ToyDfba.Lib.Crossing
import ToyDfba.Lib.ProRata

/-! Priority, then pro rata. Members with a key and a want share a volume: a lower key
is served first, and the members of one key share what reaches them pro rata. -/

namespace Priority

open Totals ProRata

variable {ι κ : Type*} [LinearOrder κ] (key : ι → κ) (w : ι → ℕ)

/-- What the members before a key want together. -/
def front (xs : List ι) (k : κ) : ℕ := total w (fun x => key x < k) xs

/-- What the members at a key want together. -/
def level (xs : List ι) (k : κ) : ℕ := total w (fun x => key x = k) xs

/-- The part of a volume that reaches a key. -/
def reach (v : ℕ) (xs : List ι) (k : κ) : ℕ := min (level key w xs k) (v - front key w xs k)

/-- The part of a volume that a member gets. -/
def award (v : ℕ) (xs : List ι) (x : ι) : ℕ :=
  share (w x) (reach key w v xs (key x)) (level key w xs (key x))

/-- The key that a volume reaches in part. -/
def Partial (v : ℕ) (xs : List ι) (k : κ) : Prop :=
  0 < v - front key w xs k ∧ v - front key w xs k < level key w xs k

theorem front_add_level (xs : List ι) (k : κ) :
    front key w xs k + level key w xs k = total w (fun x => key x ≤ k) xs := by
  rw [front, level, ← total_or]
  · refine total_congr _ fun x _ => ?_
    rw [← Bool.decide_or]
    exact decide_eq_decide.mpr le_iff_lt_or_eq.symm
  · intro x _ hlt
    simpa using (of_decide_eq_true hlt).ne

theorem front_add_level_le_front (xs : List ι) {j k : κ} (h : j < k) :
    front key w xs j + level key w xs j ≤ front key w xs k := by
  rw [front_add_level]
  exact total_le _ fun x _ hx => decide_eq_true (lt_of_le_of_lt (of_decide_eq_true hx) h)

theorem le_level {xs : List ι} {x : ι} (hx : x ∈ xs) : w x ≤ level key w xs (key x) :=
  le_total _ hx (decide_eq_true rfl)

theorem reach_le (v : ℕ) (xs : List ι) (k : κ) : reach key w v xs k ≤ level key w xs k :=
  min_le_left _ _

theorem award_le (v : ℕ) (xs : List ι) (x : ι) : award key w v xs x ≤ w x :=
  share_le _ (reach_le _ _ _ _ _)

variable {key w} {v v' : ℕ} {xs : List ι} {j k : κ} {x y : ι}

theorem award_mono (h : v ≤ v') (xs : List ι) (x : ι) :
    award key w v xs x ≤ award key w v' xs x :=
  share_mono_volume _ _ (min_le_min_left _ (Nat.sub_le_sub_right h _))

/-- A key that what is left covers gets all it wants. -/
theorem award_of_full (hx : x ∈ xs)
    (h : level key w xs (key x) ≤ v - front key w xs (key x)) : award key w v xs x = w x := by
  rcases Nat.eq_zero_or_pos (level key w xs (key x)) with h0 | hpos
  · have hle := award_le key w v xs x
    have hw := le_level key w hx
    omega
  · rw [award, reach, min_eq_left h, share_full _ hpos]

theorem award_of_spent (h : v ≤ front key w xs (key x)) : award key w v xs x = 0 := by
  rw [award, reach, Nat.sub_eq_zero_of_le h, Nat.min_zero, share_zero]

/-- Nobody gets anything behind a member that gets less than it wants. -/
theorem award_eq_zero_of_short (hx : x ∈ xs) (hshort : award key w v xs x < w x)
    (hxy : key x < key y) : award key w v xs y = 0 := by
  refine award_of_spent ?_
  have hnot : ¬ level key w xs (key x) ≤ v - front key w xs (key x) := fun hfull =>
    hshort.ne (award_of_full hx hfull)
  have hfront := front_add_level_le_front key w xs hxy
  omega

theorem Partial.unique (hj : Partial key w v xs j) (hk : Partial key w v xs k) : j = k := by
  obtain ⟨hjpos, hjlt⟩ := hj
  obtain ⟨hkpos, hklt⟩ := hk
  rcases lt_trichotomy j k with h | h | h
  · have hfront := front_add_level_le_front key w xs h
    omega
  · exact h
  · have hfront := front_add_level_le_front key w xs h
    omega

/-- Somewhere the volume runs out. -/
theorem exists_marginal (key : ι → κ) (hpos : 0 < v) (hle : v ≤ total w (fun _ => true) xs) :
    ∃ x ∈ xs, front key w xs (key x) < v ∧
      v ≤ front key w xs (key x) + level key w xs (key x) := by
  have hne : xs ≠ [] := by
    rintro rfl
    simp at hle
    omega
  obtain ⟨z, hz, hhigh⟩ := Crossing.exists_highest key hne
  have hall : front key w xs (key z) + level key w xs (key z) = total w (fun _ => true) xs := by
    rw [front_add_level]
    exact total_congr _ fun x hx => decide_eq_true (hhigh x hx)
  -- the lowest of the keys that the volume does not go beyond
  have hmem : z ∈ xs.filter fun x => v ≤ front key w xs (key x) + level key w xs (key x) :=
    List.mem_filter.mpr ⟨hz, decide_eq_true (hall ▸ hle)⟩
  obtain ⟨x, hx, hlow⟩ := Crossing.exists_lowest key (List.ne_nil_of_mem hmem)
  obtain ⟨hx, hreach⟩ := List.mem_filter.mp hx
  refine ⟨x, hx, ?_, of_decide_eq_true hreach⟩
  by_contra hnot
  have hahead : 0 < front key w xs (key x) := by omega
  obtain ⟨y, hy, hyx, -⟩ := (total_pos_iff _).mp hahead
  have hys : xs.filter (fun y => key y < key x) ≠ [] :=
    List.ne_nil_of_mem (List.mem_filter.mpr ⟨hy, hyx⟩)
  obtain ⟨y, hy, htop⟩ := Crossing.exists_highest key hys
  obtain ⟨hy, hyx⟩ := List.mem_filter.mp hy
  have hyx := of_decide_eq_true hyx
  have hsame : front key w xs (key x) ≤ front key w xs (key y) + level key w xs (key y) := by
    rw [front_add_level]
    exact total_le _ fun u hu hux => decide_eq_true (htop u (List.mem_filter.mpr ⟨hu, hux⟩))
  have hxy := hlow y (List.mem_filter.mpr ⟨hy, decide_eq_true (by omega)⟩)
  exact absurd hyx (not_lt.mpr hxy)

/-- What all the members get, when the volume runs out at `z`. -/
theorem total_award {z : κ} (hlt : front key w xs z < v)
    (hle : v ≤ front key w xs z + level key w xs z) :
    total (award key w v xs) (fun _ => true) xs =
      front key w xs z + ((xs.filter fun x => key x = z).map fun x =>
        share (w x) (v - front key w xs z) (level key w xs z)).sum := by
  have hsplit : total (award key w v xs) (fun _ => true) xs =
      total (award key w v xs) (fun x => key x < z) xs +
        (total (award key w v xs) (fun x => key x = z) xs +
          total (award key w v xs) (fun x => z < key x) xs) := by
    rw [← total_or, ← total_or]
    · refine total_congr _ fun x _ => ?_
      rw [← Bool.decide_or, ← Bool.decide_or, eq_comm, decide_eq_true_eq]
      exact lt_trichotomy _ _
    · intro x _ hx
      rw [← Bool.decide_or, decide_eq_false_iff_not]
      have hx := of_decide_eq_true hx
      exact fun hor => hor.elim hx.ne hx.not_gt
    · intro x _ hx
      simpa using (of_decide_eq_true hx).le
  have hbefore : total (award key w v xs) (fun x => key x < z) xs = front key w xs z := by
    refine total_congr_weight _ fun x hx hxz => award_of_full hx ?_
    have hfront := front_add_level_le_front key w xs (of_decide_eq_true hxz)
    omega
  have hat : total (award key w v xs) (fun x => key x = z) xs =
      ((xs.filter fun x => key x = z).map fun x =>
        share (w x) (v - front key w xs z) (level key w xs z)).sum := by
    refine congrArg List.sum (List.map_congr_left fun x hx => ?_)
    obtain rfl := of_decide_eq_true (List.mem_filter.mp hx).2
    rw [award, reach, min_eq_right (by omega)]
  have hbehind : total (award key w v xs) (fun x => z < key x) xs = 0 := by
    refine (total_eq_zero_iff _).mpr fun x _ hxz => award_of_spent ?_
    exact hle.trans (front_add_level_le_front key w xs (of_decide_eq_true hxz))
  omega

/-- The loss to rounding is less than the number of members at the key that the volume
reaches in part. -/
theorem le_total_award (hk : Partial key w v xs k) :
    v ≤ total (award key w v xs) (fun _ => true) xs +
      ((xs.filter fun x => key x = k).length - 1) := by
  obtain ⟨hfront, hreach⟩ := hk
  have hlevel : 0 < level key w xs k := by omega
  have hsum := share_sum_le w (v - front key w xs k) (level key w xs k)
    (xs.filter fun y => key y = k)
  have hge := (share_whole _ hlevel).ge.trans hsum
  rw [total_award (z := k) (by omega) (by omega)]
  omega

section Aggregate

variable (hpos : 0 < v) (hle : v ≤ total w (fun _ => true) xs)

include hpos hle

theorem total_award_le : total (award key w v xs) (fun _ => true) xs ≤ v := by
  obtain ⟨x, -, hlt, hreach⟩ := exists_marginal key hpos hle
  have hlevel : 0 < level key w xs (key x) := by omega
  have hsum := sum_share_le w (v - front key w xs (key x)) (level key w xs (key x))
    (xs.filter fun y => key y = key x)
  rw [total_award hlt hreach]
  exact (Nat.add_le_add_left (hsum.trans (share_whole _ hlevel).le) _).trans (by omega)

/-- Nothing is lost when the volume ends between two keys. -/
theorem total_award_eq (hnone : ∀ k, ¬ Partial key w v xs k) :
    total (award key w v xs) (fun _ => true) xs = v := by
  obtain ⟨x, -, hlt, hreach⟩ := exists_marginal key hpos hle
  have hlevel : 0 < level key w xs (key x) := by omega
  have hend : v - front key w xs (key x) = level key w xs (key x) := by
    by_contra hne
    exact hnone (key x) ⟨by omega, by omega⟩
  have hfull : ((xs.filter fun y => key y = key x).map fun y =>
      share (w y) (v - front key w xs (key x)) (level key w xs (key x))).sum =
        level key w xs (key x) := by
    rw [hend]
    exact congrArg List.sum (List.map_congr_left fun y _ => share_full _ hlevel)
  rw [total_award hlt hreach, hfull]
  omega

/-- Never more than one unit is lost for each member but one. -/
theorem le_total_award_add_length :
    v ≤ total (award key w v xs) (fun _ => true) xs + (xs.length - 1) := by
  by_cases hpartial : ∃ k, Partial key w v xs k
  · obtain ⟨k, hk⟩ := hpartial
    have hloss := le_total_award hk
    have hlength := List.length_filter_le (fun x => key x = k) xs
    omega
  · rw [total_award_eq hpos hle fun k hk => hpartial ⟨k, hk⟩]
    exact Nat.le_add_right _ _

end Aggregate

section Head

variable {rest : List ι}

theorem front_cons_self (x : ι) (rest : List ι) :
    front key w (x :: rest) (key x) = front key w rest (key x) := by
  simp [front]

theorem level_cons_self (x : ι) (rest : List ι) :
    level key w (x :: rest) (key x) = w x + level key w rest (key x) := by
  simp [level]

/-- A member that moves ahead or wants more gets no less, whatever that does to its old
level and to its new one. -/
theorem award_better (hkey : key y ≤ key x) (hw : w x ≤ w y) (hv : v ≤ v') :
    award key w v (x :: rest) x ≤ award key w v' (y :: rest) y := by
  have hgot : award key w v (x :: rest) x ≤ v - front key w rest (key x) := by
    rw [award, reach, front_cons_self]
    exact (share_le_volume _ (le_level key w (by simp))).trans (min_le_right _ _)
  have hwant := award_le key w v (x :: rest) x
  rcases hkey.lt_or_eq with hlt | heq
  · rcases Nat.eq_zero_or_pos (award key w v (x :: rest) x) with h0 | hpos
    · rw [h0]
      exact Nat.zero_le _
    · -- what it got before came after its whole new level was served
      have hfront := front_add_level_le_front key w rest hlt
      calc award key w v (x :: rest) x
          ≤ share (w y) (award key w v (x :: rest) x + level key w rest (key y))
              (w y + level key w rest (key y)) := le_share _ (hwant.trans hw)
        _ ≤ share (w y) (min (w y + level key w rest (key y)) (v' - front key w rest (key y)))
              (w y + level key w rest (key y)) :=
          share_mono_volume _ _ (le_min (by omega) (by omega))
        _ = award key w v' (y :: rest) y := by
          rw [← front_cons_self, ← level_cons_self, award, reach]
  · rw [award, award, reach, reach, front_cons_self, front_cons_self, level_cons_self,
      level_cons_self, heq]
    exact (share_mono_member _ _ hw).trans
      (share_mono_volume _ _ (min_le_min (by omega) (by omega)))

end Head

end Priority
