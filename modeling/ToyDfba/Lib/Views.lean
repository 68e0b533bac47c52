import Mathlib.Data.List.Basic
import Mathlib.Tactic.Common

/-! Inputs that several parties feed to one machine. Each party sees its own inputs and
those that are shared, in their order. Where the inputs of different parties commute, two
sequences that look the same to every party lead to the same state. -/

namespace Views

variable {σ α κ : Type*} [DecidableEq κ] (key : α → κ) (shared : α → Bool)

/-- What a party sees of a sequence. -/
def view (k : κ) (xs : List α) : List α := xs.filter fun x => key x = k || shared x

variable {key shared}

theorem view_cons_of_sees {k : κ} {x : α} (h : key x = k ∨ shared x) (xs : List α) :
    view key shared k (x :: xs) = x :: view key shared k xs :=
  List.filter_cons_of_pos (by simpa using h)

theorem view_cons_of_not {k : κ} {x : α} (h : ¬ (key x = k ∨ shared x)) (xs : List α) :
    view key shared k (x :: xs) = view key shared k xs :=
  List.filter_cons_of_neg (by simpa using h)

theorem view_append (k : κ) (xs ys : List α) :
    view key shared k (xs ++ ys) = view key shared k xs ++ view key shared k ys :=
  List.filter_append xs ys

variable {f : σ → α → σ}

/-- An input moves in front of inputs that it commutes with. -/
theorem foldl_move (x : α) {pre : List α} (hcomm : ∀ y ∈ pre, ∀ s, f (f s y) x = f (f s x) y)
    (post : List α) (s : σ) :
    (pre ++ x :: post).foldl f s = (x :: (pre ++ post)).foldl f s := by
  induction pre generalizing s with
  | nil => rfl
  | cons y pre ih =>
    have hy := hcomm y List.mem_cons_self s
    have ih := ih (fun z hz => hcomm z (List.mem_cons_of_mem y hz)) (f s y)
    simp only [List.cons_append, List.foldl_cons] at ih ⊢
    rw [ih, hy]

theorem eq_nil_of_views {ys : List α} (h : ∀ k, view key shared k ys = []) : ys = [] := by
  cases ys with
  | nil => rfl
  | cons y ys =>
    have hy := h (key y)
    rw [view_cons_of_sees (Or.inl rfl)] at hy
    cases hy

/-- The first input of one sequence stands in the other behind inputs that no party sees
together with it. -/
theorem exists_move {x : α} {xs ys : List α}
    (h : ∀ k, view key shared k (x :: xs) = view key shared k ys) :
    ∃ pre post, ys = pre ++ x :: post ∧
      (∀ y ∈ pre, ¬ shared y ∧ ¬ shared x ∧ key y ≠ key x) ∧
      ∀ k, view key shared k xs = view key shared k (pre ++ post) := by
  have hx := h (key x)
  rw [view_cons_of_sees (Or.inl rfl), eq_comm] at hx
  obtain ⟨pre, post, rfl, hpre, -, -⟩ := List.filter_eq_cons_iff.mp hx
  have hpre : ∀ y ∈ pre, key y ≠ key x ∧ ¬ shared y := by
    intro y hy
    have hno := hpre y hy
    simp only [Bool.or_eq_true, decide_eq_true_eq, not_or] at hno
    exact hno
  -- the owner of an input in front of a shared `x` would see it first
  have hfront : shared x → pre = [] := by
    intro hshared
    cases pre with
    | nil => rfl
    | cons y pre =>
      have hy := h (key y)
      rw [view_cons_of_sees (Or.inr hshared), List.cons_append, view_cons_of_sees (Or.inl rfl)] at hy
      obtain ⟨rfl, -⟩ := List.cons.inj hy
      exact absurd rfl (hpre x List.mem_cons_self).1
  refine ⟨pre, post, rfl, fun y hy => ?_, fun k => ?_⟩
  · obtain ⟨hkey, hy'⟩ := hpre y hy
    exact ⟨hy', fun hshared => absurd (hfront hshared ▸ hy) List.not_mem_nil, hkey⟩
  · have hk := h k
    rw [view_append] at hk ⊢
    by_cases hsees : key x = k ∨ shared x
    · have hnil : view key shared k pre = [] := by
        rcases hsees with rfl | hshared
        · exact List.filter_eq_nil_iff.mpr fun y hy => by simpa using hpre y hy
        · rw [hfront hshared]
          rfl
      rw [view_cons_of_sees hsees, view_cons_of_sees hsees, hnil, List.nil_append] at hk
      rw [hnil, List.nil_append]
      exact (List.cons.inj hk).2
    · rwa [view_cons_of_not hsees, view_cons_of_not hsees] at hk

/-- Sequences that look the same to every party lead to the same state. -/
theorem foldl_eq_of_views
    (hcomm : ∀ s x y, ¬ shared x → ¬ shared y → key x ≠ key y → f (f s x) y = f (f s y) x)
    {xs ys : List α} (h : ∀ k, view key shared k xs = view key shared k ys) (s : σ) :
    xs.foldl f s = ys.foldl f s := by
  induction xs generalizing ys s with
  | nil => rw [eq_nil_of_views fun k => (h k).symm]
  | cons x xs ih =>
    obtain ⟨pre, post, rfl, hpre, hrest⟩ := exists_move h
    rw [foldl_move x fun y hy s => ?_]
    · exact ih hrest (f s x)
    · obtain ⟨hy, hx, hkey⟩ := hpre y hy
      exact hcomm s y x hy hx hkey

/-- Where `hide` covers up what the inputs of one kind do, it covers up that they were
there. -/
theorem hide_foldl {hide : σ → σ} {own : α → Bool} {xs : List α}
    (hown : ∀ x ∈ xs, own x → ∀ s, hide (f s x) = hide s)
    (hother : ∀ x ∈ xs, ¬ own x → ∀ s, hide (f s x) = f (hide s) x) (s : σ) :
    hide (xs.foldl f s) = (xs.filter fun x => !own x).foldl f (hide s) := by
  induction xs generalizing s with
  | nil => rfl
  | cons x xs ih =>
    have ih := ih (fun y hy => hown y (List.mem_cons_of_mem x hy))
      (fun y hy => hother y (List.mem_cons_of_mem x hy)) (f s x)
    rw [List.foldl_cons, ih]
    by_cases hx : own x
    · rw [hown x List.mem_cons_self hx, List.filter_cons_of_neg (by simp [hx])]
    · rw [hother x List.mem_cons_self hx, List.filter_cons_of_pos (by simp [hx]), List.foldl_cons]

end Views
