import Mathlib.Data.List.Basic
import Mathlib.Data.List.Perm.Basic
import Mathlib.Tactic.Common

/-! The items of a list at chosen positions, and a list cut at each of its items. -/

namespace Positions

variable {α β : Type*}

def keepAt (keep : ℕ → Bool) (xs : List α) : List α :=
  (xs.zipIdx.filter fun x => keep x.2).map Prod.fst

theorem mem_keepAt {keep : ℕ → Bool} {xs : List α} {x : α} :
    x ∈ keepAt keep xs ↔ ∃ i, keep i ∧ xs[i]? = some x := by
  simp [keepAt, List.mem_zipIdx_iff_getElem?, and_comm]

theorem keepAt_map (keep : ℕ → Bool) (f : α → β) (xs : List α) :
    keepAt keep (xs.map f) = (keepAt keep xs).map f := by
  simp [keepAt, List.zipIdx_map, List.filter_map, Function.comp_def]

/-- The chosen items and the others are all the items. -/
theorem keepAt_append_perm (keep : ℕ → Bool) (xs : List α) :
    (keepAt keep xs ++ keepAt (fun i => !keep i) xs).Perm xs := by
  have hperm := (List.filter_append_perm (fun x : α × ℕ => keep x.2) xs.zipIdx).map Prod.fst
  rwa [List.map_append, List.zipIdx_map_fst] at hperm

theorem perm_cons_eraseIdx {xs : List α} {i : ℕ} {x : α} (h : xs[i]? = some x) :
    xs.Perm (x :: xs.eraseIdx i) := by
  obtain ⟨hi, rfl⟩ := List.getElem?_eq_some_iff.mp h
  exact (List.getElem_cons_eraseIdx_perm hi).symm

theorem set_perm_cons_eraseIdx {xs : List α} {i : ℕ} {x : α} (h : xs[i]? = some x) (y : α) :
    (xs.set i y).Perm (y :: xs.eraseIdx i) :=
  List.set_perm_cons_eraseIdx (List.getElem?_eq_some_iff.mp h).1 y

theorem nil_ne_split {pre post : List α} {y : α} : [] ≠ pre ++ y :: post :=
  (List.append_ne_nil_of_right_ne_nil _ (List.cons_ne_nil _ _)).symm

/-- What holds at every item, given the items before it and those behind it. -/
theorem forall_split_cons {C : List α → α → List α → Prop} {x : α} {xs : List α} :
    (∀ pre y post, x :: xs = pre ++ y :: post → C pre y post) ↔
      C [] x xs ∧ ∀ pre y post, xs = pre ++ y :: post → C (x :: pre) y post := by
  refine ⟨fun h => ⟨h [] x xs rfl, fun pre y post he => h (x :: pre) y post (by rw [he]; rfl)⟩, ?_⟩
  intro h pre y post he
  cases pre with
  | nil =>
    obtain ⟨rfl, rfl⟩ := List.cons.inj he
    exact h.1
  | cons z pre =>
    obtain ⟨rfl, rfl⟩ := List.cons.inj he
    exact h.2 pre y post rfl

end Positions
