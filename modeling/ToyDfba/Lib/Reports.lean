import ToyDfba.Lib.Ledger

/-! What the steps of a machine report on their way, beside the states they leave. Where
each step reports the items that it makes arrive, the reports of a run tell its ledger. -/

namespace Reports

open Ledger

section Machine

variable {σ τ β : Type*} (apply : σ → τ → σ) (report : σ → τ → List β)

def reported (s : σ) (xs : List τ) : List β :=
  (Runs.trace apply s xs).flatMap fun st => report st.1 st.2

theorem reported_snoc (s : σ) (xs : List τ) (x : τ) :
    reported apply report s (xs ++ [x]) =
      reported apply report s xs ++ report (Runs.run apply s xs) x := by
  rw [reported, Runs.trace_snoc, List.flatMap_append, List.flatMap_singleton]
  rfl

end Machine

section Ledger

variable {κ α ρ β : Type*} [DecidableEq κ] (tell : α → β)

/-- What there is to tell of the items that ever arrived at a place. -/
def told (k : κ) (ledger : List (Entry κ α ρ)) : List β :=
  (ledger.filter fun e => e.place = k).map fun e => tell e.item

theorem told_append (k : κ) (xs ys : List (Entry κ α ρ)) :
    told tell k (xs ++ ys) = told tell k xs ++ told tell k ys := by
  rw [told, List.filter_append, List.map_append]
  rfl

/-- A step that changes nothing of what there is to tell. -/
theorem told_advance {fate : κ → α → α × Option ρ} (h : ∀ k a, tell (fate k a).1 = tell a) (k : κ)
    (ledger : List (Entry κ α ρ)) :
    told tell k (ledger.map (Entry.advance fate)) = told tell k ledger := by
  induction ledger with
  | nil => rfl
  | cons e ledger ih =>
    have hplace : (e.advance fate).place = e.place := by
      unfold Entry.advance
      split_ifs <;> rfl
    have hitem : tell (e.advance fate).item = tell e.item := by
      unfold Entry.advance
      split_ifs
      · rfl
      · exact h e.place e.item
    unfold told at ih ⊢
    by_cases hk : e.place = k
    · simp [hplace, hitem, hk, ih]
    · simp [hplace, hk, ih]

theorem told_arrive {places : List κ} (hnd : places.Nodup) {k : κ} (hk : k ∈ places)
    (new : κ → List α) :
    told tell k (arrive places new : List (Entry κ α ρ)) = (new k).map tell := by
  have hnew : ∀ e ∈ (arrive places new : List (Entry κ α ρ)), e.removed = none := by
    intro e he
    obtain ⟨k', -, he⟩ := List.mem_flatMap.mp he
    obtain ⟨a, -, rfl⟩ := List.mem_map.mp he
    rfl
  have hresting := @resting_arrive κ α ρ _ places hnd k hk new
  rw [← hresting, resting, List.map_filterMap, told, ← List.filterMap_eq_map,
    ← List.filterMap_eq_filter, List.filterMap_filterMap]
  apply List.filterMap_congr
  intro e he
  by_cases hplace : e.place = k <;> simp [Entry.resting, Option.guard, hplace, hnew e he]

end Ledger

section Told

variable {σ τ κ α ρ β : Type*} [DecidableEq κ] {apply : σ → τ → σ} {report : σ → τ → List β}
  {fate : σ → τ → κ → α → α × Option ρ} {new : σ → τ → κ → List α} {places : List κ}
  {tell : α → β} {about : κ → β → Bool}

/-- When each step reports of a place the items that it makes arrive there, a run reports of
it the items of the ledger, in the order of their arrival. -/
theorem reported_told (hnd : places.Nodup) (hall : ∀ k, k ∈ places)
    (hnew : ∀ s x k, (report s x).filter (about k) = (new s x k).map tell)
    (hsame : ∀ s x k a, tell (fate s x k a).1 = tell a) (s : σ) (xs : List τ) (k : κ) :
    (reported apply report s xs).filter (about k) =
      told tell k (book apply fate new places s xs) := by
  induction xs using List.reverseRecOn with
  | nil => rfl
  | append_singleton xs x ih =>
    rw [reported_snoc, List.filter_append, ih, hnew, book_snoc, record, told_append,
      told_advance tell (hsame _ x), told_arrive tell hnd (hall k)]

end Told

end Reports
