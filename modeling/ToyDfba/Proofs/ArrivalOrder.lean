import Mathlib.Data.List.FinRange
import ToyDfba.Proofs.Books

/-! The auction does not depend on the order of the queue. -/

namespace ToyDfba

variable {auctionType : AuctionType} {orders orders' : List Order}

theorem jams_of_perm (h : orders.Perm orders') (hj : Jams auctionType orders) :
    Jams auctionType orders' :=
  (sameBook_of_perm h.symm).jams (dominates_of_perm h.symm) hj

theorem executeAuction_perm (h : orders.Perm orders') {best : U64 × U64} {out : List Order}
    (hrun : executeAuction orders auctionType = some (best, out)) :
    executeAuction orders' auctionType = some (best, orders'.map (settle auctionType orders)) :=
  (sameBook_of_perm h).executeAuction_eq (dominates_of_perm h) hrun

/-- On a permuted queue the auction panics if it did before, and otherwise clears at
the same price and volume and leaves the same permutation of the same orders. -/
theorem executeAuction_permuted (auctionType : AuctionType) {n : ℕ} (queue : Fin n → Order)
    (σ : Equiv.Perm (Fin n)) :
    (executeAuction (List.ofFn queue) auctionType = none ∧
        executeAuction (List.ofFn (queue ∘ σ)) auctionType = none) ∨
      ∃ best out, executeAuction (List.ofFn queue) auctionType = some (best, List.ofFn out) ∧
        executeAuction (List.ofFn (queue ∘ σ)) auctionType = some (best, List.ofFn (out ∘ σ)) := by
  have hperm : (List.ofFn queue).Perm (List.ofFn (queue ∘ σ)) := (σ.ofFn_comp_perm queue).symm
  cases hrun : executeAuction (List.ofFn queue) auctionType with
  | none =>
    rw [executeAuction_eq_none_iff] at hrun
    exact Or.inl ⟨rfl, executeAuction_eq_none_iff.mpr (jams_of_perm hperm hrun)⟩
  | some res =>
    obtain ⟨best, out⟩ := res
    refine Or.inr ⟨best, settle auctionType (List.ofFn queue) ∘ queue, ?_, ?_⟩
    · rw [executeAuction_orders hrun, List.map_ofFn]
    · rw [executeAuction_perm hperm hrun, List.map_ofFn]
      rfl

end ToyDfba
