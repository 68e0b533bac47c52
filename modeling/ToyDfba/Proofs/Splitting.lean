import ToyDfba.Lib.Positions
import ToyDfba.Proofs.Books
import ToyDfba.Proofs.DoubleEntry

/-! Splitting an order into pieces. The book stays the same, so nobody else notices, and
the rounding goes against the splitter. -/

namespace ToyDfba

open Positions Totals

/-- The pieces of an order: of its type, at its price, and together of its size. -/
structure Splits (o : Order) (pieces : List Order) : Prop where
  live : ∀ a ∈ pieces, a.live
  orderType : ∀ a ∈ pieces, a.orderType = o.orderType
  price : ∀ a ∈ pieces, a.price = o.price
  remaining : (pieces.map Order.remaining).sum = o.remaining

section Split

variable {o : Order} {pieces rest : List Order}

theorem Splits.liveMaker (h : Splits o pieces) (ho : o.live) :
    ∀ a ∈ pieces, a.liveMaker = o.liveMaker := fun a ha => by
  rw [Order.liveMaker, Order.liveMaker, h.live a ha, ho, h.orderType a ha]

theorem Splits.liveTaker (h : Splits o pieces) (ho : o.live) :
    ∀ a ∈ pieces, a.liveTaker = o.liveTaker := fun a ha => by
  rw [Order.liveTaker, Order.liveTaker, h.live a ha, ho, h.orderType a ha]

theorem Splits.total_eq (h : Splits o pieces) {c : Order → Bool} (hc : ∀ a ∈ pieces, c a = c o) :
    total Order.remaining c (o :: rest) = total Order.remaining c (pieces ++ rest) := by
  rw [total_append, total_cons, total_of_const _ hc, h.remaining]

theorem Splits.sameBook (h : Splits o pieces) (ho : o.live) :
    SameBook (o :: rest) (pieces ++ rest) := by
  refine ⟨fun c => ?_, fun c => ?_⟩
  · simp only [liveMakers, total_filter]
    exact h.total_eq fun a ha => by rw [h.price a ha, h.liveMaker ho a ha]
  · simp only [liveTakers, total_filter]
    exact h.total_eq fun a ha => by rw [h.price a ha, h.liveTaker ho a ha]

theorem Splits.dominates (h : Splits o pieces) (ho : o.live) :
    Dominates (o :: rest) (pieces ++ rest) := by
  intro a ha
  obtain ⟨hmem, hlive⟩ := List.mem_filter.mp ha
  rcases List.mem_append.mp hmem with hmem | hmem
  · refine ⟨o, List.mem_filter.mpr ⟨by simp, ?_⟩, h.price a hmem, ?_⟩
    · rwa [← h.liveTaker ho a hmem]
    · rw [← h.remaining]
      exact List.le_sum_of_mem (List.mem_map_of_mem hmem)
  · exact ⟨a, List.mem_filter.mpr ⟨List.mem_cons_of_mem o hmem, hlive⟩, rfl, le_rfl⟩

variable {auctionType : AuctionType} {orders : List Order}

/-- What the pieces of a live order grow by, as shares of what its level gets. -/
theorem Splits.growth_eq (h : Splits o pieces) (ho : o.live) :
    growth o.orderType pieces (pieces.map (settle auctionType orders)) =
      if o.liveTaker then
        (pieces.map fun a => ProRata.share a.remaining (levelFill auctionType orders o.price)
          (levelVolume orders o.price)).sum
      else 0 := by
  have htype : ∀ a ∈ pieces, decide (a.orderType = o.orderType) = true :=
    fun a ha => decide_eq_true (h.orderType a ha)
  rw [growth_settle, total_of_const _ htype, if_pos rfl]
  split_ifs with hot
  · refine congrArg List.sum (List.map_congr_left fun a ha => ?_)
    rw [if_pos (by rw [h.liveTaker ho a ha, hot]), takerFill, h.price a ha]
  · refine List.sum_eq_zero fun n hn => ?_
    obtain ⟨a, ha, rfl⟩ := List.mem_map.mp hn
    rw [if_neg (by rw [h.liveTaker ho a ha]; exact hot)]

theorem Splits.growth_le (h : Splits o pieces) (ho : o.live) :
    growth o.orderType pieces (pieces.map (settle auctionType orders)) ≤
      (settle auctionType orders o).filledQuantity.val - o.filledQuantity.val := by
  rw [h.growth_eq ho, settle_filled, Nat.add_sub_cancel_left]
  split_ifs
  · rw [takerFill, ← h.remaining]
    exact ProRata.sum_share_le _ _ _ _
  · exact le_rfl

theorem Splits.le_growth (h : Splits o pieces) (ho : o.live) :
    (settle auctionType orders o).filledQuantity.val - o.filledQuantity.val ≤
      growth o.orderType pieces (pieces.map (settle auctionType orders)) + (pieces.length - 1) := by
  rw [h.growth_eq ho, settle_filled, Nat.add_sub_cancel_left]
  split_ifs
  · rw [takerFill, ← h.remaining]
    exact ProRata.share_sum_le _ _ _ _
  · exact Nat.zero_le _

end Split

/-- Splitting an order gains nothing. Wherever the pieces stand, the auction returns the
same price and volume, every other order is left the same, and the pieces grow by at
most what the order did, and by less than one unit each short of it. -/
theorem split_gains_nothing {auctionType : AuctionType} {orders orders' out : List Order}
    {best : U64 × U64} (h : executeAuction orders auctionType = some (best, out)) {i : ℕ} {o : Order}
    (hi : orders[i]? = some o) (ho : o.live) {piece : ℕ → Bool}
    (hrest : keepAt (fun j => !piece j) orders' = orders.eraseIdx i)
    (hsplits : Splits o (keepAt piece orders')) :
    ∃ out' o', executeAuction orders' auctionType = some (best, out') ∧
      keepAt (fun j => !piece j) out' = out.eraseIdx i ∧ out[i]? = some o' ∧
      growth o.orderType (keepAt piece orders') (keepAt piece out') ≤
        o'.filledQuantity.val - o.filledQuantity.val ∧
      o'.filledQuantity.val - o.filledQuantity.val ≤
        growth o.orderType (keepAt piece orders') (keepAt piece out') +
          ((keepAt piece orders').length - 1) := by
  have hbefore := perm_cons_eraseIdx hi
  have hafter : (keepAt piece orders' ++ orders.eraseIdx i).Perm orders' := by
    rw [← hrest]
    exact keepAt_append_perm piece orders'
  have hsame : SameBook orders orders' :=
    (sameBook_of_perm hbefore).trans ((hsplits.sameBook ho).trans (sameBook_of_perm hafter))
  have hdom : Dominates orders orders' :=
    (dominates_of_perm hbefore).trans ((hsplits.dominates ho).trans (dominates_of_perm hafter))
  refine ⟨_, _, hsame.executeAuction_eq hdom h, ?_, executeAuction_getElem? h hi, ?_, ?_⟩
  · rw [keepAt_map, hrest, executeAuction_orders h, List.eraseIdx_map]
  · rw [keepAt_map]
    exact hsplits.growth_le ho
  · rw [keepAt_map]
    exact hsplits.le_growth ho

/-- The example book with its last taker split in two around the others. -/
def splitBook : List Order :=
  sampleOrder .taker .sell 105 101 :: exampleBook.take 5 ++ [sampleOrder .taker .sell 105 99]

theorem split_gains_nothing_exampleBook :
    ∃ out out', executeAuction exampleBook .bid = some ((105, 800), out) ∧
      executeAuction splitBook .bid = some ((105, 800), out') ∧
      keepAt (fun j => !(j = 0 || j = 6)) out' = out.eraseIdx 5 := by
  obtain ⟨out, hsome⟩ := exists_run_exampleBook
  have hlast : exampleBook[5]? = some (sampleOrder .taker .sell 105 200) := rfl
  have hrest : keepAt (fun j => !(j = 0 || j = 6)) splitBook = exampleBook.eraseIdx 5 := rfl
  obtain ⟨out', -, hsplit, hothers, -⟩ := split_gains_nothing hsome hlast (by decide) hrest
    ⟨by decide, by decide, by decide, by decide⟩
  exact ⟨out, out', hsome, hsplit, hothers⟩

end ToyDfba
