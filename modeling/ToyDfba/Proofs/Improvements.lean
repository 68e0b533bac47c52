import ToyDfba.Lib.Positions
import ToyDfba.Proofs.Allocation
import ToyDfba.Proofs.ArrivalOrder

/-! Changes that can only add to what a book matches: a taker that offers more or at a
better price, and one more maker. The volume does not go down, and nobody who stays in
place on the taker side gets less. -/

namespace ToyDfba

open Positions Totals

variable {auctionType : AuctionType} {orders orders' : List Order}

theorem clearingVolume_mono
    (h : ∀ p, matchedVolume auctionType orders p ≤ matchedVolume auctionType orders' p) :
    clearingVolume auctionType orders ≤ clearingVolume auctionType orders' := by
  obtain ⟨price, volume, hclears⟩ := exists_clears auctionType orders
  obtain ⟨p, hp⟩ := hclears.greatest.1
  rw [← hclears.volume_eq, ← hp]
  exact (h p).trans (matchedVolume_le_clearingVolume auctionType orders' p)

section BetterTaker

variable {o o' : Order} {rest : List Order}

theorem canFill_of_not_ahead {p : U64} (hprice : ¬ ahead auctionType o.price o'.price)
    (hcan : canFill auctionType p o) : canFill auctionType p o' := by
  by_cases he : o'.price = o.price
  · exact (canFill_congr he).trans hcan
  · exact canFill_of_ahead hcan (ahead_of_not hprice he)

theorem liveTakers_cons (ho : o.liveTaker) (rest : List Order) :
    liveTakers (o :: rest) = o :: liveTakers rest :=
  List.filter_cons_of_pos ho

theorem liveMakers_cons_of_taker (ho : o.liveTaker) (rest : List Order) :
    liveMakers (o :: rest) = liveMakers rest := by
  refine List.filter_cons_of_neg ?_
  simp [Order.liveMaker, orderType_of_liveTaker ho]

variable (ho : o.liveTaker) (ho' : o'.liveTaker) (hprice : ¬ ahead auctionType o.price o'.price)
  (hremaining : o.remaining ≤ o'.remaining)

include ho ho' hprice hremaining

theorem matchedVolume_better (p : U64) :
    matchedVolume auctionType (o :: rest) p ≤ matchedVolume auctionType (o' :: rest) p := by
  rw [matchedVolume_eq, matchedVolume_eq, makerVolume, makerVolume, takerVolume, takerVolume,
    liveMakers_cons_of_taker ho, liveMakers_cons_of_taker ho', liveTakers_cons ho,
    liveTakers_cons ho', total_cons, total_cons]
  refine min_le_min_left _ (Nat.add_le_add_right ?_ _)
  cases hcan : canFill auctionType p o
  · exact Nat.zero_le _
  · rwa [if_pos rfl, if_pos (canFill_of_not_ahead hprice hcan)]

theorem takerFill_better :
    takerFill auctionType (o :: rest) o ≤ takerFill auctionType (o' :: rest) o' := by
  have hvolume : clearingVolume auctionType (o :: rest) ≤ clearingVolume auctionType (o' :: rest) :=
    clearingVolume_mono (matchedVolume_better ho ho' hprice hremaining)
  rw [ahead_eq, decide_eq_true_eq, not_lt] at hprice
  rw [takerFill_eq, takerFill_eq, liveTakers_cons ho, liveTakers_cons ho']
  exact Priority.award_better hprice hremaining hvolume

end BetterTaker

/-- A better taker order never gets less: with a price at least as aggressive and a
quantity at least as large it grows by at least as much. -/
theorem better_taker_gets_no_less {out out' : List Order} {best best' : U64 × U64} {i : ℕ}
    {o : Order} (hi : orders[i]? = some o) (ho : o.liveTaker) {price quantity : U64}
    (hprice : ¬ ahead auctionType o.price price) (hquantity : o.quantity ≤ quantity)
    (h : executeAuction orders auctionType = some (best, out))
    (h' : executeAuction (orders.set i { o with price := price, quantity := quantity }) auctionType =
      some (best', out')) :
    ∃ a a', out[i]? = some a ∧ out'[i]? = some a' ∧
      a.filledQuantity.val - o.filledQuantity.val ≤
        a'.filledQuantity.val - o.filledQuantity.val := by
  set o' : Order := { o with price := price, quantity := quantity }
  have hset : (orders.set i o')[i]? = some o' :=
    List.getElem?_set_self (List.getElem?_eq_some_iff.mp hi).1
  have hlive : o'.liveTaker := by
    simp only [Order.liveTaker, Order.live, Bool.and_eq_true, decide_eq_true_eq] at ho ⊢
    exact ⟨⟨ho.1.1, lt_of_lt_of_le ho.1.2 hquantity⟩, ho.2⟩
  have hremaining : o.remaining ≤ o'.remaining := Nat.sub_le_sub_right hquantity _
  refine ⟨_, _, executeAuction_getElem? h hi, executeAuction_getElem? h' hset, ?_⟩
  have hfilled : o'.filledQuantity = o.filledQuantity := rfl
  rw [settle_filled, settle_filled, if_pos ho, if_pos hlive, hfilled, Nat.add_sub_cancel_left,
    Nat.add_sub_cancel_left, (sameBook_of_perm (perm_cons_eraseIdx hi)).takerFill_eq,
    (sameBook_of_perm (set_perm_cons_eraseIdx hi o')).takerFill_eq]
  exact takerFill_better ho hlive hprice hremaining

/-- The last taker of the example book goes down to 95 and wants 300. -/
theorem better_taker_gets_no_less_exampleBook :
    ∃ out out' a a', executeAuction exampleBook .bid = some ((105, 800), out) ∧
      executeAuction (exampleBook.set 5 (sampleOrder .taker .sell 95 300)) .bid =
        some ((100, 1000), out') ∧
      out[5]? = some a ∧ out'[5]? = some a' ∧
      a.filledQuantity.val - 0 ≤ a'.filledQuantity.val - 0 := by
  obtain ⟨out, hsome⟩ := exists_run_exampleBook
  obtain ⟨out', hsome'⟩ : ∃ out', executeAuction
      (exampleBook.set 5 (sampleOrder .taker .sell 95 300)) .bid = some ((100, 1000), out') :=
    exists_run_of_best (by decide)
  have hlast : exampleBook[5]? = some (sampleOrder .taker .sell 105 200) := rfl
  obtain ⟨a, a', ha, ha', hle⟩ :=
    better_taker_gets_no_less hlast (by decide) (by decide) (by decide) hsome hsome'
  exact ⟨out, out', a, a', hsome, hsome', ha, ha', hle⟩

section MoreMakers

variable {m : Order} (hm : m.liveMaker) (rest : List Order)

include hm

theorem liveMakers_cons : liveMakers (m :: rest) = m :: liveMakers rest :=
  List.filter_cons_of_pos hm

theorem liveTakers_cons_of_maker : liveTakers (m :: rest) = liveTakers rest := by
  refine List.filter_cons_of_neg ?_
  simp [Order.liveTaker, orderType_of_liveMaker hm]

theorem makerVolume_cons (p : U64) :
    makerVolume auctionType rest p ≤ makerVolume auctionType (m :: rest) p := by
  rw [makerVolume, makerVolume, liveMakers_cons hm, total_cons]
  exact Nat.le_add_left _ _

theorem takerVolume_cons (p : U64) :
    takerVolume auctionType (m :: rest) p = takerVolume auctionType rest p := by
  rw [takerVolume, takerVolume, liveTakers_cons_of_maker hm]

theorem matchedVolume_cons (p : U64) :
    matchedVolume auctionType rest p ≤ matchedVolume auctionType (m :: rest) p := by
  rw [matchedVolume_eq, matchedVolume_eq, takerVolume_cons hm]
  exact min_le_min_right _ (makerVolume_cons hm rest p)

/-- Every taker gets at least as much: the takers are the same, and the volume is not less. -/
theorem takerFill_cons (auctionType : AuctionType) (o : Order) :
    takerFill auctionType rest o ≤ takerFill auctionType (m :: rest) o := by
  rw [takerFill_eq, takerFill_eq, liveTakers_cons_of_maker hm]
  exact Priority.award_mono (clearingVolume_mono (matchedVolume_cons hm rest)) _ _

/-- In the bid auction the price does not go down. Below the old price the makers
offered enough before, so there it was the takers that fell short, and they are the same. -/
theorem price_cons {price price' : U64} {volume volume' : ℕ} (hpos : 0 < volume)
    (h : Clears .bid rest price volume) (h' : Clears .bid (m :: rest) price' volume') :
    price ≤ price' := by
  have hle : volume ≤ volume' := by
    rw [h.volume_eq, h'.volume_eq]
    exact clearingVolume_mono (matchedVolume_cons hm rest)
  by_contra hlt
  have hmakers : volume ≤ makerVolume .bid rest price' :=
    (h.le_makerVolume hpos).trans
      (Crossing.demand_anti Order.price Order.remaining (not_le.mp hlt).le (liveMakers rest))
  have htakers : volume ≤ takerVolume .bid rest price' := by
    rw [← takerVolume_cons hm]
    exact hle.trans (h'.le_takerVolume (lt_of_lt_of_le hpos hle))
  have hmatched : matchedVolume .bid rest price' = volume := by
    refine le_antisymm (h.greatest.2 ⟨price', rfl⟩) ?_
    rw [matchedVolume_eq]
    exact le_min hmakers htakers
  exact hlt ((h.least hpos).2 hmatched)

end MoreMakers

/-- More maker liquidity never hurts a taker: with one more live maker anywhere in the
queue the volume is at least as large, no order is filled less than before, and in the
bid auction a clearing price does not go down. -/
theorem more_makers_never_hurt {pre post out out' : List Order} {m : Order}
    {price price' volume volume' : U64} (hm : m.liveMaker)
    (h : executeAuction (pre ++ post) auctionType = some ((price, volume), out))
    (h' : executeAuction (pre ++ m :: post) auctionType = some ((price', volume'), out')) :
    volume ≤ volume' ∧
      List.Forall₂ (fun a a' : Order => a.filledQuantity ≤ a'.filledQuantity) out
        (out'.eraseIdx pre.length) ∧
      (auctionType = .bid → 0 < volume → price ≤ price') := by
  have hsame : SameBook (pre ++ m :: post) (m :: (pre ++ post)) := sameBook_of_perm List.perm_middle
  have hclears := executeAuction_clears h
  have hclears' := hsame.clears (executeAuction_clears h')
  refine ⟨?_, ?_, fun hbid hpos => ?_⟩
  · rw [Fin.le_def, hclears.volume_eq, hclears'.volume_eq]
    exact clearingVolume_mono (matchedVolume_cons hm _)
  · have herase : (pre ++ m :: post).eraseIdx pre.length = pre ++ post := by
      rw [List.eraseIdx_append_of_length_le le_rfl, Nat.sub_self, List.eraseIdx_cons_zero]
    rw [executeAuction_orders h, executeAuction_orders h', List.eraseIdx_map, herase]
    refine List.forall₂_map_left_iff.mpr (List.forall₂_map_right_iff.mpr
      (List.forall₂_same.mpr fun o _ => ?_))
    rw [Fin.le_def, settle_filled, settle_filled, hsame.takerFill_eq]
    have hfill := takerFill_cons hm (pre ++ post) auctionType o
    split_ifs <;> omega
  · subst hbid
    exact price_cons hm _ hpos hclears hclears'

/-- One more bid of 50 lets 50 more trade in the example book. -/
theorem more_makers_never_hurt_exampleBook :
    ∃ out out', executeAuction exampleBook .bid = some ((105, 800), out) ∧
      executeAuction (exampleBook.take 2 ++ sampleOrder .maker .buy 107 50 :: exampleBook.drop 2)
        .bid = some ((105, 850), out') ∧
      List.Forall₂ (fun a a' : Order => a.filledQuantity ≤ a'.filledQuantity) out
        (out'.eraseIdx 2) ∧
      (105 : U64) ≤ 105 := by
  obtain ⟨out, hsome⟩ := exists_run_exampleBook
  obtain ⟨out', hsome'⟩ : ∃ out', executeAuction
      (exampleBook.take 2 ++ sampleOrder .maker .buy 107 50 :: exampleBook.drop 2) .bid =
        some ((105, 850), out') :=
    exists_run_of_best (by decide)
  have hbook : exampleBook.take 2 ++ exampleBook.drop 2 = exampleBook := List.take_append_drop 2 _
  obtain ⟨-, hfills, hprice⟩ := more_makers_never_hurt (by decide) (hbook.symm ▸ hsome) hsome'
  exact ⟨out, out', hsome, hsome', hfills, hprice rfl (by decide)⟩

end ToyDfba
