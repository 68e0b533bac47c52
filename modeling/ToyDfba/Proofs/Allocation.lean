import ToyDfba.Lib.Priority
import ToyDfba.Proofs.DoubleEntry

/-! How the clearing volume is divided among the takers. The live takers are the members
of a priority rule whose key is the aggressiveness of the price, and what the auction
hands out is the award of that rule. -/

namespace ToyDfba

open Totals

/-- The place of a taker price, the most aggressive first. -/
def rank : AuctionType → U64 → U64
  | .bid, p => p
  | .ask, p => p.rev

theorem ahead_eq (auctionType : AuctionType) (p q : U64) :
    ahead auctionType p q = decide (rank auctionType p < rank auctionType q) := by
  cases auctionType
  · rfl
  · exact decide_eq_decide.mpr Fin.rev_lt_rev.symm

theorem rank_inj (auctionType : AuctionType) {p q : U64} :
    rank auctionType p = rank auctionType q ↔ p = q := by
  cases auctionType
  · exact Iff.rfl
  · exact Fin.rev_inj

theorem rank_rank (auctionType : AuctionType) (p : U64) :
    rank auctionType (rank auctionType p) = p := by
  cases auctionType
  · rfl
  · exact Fin.rev_rev p

def takerKey (auctionType : AuctionType) (o : Order) : U64 := rank auctionType o.price

section Rule

variable (auctionType : AuctionType) (orders : List Order)

theorem levelVolume_eq (p : U64) :
    levelVolume orders p =
      Priority.level (takerKey auctionType) Order.remaining (liveTakers orders)
        (rank auctionType p) :=
  total_congr _ fun _ _ => decide_eq_decide.mpr (rank_inj auctionType).symm

theorem aheadVolume_eq (p : U64) :
    aheadVolume auctionType orders p =
      Priority.front (takerKey auctionType) Order.remaining (liveTakers orders)
        (rank auctionType p) :=
  total_congr _ fun o _ => ahead_eq auctionType o.price p

theorem levelFill_eq (p : U64) :
    levelFill auctionType orders p =
      Priority.reach (takerKey auctionType) Order.remaining (clearingVolume auctionType orders)
        (liveTakers orders) (rank auctionType p) := by
  rw [levelFill, levelVolume_eq auctionType, aheadVolume_eq, Priority.reach]

theorem takerFill_eq (o : Order) :
    takerFill auctionType orders o =
      Priority.award (takerKey auctionType) Order.remaining (clearingVolume auctionType orders)
        (liveTakers orders) o := by
  rw [takerFill, levelFill_eq, levelVolume_eq auctionType, Priority.award, takerKey]

end Rule

section Awards

variable {auctionType : AuctionType} {orders out : List Order} {price volume : U64}

/-- Taker allocation follows price priority, then pro rata: a live taker whose limit
accepts the price gets its floored share of what is left for its level, any other gets
nothing, and nobody gets anything behind a taker that is left partly unfilled. -/
theorem taker_allocation (h : executeAuction orders auctionType = some ((price, volume), out))
    (hpos : 0 < volume) {i : ℕ} {o : Order} (hi : orders[i]? = some o) (ho : o.liveTaker) :
    (∃ o', out[i]? = some o' ∧ o'.filledQuantity.val = o.filledQuantity.val +
      if canFill auctionType price o then
        o.remaining * min (levelVolume orders o.price)
          (volume.val - min volume.val (aheadVolume auctionType orders o.price)) /
            levelVolume orders o.price
      else 0) ∧
    ∀ (j : ℕ) (a a' : Order), orders[j]? = some a → a.liveTaker → ahead auctionType a.price o.price →
      out[j]? = some a' → a'.filledQuantity < a.quantity → out[i]? = some o := by
  have hclears := executeAuction_clears h
  have hvolume := hclears.volume_eq
  have hout := executeAuction_getElem? h hi
  refine ⟨⟨_, hout, ?_⟩, fun j a a' hj ha hahead hj' hshort => ?_⟩
  · rw [settle_filled, if_pos ho]
    cases hcan : canFill auctionType price o
    · rw [takerFill, hclears.levelFill_eq_zero hpos hcan, ProRata.share_zero]
      rfl
    · rw [takerFill, levelFill, ← hvolume, ProRata.share, if_pos rfl]
      congr 4
      omega
  · have hmem : a ∈ liveTakers orders := List.mem_filter.mpr ⟨List.mem_of_getElem? hj, ha⟩
    rw [executeAuction_getElem? h hj, Option.some.injEq] at hj'
    rw [← hj', Fin.lt_def, settle_filled, if_pos ha] at hshort
    have hlt : takerFill auctionType orders a < a.remaining := by
      rw [Order.remaining]
      omega
    rw [takerFill_eq] at hlt
    rw [ahead_eq, decide_eq_true_eq] at hahead
    have hzero := Priority.award_eq_zero_of_short hmem hlt hahead
    rw [hout, settle, if_pos ho, takerFill_eq, hzero, Order.fillBy_zero]

/-- The last taker of the example book gets half of what it wants. -/
theorem taker_allocation_exampleBook :
    ∃ out o', executeAuction exampleBook .bid = some ((105, 800), out) ∧
      out[5]? = some o' ∧ o'.filledQuantity.val = 100 := by
  obtain ⟨out, hsome⟩ := exists_run_exampleBook
  have hlast : exampleBook[5]? = some (sampleOrder .taker .sell 105 200) := rfl
  obtain ⟨⟨o', ho', hfilled⟩, -⟩ := taker_allocation hsome (by decide) hlast (by decide)
  exact ⟨out, o', hsome, ho', hfilled.trans (by decide)⟩

/-- A level that what is left of the volume reaches, but does not cover. -/
def PartlyFilled (auctionType : AuctionType) (orders : List Order) (volume : ℕ) (p : U64) : Prop :=
  0 < volume - aheadVolume auctionType orders p ∧
    volume - aheadVolume auctionType orders p < levelVolume orders p

instance (auctionType : AuctionType) (orders : List Order) (volume : ℕ) :
    DecidablePred (PartlyFilled auctionType orders volume) :=
  fun _ => inferInstanceAs (Decidable (_ ∧ _))

theorem partlyFilled_iff {n : ℕ} {p : U64} :
    PartlyFilled auctionType orders n p ↔
      Priority.Partial (takerKey auctionType) Order.remaining n (liveTakers orders)
        (rank auctionType p) := by
  rw [PartlyFilled, levelVolume_eq auctionType, aheadVolume_eq, Priority.Partial]

theorem PartlyFilled.unique {n : ℕ} {p q : U64} (hp : PartlyFilled auctionType orders n p)
    (hq : PartlyFilled auctionType orders n q) : p = q :=
  (rank_inj auctionType).mp (Priority.Partial.unique (partlyFilled_iff.mp hp) (partlyFilled_iff.mp hq))

theorem settle_filled_of_covered {o : Order} (hmem : o ∈ liveTakers orders)
    (hcover : levelVolume orders o.price ≤
      clearingVolume auctionType orders - aheadVolume auctionType orders o.price) :
    (settle auctionType orders o).filledQuantity = o.quantity := by
  have ho := (List.mem_filter.mp hmem).2
  have hlt := Order.filled_lt_of_live (Order.live_of_liveTaker ho)
  rw [levelVolume_eq auctionType, aheadVolume_eq] at hcover
  rw [Fin.ext_iff, settle_filled, if_pos ho, takerFill_eq, Priority.award_of_full hmem hcover,
    Order.remaining]
  omega

theorem settle_of_spent {o : Order} (hspent : clearingVolume auctionType orders ≤
    aheadVolume auctionType orders o.price) : settle auctionType orders o = o := by
  rw [aheadVolume_eq] at hspent
  unfold settle
  split_ifs
  · rw [takerFill_eq, Priority.award_of_spent hspent, Order.fillBy_zero]
  · rfl

/-- Rounding loss on the taker side is confined to the marginal level: the levels that fit
are filled completely, all others but one are left as they were, and what the takers grow by
together falls short of the volume by less than the number of takers in that one. -/
theorem rounding_loss (h : executeAuction orders auctionType = some ((price, volume), out))
    (hpos : 0 < volume) :
    (∀ (i : ℕ) (o : Order), orders[i]? = some o → o.liveTaker →
      levelVolume orders o.price ≤ volume.val - aheadVolume auctionType orders o.price →
        ∃ o', out[i]? = some o' ∧ o'.filledQuantity = o.quantity) ∧
    (∀ (i : ℕ) (o : Order), orders[i]? = some o → o.liveTaker →
      ¬ levelVolume orders o.price ≤ volume.val - aheadVolume auctionType orders o.price →
        ¬ PartlyFilled auctionType orders volume.val o.price → out[i]? = some o) ∧
    (∀ p q, PartlyFilled auctionType orders volume.val p →
      PartlyFilled auctionType orders volume.val q → p = q) ∧
    growth .taker orders out ≤ volume.val ∧
    (∀ p, PartlyFilled auctionType orders volume.val p →
      volume.val ≤ growth .taker orders out +
        ((liveTakers orders).countP (fun o => o.price = p) - 1)) ∧
    ((∀ p, ¬ PartlyFilled auctionType orders volume.val p) →
      growth .taker orders out = volume.val) := by
  have hclears := executeAuction_clears h
  have hle : volume.val ≤ takerTotal orders :=
    (hclears.le_takerVolume hpos).trans (takerVolume_le _ _ _)
  have hgrowth : growth .taker orders out =
      total (Priority.award (takerKey auctionType) Order.remaining volume.val (liveTakers orders))
        (fun _ => true) (liveTakers orders) := by
    rw [executeAuction_orders h, growth_taker, hclears.volume_eq]
    exact total_congr_weight _ fun o _ _ => takerFill_eq auctionType orders o
  refine ⟨fun i o hi ho hcover => ⟨_, executeAuction_getElem? h hi, ?_⟩,
    fun i o hi _ hcover hpartly => ?_, fun p q hp hq => hp.unique hq, ?_, fun p hp => ?_,
    fun hnone => ?_⟩
  · rw [hclears.volume_eq] at hcover
    exact settle_filled_of_covered (List.mem_filter.mpr ⟨List.mem_of_getElem? hi, ho⟩) hcover
  · have hspent : clearingVolume auctionType orders ≤ aheadVolume auctionType orders o.price := by
      rw [PartlyFilled] at hpartly
      rw [← hclears.volume_eq]
      omega
    rw [executeAuction_getElem? h hi, settle_of_spent hspent]
  · rw [hgrowth]
    exact Priority.total_award_le hpos hle
  · rw [hgrowth, List.countP_eq_length_filter]
    have hlevel : (liveTakers orders).filter (fun o => o.price = p) =
        (liveTakers orders).filter fun o => takerKey auctionType o = rank auctionType p :=
      List.filter_congr fun o _ => decide_eq_decide.mpr (rank_inj auctionType).symm
    rw [hlevel]
    exact Priority.le_total_award (partlyFilled_iff.mp hp)
  · rw [hgrowth]
    refine Priority.total_award_eq hpos hle fun k hk => hnone (rank auctionType k) ?_
    rw [partlyFilled_iff, rank_rank]
    exact hk

/-- Ten units for a level of six, one of five and one that the price leaves out. -/
def levelBook : List Order :=
  [sampleOrder .maker .buy 100 10, sampleOrder .taker .sell 95 6, sampleOrder .taker .sell 98 3,
    sampleOrder .taker .sell 98 2, sampleOrder .taker .sell 99 5]

/-- The first level is filled, the second gets three of its four units, the third nothing. -/
theorem rounding_loss_levelBook :
    ∃ out, executeAuction levelBook .bid = some ((98, 10), out) ∧
      (∃ o, out[1]? = some o ∧ o.filledQuantity = 6) ∧ out[4]? = levelBook[4]? ∧
      PartlyFilled .bid levelBook 10 98 ∧ growth .taker levelBook out = 9 ∧
      10 ≤ growth .taker levelBook out +
        ((liveTakers levelBook).countP (fun o => o.price = 98) - 1) := by
  have hrun : (executeAuction levelBook .bid).map (fun res =>
      (res.1, growth .taker levelBook res.2)) = some ((98, 10), 9) := by decide
  obtain ⟨⟨best, out⟩, hsome, hbest⟩ := Option.map_eq_some_iff.mp hrun
  obtain ⟨rfl, hgrowth⟩ : best = (98, 10) ∧ growth .taker levelBook out = 9 := Prod.mk.inj hbest
  have hpartly : PartlyFilled .bid levelBook 10 98 := by decide
  obtain ⟨hcovered, huntouched, -, -, hge, -⟩ := rounding_loss hsome (by decide)
  exact ⟨out, hsome, hcovered 1 _ rfl (by decide) (by decide),
    huntouched 4 _ rfl (by decide) (by decide) (by decide), hpartly, hgrowth, hge 98 hpartly⟩

end Awards

end ToyDfba
