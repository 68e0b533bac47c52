import ToyDfba.Lib.Positions
import ToyDfba.Proofs.ArrivalOrder
import ToyDfba.Proofs.ClearingPrice

/-! Orders that may not trade at the clearing price. Taking some of them away lowers the
volume at other prices only, so the price stays the least one that trades the most. -/

namespace ToyDfba

open Positions Totals

/-- An order that takes no part in a trade at a price. -/
def Bystander (auctionType : AuctionType) (price : U64) (o : Order) : Prop :=
  o.isActive = false ∨ o.quantity ≤ o.filledQuantity ∨
    match o.orderType with
    | .maker => isEligible auctionType price o = false
    | .taker => canFill auctionType price o = false

section Removed

variable {auctionType : AuctionType} {price : U64} {kept removed : List Order}

theorem Bystander.of_live {o : Order} (h : Bystander auctionType price o) (ho : o.live) :
    match o.orderType with
    | .maker => isEligible auctionType price o = false
    | .taker => canFill auctionType price o = false := by
  simp only [Order.live, Bool.and_eq_true, decide_eq_true_eq] at ho
  obtain ⟨hactive, hlt⟩ := ho
  rcases h with hinactive | hfilled | hprice
  · rw [hactive] at hinactive
    cases hinactive
  · exact absurd hlt (not_lt.mpr hfilled)
  · exact hprice

theorem Bystander.not_isEligible {o : Order} (h : Bystander auctionType price o) (ho : o.liveMaker) :
    isEligible auctionType price o = false := by
  have hprice := h.of_live (Order.live_of_liveMaker ho)
  rwa [orderType_of_liveMaker ho] at hprice

theorem Bystander.not_canFill {o : Order} (h : Bystander auctionType price o) (ho : o.liveTaker) :
    canFill auctionType price o = false := by
  have hprice := h.of_live (Order.live_of_liveTaker ho)
  rwa [orderType_of_liveTaker ho] at hprice

theorem total_liveMakers_append (c : Order → Bool) :
    total Order.remaining c (liveMakers (kept ++ removed)) =
      total Order.remaining c (liveMakers kept) + total Order.remaining c (liveMakers removed) := by
  rw [liveMakers, List.filter_append, total_append, liveMakers, liveMakers]

theorem total_liveTakers_append (c : Order → Bool) :
    total Order.remaining c (liveTakers (kept ++ removed)) =
      total Order.remaining c (liveTakers kept) + total Order.remaining c (liveTakers removed) := by
  rw [liveTakers, List.filter_append, total_append, liveTakers, liveTakers]

theorem matchedVolume_le_append (p : U64) :
    matchedVolume auctionType kept p ≤ matchedVolume auctionType (kept ++ removed) p := by
  rw [matchedVolume_eq, matchedVolume_eq, makerVolume, makerVolume, takerVolume, takerVolume,
    total_liveMakers_append, total_liveTakers_append]
  exact min_le_min (Nat.le_add_right _ _) (Nat.le_add_right _ _)

variable (hremoved : ∀ o ∈ removed, Bystander auctionType price o)

include hremoved

theorem total_takers_kept {c : Order → Bool} (hc : ∀ o, c o → canFill auctionType price o) :
    total Order.remaining c (liveTakers (kept ++ removed)) =
      total Order.remaining c (liveTakers kept) := by
  rw [total_liveTakers_append, Nat.add_eq_left, total_eq_zero_iff]
  intro o ho hco
  obtain ⟨hmem, hlive⟩ := List.mem_filter.mp ho
  exact absurd (hc o hco) (Bool.eq_false_iff.mp ((hremoved o hmem).not_canFill hlive))

theorem total_makers_kept :
    makerVolume auctionType (kept ++ removed) price = makerVolume auctionType kept price := by
  rw [makerVolume, total_liveMakers_append, makerVolume, Nat.add_eq_left, total_eq_zero_iff]
  intro o ho hco
  obtain ⟨hmem, hlive⟩ := List.mem_filter.mp ho
  exact absurd hco (Bool.eq_false_iff.mp ((hremoved o hmem).not_isEligible hlive))

theorem matchedVolume_kept :
    matchedVolume auctionType kept price = matchedVolume auctionType (kept ++ removed) price := by
  rw [matchedVolume_eq, matchedVolume_eq, total_makers_kept hremoved, takerVolume, takerVolume,
    total_takers_kept hremoved fun _ ho => ho]

/-- The clearing does not move: elsewhere there is less to match than before, and at the
price as much. -/
theorem clears_kept {volume : ℕ} (hpos : 0 < volume)
    (h : Clears auctionType (kept ++ removed) price volume) : Clears auctionType kept price volume := by
  have hle : ∀ p, matchedVolume auctionType kept p ≤ matchedVolume auctionType (kept ++ removed) p :=
    matchedVolume_le_append
  have hmatched : matchedVolume auctionType kept price = volume := by
    rw [matchedVolume_kept hremoved]
    exact (h.least hpos).1
  refine ⟨⟨⟨price, hmatched⟩, ?_⟩, fun _ => ⟨hmatched, fun p hp => ?_⟩, fun h0 => absurd h0 hpos.ne'⟩
  · intro v hv
    obtain ⟨p, rfl⟩ := hv
    exact (hle p).trans (h.greatest.2 ⟨p, rfl⟩)
  · have hp : matchedVolume auctionType kept p = volume := hp
    exact (h.least hpos).2 (le_antisymm (h.greatest.2 ⟨p, rfl⟩) (hp ▸ hle p))

variable {volume : ℕ} (hpos : 0 < volume)
  (hclears : Clears auctionType (kept ++ removed) price volume)

include hpos hclears

/-- The volume leaves nothing for the levels that reject the price, and the others find
the same takers as before. -/
theorem levelFill_kept (o : Order) :
    levelFill auctionType kept o.price = levelFill auctionType (kept ++ removed) o.price ∧
      takerFill auctionType kept o = takerFill auctionType (kept ++ removed) o := by
  have hkept := clears_kept hremoved hpos hclears
  cases hcan : canFill auctionType price o
  · rw [takerFill, takerFill, hkept.levelFill_eq_zero hpos hcan, hclears.levelFill_eq_zero hpos hcan,
      ProRata.share_zero, ProRata.share_zero]
    exact ⟨rfl, rfl⟩
  · have hlevel : levelVolume (kept ++ removed) o.price = levelVolume kept o.price :=
      total_takers_kept hremoved fun a ha => (canFill_congr (of_decide_eq_true ha)).trans hcan
    have hahead : aheadVolume auctionType (kept ++ removed) o.price =
        aheadVolume auctionType kept o.price :=
      total_takers_kept hremoved fun a ha => canFill_of_ahead hcan ha
    rw [takerFill, takerFill, levelFill, levelFill, hlevel, hahead, ← hkept.volume_eq,
      ← hclears.volume_eq]
    exact ⟨rfl, rfl⟩

theorem settle_kept (o : Order) :
    settle auctionType kept o = settle auctionType (kept ++ removed) o := by
  rw [settle, settle, (levelFill_kept hremoved hpos hclears o).2]

theorem jams_of_kept (hj : Jams auctionType kept) : Jams auctionType (kept ++ removed) := by
  obtain ⟨hm, ht, hover⟩ := hj
  refine ⟨fun he => hm ?_, fun he => ht ?_, ?_⟩
  · exact (List.append_eq_nil_iff.mp ((List.filter_append ..).symm.trans he)).1
  · exact (List.append_eq_nil_iff.mp ((List.filter_append ..).symm.trans he)).1
  · rw [total_liveMakers_append, total_liveTakers_append]
    rcases hover with hover | hover | ⟨o, ho, hover⟩
    · exact Or.inl (hover.trans (Nat.le_add_right _ _))
    · exact Or.inr (Or.inl (hover.trans (Nat.le_add_right _ _)))
    · rw [(levelFill_kept hremoved hpos hclears o).1] at hover
      refine Or.inr (Or.inr ⟨o, ?_, hover⟩)
      obtain ⟨hmem, hlive⟩ := List.mem_filter.mp ho
      exact List.mem_filter.mpr ⟨List.mem_append_left removed hmem, hlive⟩

end Removed

/-- Out-of-the-money orders cannot move the auction. Without any of the orders that may
not trade at the clearing price, or at all, it returns the same price and volume and
leaves every other order the same. -/
theorem bystanders_irrelevant {auctionType : AuctionType} {orders out : List Order}
    {price volume : U64} (h : executeAuction orders auctionType = some ((price, volume), out))
    (hpos : 0 < volume) {keep : ℕ → Bool}
    (hremoved : ∀ (i : ℕ) (o : Order), orders[i]? = some o → keep i = false →
      Bystander auctionType price o) :
    executeAuction (keepAt keep orders) auctionType = some ((price, volume), keepAt keep out) := by
  have hperm := keepAt_append_perm keep orders
  have hgone : ∀ o ∈ keepAt (fun i => !keep i) orders, Bystander auctionType price o := by
    intro o ho
    obtain ⟨i, hkeep, hi⟩ := mem_keepAt.mp ho
    exact hremoved i o hi (by simpa using hkeep)
  obtain ⟨hnojam, hclears, -⟩ := executeAuction_eq_some_iff.mp (executeAuction_perm hperm.symm h)
  refine executeAuction_eq_some_iff.mpr
    ⟨fun hj => hnojam (jams_of_kept hgone hpos hclears hj), clears_kept hgone hpos hclears, ?_⟩
  rw [executeAuction_orders h, keepAt_map]
  refine List.map_congr_left fun o _ => ?_
  rw [settle_kept hgone hpos hclears, (sameBook_of_perm hperm).settle_eq]

/-- In the example book the bid at 100 is out of the money. -/
theorem bystanders_irrelevant_exampleBook :
    ∃ out, executeAuction exampleBook .bid = some ((105, 800), out) ∧
      executeAuction (keepAt (fun i => i ≠ 2) exampleBook) .bid =
        some ((105, 800), keepAt (fun i => i ≠ 2) out) := by
  obtain ⟨out, hsome⟩ := exists_run_exampleBook
  refine ⟨out, hsome, bystanders_irrelevant hsome (by decide) fun i o hi hgone => ?_⟩
  obtain rfl : i = 2 := by simpa using hgone
  obtain rfl : sampleOrder .maker .buy 100 200 = o := Option.some.inj hi
  exact Or.inr (Or.inr rfl)

end ToyDfba
