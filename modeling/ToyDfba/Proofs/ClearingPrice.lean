import ToyDfba.Proofs.Auction

/-! The clearing price is optimal over all prices, not only over those in the book. -/

namespace ToyDfba

/-- The returned volume is the most that any price matches, and the returned price the
least one that matches it. When no price matches anything, the result is zero and no
order changes. -/
theorem executeAuction_optimal {auctionType : AuctionType} {orders out : List Order}
    {price volume : U64} (h : executeAuction orders auctionType = some ((price, volume), out)) :
    IsGreatest (Set.range (matchedVolume auctionType orders)) volume.val ∧
      (0 < volume → IsLeast {p | matchedVolume auctionType orders p = volume.val} price) ∧
      ((∀ p, matchedVolume auctionType orders p = 0) → (price, volume) = (0, 0) ∧ out = orders) := by
  obtain ⟨-, hclears, hout⟩ := executeAuction_eq_some_iff.mp h
  refine ⟨hclears.greatest, hclears.least, fun hzero => ?_⟩
  obtain ⟨p, hp⟩ := hclears.greatest.1
  have hvolume : volume.val = 0 := hp ▸ hzero p
  have hidle : clearingVolume auctionType orders = 0 := hclears.volume_eq ▸ hvolume
  refine ⟨Prod.ext (hclears.idle hvolume) (Fin.ext hvolume), ?_⟩
  rw [hout, map_settle_of_idle hidle]

def sampleOrder (orderType : OrderType) (side : Side) (price quantity : U64) : Order :=
  { id := 0, owner := 1, orderType := orderType, side := side, price := price,
    quantity := quantity, timestamp := 0, isActive := true, filledQuantity := 0 }

/-- The book of the README's worked example, where 105 matches more than the 100 it names. -/
def exampleBook : List Order :=
  [sampleOrder .maker .buy 110 500, sampleOrder .maker .buy 105 300, sampleOrder .maker .buy 100 200,
    sampleOrder .taker .sell 95 400, sampleOrder .taker .sell 100 300, sampleOrder .taker .sell 105 200]

theorem exists_run_of_best {auctionType : AuctionType} {orders : List Order} {best : U64 × U64}
    (h : (executeAuction orders auctionType).map Prod.fst = some best) :
    ∃ out, executeAuction orders auctionType = some (best, out) := by
  obtain ⟨⟨best', out⟩, hsome, hbest⟩ := Option.map_eq_some_iff.mp h
  obtain rfl : best' = best := hbest
  exact ⟨out, hsome⟩

theorem exists_run_exampleBook : ∃ out, executeAuction exampleBook .bid = some ((105, 800), out) :=
  exists_run_of_best (by decide)

theorem executeAuction_optimal_exampleBook :
    ∃ out, executeAuction exampleBook .bid = some ((105, 800), out) ∧
      IsGreatest (Set.range (matchedVolume .bid exampleBook)) 800 ∧
      IsLeast {p | matchedVolume .bid exampleBook p = 800} 105 := by
  obtain ⟨out, hsome⟩ := exists_run_exampleBook
  obtain ⟨hgreatest, hleast, -⟩ := executeAuction_optimal hsome
  exact ⟨out, hsome, hgreatest, hleast (by decide)⟩

end ToyDfba
