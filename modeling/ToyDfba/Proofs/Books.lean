import ToyDfba.Proofs.Auction

/-! Books that the auction cannot tell apart. What it computes are totals of the live
orders of each type over sets of prices, and besides the size of the single takers,
which decides only whether a product overflows, nothing else enters. -/

namespace ToyDfba

open Totals

/-- The live orders of each type want the same together over every set of prices. -/
structure SameBook (orders orders' : List Order) : Prop where
  makers : ∀ c : U64 → Bool, total Order.remaining (fun o => c o.price) (liveMakers orders) =
    total Order.remaining (fun o => c o.price) (liveMakers orders')
  takers : ∀ c : U64 → Bool, total Order.remaining (fun o => c o.price) (liveTakers orders) =
    total Order.remaining (fun o => c o.price) (liveTakers orders')

/-- Every live taker finds one at its price that wants no less. -/
def Dominates (orders orders' : List Order) : Prop :=
  ∀ a ∈ liveTakers orders', ∃ b ∈ liveTakers orders, a.price = b.price ∧ a.remaining ≤ b.remaining

theorem Dominates.trans {orders orders' orders'' : List Order} (h : Dominates orders orders')
    (h' : Dominates orders' orders'') : Dominates orders orders'' := by
  intro a ha
  obtain ⟨b, hb, hprice, hle⟩ := h' a ha
  obtain ⟨b', hb', hprice', hle'⟩ := h b hb
  exact ⟨b', hb', hprice.trans hprice', hle.trans hle'⟩

theorem liveMakers_eq_nil_iff {orders : List Order} :
    liveMakers orders = [] ↔ makerTotal orders = 0 :=
  (total_true_eq_zero_iff _ fun _ ho =>
    Order.remaining_pos (Order.live_of_liveMaker (List.mem_filter.mp ho).2)).symm

theorem liveTakers_eq_nil_iff {orders : List Order} :
    liveTakers orders = [] ↔ takerTotal orders = 0 :=
  (total_true_eq_zero_iff _ fun _ ho =>
    Order.remaining_pos (Order.live_of_liveTaker (List.mem_filter.mp ho).2)).symm

section SameBook

variable {auctionType : AuctionType} {orders orders' : List Order} (h : SameBook orders orders')

include h

theorem SameBook.symm : SameBook orders' orders :=
  ⟨fun c => (h.makers c).symm, fun c => (h.takers c).symm⟩

theorem SameBook.trans {orders'' : List Order} (h' : SameBook orders' orders'') :
    SameBook orders orders'' :=
  ⟨fun c => (h.makers c).trans (h'.makers c), fun c => (h.takers c).trans (h'.takers c)⟩

theorem SameBook.matchedVolume_eq (p : U64) :
    matchedVolume auctionType orders p = matchedVolume auctionType orders' p := by
  cases auctionType with
  | bid => exact congrArg₂ min (h.makers fun q => p ≤ q) (h.takers fun q => q ≤ p)
  | ask => exact congrArg₂ min (h.takers fun q => p ≤ q) (h.makers fun q => q ≤ p)

theorem SameBook.clears {price : U64} {volume : ℕ} (hc : Clears auctionType orders price volume) :
    Clears auctionType orders' price volume := by
  have hfun : matchedVolume auctionType orders = matchedVolume auctionType orders' :=
    funext fun p => h.matchedVolume_eq p
  obtain ⟨hgreatest, hleast, hidle⟩ := hc
  rw [hfun] at hgreatest hleast
  exact ⟨hgreatest, hleast, hidle⟩

theorem SameBook.clearingVolume_eq :
    clearingVolume auctionType orders = clearingVolume auctionType orders' := by
  obtain ⟨price, volume, hc⟩ := exists_clears auctionType orders
  rw [← hc.volume_eq, ← (h.clears hc).volume_eq]

theorem SameBook.levelVolume_eq (p : U64) : levelVolume orders p = levelVolume orders' p :=
  h.takers fun q => q = p

theorem SameBook.aheadVolume_eq (p : U64) :
    aheadVolume auctionType orders p = aheadVolume auctionType orders' p :=
  h.takers fun q => ahead auctionType q p

theorem SameBook.levelFill_eq (p : U64) :
    levelFill auctionType orders p = levelFill auctionType orders' p := by
  rw [levelFill, levelFill, h.levelVolume_eq, h.clearingVolume_eq, h.aheadVolume_eq]

theorem SameBook.takerFill_eq (o : Order) :
    takerFill auctionType orders o = takerFill auctionType orders' o := by
  rw [takerFill, takerFill, h.levelFill_eq, h.levelVolume_eq]

theorem SameBook.settle_eq (o : Order) :
    settle auctionType orders o = settle auctionType orders' o := by
  rw [settle, settle, h.takerFill_eq]

theorem SameBook.jams (hdom : Dominates orders orders') (hj : Jams auctionType orders') :
    Jams auctionType orders := by
  have hmakers : makerTotal orders = makerTotal orders' := h.makers fun _ => true
  have htakers : takerTotal orders = takerTotal orders' := h.takers fun _ => true
  obtain ⟨hm, ht, hover⟩ := hj
  rw [ne_eq, liveMakers_eq_nil_iff, ← hmakers, ← liveMakers_eq_nil_iff] at hm
  rw [ne_eq, liveTakers_eq_nil_iff, ← htakers, ← liveTakers_eq_nil_iff] at ht
  refine ⟨hm, ht, ?_⟩
  rcases hover with hover | hover | ⟨a, ha, hover⟩
  · exact Or.inl (hover.trans hmakers.ge)
  · exact Or.inr (Or.inl (hover.trans htakers.ge))
  · obtain ⟨b, hb, hprice, hle⟩ := hdom a ha
    rw [hprice, ← h.levelFill_eq] at hover
    exact Or.inr (Or.inr ⟨b, hb, hover.trans (Nat.mul_le_mul_right _ hle)⟩)

/-- The auction goes through on the other book as well, at the same price and volume,
and settles every order as on this one. -/
theorem SameBook.executeAuction_eq (hdom : Dominates orders orders') {best : U64 × U64}
    {out : List Order} (hrun : executeAuction orders auctionType = some (best, out)) :
    executeAuction orders' auctionType = some (best, orders'.map (settle auctionType orders)) := by
  obtain ⟨hnojam, hclears, -⟩ := executeAuction_eq_some_iff.mp hrun
  refine executeAuction_eq_some_iff.mpr
    ⟨fun hj => hnojam (h.jams hdom hj), h.clears hclears, ?_⟩
  exact List.map_congr_left fun o _ => h.settle_eq o

end SameBook

theorem sameBook_of_perm {orders orders' : List Order} (h : orders.Perm orders') :
    SameBook orders orders' :=
  ⟨fun _ => total_perm _ (h.filter _), fun _ => total_perm _ (h.filter _)⟩

theorem dominates_of_perm {orders orders' : List Order} (h : orders.Perm orders') :
    Dominates orders orders' :=
  fun a ha => ⟨a, (h.filter _).mem_iff.mpr ha, rfl, le_rfl⟩

end ToyDfba
