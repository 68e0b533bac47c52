import ToyDfba.Proofs.Auction
import ToyDfba.Spec.Exact

/-! The auction over words keeps to the auction over exact numbers, on every machine that
holds the words: what it computes is computed there, and where it panics a machine that
holds the words alone meets a fault. -/

namespace ToyDfba

open Fallible

theorem writeBack_exact (orders : List Order) (refs : List OrderRef) :
    Exact.writeBack (orders.map Order.exact) (refs.map OrderRef.exact) =
      (writeBack orders refs).map Order.exact := by
  rw [writeBack, ← Loops.writeAll_map, Exact.writeBack, List.map_map, List.map_map]
  rfl

section Follows

variable {fits : ℕ → Bool} (hfits : Holds (2 ^ 64) fits)

include hfits

theorem follows_addRemaining (v : U64) (r : OrderRef) :
    Follows (HoldsOnly (2 ^ 64) fits) Fin.val (addRemaining v r)
      (Exact.addRemaining fits v.val r.exact) :=
  (follows_sub _ _ _).bind fun remaining _ => follows_add hfits v remaining

theorem follows_volumeOf {c : OrderRef → Prop} [DecidablePred c] {c' : U64 → Bool}
    (hc : ∀ r, c r ↔ c' r.order.price) (refs : List OrderRef) :
    Follows (HoldsOnly (2 ^ 64) fits) Fin.val
      (refs.foldlM (fun v r => if c r then addRemaining v r else some v) 0)
      (Exact.volumeOf fits c' (refs.map OrderRef.exact)) := by
  unfold Exact.volumeOf
  rw [List.foldlM_map]
  refine Follows.foldlM (fun v r _ => ?_) 0
  exact Follows.ite (hc r) (fun _ => follows_addRemaining hfits v r) fun _ => follows_some _ _ v

theorem follows_calculateVolumeAtPrice (makerOrders takerOrders : List OrderRef) (price : U64)
    (auctionType : AuctionType) :
    Follows (HoldsOnly (2 ^ 64) fits) Fin.val
      (calculateVolumeAtPrice makerOrders takerOrders price auctionType)
      (Exact.calculateVolumeAtPrice fits (makerOrders.map OrderRef.exact)
        (takerOrders.map OrderRef.exact) price auctionType) := by
  cases auctionType with
  | bid =>
    refine (follows_volumeOf hfits (fun _ => decide_eq_true_iff.symm) makerOrders).bind fun a _ => ?_
    refine (follows_volumeOf hfits (fun _ => decide_eq_true_iff.symm) takerOrders).bind fun b _ => ?_
    exact follows_some _ Fin.val (min a b)
  | ask =>
    refine (follows_volumeOf hfits (fun _ => decide_eq_true_iff.symm) makerOrders).bind fun a _ => ?_
    refine (follows_volumeOf hfits (fun _ => decide_eq_true_iff.symm) takerOrders).bind fun b _ => ?_
    exact follows_some _ Fin.val (min a b)

theorem follows_fillOrder (volume outOf : U64) (r : OrderRef) :
    Follows (HoldsOnly (2 ^ 64) fits) OrderRef.exact (fillOrder volume outOf r)
      (Exact.fillOrder fits volume.val outOf.val r.exact) := by
  refine (follows_sub _ _ _).bind fun available _ => ?_
  refine (follows_mul hfits available volume).bind fun product _ => ?_
  refine (follows_div _ product outOf).bind fun fillAmount _ => ?_
  refine (follows_add hfits r.order.filledQuantity fillAmount).bind fun filled _ => ?_
  exact follows_some _ OrderRef.exact { r with order := { r.order with filledQuantity := filled } }

theorem follows_fillLevels (groups : List (List ℕ)) (takerOrders : List OrderRef)
    (remainingVolume : U64) :
    Follows (HoldsOnly (2 ^ 64) fits) (Prod.map (List.map OrderRef.exact) Fin.val)
      (fillLevels groups (takerOrders, remainingVolume))
      (Exact.fillLevels fits groups (takerOrders.map OrderRef.exact, remainingVolume.val)) := by
  induction groups generalizing takerOrders remainingVolume with
  | nil => exact follows_some _ _ (takerOrders, remainingVolume)
  | cons group groups ih =>
    rw [fillLevels, Exact.fillLevels]
    refine Follows.ite Fin.ext_iff (fun _ => ?_) fun _ => ?_
    · exact follows_some _ _ (takerOrders, remainingVolume)
    · have hlevel : Follows (HoldsOnly (2 ^ 64) fits) Fin.val
          (group.foldlM (fun v idx => do
            let r ← takerOrders[idx]?
            addRemaining v r) 0)
          (group.foldlM (fun v idx => do
            let r ← get (takerOrders.map OrderRef.exact) idx
            Exact.addRemaining fits v r) (Fin.val (0 : U64))) :=
        Follows.foldlM (fun v idx _ => (follows_get _ _ takerOrders idx).bind fun r _ =>
          follows_addRemaining hfits v r) 0
      refine hlevel.bind fun levelVolume _ => ?_
      have hfill : Follows (HoldsOnly (2 ^ 64) fits) (List.map OrderRef.exact)
          (group.foldlM (Loops.updateAt (fillOrder (min levelVolume remainingVolume) levelVolume))
            takerOrders)
          (group.foldlM (updateAt (Exact.fillOrder fits (min levelVolume.val remainingVolume.val)
            levelVolume.val)) (takerOrders.map OrderRef.exact)) :=
        Follows.foldlM (fun takerOrders idx _ =>
          Follows.updateAt (fun r => follows_fillOrder hfits _ _ r) takerOrders idx) takerOrders
      refine hfill.bind fun takerOrders _ => ?_
      refine (follows_sub _ remainingVolume (min levelVolume remainingVolume)).bind fun left _ => ?_
      exact ih takerOrders left

theorem follows_executeTradesAtPrice (makerOrders takerOrders : List OrderRef) (price : U64)
    (auctionType : AuctionType) :
    Follows (HoldsOnly (2 ^ 64) fits) (Prod.map (List.map OrderRef.exact) (List.map OrderRef.exact))
      (executeTradesAtPrice makerOrders takerOrders price auctionType)
      (Exact.executeTradesAtPrice fits (makerOrders.map OrderRef.exact)
        (takerOrders.map OrderRef.exact) (priceGroups takerOrders price auctionType) price
        auctionType) := by
  have hc : ∀ r : OrderRef, isEligible auctionType price r.order ↔
      Exact.isEligible auctionType price r.order.price := by
    intro r
    cases auctionType <;> rfl
  refine (follows_calculateVolumeAtPrice hfits makerOrders takerOrders price auctionType).bind
    fun totalVolume _ => ?_
  refine (follows_fillLevels hfits _ takerOrders totalVolume).bind fun st _ => ?_
  obtain ⟨takerOrders, remainingVolume⟩ := st
  refine (follows_volumeOf hfits hc makerOrders).bind fun outOf _ => ?_
  refine Follows.ite Iff.rfl (fun _ => ?_) fun _ => ?_
  · refine (follows_sub _ totalVolume remainingVolume).bind fun traded _ => ?_
    refine (follows_sub _ totalVolume traded).bind fun makerFillVolume _ => ?_
    have hfill : ∀ r ∈ makerOrders, Follows (HoldsOnly (2 ^ 64) fits) OrderRef.exact
        (if isEligible auctionType price r.order then fillOrder makerFillVolume outOf r else some r)
        (if Exact.isEligible auctionType price r.order.price then
          Exact.fillOrder fits makerFillVolume.val outOf.val r.exact
        else .ok r.exact) :=
      fun r _ => Follows.ite (hc r) (fun _ => follows_fillOrder hfits makerFillVolume outOf r)
        fun _ => follows_some _ _ r
    rw [List.mapM_map]
    exact (Follows.mapM hfill).bind fun makerOrders _ => follows_some _ _ (makerOrders, takerOrders)
  · exact follows_some _ _ (makerOrders, takerOrders)

theorem follows_searchStep (makerOrders takerOrders : List OrderRef) (auctionType : AuctionType)
    (best : U64 × U64) (price : U64) :
    Follows (HoldsOnly (2 ^ 64) fits) (Prod.map id Fin.val)
      (searchStep makerOrders takerOrders auctionType best price)
      (Exact.searchStep fits (makerOrders.map OrderRef.exact) (takerOrders.map OrderRef.exact)
        auctionType (best.1, best.2.val) price) := by
  refine (follows_calculateVolumeAtPrice hfits makerOrders takerOrders price auctionType).bind
    fun volume _ => ?_
  have hbetter : (if volume.val > best.2.val then (price, volume.val) else (best.1, best.2.val)) =
      Prod.map id Fin.val (if volume > best.2 then (price, volume) else best) :=
    (apply_ite (Prod.map id Fin.val) (volume > best.2) (price, volume) best).symm
  rw [hbetter]
  exact follows_some _ _ _

theorem follows_executeAuction (orders : List Order) (auctionType : AuctionType) :
    Follows (HoldsOnly (2 ^ 64) fits) (Prod.map (Prod.map id Fin.val) (List.map Order.exact))
      (executeAuction orders auctionType) (Exact.executeAuction fits orders auctionType) := by
  refine Follows.ite Iff.rfl (fun _ => ?_) fun _ => ?_
  · exact follows_some _ _ ((0, 0), orders)
  · -- nothing is computed before the search, so both sides look at the same prices
    set sides := sortOrders (splitOrders orders).1 (splitOrders orders).2 auctionType
    have hsearch : Follows (HoldsOnly (2 ^ 64) fits) (Prod.map id Fin.val)
        ((allPrices sides.1 sides.2).foldlM (searchStep sides.1 sides.2 auctionType) (0, 0))
        ((allPrices sides.1 sides.2).foldlM (Exact.searchStep fits (sides.1.map OrderRef.exact)
          (sides.2.map OrderRef.exact) auctionType) (0, 0)) :=
      Follows.foldlM (fun best price _ => follows_searchStep hfits _ _ _ best price) (0, 0)
    refine hsearch.bind fun best _ => ?_
    refine Follows.ite Iff.rfl (fun _ => ?_) fun _ => follows_some _ _ (best, orders)
    refine (follows_executeTradesAtPrice hfits _ _ best.1 auctionType).bind fun st _ => ?_
    obtain ⟨makerOrders, takerOrders⟩ := st
    change Follows _ _ _ (.ok (Prod.map id Fin.val best,
      Exact.writeBack (Exact.writeBack (orders.map Order.exact) (makerOrders.map OrderRef.exact))
        (takerOrders.map OrderRef.exact)))
    rw [writeBack_exact, writeBack_exact]
    exact follows_some _ _ (best, writeBack (writeBack orders makerOrders) takerOrders)

end Follows

end ToyDfba
