import ToyDfba.Proofs.ClearingPrice
import ToyDfba.Proofs.Exact

/-! The books on which the auction panics. A run over exact numbers meets no fault but an
overflow: what is subtracted is never the larger number, no divisor is zero and every index
is in range. So a panic of the auction over words is the overflow of a sum or a product,
and the books that jam are those where one exceeds a word. -/

namespace ToyDfba

open Fallible Totals

section Ends

variable {fits : ℕ → Bool}

theorem ends_addRemaining {r : Exact.OrderRef} (hr : r.order.filledQuantity ≤ r.order.quantity)
    (v : ℕ) :
    Ends (Overflow fits) (fun w => w = v + (r.order.quantity - r.order.filledQuantity))
      (Exact.addRemaining fits v r) := by
  refine (ends_sub hr).bind fun remaining hremaining => ?_
  rw [← hremaining]
  exact ends_add fits v remaining

theorem ends_volumeOf {refs : List Exact.OrderRef}
    (h : ∀ r ∈ refs, r.order.filledQuantity ≤ r.order.quantity) (c : U64 → Bool) :
    Ends (Overflow fits) (fun _ => True) (Exact.volumeOf fits c refs) := by
  refine Ends.foldlM trivial fun v _ r hr => ?_
  exact Ends.ite (fun _ => (ends_addRemaining (h r hr) v).mono fun _ _ => trivial) fun _ => trivial

theorem ends_calculateVolumeAtPrice {makerOrders takerOrders : List Exact.OrderRef}
    (hm : ∀ r ∈ makerOrders, r.order.filledQuantity ≤ r.order.quantity)
    (ht : ∀ r ∈ takerOrders, r.order.filledQuantity ≤ r.order.quantity) (price : U64)
    (auctionType : AuctionType) :
    Ends (Overflow fits) (fun _ => True)
      (Exact.calculateVolumeAtPrice fits makerOrders takerOrders price auctionType) := by
  cases auctionType with
  | bid => exact (ends_volumeOf hm _).bind fun _ _ => (ends_volumeOf ht _).bind fun _ _ => trivial
  | ask => exact (ends_volumeOf hm _).bind fun _ _ => (ends_volumeOf ht _).bind fun _ _ => trivial

theorem le_quantity_of_live {refs : List OrderRef} (h : ∀ r ∈ refs, r.order.live) :
    ∀ r ∈ refs.map OrderRef.exact, r.order.filledQuantity ≤ r.order.quantity :=
  List.forall_mem_map.mpr fun r hr => (Order.filled_lt_of_live (h r hr)).le

theorem ends_fillOrder {r : Exact.OrderRef} (hr : r.order.filledQuantity ≤ r.order.quantity)
    (volume : ℕ) {outOf : ℕ} (hpos : 0 < outOf) :
    Ends (Overflow fits) (fun _ => True) (Exact.fillOrder fits volume outOf r) := by
  refine (ends_sub hr).bind fun available _ => ?_
  refine (ends_mul fits available volume).bind fun product _ => ?_
  refine (ends_div hpos).bind fun fillAmount _ => ?_
  exact (ends_add fits _ fillAmount).bind fun filled _ => trivial

def OpenAt (takerOrders : List Exact.OrderRef) (i : ℕ) : Prop :=
  ∃ r, takerOrders[i]? = some r ∧ r.order.filledQuantity < r.order.quantity

/-- The sum over a level counts at least one unit for each of its orders. -/
theorem ends_levelVolume {takerOrders : List Exact.OrderRef} {group : List ℕ}
    (hopen : ∀ i ∈ group, OpenAt takerOrders i) (v : ℕ) :
    Ends (Overflow fits) (fun w => v + group.length ≤ w)
      (group.foldlM (fun v idx => do
        let r ← get takerOrders idx
        Exact.addRemaining fits v r) v) := by
  induction group generalizing v with
  | nil => exact le_rfl
  | cons i group ih =>
    obtain ⟨r, hr, hlt⟩ := hopen i (by simp)
    rw [List.foldlM_cons]
    have hstep : Ends (Overflow fits) (fun w => v + 1 ≤ w) (do
        let r ← get takerOrders i
        Exact.addRemaining fits v r) := by
      refine (ends_get hr).bind fun r' he => ?_
      subst he
      exact (ends_addRemaining hlt.le v).mono fun w hw => by omega
    refine hstep.bind fun w hw => ?_
    refine (ih (fun j hj => hopen j (List.mem_cons_of_mem i hj)) w).mono fun w' hw' => ?_
    rw [List.length_cons]
    omega

/-- The fills of a level leave every other position as it is. -/
theorem ends_fillGroup {takerOrders : List Exact.OrderRef} {group : List ℕ} (hnd : group.Nodup)
    (hopen : ∀ i ∈ group, OpenAt takerOrders i) (volume : ℕ) {outOf : ℕ} (hpos : 0 < outOf) :
    Ends (Overflow fits) (fun filled => ∀ j, j ∉ group → filled[j]? = takerOrders[j]?)
      (group.foldlM (updateAt (Exact.fillOrder fits volume outOf)) takerOrders) := by
  induction group generalizing takerOrders with
  | nil => exact fun _ _ => rfl
  | cons i group ih =>
    obtain ⟨hni, hnd⟩ := List.nodup_cons.mp hnd
    obtain ⟨r, hr, hlt⟩ := hopen i (by simp)
    rw [List.foldlM_cons]
    refine (Ends.updateAt hr (ends_fillOrder hlt.le volume hpos)).bind fun filled hfilled => ?_
    have hstill : ∀ j ∈ group, OpenAt filled j := by
      intro j hj
      have hne : j ≠ i := fun he => hni (he ▸ hj)
      rw [OpenAt, hfilled j hne]
      exact hopen j (List.mem_cons_of_mem i hj)
    refine (ih hnd hstill).mono fun filled' hfilled' j hj => ?_
    rw [List.mem_cons, not_or] at hj
    rw [hfilled' j hj.2, hfilled j hj.1]

/-- The level loop hands out no more than it was given. No position is in two groups, so
the orders of a level are still open when the loop comes to it. -/
theorem ends_fillLevels {groups : List (List ℕ)} (hnd : groups.flatten.Nodup)
    (hne : ∀ group ∈ groups, group ≠ []) {takerOrders : List Exact.OrderRef}
    (hopen : ∀ i ∈ groups.flatten, OpenAt takerOrders i) (remainingVolume : ℕ) :
    Ends (Overflow fits) (fun st => st.2 ≤ remainingVolume)
      (Exact.fillLevels fits groups (takerOrders, remainingVolume)) := by
  induction groups generalizing takerOrders remainingVolume with
  | nil => exact le_rfl
  | cons group groups ih =>
    rw [List.flatten_cons, List.nodup_append'] at hnd
    obtain ⟨hgroup, hgroups, hdisjoint⟩ := hnd
    have hlater : ∀ i ∈ group, OpenAt takerOrders i :=
      fun i hi => hopen i (by rw [List.flatten_cons]; exact List.mem_append_left _ hi)
    rw [Exact.fillLevels]
    refine Ends.ite (fun _ => le_rfl) fun _ => ?_
    refine (ends_levelVolume hlater 0).bind fun levelVolume hlevel => ?_
    have hpos : 0 < levelVolume := by
      have := List.length_pos_of_ne_nil (hne group (by simp))
      omega
    refine (ends_fillGroup hgroup hlater _ hpos).bind fun filled hfilled => ?_
    refine (ends_sub (min_le_right _ _)).bind fun left hleft => ?_
    refine (ih hgroups (fun g hg => hne g (List.mem_cons_of_mem _ hg)) (fun i hi => ?_) left).mono
      fun st hst => hst.trans (hleft ▸ Nat.sub_le _ _)
    rw [OpenAt, hfilled i fun hmem => hdisjoint hmem hi]
    exact hopen i (by rw [List.flatten_cons]; exact List.mem_append_right _ hi)

theorem ends_executeTradesAtPrice {makerOrders takerOrders : List OrderRef}
    {auctionType : AuctionType} (hm : ∀ r ∈ makerOrders, r.order.live)
    (ht : ∀ r ∈ takerOrders, r.order.live) (hsorted : SortedTakers auctionType takerOrders)
    (price : U64) :
    Ends (Overflow fits) (fun _ => True)
      (Exact.executeTradesAtPrice fits (makerOrders.map OrderRef.exact)
        (takerOrders.map OrderRef.exact) (priceGroups takerOrders price auctionType) price
        auctionType) := by
  have hm := le_quantity_of_live hm
  have ht' := le_quantity_of_live ht
  obtain ⟨hnd, hne, hlt⟩ := priceGroups_positions auctionType price hsorted
  have hopen : ∀ i ∈ (priceGroups takerOrders price auctionType).flatten,
      OpenAt (takerOrders.map OrderRef.exact) i := by
    intro i hi
    have hr := List.getElem?_eq_getElem (hlt i hi)
    refine ⟨_, by rw [List.getElem?_map, hr]; rfl, ?_⟩
    exact Order.filled_lt_of_live (ht _ (List.mem_of_getElem? hr))
  refine (ends_calculateVolumeAtPrice hm ht' price auctionType).bind fun totalVolume _ => ?_
  refine (ends_fillLevels hnd hne hopen totalVolume).bind fun st hst => ?_
  obtain ⟨filled, remainingVolume⟩ := st
  refine (ends_volumeOf hm _).bind fun outOf _ => ?_
  refine Ends.ite (fun hpos => ?_) fun _ => trivial
  refine (ends_sub hst).bind fun traded htraded => ?_
  refine (ends_sub (htraded ▸ Nat.sub_le _ _)).bind fun makerFillVolume _ => ?_
  have hfill : ∀ r ∈ makerOrders.map OrderRef.exact, Ends (Overflow fits) (fun _ => True)
      (if Exact.isEligible auctionType price r.order.price then
        Exact.fillOrder fits makerFillVolume outOf r
      else .ok r) :=
    fun r hr => Ends.ite (fun _ => ends_fillOrder (hm r hr) _ hpos) fun _ => trivial
  exact (Ends.mapM hfill).bind fun _ _ => trivial

theorem ends_executeAuction (fits : ℕ → Bool) (orders : List Order) (auctionType : AuctionType) :
    Ends (Overflow fits) (fun _ => True) (Exact.executeAuction fits orders auctionType) := by
  have hsides := sides_sortOrders auctionType orders
  have hsorted := sortedTakers_sortOrders auctionType (splitOrders orders).1 (splitOrders orders).2
  have hm := le_quantity_of_live hsides.maker_live
  have ht := le_quantity_of_live hsides.taker_live
  refine Ends.ite (fun _ => trivial) fun _ => ?_
  refine (Ends.foldlM (I := fun _ => True) trivial fun best _ price _ => ?_).bind fun best _ => ?_
  · exact (ends_calculateVolumeAtPrice hm ht price auctionType).bind fun _ _ => trivial
  · refine Ends.ite (fun _ => ?_) fun _ => trivial
    exact (ends_executeTradesAtPrice hsides.maker_live hsides.taker_live hsorted best.1).bind
      fun _ _ => trivial

end Ends

/-- Over unbounded numbers the auction completes on every book. -/
theorem executeAuction_unbounded (orders : List Order) (auctionType : AuctionType) :
    ∃ res, Exact.executeAuction (fun _ => true) orders auctionType = .ok res := by
  obtain ⟨res, hres, -⟩ := (ends_executeAuction (fun _ => true) orders auctionType).exists_ok
  exact ⟨res, hres⟩

section Jams

variable {auctionType : AuctionType} {orders : List Order}

/-- A product behind the share of a taker that trades exceeds a word. -/
def ShareOverflows (auctionType : AuctionType) (orders : List Order) (price : U64) (volume : ℕ) :
    Prop :=
  ∃ o ∈ liveTakers orders, canFill auctionType price o ∧
    aheadVolume auctionType orders o.price < volume ∧
      2 ^ 64 ≤ o.remaining * min (levelVolume orders o.price)
        (volume - aheadVolume auctionType orders o.price)

theorem Clears.shareOverflows_iff {price : U64} {volume : ℕ}
    (h : Clears auctionType orders price volume) :
    0 < volume ∧ ShareOverflows auctionType orders price volume ↔
      ∃ o ∈ liveTakers orders, 2 ^ 64 ≤ o.remaining * levelFill auctionType orders o.price := by
  have hvolume : ∀ o : Order, min (levelVolume orders o.price)
      (volume - aheadVolume auctionType orders o.price) = levelFill auctionType orders o.price :=
    fun o => by rw [h.volume_eq, levelFill]
  refine ⟨fun hover => ?_, fun hover => ?_⟩
  · obtain ⟨-, o, ho, -, -, hover⟩ := hover
    exact ⟨o, ho, hvolume o ▸ hover⟩
  · obtain ⟨o, ho, hover⟩ := hover
    have hfill : levelFill auctionType orders o.price ≠ 0 := by
      intro hzero
      rw [hzero, Nat.mul_zero] at hover
      exact absurd hover (by decide)
    obtain ⟨hpos, hcan, hahead⟩ := h.of_levelFill_ne_zero hfill
    exact ⟨hpos, o, ho, hcan, hahead, (hvolume o).symm ▸ hover⟩

theorem jams_iff :
    Jams auctionType orders ↔
      liveMakers orders ≠ [] ∧ liveTakers orders ≠ [] ∧
        (2 ^ 64 ≤ makerTotal orders ∨ 2 ^ 64 ≤ takerTotal orders ∨
          (makerTotal orders < 2 ^ 64 ∧ takerTotal orders < 2 ^ 64 ∧
            ∃ price volume, Clears auctionType orders price volume ∧ 0 < volume ∧
              ShareOverflows auctionType orders price volume)) := by
  refine and_congr_right fun _ => and_congr_right fun _ => ?_
  rw [← makerTotal, ← takerTotal]
  refine ⟨fun h => ?_, fun h => ?_⟩
  · by_cases hm : 2 ^ 64 ≤ makerTotal orders
    · exact Or.inl hm
    by_cases ht : 2 ^ 64 ≤ takerTotal orders
    · exact Or.inr (Or.inl ht)
    obtain ⟨price, volume, hclears⟩ := exists_clears auctionType orders
    have hover := hclears.shareOverflows_iff.mpr ((h.resolve_left hm).resolve_left ht)
    exact Or.inr (Or.inr ⟨not_le.mp hm, not_le.mp ht, price, volume, hclears, hover⟩)
  · refine h.imp id (Or.imp id fun h => ?_)
    obtain ⟨-, -, price, volume, hclears, hover⟩ := h
    exact hclears.shareOverflows_iff.mp hover

end Jams

/-- The exact set of books on which the auction panics: those with a live order on either
side where a side's total exceeds a word, or else a product behind the share of a taker
that trades. On every other book each operation is in range, and the result is that of
the run over unbounded numbers. A panic is never anything but the overflow of a sum or a
product. -/
theorem aborting_books (auctionType : AuctionType) (orders : List Order) :
    (executeAuction orders auctionType = none ↔
      liveMakers orders ≠ [] ∧ liveTakers orders ≠ [] ∧
        (2 ^ 64 ≤ makerTotal orders ∨ 2 ^ 64 ≤ takerTotal orders ∨
          (makerTotal orders < 2 ^ 64 ∧ takerTotal orders < 2 ^ 64 ∧
            ∃ price volume, Clears auctionType orders price volume ∧ 0 < volume ∧
              ShareOverflows auctionType orders price volume))) ∧
    (∀ price volume out, executeAuction orders auctionType = some ((price, volume), out) →
      Exact.executeAuction word orders auctionType =
          .ok ((price, volume.val), out.map Order.exact) ∧
        Exact.executeAuction (fun _ => true) orders auctionType =
          .ok ((price, volume.val), out.map Order.exact)) ∧
    (executeAuction orders auctionType = none →
      Exact.executeAuction word orders auctionType = .error .addOverflow ∨
        Exact.executeAuction word orders auctionType = .error .mulOverflow) := by
  have hword : Holds (2 ^ 64) word := fun n hn => decide_eq_true hn
  have hfollows := follows_executeAuction hword orders auctionType
  refine ⟨executeAuction_eq_none_iff.trans jams_iff, fun price volume out h => ⟨?_, ?_⟩, fun h => ?_⟩
  · exact hfollows.ok _ h
  · exact (follows_executeAuction (fun _ _ => rfl) orders auctionType).ok _ h
  · obtain ⟨e, he⟩ := hfollows.fails (fun n hn => of_decide_eq_true hn) h
    rw [he]
    exact ((ends_executeAuction word orders auctionType).overflow he).imp (by rintro rfl; rfl)
      (by rintro rfl; rfl)

/-- What stops the crank on a bid and an offer for 2 ^ 33 units each is a product. -/
example : Exact.executeAuction word
    [sampleOrder .maker .buy 100 (2 ^ 33), sampleOrder .taker .sell 100 (2 ^ 33)] .bid =
      .error .mulOverflow := by decide

end ToyDfba
