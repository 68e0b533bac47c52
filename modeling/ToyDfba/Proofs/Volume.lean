import ToyDfba.Proofs.Refs

/-! The volume at a price, and the search for the best one. The sums of the code
succeed exactly when the exact totals fit in a word, and then the search is the
search over exact volumes. -/

namespace ToyDfba

open Totals

theorem Order.live_of_liveMaker {o : Order} (h : o.liveMaker) : o.live := by
  simp only [Order.liveMaker, Bool.and_eq_true] at h
  exact h.1

theorem Order.live_of_liveTaker {o : Order} (h : o.liveTaker) : o.live := by
  simp only [Order.liveTaker, Bool.and_eq_true] at h
  exact h.1

theorem orderType_of_liveMaker {o : Order} (h : o.liveMaker) : o.orderType = .maker := by
  simp only [Order.liveMaker, Bool.and_eq_true, decide_eq_true_eq] at h
  exact h.2

theorem orderType_of_liveTaker {o : Order} (h : o.liveTaker) : o.orderType = .taker := by
  simp only [Order.liveTaker, Bool.and_eq_true, decide_eq_true_eq] at h
  exact h.2

theorem Order.filled_lt_of_live {o : Order} (h : o.live) :
    o.filledQuantity.val < o.quantity.val := by
  simp only [Order.live, Bool.and_eq_true, decide_eq_true_eq] at h
  exact h.2

theorem Order.remaining_pos {o : Order} (h : o.live) : 0 < o.remaining :=
  Nat.sub_pos_of_lt (Order.filled_lt_of_live h)

/-- The references of an auction: its makers and its takers, in some order. -/
structure Sides (orders : List Order) (makerOrders takerOrders : List OrderRef) : Prop where
  makers : (makerOrders.map OrderRef.order).Perm (liveMakers orders)
  takers : (takerOrders.map OrderRef.order).Perm (liveTakers orders)

section Sides

variable {orders : List Order} {makerOrders takerOrders : List OrderRef}

theorem Sides.mem_makers (h : Sides orders makerOrders takerOrders) {r : OrderRef}
    (hr : r ∈ makerOrders) : r.order ∈ orders ∧ r.order.liveMaker :=
  List.mem_filter.mp (h.makers.mem_iff.mp (List.mem_map_of_mem hr))

theorem Sides.mem_takers (h : Sides orders makerOrders takerOrders) {r : OrderRef}
    (hr : r ∈ takerOrders) : r.order ∈ orders ∧ r.order.liveTaker :=
  List.mem_filter.mp (h.takers.mem_iff.mp (List.mem_map_of_mem hr))

theorem Sides.maker_live (h : Sides orders makerOrders takerOrders) :
    ∀ r ∈ makerOrders, r.order.live :=
  fun _ hr => Order.live_of_liveMaker (h.mem_makers hr).2

theorem Sides.taker_live (h : Sides orders makerOrders takerOrders) :
    ∀ r ∈ takerOrders, r.order.live :=
  fun _ hr => Order.live_of_liveTaker (h.mem_takers hr).2

theorem Sides.total_makers (h : Sides orders makerOrders takerOrders) (c : Order → Bool) :
    total (fun r => r.order.remaining) (fun r => c r.order) makerOrders =
      total Order.remaining c (liveMakers orders) := by
  rw [← total_perm _ h.makers, total_map]

theorem Sides.total_takers (h : Sides orders makerOrders takerOrders) (c : Order → Bool) :
    total (fun r => r.order.remaining) (fun r => c r.order) takerOrders =
      total Order.remaining c (liveTakers orders) := by
  rw [← total_perm _ h.takers, total_map]

end Sides

theorem addRemaining_eq_some {r : OrderRef} (hr : r.order.live) {v w : U64} :
    addRemaining v r = some w ↔ v.val + r.order.remaining = w.val := by
  have hlt := Order.filled_lt_of_live hr
  simp only [addRemaining, Option.bind_eq_bind, Option.bind_eq_some_iff, Checked.sub_eq_some,
    Checked.add_eq_some, Order.remaining]
  refine ⟨?_, fun hw => ?_⟩
  · intro hsome
    obtain ⟨a, ha, hw⟩ := hsome
    omega
  · exact ⟨⟨_, by omega⟩, (Nat.add_sub_cancel' hlt.le).symm, hw⟩

theorem foldlM_addRemaining_eq_some {refs : List OrderRef} (hlive : ∀ r ∈ refs, r.order.live)
    (c : OrderRef → Prop) [DecidablePred c] (v : U64) :
    refs.foldlM (fun v r => if c r then addRemaining v r else some v) 0 = some v ↔
      total (fun r => r.order.remaining) (fun r => c r) refs = v.val := by
  have h := Checked.foldlM_add_eq_some c (fun r => r.order.remaining) addRemaining refs
    (fun r hr _ _ => addRemaining_eq_some (hlive r hr)) 0 v
  rwa [Fin.val_zero, Nat.zero_add] at h

/-- Both branches of the source, read as the two eligibility tests. -/
theorem calculateVolumeAtPrice_eq (makerOrders takerOrders : List OrderRef) (p : U64)
    (auctionType : AuctionType) :
    calculateVolumeAtPrice makerOrders takerOrders p auctionType = (do
      let makerVolume ← makerOrders.foldlM
        (fun v r => if isEligible auctionType p r.order then addRemaining v r else some v) 0
      let takerVolume ← takerOrders.foldlM
        (fun v r => if canFill auctionType p r.order then addRemaining v r else some v) 0
      some (min makerVolume takerVolume)) := by
  cases auctionType <;> simp [calculateVolumeAtPrice, isEligible, canFill]

def makerVolume (auctionType : AuctionType) (orders : List Order) (p : U64) : ℕ :=
  total Order.remaining (isEligible auctionType p) (liveMakers orders)

def takerVolume (auctionType : AuctionType) (orders : List Order) (p : U64) : ℕ :=
  total Order.remaining (canFill auctionType p) (liveTakers orders)

theorem matchedVolume_eq (auctionType : AuctionType) (orders : List Order) (p : U64) :
    matchedVolume auctionType orders p =
      min (makerVolume auctionType orders p) (takerVolume auctionType orders p) := by
  cases auctionType
  · rfl
  · exact min_comm _ _

def makerTotal (orders : List Order) : ℕ := total Order.remaining (fun _ => true) (liveMakers orders)

def takerTotal (orders : List Order) : ℕ := total Order.remaining (fun _ => true) (liveTakers orders)

theorem makerVolume_le (auctionType : AuctionType) (orders : List Order) (p : U64) :
    makerVolume auctionType orders p ≤ makerTotal orders :=
  total_le _ fun _ _ _ => rfl

theorem takerVolume_le (auctionType : AuctionType) (orders : List Order) (p : U64) :
    takerVolume auctionType orders p ≤ takerTotal orders :=
  total_le _ fun _ _ _ => rfl

theorem exists_makerVolume_eq_total (auctionType : AuctionType) {orders : List Order}
    (h : liveMakers orders ≠ []) :
    ∃ o ∈ liveMakers orders, makerVolume auctionType orders o.price = makerTotal orders := by
  cases auctionType with
  | bid => exact Crossing.exists_demand_eq_total Order.price Order.remaining h
  | ask => exact Crossing.exists_supply_eq_total Order.price Order.remaining h

theorem exists_takerVolume_eq_total (auctionType : AuctionType) {orders : List Order}
    (h : liveTakers orders ≠ []) :
    ∃ o ∈ liveTakers orders, takerVolume auctionType orders o.price = takerTotal orders := by
  cases auctionType with
  | bid => exact Crossing.exists_supply_eq_total Order.price Order.remaining h
  | ask => exact Crossing.exists_demand_eq_total Order.price Order.remaining h

def Fits (auctionType : AuctionType) (orders : List Order) (p : U64) : Prop :=
  makerVolume auctionType orders p < 2 ^ 64 ∧ takerVolume auctionType orders p < 2 ^ 64

section Search

variable {orders : List Order} {makerOrders takerOrders : List OrderRef}
  {auctionType : AuctionType}

theorem calculateVolumeAtPrice_eq_some (h : Sides orders makerOrders takerOrders) {p v : U64} :
    calculateVolumeAtPrice makerOrders takerOrders p auctionType = some v ↔
      Fits auctionType orders p ∧ matchedVolume auctionType orders p = v.val := by
  simp only [calculateVolumeAtPrice_eq, Option.bind_eq_bind, Option.bind_eq_some_iff,
    foldlM_addRemaining_eq_some h.maker_live, foldlM_addRemaining_eq_some h.taker_live,
    Bool.decide_eq_true, h.total_makers, h.total_takers, Option.some.injEq]
  rw [matchedVolume_eq, Fits, makerVolume, takerVolume]
  refine ⟨?_, ?_⟩
  · intro hsome
    obtain ⟨m, hm, t, ht, hv⟩ := hsome
    rw [hm, ht, ← hv]
    exact ⟨⟨m.isLt, t.isLt⟩, (Fin.val_strictMono.monotone.map_min).symm⟩
  · intro hspec
    obtain ⟨⟨hm, ht⟩, hv⟩ := hspec
    refine ⟨⟨_, hm⟩, rfl, ⟨_, ht⟩, rfl, Fin.ext ?_⟩
    rw [← hv]
    exact Fin.val_strictMono.monotone.map_min

theorem searchStep_eq_some (h : Sides orders makerOrders takerOrders) {best best' : U64 × U64}
    {p : U64} (hs : searchStep makerOrders takerOrders auctionType best p = some best') :
    (best'.1, best'.2.val) =
      Crossing.better (matchedVolume auctionType orders) (best.1, best.2.val) p := by
  simp only [searchStep, Option.bind_eq_bind, Option.bind_eq_some_iff,
    calculateVolumeAtPrice_eq_some h, Option.some.injEq] at hs
  obtain ⟨v, ⟨-, hv⟩, rfl⟩ := hs
  simp only [Crossing.better, hv, gt_iff_lt, Fin.lt_def]
  split_ifs <;> rfl

theorem searchStep_isSome (h : Sides orders makerOrders takerOrders) (best : U64 × U64) (p : U64) :
    (∃ best', searchStep makerOrders takerOrders auctionType best p = some best') ↔
      Fits auctionType orders p := by
  simp only [searchStep, Option.bind_eq_bind, Option.bind_eq_some_iff,
    calculateVolumeAtPrice_eq_some h, Option.some.injEq]
  refine ⟨fun ⟨_, _, ⟨hfits, _⟩, _⟩ => hfits, fun hfits => ?_⟩
  have hlt : matchedVolume auctionType orders p < 2 ^ 64 := by
    rw [matchedVolume_eq]
    exact lt_of_le_of_lt (min_le_left _ _) hfits.1
  exact ⟨_, ⟨_, hlt⟩, ⟨hfits, rfl⟩, rfl⟩

theorem mem_allPrices {p : U64} : p ∈ allPrices makerOrders takerOrders ↔
    (∃ r ∈ makerOrders, r.order.price = p) ∨ ∃ r ∈ takerOrders, r.order.price = p := by
  simp [allPrices, Loops.mem_destutter_ne]

theorem allPrices_pairwise : (allPrices makerOrders takerOrders).Pairwise (· < ·) :=
  Loops.destutter_ne_pairwise_lt (List.pairwise_insertionSort _ _)

theorem Sides.maker_price (h : Sides orders makerOrders takerOrders) {o : Order}
    (ho : o ∈ liveMakers orders) : o.price ∈ allPrices makerOrders takerOrders := by
  obtain ⟨r, hr, rfl⟩ := List.mem_map.mp (h.makers.mem_iff.mpr ho)
  exact mem_allPrices.mpr (Or.inl ⟨r, hr, rfl⟩)

theorem Sides.taker_price (h : Sides orders makerOrders takerOrders) {o : Order}
    (ho : o ∈ liveTakers orders) : o.price ∈ allPrices makerOrders takerOrders := by
  obtain ⟨r, hr, rfl⟩ := List.mem_map.mp (h.takers.mem_iff.mpr ho)
  exact mem_allPrices.mpr (Or.inr ⟨r, hr, rfl⟩)

/-- The sums at all the prices of the book fit exactly when the two totals do: some
price in the book sees the whole of the makers, and some price the whole of the takers. -/
theorem fits_allPrices_iff (h : Sides orders makerOrders takerOrders)
    (hm : liveMakers orders ≠ []) (ht : liveTakers orders ≠ []) :
    (∀ p ∈ allPrices makerOrders takerOrders, Fits auctionType orders p) ↔
      makerTotal orders < 2 ^ 64 ∧ takerTotal orders < 2 ^ 64 := by
  refine ⟨fun hfits => ⟨?_, ?_⟩, fun ⟨hmt, htt⟩ p _ => ⟨?_, ?_⟩⟩
  · obtain ⟨o, ho, he⟩ := exists_makerVolume_eq_total auctionType hm
    exact he ▸ (hfits _ (h.maker_price ho)).1
  · obtain ⟨o, ho, he⟩ := exists_takerVolume_eq_total auctionType ht
    exact he ▸ (hfits _ (h.taker_price ho)).2
  · exact lt_of_le_of_lt (makerVolume_le _ _ _) hmt
  · exact lt_of_le_of_lt (takerVolume_le _ _ _) htt

theorem search_clears (auctionType : AuctionType) (h : Sides orders makerOrders takerOrders) :
    let best := (allPrices makerOrders takerOrders).foldl
      (Crossing.better (matchedVolume auctionType orders)) (0, 0)
    Clears auctionType orders best.1 best.2 := by
  cases auctionType with
  | bid =>
    obtain ⟨hgreatest, hleast, hidle⟩ := Crossing.search_optimal Order.price Order.remaining
      (liveMakers orders) (liveTakers orders) 0 allPrices_pairwise fun _ => h.taker_price
    exact ⟨hgreatest, hleast, hidle⟩
  | ask =>
    obtain ⟨hgreatest, hleast, hidle⟩ := Crossing.search_optimal Order.price Order.remaining
      (liveTakers orders) (liveMakers orders) 0 allPrices_pairwise fun _ => h.maker_price
    exact ⟨hgreatest, hleast, hidle⟩

theorem Clears.unique {p q : U64} {v w : ℕ} (hp : Clears auctionType orders p v)
    (hq : Clears auctionType orders q w) : p = q ∧ v = w := by
  have hvw : v = w := hp.greatest.unique hq.greatest
  subst hvw
  rcases Nat.eq_zero_or_pos v with h0 | hpos
  · exact ⟨(hp.idle h0).trans (hq.idle h0).symm, rfl⟩
  · exact ⟨(hp.least hpos).unique (hq.least hpos), rfl⟩

/-- The search loop returns the clearing of the queue, and panics exactly when one of
the two totals does not fit. -/
theorem search_eq_some_iff (h : Sides orders makerOrders takerOrders)
    (hm : liveMakers orders ≠ []) (ht : liveTakers orders ≠ []) {best : U64 × U64} :
    (allPrices makerOrders takerOrders).foldlM
        (searchStep makerOrders takerOrders auctionType) (0, 0) = some best ↔
      (makerTotal orders < 2 ^ 64 ∧ takerTotal orders < 2 ^ 64) ∧
        Clears auctionType orders best.1 best.2.val := by
  have hinj : Function.Injective fun b : U64 × U64 => (b.1, b.2.val) := by
    rintro ⟨p, v⟩ ⟨q, w⟩ he
    simpa [Fin.ext_iff] using he
  have hspec := search_clears auctionType h
  rw [Loops.foldlM_eq_some_iff hinj (fun a p _ => searchStep_isSome h a p)
    (fun a p _ b => searchStep_eq_some h), fits_allPrices_iff h hm ht]
  refine and_congr_right fun _ => ⟨fun he => ?_, fun hc => ?_⟩
  · have hspec' : Clears auctionType orders (best.1, best.2.val).1 (best.1, best.2.val).2 := by
      rw [he]; exact hspec
    exact hspec'
  · obtain ⟨hp, hv⟩ := hc.unique hspec
    exact Prod.ext hp hv

end Search

end ToyDfba
