import ToyDfba.Proofs.Fills

/-! The auction in closed form: it panics exactly on the books that jam, and otherwise
returns the clearing of the queue and leaves every order as `settle` says. -/

namespace ToyDfba

open Totals

theorem foldr_max_le {l : List ℕ} {b : ℕ} (h : ∀ x ∈ l, x ≤ b) : l.foldr max 0 ≤ b := by
  induction l with
  | nil => exact Nat.zero_le b
  | cons x l ih =>
    exact max_le (h x (by simp)) (ih fun y hy => h y (List.mem_cons_of_mem x hy))

theorem le_foldr_max {l : List ℕ} {x : ℕ} (h : x ∈ l) : x ≤ l.foldr max 0 := by
  induction l with
  | nil => cases h
  | cons y l ih =>
    rcases List.mem_cons.mp h with rfl | h
    · exact le_max_left _ _
    · exact (ih h).trans (le_max_right _ _)

theorem matchedVolume_le_clearingVolume (auctionType : AuctionType) (orders : List Order) (p : U64) :
    matchedVolume auctionType orders p ≤ clearingVolume auctionType orders := by
  have hbook : ∀ o ∈ orders,
      matchedVolume auctionType orders o.price ≤ clearingVolume auctionType orders :=
    fun o ho => le_foldr_max (List.mem_map_of_mem ho)
  rcases Nat.eq_zero_or_pos (matchedVolume auctionType orders p) with h0 | hpos
  · omega
  · cases auctionType with
    | bid =>
      obtain ⟨o, ho, -, hle⟩ := Crossing.exists_ask_matched_le Order.price Order.remaining hpos
      exact hle.trans (hbook o (List.mem_filter.mp ho).1)
    | ask =>
      obtain ⟨o, ho, -, hle⟩ := Crossing.exists_ask_matched_le Order.price Order.remaining hpos
      exact hle.trans (hbook o (List.mem_filter.mp ho).1)

theorem Clears.volume_eq {auctionType : AuctionType} {orders : List Order} {price : U64} {volume : ℕ}
    (h : Clears auctionType orders price volume) : volume = clearingVolume auctionType orders := by
  obtain ⟨p, hp⟩ := h.greatest.1
  refine le_antisymm (hp ▸ matchedVolume_le_clearingVolume auctionType orders p) ?_
  refine foldr_max_le fun v hv => ?_
  obtain ⟨o, -, rfl⟩ := List.mem_map.mp hv
  exact h.greatest.2 ⟨o.price, rfl⟩

theorem Clears.le_makerVolume {auctionType : AuctionType} {orders : List Order} {price : U64}
    {volume : ℕ} (h : Clears auctionType orders price volume) (hpos : 0 < volume) :
    volume ≤ makerVolume auctionType orders price := by
  rw [← (h.least hpos).1, matchedVolume_eq]
  exact min_le_left _ _

theorem Clears.le_takerVolume {auctionType : AuctionType} {orders : List Order} {price : U64}
    {volume : ℕ} (h : Clears auctionType orders price volume) (hpos : 0 < volume) :
    volume ≤ takerVolume auctionType orders price := by
  rw [← (h.least hpos).1, matchedVolume_eq]
  exact min_le_right _ _

theorem matchedVolume_eq_zero {auctionType : AuctionType} {orders : List Order}
    (h : liveMakers orders = [] ∨ liveTakers orders = []) (p : U64) :
    matchedVolume auctionType orders p = 0 := by
  rw [matchedVolume_eq, makerVolume, takerVolume]
  rcases h with h | h <;> simp [h]

theorem clears_of_empty {auctionType : AuctionType} {orders : List Order}
    (h : liveMakers orders = [] ∨ liveTakers orders = []) : Clears auctionType orders 0 0 := by
  refine ⟨⟨⟨0, matchedVolume_eq_zero h 0⟩, ?_⟩, fun hpos => absurd hpos (lt_irrefl 0), fun _ => rfl⟩
  rintro _ ⟨p, rfl⟩
  exact (matchedVolume_eq_zero h p).le

theorem takerFill_le {auctionType : AuctionType} {orders : List Order} {o : Order} :
    takerFill auctionType orders o ≤ o.remaining :=
  ProRata.share_le _ (min_le_left _ _)

theorem settle_filled {auctionType : AuctionType} {orders : List Order} {o : Order} :
    (settle auctionType orders o).filledQuantity.val =
      o.filledQuantity.val + if o.liveTaker then takerFill auctionType orders o else 0 := by
  cases h : o.liveTaker
  · simp [settle, h]
  · simp [settle, h, Order.fillBy_filled takerFill_le]

theorem settle_fields (auctionType : AuctionType) (orders : List Order) (o : Order) :
    settle auctionType orders o =
      { o with filledQuantity := (settle auctionType orders o).filledQuantity } := by
  unfold settle
  split_ifs <;> rfl

theorem le_settle_filled (auctionType : AuctionType) (orders : List Order) (o : Order) :
    o.filledQuantity ≤ (settle auctionType orders o).filledQuantity := by
  rw [Fin.le_def, settle_filled]
  exact Nat.le_add_right _ _

theorem settle_filled_le (auctionType : AuctionType) (orders : List Order) {o : Order}
    (h : o.filledQuantity ≤ o.quantity) :
    (settle auctionType orders o).filledQuantity ≤ o.quantity := by
  rw [Fin.le_def] at h ⊢
  rw [settle_filled]
  have hle := @takerFill_le auctionType orders o
  rw [Order.remaining] at hle
  split_ifs <;> omega

theorem settle_of_idle {auctionType : AuctionType} {orders : List Order}
    (h : clearingVolume auctionType orders = 0) (o : Order) : settle auctionType orders o = o := by
  simp [settle, takerFill, levelFill, h]

theorem map_settle_of_idle {auctionType : AuctionType} {orders : List Order}
    (h : clearingVolume auctionType orders = 0) :
    orders.map (settle auctionType orders) = orders := by
  rw [List.map_congr_left fun o _ => settle_of_idle h o, List.map_id'']
  exact fun _ => rfl

section Trades

variable {auctionType : AuctionType} {orders : List Order} {makerOrders takerOrders : List OrderRef}
  {price : U64}

/-- The levels that may trade hold what the takers want at the price. -/
theorem processed_eq_takerVolume (h : Sides orders makerOrders takerOrders) {qs : List U64}
    (hlv : LevelPrices auctionType price takerOrders qs) :
    processed orders qs = takerVolume auctionType orders price := by
  rw [processed_eq h hlv.sorted, takerVolume, ← h.total_takers]
  refine total_congr _ fun r hr => ?_
  rw [Bool.eq_iff_iff, decide_eq_true_eq, hlv.mem]
  refine ⟨?_, ?_⟩
  · intro htaker
    obtain ⟨a, -, hcan, ha⟩ := htaker
    exact (canFill_congr ha).symm.trans hcan
  · intro hcan
    exact ⟨r, hr, hcan, rfl⟩

/-- Everything that may trade stands ahead of a taker that may not, so no part of the
volume is left for it. -/
theorem levelFill_of_not_canFill
    (hvolume : clearingVolume auctionType orders ≤ takerVolume auctionType orders price)
    {o : Order} (hcan : canFill auctionType price o = false) :
    levelFill auctionType orders o.price = 0 := by
  have hle : takerVolume auctionType orders price ≤ aheadVolume auctionType orders o.price :=
    total_le _ fun a _ ha => ahead_of_canFill ha hcan
  exact levelFill_of_used (hvolume.trans hle)

theorem Clears.levelFill_eq_zero {volume : ℕ} (h : Clears auctionType orders price volume)
    (hpos : 0 < volume) {o : Order} (hcan : canFill auctionType price o = false) :
    levelFill auctionType orders o.price = 0 :=
  levelFill_of_not_canFill (h.volume_eq ▸ h.le_takerVolume hpos) hcan

/-- A level that receives something may trade at the price, and the levels ahead of it
leave something of the volume. -/
theorem Clears.of_levelFill_ne_zero {volume : ℕ} (h : Clears auctionType orders price volume)
    {o : Order} (hfill : levelFill auctionType orders o.price ≠ 0) :
    0 < volume ∧ canFill auctionType price o ∧ aheadVolume auctionType orders o.price < volume := by
  have hahead : aheadVolume auctionType orders o.price < volume := by
    rw [h.volume_eq]
    by_contra hused
    exact hfill (levelFill_of_used (not_lt.mp hused))
  have hpos : 0 < volume := (Nat.zero_le _).trans_lt hahead
  refine ⟨hpos, ?_, hahead⟩
  by_contra hcan
  exact hfill (h.levelFill_eq_zero hpos (Bool.eq_false_iff.mpr hcan))

/-- The whole taker loop. It uses the volume up. -/
theorem fillTakers_eq_some (h : Sides orders makerOrders takerOrders)
    (hsorted : SortedTakers auctionType takerOrders) (htotal : takerTotal orders < 2 ^ 64)
    {volume left : U64} (hvolume : volume.val = clearingVolume auctionType orders)
    (hle : clearingVolume auctionType orders ≤ takerVolume auctionType orders price)
    {filled : List OrderRef} :
    fillLevels (priceGroups takerOrders price auctionType) (takerOrders, volume) =
        some (filled, left) ↔
      (∀ r ∈ takerOrders,
        r.order.remaining * levelFill auctionType orders r.order.price < 2 ^ 64) ∧
      filled = takerOrders.map (OrderRef.update (settle auctionType orders)) ∧ left = 0 := by
  obtain ⟨qs, hlv, hgroups⟩ := priceGroups_eq auctionType price hsorted
  have hnone : after auctionType orders [] = id := by
    funext r
    simp [after]
  have hspec := @fillLevels_eq_some auctionType orders makerOrders takerOrders price [] qs h htotal
    hlv volume left (by simpa [processed] using hvolume) filled
  rw [hnone, List.map_id] at hspec
  rw [hgroups, hspec]
  have hzero : ∀ r ∈ takerOrders, r.order.price ∉ qs →
      levelFill auctionType orders r.order.price = 0 := by
    intro r hr hnot
    refine levelFill_of_not_canFill hle ?_
    rw [Bool.eq_false_iff]
    exact fun hcan => hnot ((hlv.mem _).mpr ⟨r, hr, hcan, rfl⟩)
  have hmap : takerOrders.map (after auctionType orders ([] ++ qs)) =
      takerOrders.map (OrderRef.update (settle auctionType orders)) := by
    refine List.map_congr_left fun r hr => ?_
    by_cases hqs : r.order.price ∈ qs
    · simp [after, hqs]
    · simp [after, hqs, OrderRef.update, settle, (h.mem_takers hr).2, takerFill, hzero r hr hqs]
  rw [hmap]
  refine and_congr ⟨fun hok r hr => ?_, fun hok r hr _ => hok r hr⟩ (and_congr_right fun _ => ?_)
  · by_cases hqs : r.order.price ∈ qs
    · exact hok r hr hqs
    · rw [hzero r hr hqs, Nat.mul_zero]
      exact Nat.two_pow_pos 64
  · rw [List.nil_append, processed_eq_takerVolume h hlv, Nat.sub_eq_zero_of_le hle, Fin.ext_iff,
      Fin.val_zero]

/-- The maker pass runs with nothing left to hand out, so it moves no maker. -/
theorem fillMakers_eq (h : Sides orders makerOrders takerOrders) {outOf : U64}
    (hpos : 0 < outOf.val) :
    makerOrders.mapM (fun r =>
      if isEligible auctionType price r.order then fillOrder 0 outOf r else some r) =
        some makerOrders := by
  refine Loops.mapM_eq_self fun r hr => ?_
  split_ifs
  · rw [fillOrder_eq_some (Fin.zero_le outOf) hpos (h.maker_live r hr)]
    simp [OrderRef.update]
  · rfl

theorem executeTradesAtPrice_eq_some (h : Sides orders makerOrders takerOrders)
    (hsorted : SortedTakers auctionType takerOrders) (hmakers : makerTotal orders < 2 ^ 64)
    (htakers : takerTotal orders < 2 ^ 64) {volume : ℕ}
    (hclears : Clears auctionType orders price volume) (hpos : 0 < volume)
    {makerOrders' takerOrders' : List OrderRef} :
    executeTradesAtPrice makerOrders takerOrders price auctionType =
        some (makerOrders', takerOrders') ↔
      (∀ r ∈ takerOrders,
        r.order.remaining * levelFill auctionType orders r.order.price < 2 ^ 64) ∧
      makerOrders' = makerOrders ∧
      takerOrders' = takerOrders.map (OrderRef.update (settle auctionType orders)) := by
  have hmatched : matchedVolume auctionType orders price = clearingVolume auctionType orders :=
    (hclears.least hpos).1.trans hclears.volume_eq
  have hle := hclears.volume_eq ▸ hclears.le_takerVolume hpos
  have hmle := hclears.volume_eq ▸ hclears.le_makerVolume hpos
  have hmv : makerVolume auctionType orders price < 2 ^ 64 :=
    lt_of_le_of_lt (makerVolume_le _ _ _) hmakers
  have hmpos : 0 < makerVolume auctionType orders price :=
    lt_of_lt_of_le hpos (hclears.le_makerVolume hpos)
  have hfits : Fits auctionType orders price :=
    ⟨hmv, lt_of_le_of_lt (takerVolume_le _ _ _) htakers⟩
  have hvlt : clearingVolume auctionType orders < 2 ^ 64 := by omega
  simp only [executeTradesAtPrice, Option.bind_eq_bind, Option.bind_eq_some_iff,
    calculateVolumeAtPrice_eq_some h, foldlM_addRemaining_eq_some h.maker_live,
    Bool.decide_eq_true, h.total_makers, hmatched, Prod.exists]
  refine ⟨?_, ?_⟩
  · intro hsome
    obtain ⟨total, ⟨-, htot⟩, filled, left, hfill, outOf, hout, hrest⟩ := hsome
    obtain ⟨hok, rfl, rfl⟩ := (fillTakers_eq_some h hsorted htakers htot.symm hle).mp hfill
    have hout : makerVolume auctionType orders price = outOf.val := hout
    have hopos : 0 < outOf.val := hout ▸ hmpos
    rw [if_pos (show outOf > 0 from hopos)] at hrest
    simp only [Option.bind_eq_some_iff, Checked.sub_eq_some, Fin.val_zero, Nat.zero_add,
      ← Fin.ext_iff] at hrest
    obtain ⟨_, rfl, z, hz, hrest⟩ := hrest
    obtain rfl : z = 0 := Fin.ext (by rw [Fin.val_zero]; omega)
    simp only [fillMakers_eq h hopos, Option.some.injEq, Prod.mk.injEq,
      exists_eq_left'] at hrest
    exact ⟨hok, hrest.1.symm, hrest.2.symm⟩
  · intro hspec
    obtain ⟨hok, hm, ht⟩ := hspec
    refine ⟨⟨_, hvlt⟩, ⟨hfits, rfl⟩, _, 0,
      (fillTakers_eq_some h hsorted htakers rfl hle).mpr ⟨hok, rfl, rfl⟩, ⟨_, hmv⟩, rfl, ?_⟩
    rw [if_pos (show (⟨_, hmv⟩ : U64) > 0 from hmpos)]
    simp only [Option.bind_eq_some_iff, Checked.sub_eq_some]
    exact ⟨⟨_, hvlt⟩, by simp, 0, by simp, _, fillMakers_eq h hmpos, by rw [hm, ht]⟩

end Trades

theorem sides_sortOrders (auctionType : AuctionType) (orders : List Order) :
    Sides orders
      (sortOrders (splitOrders orders).1 (splitOrders orders).2 auctionType).1
      (sortOrders (splitOrders orders).1 (splitOrders orders).2 auctionType).2 := by
  rw [splitOrders_eq]
  have hm := filter_iterMut_order Order.liveMaker orders
  have ht := filter_iterMut_order Order.liveTaker orders
  refine ⟨?_, ?_⟩
  · rw [liveMakers, ← hm]
    cases auctionType <;> exact (List.perm_insertionSort _ _).map _
  · rw [liveTakers, ← ht]
    cases auctionType <;> exact (List.perm_insertionSort _ _).map _

theorem sortedTakers_sortOrders (auctionType : AuctionType) (makerOrders takerOrders : List OrderRef) :
    SortedTakers auctionType (sortOrders makerOrders takerOrders auctionType).2 := by
  cases auctionType with
  | bid =>
    have := List.pairwise_insertionSort (fun a b : OrderRef => a.order.price ≤ b.order.price)
      takerOrders
    exact this.imp fun hab => by simpa [ahead] using hab
  | ask =>
    have := List.pairwise_insertionSort (fun a b : OrderRef => b.order.price ≤ a.order.price)
      takerOrders
    exact this.imp fun hab => by simpa [ahead] using hab

theorem splitOrders_isEmpty (orders : List Order) :
    ((splitOrders orders).1.isEmpty || (splitOrders orders).2.isEmpty) = true ↔
      liveMakers orders = [] ∨ liveTakers orders = [] := by
  rw [splitOrders_eq, liveMakers, liveTakers, ← filter_iterMut_order, ← filter_iterMut_order]
  simp only [Bool.or_eq_true, List.isEmpty_iff, List.map_eq_nil_iff]

theorem not_jams_iff {auctionType : AuctionType} {orders : List Order}
    (hm : liveMakers orders ≠ []) (ht : liveTakers orders ≠ []) :
    ¬ Jams auctionType orders ↔
      (makerTotal orders < 2 ^ 64 ∧ takerTotal orders < 2 ^ 64) ∧
        ∀ o ∈ liveTakers orders, o.remaining * levelFill auctionType orders o.price < 2 ^ 64 := by
  simp only [Jams, hm, ht, ne_eq, not_false_eq_true, true_and, not_or, not_exists, not_and, not_le,
    makerTotal, takerTotal, and_assoc]

theorem writeBack_settled {auctionType : AuctionType} {orders : List Order}
    {makerOrders takerOrders : List OrderRef}
    (hm : makerOrders.Perm (splitOrders orders).1) (ht : takerOrders.Perm (splitOrders orders).2) :
    writeBack (writeBack orders makerOrders)
        (takerOrders.map (OrderRef.update (settle auctionType orders))) =
      orders.map (settle auctionType orders) := by
  rw [splitOrders_eq] at hm ht
  have hid : OrderRef.update id = id := rfl
  have hmakers : writeBack orders makerOrders = orders := by
    rw [writeBack_eq (f := id) (by rw [hid, List.map_id]; exact hm)]
    simp
  rw [hmakers, writeBack_eq (ht.map _)]
  refine List.map_congr_left fun o _ => ?_
  cases h : o.liveTaker <;> simp [settle, h]

/-- What the auction does once the search has found its price. -/
theorem settleBook_eq_some {auctionType : AuctionType} {orders : List Order}
    {makerOrders takerOrders : List OrderRef} (h : Sides orders makerOrders takerOrders)
    (hsorted : SortedTakers auctionType takerOrders)
    (hm : makerOrders.Perm (splitOrders orders).1) (ht : takerOrders.Perm (splitOrders orders).2)
    (htotals : makerTotal orders < 2 ^ 64 ∧ takerTotal orders < 2 ^ 64) {best : U64 × U64}
    (hclears : Clears auctionType orders best.1 best.2.val) {res : (U64 × U64) × List Order} :
    (if best.2 > 0 then
        (executeTradesAtPrice makerOrders takerOrders best.1 auctionType).bind fun st =>
          some (best, writeBack (writeBack orders st.1) st.2)
      else some (best, orders)) = some res ↔
      (∀ o ∈ liveTakers orders, o.remaining * levelFill auctionType orders o.price < 2 ^ 64) ∧
        (best, orders.map (settle auctionType orders)) = res := by
  have hvolume := hclears.volume_eq
  split_ifs with hpos
  · have hpos : 0 < best.2.val := hpos
    have hfits : (∀ r ∈ takerOrders,
          r.order.remaining * levelFill auctionType orders r.order.price < 2 ^ 64) ↔
        ∀ o ∈ liveTakers orders, o.remaining * levelFill auctionType orders o.price < 2 ^ 64 := by
      simp only [← h.takers.mem_iff, List.forall_mem_map]
    simp only [Option.bind_eq_some_iff, Prod.exists,
      executeTradesAtPrice_eq_some h hsorted htotals.1 htotals.2 hclears hpos, hfits,
      Option.some.injEq]
    refine ⟨fun ⟨_, _, ⟨hfit, rfl, rfl⟩, he⟩ => ⟨hfit, ?_⟩,
      fun ⟨hfit, he⟩ => ⟨_, _, ⟨hfit, rfl, rfl⟩, ?_⟩⟩
    · rw [← he, writeBack_settled hm ht]
    · rw [← he, writeBack_settled hm ht]
  · have hzero : clearingVolume auctionType orders = 0 := by
      have : ¬ 0 < best.2.val := hpos
      omega
    rw [Option.some.injEq, map_settle_of_idle hzero]
    refine ⟨fun he => ⟨fun o _ => ?_, he⟩, fun he => he.2⟩
    rw [levelFill_of_used (hzero.le.trans (Nat.zero_le _)), Nat.mul_zero]
    exact Nat.two_pow_pos 64

/-- The auction in closed form. -/
theorem executeAuction_eq_some_iff {auctionType : AuctionType} {orders out : List Order}
    {price volume : U64} :
    executeAuction orders auctionType = some ((price, volume), out) ↔
      ¬ Jams auctionType orders ∧ Clears auctionType orders price volume.val ∧
        out = orders.map (settle auctionType orders) := by
  unfold executeAuction
  by_cases hempty : liveMakers orders = [] ∨ liveTakers orders = []
  · have hnojam : ¬ Jams auctionType orders := fun hj => hempty.elim hj.1 hj.2.1
    have hclears : Clears auctionType orders 0 0 := clears_of_empty hempty
    simp only [(splitOrders_isEmpty orders).mpr hempty, if_true, Option.some.injEq, Prod.mk.injEq,
      map_settle_of_idle hclears.volume_eq.symm]
    refine ⟨fun ⟨⟨hp, hv⟩, ho⟩ => ⟨hnojam, ?_, ho.symm⟩, fun ⟨_, hc, ho⟩ => ?_⟩
    · rw [← hp, ← hv]; exact hclears
    · obtain ⟨hp, hv⟩ := hclears.unique hc
      exact ⟨⟨hp, Fin.ext hv⟩, ho.symm⟩
  · have hm : liveMakers orders ≠ [] := fun he => hempty (Or.inl he)
    have ht : liveTakers orders ≠ [] := fun he => hempty (Or.inr he)
    have hsides := sides_sortOrders auctionType orders
    have hsorted := sortedTakers_sortOrders auctionType (splitOrders orders).1 (splitOrders orders).2
    have hperm : (sortOrders (splitOrders orders).1 (splitOrders orders).2 auctionType).1.Perm
          (splitOrders orders).1 ∧
        (sortOrders (splitOrders orders).1 (splitOrders orders).2 auctionType).2.Perm
          (splitOrders orders).2 := by
      cases auctionType <;> exact ⟨List.perm_insertionSort _ _, List.perm_insertionSort _ _⟩
    simp only [mt (splitOrders_isEmpty orders).mp hempty, Bool.false_eq_true, if_false,
      Option.bind_eq_bind, Option.bind_eq_some_iff, search_eq_some_iff hsides hm ht]
    rw [not_jams_iff hm ht]
    generalize (sortOrders (splitOrders orders).1 (splitOrders orders).2 auctionType).1 = makerOrders
      at *
    generalize (sortOrders (splitOrders orders).1 (splitOrders orders).2 auctionType).2 = takerOrders
      at *
    refine ⟨?_, ?_⟩
    · intro hsome
      obtain ⟨best, ⟨htotals, hclears⟩, hrest⟩ := hsome
      obtain ⟨hfit, he⟩ := (settleBook_eq_some hsides hsorted hperm.1 hperm.2 htotals hclears).mp hrest
      obtain ⟨rfl, rfl⟩ := Prod.mk.inj he
      exact ⟨⟨htotals, hfit⟩, hclears, rfl⟩
    · intro hspec
      obtain ⟨⟨htotals, hfit⟩, hclears, ho⟩ := hspec
      refine ⟨(price, volume), ⟨htotals, hclears⟩, ?_⟩
      exact (settleBook_eq_some hsides hsorted hperm.1 hperm.2 htotals hclears).mpr
        ⟨hfit, by rw [ho]⟩

theorem exists_clears (auctionType : AuctionType) (orders : List Order) :
    ∃ price volume, Clears auctionType orders price volume :=
  ⟨_, _, search_clears auctionType (sides_sortOrders auctionType orders)⟩

/-- The auction panics exactly on the books that jam. -/
theorem executeAuction_eq_none_iff {auctionType : AuctionType} {orders : List Order} :
    executeAuction orders auctionType = none ↔ Jams auctionType orders := by
  refine ⟨?_, ?_⟩
  · intro hnone
    by_contra hnot
    obtain ⟨price, volume, hclears⟩ := exists_clears auctionType orders
    have hlt : volume < 2 ^ 64 := by
      by_cases hempty : liveMakers orders = [] ∨ liveTakers orders = []
      · rw [((clears_of_empty hempty).unique hclears).2.symm]
        exact Nat.two_pow_pos 64
      · obtain ⟨⟨hmakers, -⟩, -⟩ := (not_jams_iff (fun he => hempty (Or.inl he))
          fun he => hempty (Or.inr he)).mp hnot
        obtain ⟨p, rfl⟩ := hclears.greatest.1
        rw [matchedVolume_eq]
        exact lt_of_le_of_lt ((min_le_left _ _).trans (makerVolume_le _ _ _)) hmakers
    have hsome := executeAuction_eq_some_iff.mpr
      ⟨hnot, (show Clears auctionType orders price (⟨volume, hlt⟩ : U64).val from hclears), rfl⟩
    rw [hnone] at hsome
    cases hsome
  · intro hjams
    cases hres : executeAuction orders auctionType with
    | none => rfl
    | some res => exact absurd hjams (executeAuction_eq_some_iff.mp hres).1

theorem executeAuction_clears {auctionType : AuctionType} {orders out : List Order}
    {price volume : U64} (h : executeAuction orders auctionType = some ((price, volume), out)) :
    Clears auctionType orders price volume.val :=
  (executeAuction_eq_some_iff.mp h).2.1

theorem executeAuction_orders {auctionType : AuctionType} {orders out : List Order} {best : U64 × U64}
    (h : executeAuction orders auctionType = some (best, out)) :
    out = orders.map (settle auctionType orders) :=
  (executeAuction_eq_some_iff.mp h).2.2

theorem executeAuction_getElem? {auctionType : AuctionType} {orders out : List Order}
    {best : U64 × U64} (h : executeAuction orders auctionType = some (best, out)) {i : ℕ}
    {o : Order} (hi : orders[i]? = some o) : out[i]? = some (settle auctionType orders o) := by
  rw [executeAuction_orders h, List.getElem?_map, hi, Option.map_some]

end ToyDfba
