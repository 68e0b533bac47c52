import ToyDfba.Proofs.ClearingPrice

/-! Double entry. The maker pass is handed the volume that the taker loop left over,
which is always nothing, so the makers never give what the takers receive. The two
sides balance exactly on the books where no taker receives anything either, and there
a trade can be reported that changes no order. -/

namespace ToyDfba

open Totals

/-- By how much the orders of one type grew from one vector to the other. -/
def growth (orderType : OrderType) (before after : List Order) : ℕ :=
  total (fun x => x.2.filledQuantity.val - x.1.filledQuantity.val)
    (fun x : Order × Order => x.1.orderType = orderType) (before.zip after)

theorem growth_settle (auctionType : AuctionType) (orders : List Order) (orderType : OrderType)
    (part : List Order) :
    growth orderType part (part.map (settle auctionType orders)) =
      total (fun o => if o.liveTaker then takerFill auctionType orders o else 0)
        (fun o => o.orderType = orderType) part := by
  have hzip : part.zip (part.map (settle auctionType orders)) =
      part.map fun o => (o, settle auctionType orders o) := by
    conv_lhs => arg 1; rw [← List.map_id part]
    exact List.zip_map'
  simp [growth, hzip, total_map, settle_filled]

theorem growth_maker (auctionType : AuctionType) (orders : List Order) :
    growth .maker orders (orders.map (settle auctionType orders)) = 0 := by
  rw [growth_settle, total_eq_zero_iff]
  intro o _ hmaker
  refine if_neg fun ht => ?_
  simp [orderType_of_liveTaker ht] at hmaker

theorem growth_taker (auctionType : AuctionType) (orders : List Order) :
    growth .taker orders (orders.map (settle auctionType orders)) =
      total (takerFill auctionType orders) (fun _ => true) (liveTakers orders) := by
  rw [growth_settle, total_ite, liveTakers, total_filter]
  refine total_congr _ fun o _ => ?_
  cases ho : o.liveTaker
  · simp
  · simp [orderType_of_liveTaker ho]

theorem growth_taker_eq_zero_iff (auctionType : AuctionType) (orders : List Order) :
    growth .taker orders (orders.map (settle auctionType orders)) = 0 ↔
      ∀ o ∈ liveTakers orders, takerFill auctionType orders o = 0 := by
  rw [growth_taker, total_eq_zero_iff]
  exact forall₂_congr fun o _ => forall_prop_of_true rfl

section Best

variable {auctionType : AuctionType} {orders : List Order}

theorem remaining_le_levelVolume {o : Order} (ho : o ∈ liveTakers orders) :
    o.remaining ≤ levelVolume orders o.price :=
  le_total _ ho (by simp)

theorem liveTaker_remaining_pos {o : Order} (ho : o ∈ liveTakers orders) : 0 < o.remaining :=
  Order.remaining_pos (Order.live_of_liveTaker (List.mem_filter.mp ho).2)

theorem liveTaker_levelVolume_pos {o : Order} (ho : o ∈ liveTakers orders) :
    0 < levelVolume orders o.price :=
  lt_of_lt_of_le (liveTaker_remaining_pos ho) (remaining_le_levelVolume ho)

theorem exists_best_taker (auctionType : AuctionType) (h : liveTakers orders ≠ []) :
    ∃ t ∈ liveTakers orders, ∀ o ∈ liveTakers orders, ¬ ahead auctionType o.price t.price := by
  cases auctionType with
  | bid =>
    obtain ⟨t, ht, hlow⟩ := Crossing.exists_lowest Order.price h
    exact ⟨t, ht, fun o ho => by simpa [ahead] using hlow o ho⟩
  | ask =>
    obtain ⟨t, ht, hhigh⟩ := Crossing.exists_highest Order.price h
    exact ⟨t, ht, fun o ho => by simpa [ahead] using hhigh o ho⟩

theorem aheadVolume_eq_zero_iff {p : U64} :
    aheadVolume auctionType orders p = 0 ↔ ∀ o ∈ liveTakers orders, ¬ ahead auctionType o.price p := by
  rw [aheadVolume, total_eq_zero_iff]
  refine ⟨fun h o ho hahead => ?_, fun h o ho hahead => absurd hahead (h o ho)⟩
  exact absurd (h o ho hahead) (liveTaker_remaining_pos ho).ne'

/-- A taker level stands ahead of everything it is ahead of with its whole volume. -/
theorem levelVolume_le_aheadVolume (orders : List Order) {p q : U64} (h : ahead auctionType p q) :
    levelVolume orders p ≤ aheadVolume auctionType orders q :=
  total_le _ fun o _ ho => by
    rw [decide_eq_true_eq] at ho
    exact ho ▸ h

/-- No taker receives anything exactly when nobody at the most aggressive price does:
there every share of the clearing volume is below one unit, which also leaves the
volume short of that level. -/
theorem takerFill_all_zero_iff :
    (∀ o ∈ liveTakers orders, takerFill auctionType orders o = 0) ↔
      ∀ o ∈ liveTakers orders, aheadVolume auctionType orders o.price = 0 →
        o.remaining * clearingVolume auctionType orders < levelVolume orders o.price := by
  have hfill : ∀ o ∈ liveTakers orders, takerFill auctionType orders o = 0 ↔
      o.remaining * levelFill auctionType orders o.price < levelVolume orders o.price :=
    fun o ho => ProRata.share_eq_zero_iff (liveTaker_levelVolume_pos ho)
  have hone : ∀ o ∈ liveTakers orders, ∀ n, n ≤ o.remaining * n :=
    fun o ho n => Nat.le_mul_of_pos_left n (liveTaker_remaining_pos ho)
  refine ⟨?_, ?_⟩
  · intro h o ho hbest
    have hlt := (hfill o ho).mp (h o ho)
    rw [levelFill, hbest, Nat.sub_zero] at hlt
    rcases le_total (levelVolume orders o.price) (clearingVolume auctionType orders) with hle | hle
    · rw [min_eq_left hle] at hlt
      exact absurd (hone o ho _) (not_le.mpr hlt)
    · rwa [min_eq_right hle] at hlt
  · intro h o ho
    rw [hfill o ho]
    by_cases hbest : aheadVolume auctionType orders o.price = 0
    · refine lt_of_le_of_lt (Nat.mul_le_mul_left _ ?_) (h o ho hbest)
      rw [levelFill, hbest]
      exact min_le_right _ _
    · -- the best level alone is larger than the clearing volume
      obtain ⟨t, ht, hnone⟩ := exists_best_taker auctionType (List.ne_nil_of_mem ho)
      have hvolume := lt_of_le_of_lt (hone t ht _) (h t ht (aheadVolume_eq_zero_iff.mpr hnone))
      have hahead : ahead auctionType t.price o.price := by
        refine ahead_of_not (hnone o ho) fun he => hbest ?_
        rw [← he]
        exact aheadVolume_eq_zero_iff.mpr hnone
      have hle := levelVolume_le_aheadVolume orders hahead
      rw [levelFill_of_used (hvolume.le.trans hle), Nat.mul_zero]
      exact liveTaker_levelVolume_pos ho

theorem takerFill_all_zero_iff_matched :
    (∀ o ∈ liveTakers orders, takerFill auctionType orders o = 0) ↔
      ∀ o ∈ liveTakers orders, aheadVolume auctionType orders o.price = 0 →
        ∀ p, o.remaining * matchedVolume auctionType orders p < levelVolume orders o.price := by
  obtain ⟨price, volume, hclears⟩ := exists_clears auctionType orders
  obtain ⟨p, hp⟩ := hclears.greatest.1
  rw [hclears.volume_eq] at hp
  rw [takerFill_all_zero_iff]
  refine forall₂_congr fun o _ => imp_congr_right fun _ => ⟨fun hlt q => ?_, fun hlt => hp ▸ hlt p⟩
  exact lt_of_le_of_lt (Nat.mul_le_mul_left _ (matchedVolume_le_clearingVolume _ _ _)) hlt

end Best

/-- The two sides balance exactly when, at the most aggressive taker price, no share of
any matched volume comes to one unit. -/
theorem growth_balanced_iff {auctionType : AuctionType} {orders out : List Order}
    {best : U64 × U64} (h : executeAuction orders auctionType = some (best, out)) :
    growth .maker orders out = growth .taker orders out ↔
      ∀ o ∈ liveTakers orders, aheadVolume auctionType orders o.price = 0 →
        ∀ p, o.remaining * matchedVolume auctionType orders p < levelVolume orders o.price := by
  rw [executeAuction_orders h, growth_maker, eq_comm, growth_taker_eq_zero_iff,
    takerFill_all_zero_iff_matched]

/-- The takers of the example book receive 800 and its makers give nothing. -/
theorem growth_unbalanced_exampleBook :
    ¬ ∀ best out, executeAuction exampleBook .bid = some (best, out) →
      growth .maker exampleBook out = growth .taker exampleBook out := by
  intro h
  have hrun : (executeAuction exampleBook .bid).map (fun res =>
      (growth .maker exampleBook res.2, growth .taker exampleBook res.2)) = some (0, 800) := by
    decide
  obtain ⟨⟨best, out⟩, hsome, hgrowth⟩ := Option.map_eq_some_iff.mp hrun
  obtain ⟨hmaker, htaker⟩ : growth .maker exampleBook out = 0 ∧ growth .taker exampleBook out = 800 :=
    Prod.mk.inj hgrowth
  have hbalanced := h best out hsome
  omega

/-- One unit offered to two takers that want one each: half a unit is none. -/
def thinBook : List Order :=
  [sampleOrder .maker .buy 100 1, sampleOrder .taker .sell 100 1, sampleOrder .taker .sell 100 1]

theorem growth_balanced_thinBook :
    growth .maker thinBook thinBook = growth .taker thinBook thinBook ∧
      ∀ o ∈ liveTakers thinBook, aheadVolume .bid thinBook o.price = 0 →
        ∀ p, o.remaining * matchedVolume .bid thinBook p < levelVolume thinBook o.price := by
  have hrun : executeAuction thinBook .bid = some ((100, 1), thinBook) := by decide
  have hgrowth : growth .maker thinBook thinBook = growth .taker thinBook thinBook := by decide
  exact ⟨hgrowth, (growth_balanced_iff hrun).mp hgrowth⟩

def SomeGrew (before after : List Order) : Prop :=
  ∃ (i : ℕ) (o o' : Order), before[i]? = some o ∧ after[i]? = some o' ∧
    o.filledQuantity < o'.filledQuantity

theorem someGrew_settle_iff (auctionType : AuctionType) (orders : List Order) :
    SomeGrew orders (orders.map (settle auctionType orders)) ↔
      ∃ o ∈ liveTakers orders, takerFill auctionType orders o ≠ 0 := by
  refine ⟨?_, ?_⟩
  · intro h
    obtain ⟨i, o, o', hi, hi', hlt⟩ := h
    rw [List.getElem?_map, hi, Option.map_some, Option.some.injEq] at hi'
    rw [← hi', Fin.lt_def, settle_filled] at hlt
    by_cases ho : o.liveTaker
    · rw [if_pos ho] at hlt
      exact ⟨o, List.mem_filter.mpr ⟨List.mem_of_getElem? hi, ho⟩, by omega⟩
    · rw [if_neg ho, Nat.add_zero] at hlt
      exact absurd hlt (lt_irrefl _)
  · intro h
    obtain ⟨o, hmem, hfill⟩ := h
    obtain ⟨hmem, ho⟩ := List.mem_filter.mp hmem
    obtain ⟨i, hi⟩ := List.mem_iff_getElem?.mp hmem
    refine ⟨i, o, _, hi, by rw [List.getElem?_map, hi, Option.map_some], ?_⟩
    rw [Fin.lt_def, settle_filled, if_pos ho]
    omega

/-- A trade that is reported changes the book exactly when no price matches anything, or
the share of some matched volume comes to one unit for a taker at the most aggressive
price. -/
theorem trade_changes_book_iff {auctionType : AuctionType} {orders out : List Order}
    {price volume : U64} (h : executeAuction orders auctionType = some ((price, volume), out)) :
    (0 < volume → SomeGrew orders out) ↔
      (∀ p, matchedVolume auctionType orders p = 0) ∨
        ∃ o ∈ liveTakers orders, aheadVolume auctionType orders o.price = 0 ∧
          ∃ p, levelVolume orders o.price ≤ o.remaining * matchedVolume auctionType orders p := by
  have hclears := executeAuction_clears h
  have hidle : (∀ p, matchedVolume auctionType orders p = 0) ↔ ¬ 0 < volume := by
    rw [Fin.lt_def, Fin.val_zero, Nat.pos_iff_ne_zero, not_not]
    refine ⟨fun hzero => ?_, fun hzero p => ?_⟩
    · obtain ⟨p, hp⟩ := hclears.greatest.1
      exact hp ▸ hzero p
    · exact Nat.eq_zero_of_le_zero (hzero ▸ hclears.greatest.2 ⟨p, rfl⟩)
  have hgrew : SomeGrew orders out ↔
      ∃ o ∈ liveTakers orders, aheadVolume auctionType orders o.price = 0 ∧
        ∃ p, levelVolume orders o.price ≤ o.remaining * matchedVolume auctionType orders p := by
    rw [executeAuction_orders h, someGrew_settle_iff, ← not_iff_not]
    simp only [not_exists, not_and, not_not, not_le]
    exact takerFill_all_zero_iff_matched
  rw [hidle, hgrew, imp_iff_not_or]

theorem trade_changes_book_exampleBook :
    ∃ out, executeAuction exampleBook .bid = some ((105, 800), out) ∧ SomeGrew exampleBook out := by
  obtain ⟨out, hsome⟩ := exists_run_exampleBook
  refine ⟨out, hsome, (trade_changes_book_iff hsome).mpr (Or.inr ?_) (by decide)⟩
  exact ⟨sampleOrder .taker .sell 95 400, by decide, by decide, 105, by decide⟩

/-- The thin book reports a trade of one unit, and no order of it grows. -/
theorem trade_unchanged_thinBook :
    (∀ o ∈ thinBook, 0 < o.price ∧ 0 < o.quantity ∧ o.filledQuantity < o.quantity) ∧
      ¬ ∀ price volume out, executeAuction thinBook .bid = some ((price, volume), out) →
        0 < volume → SomeGrew thinBook out := by
  refine ⟨by decide, fun h => ?_⟩
  have hrun : executeAuction thinBook .bid = some ((100, 1), thinBook) := by decide
  obtain ⟨i, o, o', hi, hi', hlt⟩ := h 100 1 thinBook hrun (by decide)
  obtain rfl : o = o' := Option.some.inj (hi.symm.trans hi')
  exact absurd hlt (lt_irrefl _)

end ToyDfba
