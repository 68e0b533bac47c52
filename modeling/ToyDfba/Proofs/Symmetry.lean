import Mathlib.Order.Monotone.Basic
import ToyDfba.Proofs.ClearingPrice
import ToyDfba.Proofs.Pool

/-! Changes of all the prices that keep who is ahead of whom. The auction compares prices
and does nothing else with them, so volumes and fills stay as they are. Of the prices
that trade the most it takes the lowest in both queues, which is where the mirror image of
a bid auction is not the ask auction. -/

namespace ToyDfba

open Totals

/-- A change of the orders of a book that keeps who is ahead of whom, from one kind of
auction to another. -/
structure Reprices (t t' : AuctionType) (orders : List Order) (f : Order → Order) : Prop where
  orderType : ∀ o, (f o).orderType = o.orderType
  live : ∀ o, (f o).live = o.live
  remaining : ∀ o, (f o).remaining = o.remaining
  fillBy : ∀ o n, f (o.fillBy n) = (f o).fillBy n
  ahead : ∀ a ∈ orders, ∀ b ∈ orders, ahead t' (f a).price (f b).price = ahead t a.price b.price

theorem canFill_eq_not_ahead (t : AuctionType) (p : U64) (o : Order) :
    canFill t p o = !ahead t p o.price := by
  cases t <;> simp only [canFill, ahead, ge_iff_le, ← not_lt, decide_not]

theorem isEligible_eq_not_ahead (t : AuctionType) (p : U64) (o : Order) :
    isEligible t p o = !ahead t o.price p := by
  cases t <;> simp only [isEligible, ahead, ge_iff_le, ← not_lt, decide_not]

section Reprices

variable {t t' : AuctionType} {orders : List Order} {f : Order → Order} (h : Reprices t t' orders f)

include h

theorem Reprices.liveMakers_eq : liveMakers (orders.map f) = (liveMakers orders).map f := by
  rw [liveMakers, liveMakers, List.filter_map]
  refine congrArg (List.map f) (List.filter_congr fun o _ => ?_)
  simp only [Function.comp_apply, Order.liveMaker, h.live, h.orderType]

theorem Reprices.liveTakers_eq : liveTakers (orders.map f) = (liveTakers orders).map f := by
  rw [liveTakers, liveTakers, List.filter_map]
  refine congrArg (List.map f) (List.filter_congr fun o _ => ?_)
  simp only [Function.comp_apply, Order.liveTaker, h.live, h.orderType]

theorem Reprices.total_eq {part : List Order} (hpart : part ⊆ orders) {c d : Order → Bool}
    (hcd : ∀ o ∈ orders, c (f o) = d o) :
    total Order.remaining c (part.map f) = total Order.remaining d part := by
  rw [total_map, total_congr _ fun o ho => hcd o (hpart ho)]
  exact total_congr_weight _ fun o _ _ => h.remaining o

theorem Reprices.price_eq_iff {a b : Order} (ha : a ∈ orders) (hb : b ∈ orders) :
    (f a).price = (f b).price ↔ a.price = b.price := by
  have hab := h.ahead a ha b hb
  have hba := h.ahead b hb a ha
  constructor
  · intro he
    rw [he, ahead_irrefl] at hab hba
    by_contra hne
    exact absurd (ahead_of_not (Bool.eq_false_iff.mp hba.symm) hne) (Bool.eq_false_iff.mp hab.symm)
  · intro he
    rw [he, ahead_irrefl] at hab hba
    by_contra hne
    exact absurd (ahead_of_not (Bool.eq_false_iff.mp hba) hne) (Bool.eq_false_iff.mp hab)

variable {a : Order} (ha : a ∈ orders)

include ha

theorem Reprices.matchedVolume_eq :
    matchedVolume t' (orders.map f) (f a).price = matchedVolume t orders a.price := by
  rw [ToyDfba.matchedVolume_eq, ToyDfba.matchedVolume_eq, makerVolume, takerVolume, h.liveMakers_eq,
    h.liveTakers_eq]
  refine congrArg₂ min ?_ ?_
  · refine h.total_eq (List.filter_subset_self _) fun o ho => ?_
    rw [isEligible_eq_not_ahead, isEligible_eq_not_ahead, h.ahead o ho a ha]
  · refine h.total_eq (List.filter_subset_self _) fun o ho => ?_
    rw [canFill_eq_not_ahead, canFill_eq_not_ahead, h.ahead a ha o ho]

theorem Reprices.levelVolume_eq :
    levelVolume (orders.map f) (f a).price = levelVolume orders a.price := by
  rw [levelVolume, levelVolume, h.liveTakers_eq]
  exact h.total_eq (List.filter_subset_self _) fun o ho =>
    decide_eq_decide.mpr (h.price_eq_iff ho ha)

theorem Reprices.aheadVolume_eq :
    aheadVolume t' (orders.map f) (f a).price = aheadVolume t orders a.price := by
  rw [aheadVolume, aheadVolume, h.liveTakers_eq]
  exact h.total_eq (List.filter_subset_self _) fun o ho => h.ahead o ho a ha

omit ha

theorem Reprices.clearingVolume_eq :
    clearingVolume t' (orders.map f) = clearingVolume t orders := by
  rw [clearingVolume, clearingVolume, List.map_map]
  exact congrArg (List.foldr max 0) (List.map_congr_left fun o ho => h.matchedVolume_eq ho)

include ha

theorem Reprices.levelFill_eq :
    levelFill t' (orders.map f) (f a).price = levelFill t orders a.price := by
  rw [levelFill, levelFill, h.levelVolume_eq ha, h.clearingVolume_eq, h.aheadVolume_eq ha]

theorem Reprices.settle_eq : settle t' (orders.map f) (f a) = f (settle t orders a) := by
  have htaker : (f a).liveTaker = a.liveTaker := by
    rw [Order.liveTaker, Order.liveTaker, h.live, h.orderType]
  have hfill : takerFill t' (orders.map f) (f a) = takerFill t orders a := by
    rw [takerFill, takerFill, h.levelFill_eq ha, h.levelVolume_eq ha, h.remaining]
  unfold settle
  rw [htaker, hfill]
  split_ifs
  · rw [h.fillBy]
  · rfl

omit ha

theorem Reprices.jams_iff : Jams t' (orders.map f) ↔ Jams t orders := by
  have htotal : ∀ part ⊆ orders, total Order.remaining (fun _ => true) (part.map f) =
      total Order.remaining (fun _ => true) part := fun part hpart =>
    h.total_eq hpart fun _ _ => rfl
  have hover : (∃ o ∈ (liveTakers orders).map f,
        2 ^ 64 ≤ o.remaining * levelFill t' (orders.map f) o.price) ↔
      ∃ o ∈ liveTakers orders, 2 ^ 64 ≤ o.remaining * levelFill t orders o.price := by
    simp only [List.mem_map, exists_exists_and_eq_and]
    refine exists_congr fun o => and_congr_right fun ho => ?_
    rw [h.remaining, h.levelFill_eq (List.filter_subset_self _ ho)]
  rw [Jams, Jams, h.liveMakers_eq, h.liveTakers_eq, htotal (liveMakers orders) (List.filter_subset_self _),
    htotal (liveTakers orders) (List.filter_subset_self _), hover, ne_eq, List.map_eq_nil_iff, ne_eq,
    List.map_eq_nil_iff]

/-- The auction on the changed book, but for its price. -/
theorem Reprices.executeAuction_eq {price volume : U64} {out : List Order}
    (hrun : executeAuction orders t = some ((price, volume), out)) :
    ∃ price', executeAuction (orders.map f) t' = some ((price', volume), out.map f) ∧
      Clears t' (orders.map f) price' volume.val := by
  obtain ⟨hnojam, hclears, rfl⟩ := executeAuction_eq_some_iff.mp hrun
  obtain ⟨price', volume', hclears'⟩ := exists_clears t' (orders.map f)
  obtain rfl : volume' = volume.val := by
    rw [hclears'.volume_eq, h.clearingVolume_eq, hclears.volume_eq]
  refine ⟨price', executeAuction_eq_some_iff.mpr ⟨mt h.jams_iff.mp hnojam, hclears', ?_⟩, hclears'⟩
  rw [List.map_map, List.map_map]
  exact List.map_congr_left fun o ho => (h.settle_eq ho).symm

theorem Reprices.executeAuction_eq_none (hrun : executeAuction orders t = none) :
    executeAuction (orders.map f) t' = none := by
  rw [executeAuction_eq_none_iff] at hrun ⊢
  exact h.jams_iff.mpr hrun

end Reprices

theorem Clears.exists_price {t : AuctionType} {orders : List Order} {price : U64} {volume : ℕ}
    (h : Clears t orders price volume) (hpos : 0 < volume) : ∃ o ∈ orders, o.price = price := by
  obtain ⟨htrades, hlow⟩ := h.least hpos
  have htrades : matchedVolume t orders price = volume := htrades
  obtain ⟨o, ho, hle, hmatched⟩ : ∃ o ∈ orders, o.price ≤ price ∧
      matchedVolume t orders price ≤ matchedVolume t orders o.price := by
    cases t with
    | bid =>
      obtain ⟨o, ho, hle, hmatched⟩ :=
        Crossing.exists_ask_matched_le Order.price Order.remaining (htrades ▸ hpos)
      exact ⟨o, (List.mem_filter.mp ho).1, hle, hmatched⟩
    | ask =>
      obtain ⟨o, ho, hle, hmatched⟩ :=
        Crossing.exists_ask_matched_le Order.price Order.remaining (htrades ▸ hpos)
      exact ⟨o, (List.mem_filter.mp ho).1, hle, hmatched⟩
  have hgreatest := h.greatest.2 ⟨o.price, rfl⟩
  exact ⟨o, ho, le_antisymm hle (hlow (le_antisymm hgreatest (htrades ▸ hmatched)))⟩

def prices (orders : List Order) : Set U64 := {p | ∃ o ∈ orders, o.price = p}

def Order.reprice (g : U64 → U64) (o : Order) : Order := { o with price := g o.price }

/-- The auction compares prices and nothing else: when they all change and keep their
order, it panics as before, or it moves the clearing price along and leaves the rest. -/
theorem executeAuction_reprice (t : AuctionType) {orders : List Order} {g : U64 → U64}
    (hmono : StrictMonoOn g (prices orders)) :
    executeAuction (orders.map (Order.reprice g)) t =
      (executeAuction orders t).map fun res =>
        ((if 0 < res.1.2 then g res.1.1 else 0, res.1.2), res.2.map (Order.reprice g)) := by
  have hreprices : Reprices t t orders (Order.reprice g) := by
    refine ⟨fun _ => rfl, fun _ => rfl, fun _ => rfl, fun _ _ => rfl, fun a ha b hb => ?_⟩
    cases t with
    | bid => exact decide_eq_decide.mpr (hmono.lt_iff_lt ⟨a, ha, rfl⟩ ⟨b, hb, rfl⟩)
    | ask => exact decide_eq_decide.mpr (hmono.lt_iff_lt ⟨b, hb, rfl⟩ ⟨a, ha, rfl⟩)
  cases hrun : executeAuction orders t with
  | none => exact hreprices.executeAuction_eq_none hrun
  | some res =>
    obtain ⟨⟨price, volume⟩, out⟩ := res
    have hclears := executeAuction_clears hrun
    obtain ⟨price', hrun', hclears'⟩ := hreprices.executeAuction_eq hrun
    rw [hrun', Option.map_some]
    dsimp only
    refine congrArg some (Prod.ext (Prod.ext ?_ rfl) rfl)
    split_ifs with hpos
    · obtain ⟨a, ha, rfl⟩ := hclears.exists_price hpos
      obtain ⟨b', hb', rfl⟩ := hclears'.exists_price hpos
      obtain ⟨b, hb, rfl⟩ := List.mem_map.mp hb'
      refine le_antisymm ((hclears'.least hpos).2 ?_) ?_
      · exact (hreprices.matchedVolume_eq ha).trans (hclears.least hpos).1
      · have hle : a.price ≤ b.price := (hclears.least hpos).2
          ((hreprices.matchedVolume_eq hb).symm.trans (hclears'.least hpos).1)
        exact (hmono.le_iff_le ⟨a, ha, rfl⟩ ⟨b, hb, rfl⟩).mpr hle
    · exact hclears'.idle (Nat.eq_zero_of_not_pos hpos)

/-- With twice the prices the example book clears at 210. -/
theorem executeAuction_reprice_exampleBook :
    ∃ out, executeAuction (exampleBook.map (Order.reprice fun p => 2 * p)) .bid =
      some ((210, 800), out) := by
  have hmono : ∀ a ∈ exampleBook, ∀ b ∈ exampleBook, a.price < b.price →
      2 * a.price < 2 * b.price := by decide
  obtain ⟨out, hrun⟩ := exists_run_exampleBook
  rw [executeAuction_reprice .bid, hrun]
  · exact ⟨_, rfl⟩
  · rintro _ ⟨a, ha, rfl⟩ _ ⟨b, hb, rfl⟩ hlt
    exact hmono a ha b hb hlt

def AuctionType.opposite : AuctionType → AuctionType
  | .bid => .ask
  | .ask => .bid

def Side.opposite : Side → Side
  | .buy => .sell
  | .sell => .buy

/-- The order that the other queue holds instead, at a price from the other end. -/
def Order.mirror (g : U64 → U64) (o : Order) : Order :=
  { o with price := g o.price, side := o.side.opposite }

/-- The two auctions are mirror images in what they trade and whom they fill. Their prices
are not: where one takes the lowest of the prices that trade the most, the image of what
the other takes is the highest. -/
theorem executeAuction_mirror {t : AuctionType} {orders : List Order} {g : U64 → U64}
    (hanti : StrictAntiOn g (prices orders)) :
    (executeAuction orders t = none ∧
        executeAuction (orders.map (Order.mirror g)) t.opposite = none) ∨
      ∃ price volume out price',
        executeAuction orders t = some ((price, volume), out) ∧
        executeAuction (orders.map (Order.mirror g)) t.opposite =
          some ((price', volume), out.map (Order.mirror g)) ∧
        (0 < volume → ∃ q, price' = g q ∧
          IsLeast {p ∈ prices orders | matchedVolume t orders p = volume.val} price ∧
          IsGreatest {p ∈ prices orders | matchedVolume t orders p = volume.val} q) := by
  have hreprices : Reprices t t.opposite orders (Order.mirror g) := by
    refine ⟨fun _ => rfl, fun _ => rfl, fun _ => rfl, fun _ _ => rfl, fun a ha b hb => ?_⟩
    cases t with
    | bid => exact decide_eq_decide.mpr (hanti.lt_iff_gt ⟨b, hb, rfl⟩ ⟨a, ha, rfl⟩)
    | ask => exact decide_eq_decide.mpr (hanti.lt_iff_gt ⟨a, ha, rfl⟩ ⟨b, hb, rfl⟩)
  cases hrun : executeAuction orders t with
  | none => exact Or.inl ⟨rfl, hreprices.executeAuction_eq_none hrun⟩
  | some res =>
    obtain ⟨⟨price, volume⟩, out⟩ := res
    have hclears := executeAuction_clears hrun
    obtain ⟨price', hrun', hclears'⟩ := hreprices.executeAuction_eq hrun
    refine Or.inr ⟨price, volume, out, price', rfl, hrun', fun hpos => ?_⟩
    obtain ⟨b', hb', rfl⟩ := hclears'.exists_price hpos
    obtain ⟨b, hb, rfl⟩ := List.mem_map.mp hb'
    refine ⟨b.price, rfl, ⟨⟨hclears.exists_price hpos, (hclears.least hpos).1⟩, fun p hp =>
      (hclears.least hpos).2 hp.2⟩, ⟨⟨b, hb, rfl⟩, ?_⟩, ?_⟩
    · exact (hreprices.matchedVolume_eq hb).symm.trans (hclears'.least hpos).1
    · rintro p ⟨⟨o, ho, rfl⟩, htrades⟩
      have hle : g b.price ≤ g o.price := (hclears'.least hpos).2
        ((hreprices.matchedVolume_eq ho).trans htrades)
      exact (hanti.le_iff_ge ⟨b, hb, rfl⟩ ⟨o, ho, rfl⟩).mp hle

/-- One bid above one offer: every price from 95 to 105 trades all of it. -/
def gapBook : List Order := [sampleOrder .maker .buy 105 100, sampleOrder .taker .sell 95 100]

/-- Seen from 200 the lowest of these is the image of the highest. -/
theorem executeAuction_mirror_gapBook :
    (executeAuction gapBook .bid).map Prod.fst = some (95, 100) ∧
      (executeAuction (gapBook.map (Order.mirror fun p => 200 - p)) .ask).map Prod.fst =
        some (95, 100) ∧
      ∃ q, (95 : U64) = 200 - q ∧
        IsGreatest {p ∈ prices gapBook | matchedVolume .bid gapBook p = 100} q := by
  have hbid : (executeAuction gapBook .bid).map Prod.fst = some (95, 100) := by decide
  have hask : (executeAuction (gapBook.map (Order.mirror fun p => 200 - p)) .ask).map Prod.fst =
      some (95, 100) := by decide
  have hanti : ∀ a ∈ gapBook, ∀ b ∈ gapBook, a.price < b.price →
      (200 - b.price : U64) < 200 - a.price := by decide
  have hmirror : StrictAntiOn (fun p : U64 => 200 - p) (prices gapBook) := by
    rintro _ ⟨a, ha, rfl⟩ _ ⟨b, hb, rfl⟩ hlt
    exact hanti a ha b hb hlt
  refine ⟨hbid, hask, ?_⟩
  rcases executeAuction_mirror (t := .bid) hmirror with
    ⟨hnone, -⟩ | ⟨price, volume, out, price', hrun, himage, hprice⟩
  · rw [hnone] at hbid
    cases hbid
  · rw [hrun, Option.map_some, Option.some.injEq, Prod.mk.injEq] at hbid
    rw [AuctionType.opposite] at himage
    rw [himage, Option.map_some, Option.some.injEq, Prod.mk.injEq] at hask
    obtain ⟨rfl, rfl⟩ := hbid
    obtain ⟨rfl, -⟩ := hask
    obtain ⟨q, hq, -, hgreatest⟩ := hprice (by decide)
    exact ⟨q, hq, hgreatest⟩

end ToyDfba
