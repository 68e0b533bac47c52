import ToyDfba.Proofs.Makers
import ToyDfba.Proofs.Pool

/-! A maker whose bid is never filled buys in every batch. One bid is enough for fills
without end, which nobody has paid for. -/

namespace ToyDfba

open Ledger Totals

def restingBid (price quantity : U64) : Order :=
  { id := 0, owner := 1, orderType := .maker, side := .buy, price := price, quantity := quantity,
    timestamp := 0, isActive := true, filledQuantity := 0 }

def incomingOffer (price quantity : U64) : Order :=
  { id := 1, owner := 2, orderType := .taker, side := .sell, price := price, quantity := quantity,
    timestamp := 0, isActive := true, filledQuantity := 0 }

/-- The bid and an offer that it meets. -/
def crossing (price quantity : U64) : List Order :=
  [restingBid price quantity, incomingOffer price quantity]

section Cross

variable {price quantity : U64}

theorem liveMakers_crossing (hquantity : 0 < quantity) :
    liveMakers (crossing price quantity) = [restingBid price quantity] := by
  simp [crossing, liveMakers, Order.liveMaker, Order.live, restingBid, incomingOffer, hquantity]

theorem liveTakers_crossing (hquantity : 0 < quantity) :
    liveTakers (crossing price quantity) = [incomingOffer price quantity] := by
  simp [crossing, liveTakers, Order.liveTaker, Order.live, restingBid, incomingOffer, hquantity]

theorem matchedVolume_crossing (hquantity : 0 < quantity) (p : U64) :
    matchedVolume .bid (crossing price quantity) p = if p = price then quantity.val else 0 := by
  rw [matchedVolume, liveMakers_crossing hquantity, liveTakers_crossing hquantity,
    Crossing.matched, Crossing.demand, Crossing.supply]
  rcases lt_trichotomy p price with hlt | rfl | hgt
  · simp [restingBid, incomingOffer, hlt.ne, not_le.mpr hlt]
  · simp [restingBid, incomingOffer, Order.remaining]
  · simp [restingBid, incomingOffer, hgt.ne', not_le.mpr hgt]

theorem clears_crossing (hquantity : 0 < quantity) :
    Clears .bid (crossing price quantity) price quantity.val := by
  have hmatched := @matchedVolume_crossing price quantity hquantity
  refine ⟨⟨⟨price, ?_⟩, ?_⟩, fun _ => ⟨?_, fun p hp => ?_⟩, fun hzero => ?_⟩
  · rw [hmatched, if_pos rfl]
  · rintro _ ⟨p, rfl⟩
    rw [hmatched]
    split_ifs
    · exact le_rfl
    · exact Nat.zero_le _
  · exact (hmatched price).trans (if_pos rfl)
  · by_contra hlt
    have hp := (hmatched p).symm.trans hp
    rw [if_neg (not_le.mp hlt).ne] at hp
    exact hquantity.ne (Fin.ext hp)
  · exact absurd (Fin.ext hzero) hquantity.ne'

theorem levelVolume_crossing (hquantity : 0 < quantity) :
    levelVolume (crossing price quantity) price = quantity.val := by
  rw [levelVolume, liveTakers_crossing hquantity]
  simp [incomingOffer, Order.remaining]

theorem levelFill_crossing (hquantity : 0 < quantity) :
    levelFill .bid (crossing price quantity) price = quantity.val := by
  have hvolume := (@clears_crossing price quantity hquantity).volume_eq
  have hahead : aheadVolume .bid (crossing price quantity) price = 0 := by
    rw [aheadVolume, liveTakers_crossing hquantity]
    simp [incomingOffer, ahead]
  rw [levelFill, ← hvolume, levelVolume_crossing hquantity, hahead, Nat.sub_zero, min_self]

theorem settle_crossing (hquantity : 0 < quantity) :
    (crossing price quantity).map (settle .bid (crossing price quantity)) =
      [restingBid price quantity, { incomingOffer price quantity with filledQuantity := quantity }] := by
  have hfill : takerFill .bid (crossing price quantity) (incomingOffer price quantity) =
      quantity.val := by
    rw [takerFill, show (incomingOffer price quantity).price = price from rfl,
      levelFill_crossing hquantity, levelVolume_crossing hquantity]
    exact ProRata.share_full _ hquantity
  have htaker : (incomingOffer price quantity).liveTaker := by
    simp [incomingOffer, Order.liveTaker, Order.live, hquantity]
  have hbid : settle .bid (crossing price quantity) (restingBid price quantity) =
      restingBid price quantity := settle_maker .bid _ rfl
  have hoffer : settle .bid (crossing price quantity) (incomingOffer price quantity) =
      { incomingOffer price quantity with filledQuantity := quantity } := by
    rw [settle, if_pos htaker, hfill, Order.fillBy]
    simp [incomingOffer]
  rw [← hoffer]
  exact congrArg (· :: [_]) hbid

theorem crossing_cleared (hquantity : 0 < quantity) (hfits : quantity.val * quantity.val < 2 ^ 64) :
    executeAuction (crossing price quantity) .bid = some ((price, quantity),
      [restingBid price quantity, { incomingOffer price quantity with filledQuantity := quantity }]) := by
  have hlt := quantity.isLt
  refine executeAuction_eq_some_iff.mpr ⟨?_, clears_crossing hquantity, (settle_crossing hquantity).symm⟩
  rintro ⟨-, -, hover⟩
  rw [liveMakers_crossing hquantity, liveTakers_crossing hquantity] at hover
  rcases hover with hover | hover | ⟨o, ho, hover⟩
  · simp [restingBid, Order.remaining] at hover
    omega
  · simp [incomingOffer, Order.remaining] at hover
    omega
  · obtain rfl := List.mem_singleton.mp ho
    rw [show (incomingOffer price quantity).price = price from rfl,
      levelFill_crossing hquantity] at hover
    exact absurd hfits (not_lt.mpr hover)

theorem stillOpen_crossing (hquantity : 0 < quantity) :
    [restingBid price quantity,
        { incomingOffer price quantity with filledQuantity := quantity }].filter stillOpen =
      [restingBid price quantity] := by
  simp [stillOpen, restingBid, incomingOffer, hquantity]

end Cross

theorem nothing_cleared : executeAuction [] .ask = some ((0, 0), []) := rfl

def buyTx (price quantity : U64) : Tx := ⟨1, ⟨0, 0⟩, .placeOrder ⟨.maker, .buy, price, quantity⟩⟩

def sellTx (price quantity : U64) : Tx := ⟨2, ⟨0, 0⟩, .placeOrder ⟨.taker, .sell, price, quantity⟩⟩

def batchTx (slot batchId : U64) : Tx := ⟨3, ⟨slot, 0⟩, .executeBatch batchId⟩

structure Standing (price quantity : U64) (n : ℕ) (s : ProgramState) : Prop where
  running : s.auctionState.isPaused = false
  interval : s.auctionState.batchInterval = 2
  slot : s.auctionState.lastBatchSlot.val = 2 * n
  counter : s.auctionState.batchCounter.val = n
  bid : s.bidQueue = ⟨.bid, [restingBid price quantity], 85⟩
  ask : s.askQueue = ⟨.ask, [], 85⟩
  free : ∀ k : U64, n < k.val → s.results k = none

def withOffer (price quantity : U64) (s : ProgramState) : ProgramState :=
  { s with bidQueue := ⟨.bid, crossing price quantity, 85⟩ }

section Round

variable {price quantity : U64} {n : ℕ} {s : ProgramState}

theorem Standing.sell (h : Standing price quantity n s) (hprice : 0 < price)
    (hquantity : 0 < quantity) :
    applyTx s (sellTx price quantity) = withOffer price quantity s := by
  have hvalid : require (price > 0 ∧ quantity > 0) .invalidOrderParameters = .ok () :=
    require_eq_ok.mpr ⟨hprice, hquantity⟩
  obtain ⟨⟨authority, interval, slot, counter, isPaused⟩, bid, ask, results⟩ := s
  obtain rfl : bid = ⟨.bid, [restingBid price quantity], 85⟩ := h.bid
  obtain rfl : isPaused = false := h.running
  simp only [applyTx, process, sellTx, placeOrderHandler, placeOne, hvalid]
  rfl

theorem applyTx_buy (hprice : 0 < price) (hquantity : 0 < quantity) :
    applyTx sampleStart (buyTx price quantity) =
      { sampleStart with bidQueue := ⟨.bid, [restingBid price quantity], 85⟩ } := by
  have hvalid : require (price > 0 ∧ quantity > 0) .invalidOrderParameters = .ok () :=
    require_eq_ok.mpr ⟨hprice, hquantity⟩
  simp only [applyTx, process, buyTx, placeOrderHandler, placeOne, hvalid]
  rfl

theorem standing_buy (hprice : 0 < price) (hquantity : 0 < quantity) :
    Standing price quantity 0 (run sampleStart [buyTx price quantity]) := by
  rw [show run sampleStart [buyTx price quantity] = _ from applyTx_buy hprice hquantity]
  exact ⟨rfl, rfl, rfl, rfl, rfl, rfl, fun _ _ => rfl⟩

theorem ledger_buy (hprice : 0 < price) (hquantity : 0 < quantity) :
    ledger sampleStart [buyTx price quantity] = [⟨.bid, restingBid price quantity, none⟩] := by
  have hbuy := applyTx_buy hprice hquantity
  change arrive [.bid, .ask] (arrivals sampleStart (buyTx price quantity)) = _
  unfold arrivals
  rw [hbuy]
  rfl

theorem Standing.batch (h : Standing price quantity n s) (hquantity : 0 < quantity)
    (hfits : quantity.val * quantity.val < 2 ^ 64) {slot k : U64} (hslot : slot.val = 2 * (n + 1))
    (hk : k.val = n + 1) :
    runsBatch (withOffer price quantity s, batchTx slot k) ∧
      Standing price quantity (n + 1) (applyTx (withOffer price quantity s) (batchTx slot k)) := by
  have hfree : (withOffer price quantity s).results k = none := h.free k (by omega)
  have hdue : (withOffer price quantity s).auctionState.lastBatchSlot.val +
      (withOffer price quantity s).auctionState.batchInterval.val ≤ slot.val := by
    have hinterval : (withOffer price quantity s).auctionState.batchInterval.val = 2 := congrArg Fin.val h.interval
    have hlast : (withOffer price quantity s).auctionState.lastBatchSlot.val = 2 * n := h.slot
    omega
  have hcounter : Checked.add (withOffer price quantity s).auctionState.batchCounter 1 = some k :=
    Checked.add_eq_some.mpr (by rw [hk]; exact congrArg (· + 1) h.counter)
  have hask : executeAuction (withOffer price quantity s).askQueue.orders .ask = some ((0, 0), []) := by
    rw [show (withOffer price quantity s).askQueue = ⟨.ask, [], 85⟩ from h.ask]
    exact nothing_cleared
  obtain ⟨events, hok⟩ := executeBatchHandler_eq_ok ⟨slot, 0⟩ hfree hdue (crossing_cleared hquantity hfits)
    hask hcounter
  have happly : applyTx (withOffer price quantity s) (batchTx slot k) = _ := applyTx_of_ok hok
  refine ⟨runsBatch_iff.mpr ⟨rfl, _, hok⟩, ?_⟩
  rw [happly]
  refine ⟨h.running, h.interval, hslot, hk,
    congrArg (OrderQueue.mk .bid · 85) (stillOpen_crossing hquantity), ?_, fun k' hk' => ?_⟩
  · rw [show (withOffer price quantity s).askQueue = ⟨.ask, [], 85⟩ from h.ask]
    rfl
  · refine (Function.update_of_ne ?_ _ _).trans (h.free k' (by omega))
    rintro rfl
    omega

theorem received_withOffer (hquantity : 0 < quantity) {slot k : U64}
    (hruns : runsBatch (withOffer price quantity s, batchTx slot k)) :
    received (withOffer price quantity s) (batchTx slot k) .bid = quantity.val := by
  rw [received, if_pos hruns]
  change growth .taker (crossing price quantity)
    ((crossing price quantity).map (settle .bid (crossing price quantity))) = quantity.val
  rw [settle_crossing hquantity]
  simp [growth, crossing, restingBid, incomingOffer]

end Round

/-- The makers that were ever placed, wherever they are now. -/
def makerEntries (entries : List Entry) : List Entry :=
  entries.filter fun e => e.item.orderType = .maker

section Ledger

variable {s₀ : ProgramState} {txs : List Tx} {tx : Tx}

theorem advance_of_maker (h : Started s₀) (hstays : ¬ tx.ix.cancels) {e : Entry}
    (he : e ∈ ledger s₀ txs) (hmaker : e.item.orderType = .maker) :
    e.advance (fate (run s₀ txs) tx) = e := by
  obtain ⟨t, o, removed⟩ := e
  cases removed with
  | some removal => rfl
  | none =>
    have hrests := (h.queueOk_run txs t).orders o
      (resting_ledger h txs t ▸ mem_resting he rfl rfl)
    rcases @fate_maker (run s₀ txs) tx t o hrests hmaker with hfate | ⟨-, -, hcancels, -⟩
    · simp [Entry.advance, hfate]
    · exact absurd hcancels hstays

theorem makerEntries_snoc (h : Started s₀) (hstays : ¬ tx.ix.cancels)
    (hnone : ∀ p ∈ tx.ix.orders, p.orderType ≠ .maker) :
    makerEntries (ledger s₀ (txs ++ [tx])) = makerEntries (ledger s₀ txs) := by
  have hkind : ∀ e : Entry, (e.advance (fate (run s₀ txs) tx)).item.orderType =
      e.item.orderType := by
    intro e
    unfold Entry.advance
    split_ifs
    · rfl
    · exact fate_orderType
  have hnew : (arrive [AuctionType.bid, .ask] (arrivals (run s₀ txs) tx) : List Entry).filter
      (fun e => e.item.orderType = .maker) = [] := by
    apply List.filter_eq_nil_iff.mpr
    intro e he hmaker
    obtain ⟨t, -, he⟩ := List.mem_flatMap.mp he
    obtain ⟨o, ho, rfl⟩ := List.mem_map.mp he
    exact hnone _ ((applyTx_orders _ tx t).2 o ho).2.requested (of_decide_eq_true hmaker)
  have hold : (ledger s₀ txs).filter ((fun e : Entry => decide (e.item.orderType = .maker)) ∘
      Entry.advance (fate (run s₀ txs) tx)) = makerEntries (ledger s₀ txs) := by
    unfold makerEntries
    congr 1
    funext e
    rw [Function.comp_apply, hkind]
  rw [makerEntries, ledger, book_snoc, record, List.filter_append, hnew, List.append_nil,
    List.filter_map, ← ledger, hold]
  have hstill : ∀ e ∈ makerEntries (ledger s₀ txs), e.advance (fate (run s₀ txs) tx) = id e := by
    intro e he
    obtain ⟨he, hmaker⟩ := List.mem_filter.mp he
    exact advance_of_maker h hstays he (of_decide_eq_true hmaker)
  rw [List.map_congr_left hstill, List.map_id]

end Ledger

/-- One more offer for all that the bid wants, and one more batch. -/
theorem Standing.round {price quantity : U64} {n : ℕ} {txs : List Tx}
    (h : Standing price quantity n (run sampleStart txs)) (hprice : 0 < price)
    (hquantity : 0 < quantity) (hfits : quantity.val * quantity.val < 2 ^ 64)
    (hn : n + 1 < 2 ^ 62) :
    ∃ txs', Standing price quantity (n + 1) (run sampleStart txs') ∧
      makerEntries (ledger sampleStart txs') = makerEntries (ledger sampleStart txs) ∧
      filledTotal sampleStart txs' .bid = filledTotal sampleStart txs .bid + quantity.val := by
  obtain ⟨slot, hslot⟩ : ∃ slot : U64, slot.val = 2 * (n + 1) := ⟨⟨_, by omega⟩, rfl⟩
  obtain ⟨k, hk⟩ : ∃ k : U64, k.val = n + 1 := ⟨⟨_, by omega⟩, rfl⟩
  obtain ⟨hruns, hnext⟩ := h.batch hquantity hfits hslot hk
  have hsell : run sampleStart (txs ++ [sellTx price quantity]) =
      withOffer price quantity (run sampleStart txs) := by
    rw [run, Runs.run_snoc]
    exact h.sell hprice hquantity
  refine ⟨txs ++ [sellTx price quantity] ++ [batchTx slot k], ?_, ?_, ?_⟩
  · rw [run, Runs.run_snoc]
    rw [run] at hsell
    rw [hsell]
    exact hnext
  · have hoffer : ∀ p ∈ (sellTx price quantity).ix.orders, p.orderType ≠ .maker := by
      intro p hp
      obtain rfl := List.mem_singleton.mp hp
      exact OrderType.noConfusion
    have hbatch := @makerEntries_snoc _ (txs ++ [sellTx price quantity]) (batchTx slot k)
      started_sampleStart Bool.false_ne_true (List.forall_mem_nil _)
    have hsold := @makerEntries_snoc _ txs (sellTx price quantity) started_sampleStart
      Bool.false_ne_true hoffer
    exact hbatch.trans hsold
  · have hnothing : received (run sampleStart txs) (sellTx price quantity) .bid = 0 := by
      refine if_neg fun hbatch => ?_
      have hix : (sellTx price quantity).ix.executes := (runsBatch_iff.mp hbatch).1
      exact Bool.false_ne_true hix
    rw [filledTotal_snoc started_sampleStart, filledTotal_snoc started_sampleStart, hnothing, hsell,
      received_withOffer hquantity hruns, Nat.add_zero]

/-- One bid, the only maker that is ever placed, has all its quantity sold to it in each of
any number of batches, as far as the slots go, and still stands there as it was placed. -/
theorem one_bid_fills_all {price quantity : U64} (hprice : 0 < price) (hquantity : 0 < quantity)
    (hfits : quantity.val * quantity.val < 2 ^ 64) {n : ℕ} (hn : n < 2 ^ 62) :
    ∃ txs, (ledger sampleStart txs).filter (fun e => e.item.orderType = .maker) =
        [⟨.bid, restingBid price quantity, none⟩] ∧
      (batches sampleStart txs).length = n ∧
      filledTotal sampleStart txs .bid = quantity.val * n := by
  obtain ⟨txs, hstanding, hmakers, hfilled⟩ : ∃ txs, Standing price quantity n (run sampleStart txs) ∧
      makerEntries (ledger sampleStart txs) = [⟨.bid, restingBid price quantity, none⟩] ∧
      filledTotal sampleStart txs .bid = quantity.val * n := by
    induction n with
    | zero =>
      have hledger := ledger_buy hprice hquantity
      refine ⟨[buyTx price quantity], standing_buy hprice hquantity, ?_, ?_⟩
      · rw [hledger]
        rfl
      · rw [filledTotal, hledger]
        rfl
    | succ n ih =>
      obtain ⟨txs, hstanding, hmakers, hfilled⟩ := ih (by omega)
      obtain ⟨txs', hstanding', hmakers', hfilled'⟩ := hstanding.round hprice hquantity hfits hn
      refine ⟨txs', hstanding', hmakers'.trans hmakers, ?_⟩
      rw [hfilled', hfilled, Nat.mul_succ]
  have hcounter := (started_sampleStart.paced txs).counter
  exact ⟨txs, hmakers, hcounter.symm.trans hstanding.counter, hfilled⟩

theorem one_bid_fills_all_million :
    ∃ txs, (ledger sampleStart txs).filter (fun e => e.item.orderType = .maker) =
        [⟨.bid, restingBid 105 300, none⟩] ∧
      (batches sampleStart txs).length = 1000000 ∧
      filledTotal sampleStart txs .bid = 300 * 1000000 := by
  obtain ⟨txs, hmakers, hbatches, hfilled⟩ := @one_bid_fills_all 105 300 (by decide) (by decide)
    (by decide) 1000000 (by decide)
  exact ⟨txs, hmakers, hbatches, hfilled⟩

end ToyDfba
