import Mathlib.Data.Multiset.Filter
import ToyDfba.Proofs.Books
import ToyDfba.Proofs.Batching
import ToyDfba.Spec.Pool

/-! The pools follow the accounts step by step, as long as every order that is requested
finds a place: neither the places nor the ids nor the timestamps of the orders enter anything
but the limit. -/

namespace ToyDfba

open Totals

section Anonymous

variable {t : AuctionType} {orders orders' : List Order}

theorem sameBook_anonymous (orders : List Order) : SameBook orders (orders.map Order.anonymous) := by
  constructor
  · intro c
    rw [liveMakers, liveMakers, List.filter_map, total_map]
    rfl
  · intro c
    rw [liveTakers, liveTakers, List.filter_map, total_map]
    rfl

theorem dominates_anonymous (orders : List Order) :
    Dominates orders (orders.map Order.anonymous) := by
  intro a ha
  obtain ⟨ha, hlive⟩ := List.mem_filter.mp ha
  obtain ⟨o, ho, rfl⟩ := List.mem_map.mp ha
  exact ⟨o, List.mem_filter.mpr ⟨ho, hlive⟩, rfl, le_rfl⟩

theorem anonymous_dominates (orders : List Order) :
    Dominates (orders.map Order.anonymous) orders := by
  intro a ha
  obtain ⟨ha, hlive⟩ := List.mem_filter.mp ha
  exact ⟨a.anonymous, List.mem_filter.mpr ⟨List.mem_map_of_mem ha, hlive⟩, rfl, le_rfl⟩

theorem settle_anonymous (t : AuctionType) (orders : List Order) (o : Order) :
    settle t orders o.anonymous = (settle t orders o).anonymous := by
  have hlive : o.anonymous.liveTaker = o.liveTaker := rfl
  unfold settle
  rw [hlive]
  split_ifs <;> rfl

/-- The same orders but for their ids, their timestamps and their places. -/
def Alike (orders orders' : List Order) : Prop := (orders.map Order.anonymous).Perm orders'

theorem Alike.sameBook (h : Alike orders orders') : SameBook orders orders' :=
  (sameBook_anonymous orders).trans (sameBook_of_perm h)

theorem Alike.executeAuction_eq_none (h : Alike orders orders')
    (hnone : executeAuction orders t = none) : executeAuction orders' t = none := by
  rw [executeAuction_eq_none_iff] at hnone ⊢
  exact h.sameBook.symm.jams ((dominates_of_perm h.symm).trans (anonymous_dominates orders)) hnone

/-- The auction returns the same on orders that are alike, and leaves them alike. -/
theorem Alike.executeAuction_eq_some (h : Alike orders orders') {best : U64 × U64}
    {out : List Order} (hrun : executeAuction orders t = some (best, out)) :
    ∃ out', executeAuction orders' t = some (best, out') ∧ Alike out out' := by
  refine ⟨_, h.sameBook.executeAuction_eq ((dominates_anonymous orders).trans (dominates_of_perm h))
    hrun, ?_⟩
  rw [executeAuction_orders hrun, Alike, List.map_map]
  have hsettle : Order.anonymous ∘ settle t orders = settle t orders ∘ Order.anonymous :=
    funext fun o => (settle_anonymous t orders o).symm
  rw [hsettle, ← List.map_map]
  exact h.map _

theorem Alike.stillOpen (h : Alike orders orders') :
    Alike (orders.filter stillOpen) (orders'.filter stillOpen) := by
  have hopen : (orders.filter ToyDfba.stillOpen).map Order.anonymous =
      (orders.map Order.anonymous).filter ToyDfba.stillOpen := by
    rw [List.filter_map]
    rfl
  rw [Alike, hopen]
  exact h.filter _

theorem alike_pool (s : ProgramState) (t : AuctionType) :
    Alike (s.queue t).orders (s.pool.orders t).toList :=
  Multiset.coe_eq_coe.mp (Multiset.coe_toList _).symm

end Anonymous

section Batch

variable {s : ProgramState} {batchId : U64}

theorem executeBatchHandler_eq_ok (clock : Clock) {bid ask : U64 × U64} {bids asks : List Order}
    {batchCounter : U64} (hfree : s.results batchId = none)
    (hdue : s.auctionState.lastBatchSlot.val + s.auctionState.batchInterval.val ≤ clock.slot.val)
    (hbid : executeAuction s.bidQueue.orders .bid = some (bid, bids))
    (hask : executeAuction s.askQueue.orders .ask = some (ask, asks))
    (hcounter : Checked.add s.auctionState.batchCounter 1 = some batchCounter) :
    ∃ events, executeBatchHandler clock batchId s =
      .ok ({ auctionState :=
              { s.auctionState with lastBatchSlot := clock.slot, batchCounter := batchCounter }
             bidQueue := { s.bidQueue with orders := bids.filter stillOpen }
             askQueue := { s.askQueue with orders := asks.filter stillOpen }
             results := Function.update s.results batchId
              (some
                { batchId := batchCounter, bidClearingPrice := bid.1, bidVolume := bid.2,
                  askClearingPrice := ask.1, askVolume := ask.2, timestamp := clock.unixTimestamp }) },
        events) := by
  have hfits := lt_of_le_of_lt hdue clock.slot.isLt
  have hadd : Checked.add s.auctionState.lastBatchSlot s.auctionState.batchInterval =
      some ⟨_, hfits⟩ := Checked.add_eq_some.mpr rfl
  refine ⟨[.batchExecuted
    { batchId := batchCounter, bidClearingPrice := bid.1, bidVolume := bid.2,
      askClearingPrice := ask.1, askVolume := ask.2 }], ?_⟩
  simp only [executeBatchHandler, bind_eq_ok, initResult_eq_ok, require_eq_ok, orPanic_eq_ok]
  refine ⟨_, ⟨hfree, rfl⟩, _, hadd, (), hdue, _, hbid, _, hask, _, hcounter, ?_⟩
  dsimp only
  rw [Function.update_idem]

/-- A batch on the accounts is a batch on the pools. -/
theorem applyTx_executeBatch_pool (s : ProgramState) (signer : Pubkey) (clock : Clock)
    (batchId : U64) :
    (applyTx s ⟨signer, clock, .executeBatch batchId⟩).pool = s.pool.executeBatch clock batchId := by
  have hbids := alike_pool s .bid
  have hasks := alike_pool s .ask
  by_cases hready : BatchReady clock batchId s
  · have hclears : ∀ t, ∃ res, executeAuction (s.queue t).orders t = some res := fun t =>
      Option.ne_none_iff_exists'.mp (mt executeAuction_eq_none_iff.mp (hready.clearable t))
    obtain ⟨⟨bid, bids⟩, hbid⟩ := hclears .bid
    obtain ⟨⟨ask, asks⟩, hask⟩ := hclears .ask
    have hcounter : Checked.add s.auctionState.batchCounter 1 = some ⟨_, hready.countable⟩ :=
      Checked.add_eq_some.mpr rfl
    obtain ⟨events, hok⟩ := executeBatchHandler_eq_ok clock hready.free hready.due hbid hask
      hcounter
    have happly : applyTx s ⟨signer, clock, .executeBatch batchId⟩ = _ := applyTx_of_ok hok
    rw [happly]
    obtain ⟨bids', hbid', halike⟩ := hbids.executeAuction_eq_some hbid
    obtain ⟨asks', hask', halike'⟩ := hasks.executeAuction_eq_some hask
    have hcounter' : Checked.add s.pool.auctionState.batchCounter 1 = some ⟨_, hready.countable⟩ :=
      hcounter
    rw [Pool.executeBatch, hbid', hask', hcounter']
    dsimp only
    rw [if_pos ⟨hready.free, hready.due⟩]
    refine congrArg (Pool.mk _ · _) (funext fun t => ?_)
    cases t with
    | bid => exact Multiset.coe_eq_coe.mpr halike.stillOpen
    | ask => exact Multiset.coe_eq_coe.mpr halike'.stillOpen
  · have hfails : applyTx s ⟨signer, clock, .executeBatch batchId⟩ = s := by
      rcases applyTx_cases s ⟨signer, clock, .executeBatch batchId⟩ with ⟨events, hok⟩ | ⟨-, hsame⟩
      · exact absurd (executeBatchHandler_ok_iff.mp ⟨_, hok⟩) hready
      · exact hsame
    rw [hfails, Pool.executeBatch]
    split
    · rename_i hbid hask hcounter
      rw [if_neg]
      rintro ⟨hfree, hdue⟩
      refine hready ⟨hfree, hdue, fun t hjams => ?_, ?_⟩
      · have hnone := executeAuction_eq_none_iff.mpr hjams
        cases t with
        | bid => cases hbid.symm.trans (hbids.executeAuction_eq_none hnone)
        | ask => cases hask.symm.trans (hasks.executeAuction_eq_none hnone)
      · exact (Checked.add_eq_some.mp hcounter).trans_lt (Fin.isLt _)
    · rfl

end Batch

section Placement

variable {signer : Pubkey} {clock : Clock} {s : ProgramState} {p : PlaceOrderParams}
  {ps : List PlaceOrderParams}

theorem Pool.post_nil (pool : Pool) : pool.post signer [] = pool := by
  cases pool
  simp [Pool.post]

theorem Pool.post_append (pool : Pool) (ps qs : List PlaceOrderParams) :
    pool.post signer (ps ++ qs) = (pool.post signer ps).post signer qs := by
  simp only [Pool.post, List.filter_append, List.map_append, ← Multiset.coe_add,
    Multiset.add_assoc]

theorem pool_setOrders {o : Order} (ho : o.anonymous = p.order signer) :
    (s.setOrders p.queue ((s.queue p.queue).orders ++ [o])).pool = s.pool.post signer [p] := by
  have hstate : (s.setOrders p.queue ((s.queue p.queue).orders ++ [o])).auctionState =
      s.auctionState := by cases p.queue <;> rfl
  have hresults : (s.setOrders p.queue ((s.queue p.queue).orders ++ [o])).results =
      s.results := by cases p.queue <;> rfl
  rw [ProgramState.pool, hstate, hresults]
  refine congrArg (Pool.mk _ · _) (funext fun t => ?_)
  rw [ProgramState.queue_setOrders]
  by_cases ht : t = p.queue
  · subst ht
    simp only [if_true, List.map_append, List.map_singleton, ho, ← Multiset.coe_add,
      ProgramState.pool, List.filter_cons, decide_true, List.filter_nil]
  · simp [ProgramState.pool, ht, Ne.symm ht]

theorem placeOne_pool (signer : Pubkey) (h : Placeable clock s [] p) :
    ∃ s' e, placeOne signer clock p s = .ok (some (s', e)) ∧ Puts clock [p] s s' ∧
      s'.pool = s.pool.post signer [p] := by
  obtain ⟨⟨s', e⟩, hplace⟩ := exists_placeOne_of_placeable signer h
  refine ⟨s', e, hplace, (placeOne_puts hplace).2, ?_⟩
  simp only [placeOne, bind_eq_ok, require_eq_ok] at hplace
  obtain ⟨-, -, hplace⟩ := hplace
  split_ifs at hplace with hfull
  · exact absurd hfull h.room
  · obtain ⟨orderId, -, hplace⟩ := bind_eq_ok.mp hplace
    simp only [Except.ok.injEq, Option.some.injEq, Prod.mk.injEq] at hplace
    obtain ⟨rfl, -⟩ := hplace
    exact pool_setOrders rfl

theorem placeLoop_pool (signer : Pubkey) (events : List Event) (h : AllPlaceable clock s ps) :
    ∃ s' events', placeLoop signer clock ps (s, events) = .ok (s', events') ∧
      s'.pool = s.pool.post signer ps := by
  induction ps generalizing s events with
  | nil => exact ⟨s, events, rfl, (Pool.post_nil _).symm⟩
  | cons p ps ih =>
    obtain ⟨s₁, e, hplace, hputs, hpool⟩ :=
      placeOne_pool signer (placeable_of_allPlaceable_cons h)
    obtain ⟨s', events', hloop, hrest⟩ := ih (events ++ [e]) ((allPlaceable_cons_iff hputs).mp h).2
    rw [placeLoop_of_placed hplace, show p :: ps = [p] ++ ps from rfl, Pool.post_append, ← hpool]
    exact ⟨s', events', hloop, hrest⟩

theorem lengthAfter_lt {pre post : List PlaceOrderParams} (he : ps = pre ++ p :: post) :
    0 < requests p.queue ps ∧ lengthAfter s pre p.queue < lengthAfter s ps p.queue := by
  have hone : requests p.queue (p :: post) = requests p.queue post + 1 :=
    List.countP_cons_of_pos (by simp)
  rw [he, lengthAfter, lengthAfter, requests_append, hone]
  omega

variable (hplace : ∀ t, lengthAfter s ps t ≤ (s.queue t).maxOrders.val)
  (hid : ∀ t, 0 < requests t ps → (asU64 clock.unixTimestamp).val + lengthAfter s ps t ≤ 2 ^ 64)

include hplace in
theorem not_full_of_room {pre post : List PlaceOrderParams} (he : ps = pre ++ p :: post) :
    ¬ Full s pre p :=
  not_le.mpr ((lengthAfter_lt he).2.trans_le (hplace p.queue))

include hplace hid

theorem allPlaceable_of_room (hvalid : ∀ p ∈ ps, p.Valid) : AllPlaceable clock s ps := by
  intro pre p post he
  obtain ⟨hpos, hlt⟩ := @lengthAfter_lt s p ps pre post he
  have hid := hid p.queue hpos
  exact ⟨hvalid p (by simp [he]), not_full_of_room hplace he, by omega⟩

/-- A placement that has room does what the pool says, or fails for a request that is not
valid. -/
theorem placeLoop_pool_of_room (signer : Pubkey) :
    if ∀ p ∈ ps, p.Valid then
      ∃ s' events, placeLoop signer clock ps (s, []) = .ok (s', events) ∧
        s'.pool = s.pool.post signer ps
    else ∃ e, placeLoop signer clock ps (s, []) = .error e := by
  split_ifs with hvalid
  · exact placeLoop_pool signer [] (allPlaceable_of_room hplace hid hvalid)
  · cases hloop : placeLoop signer clock ps (s, []) with
    | error e => exact ⟨e, rfl⟩
    | ok out =>
      obtain ⟨s', events⟩ := out
      obtain ⟨taken, htakes, -⟩ := placeLoop_takes hloop
      rcases htakes.stop with he | ⟨p, rest, he, -, hfull⟩
      · refine absurd (fun p hp => ?_) hvalid
        obtain ⟨pre, post, he'⟩ := List.append_of_mem (he ▸ hp)
        exact (htakes.placeable pre p post he').valid
      · exact absurd hfull (not_full_of_room hplace he)

end Placement

section Step

variable {s : ProgramState} {tx : Tx}

theorem retainOthers_pool (owner : Pubkey) (s : ProgramState) :
    (retainOthers owner s).pool = s.pool.withdraw owner := by
  refine congrArg (Pool.mk _ · _) (funext fun t => ?_)
  rw [retainOthers_queue]
  simp only [ProgramState.pool, Multiset.filter_coe, List.filter_map]
  rfl

theorem initializeResult_pool (signer : Pubkey) (clock : Clock) (batchId : U64) :
    (applyTx s ⟨signer, clock, .initializeResult batchId⟩).pool = s.pool.reserve batchId := by
  cases hfree : s.results batchId with
  | none =>
    have hok : process s ⟨signer, clock, .initializeResult batchId⟩ =
        .ok ({ s with results := Function.update s.results batchId (some {}) }, []) :=
      bind_eq_ok.mpr ⟨_, initResult_eq_ok.mpr ⟨hfree, rfl⟩, rfl⟩
    rw [applyTx_of_ok hok]
    refine congrArg (Pool.mk _ _ ·) ?_
    rw [show s.pool.results batchId = none from hfree]
    rfl
  | some r =>
    have hfails : process s ⟨signer, clock, .initializeResult batchId⟩ = .error .accountInUse := by
      simp only [process, initializeResultHandler, initResult, hfree]
      rfl
    rw [applyTx_of_error hfails]
    refine congrArg (Pool.mk _ _ ·) (Function.update_eq_self_iff.mpr ?_).symm
    rw [show s.pool.results batchId = some r from hfree]
    exact hfree.symm

theorem applyTx_placement {before : ProgramState} {ps : List PlaceOrderParams}
    (hprocess : process s tx = placeLoop tx.signer tx.clock ps (before, []))
    (hplace : ∀ t, lengthAfter before ps t ≤ (before.queue t).maxOrders.val)
    (hid : ∀ t, 0 < requests t ps →
      (asU64 tx.clock.unixTimestamp).val + lengthAfter before ps t ≤ 2 ^ 64) :
    (applyTx s tx).pool = if ∀ p ∈ ps, p.Valid then before.pool.post tx.signer ps else s.pool := by
  have hloop := placeLoop_pool_of_room hplace hid tx.signer
  split_ifs at hloop ⊢ with hvalid
  · obtain ⟨s', events, hok, hpool⟩ := hloop
    rw [applyTx_of_ok (hprocess.trans hok), hpool]
  · obtain ⟨e, herror⟩ := hloop
    rw [applyTx_of_error (hprocess.trans herror)]

/-- A transaction that finds room does to the pools what it does to the accounts. -/
theorem applyTx_pool (hrunning : s.auctionState.isPaused = false) (hroom : ∀ t, Room t (s, tx)) :
    (applyTx s tx).pool = s.pool.act tx := by
  obtain ⟨signer, clock, ix⟩ := tx
  have hid := fun t => (hroom t).id
  have hplace := fun t => (hroom t).place
  cases ix with
  | initializeAuction batchInterval => rfl
  | placeOrder params =>
    rw [applyTx_placement (process_placeOrder hrunning signer clock params) hplace hid, Pool.act]
    simp only [List.forall_mem_singleton]
  | placeMultipleOrders orders =>
    exact applyTx_placement (process_placeMultipleOrders hrunning signer clock orders) hplace hid
  | cancelAllOrders => exact retainOthers_pool signer s
  | cancelAllAndPostNewOrders orders =>
    have hmax : ∀ t, ((retainOthers signer s).queue t).maxOrders = (s.queue t).maxOrders := fun t => by
      rw [retainOthers_queue]
    have hprocess : process s ⟨signer, clock, .cancelAllAndPostNewOrders orders⟩ =
        placeLoop signer clock orders (retainOthers signer s, []) :=
      process_placeMultipleOrders (s := retainOthers signer s) hrunning signer clock orders
    rw [applyTx_placement hprocess (fun t => hmax t ▸ hplace t) hid, retainOthers_pool]
    rfl
  | initializeResult batchId => exact initializeResult_pool signer clock batchId
  | executeBatch batchId => exact applyTx_executeBatch_pool s signer clock batchId

theorem Pool.act_timeless (pool : Pool) (tx : Tx) : pool.act tx.timeless = pool.act tx := by
  obtain ⟨signer, clock, ix⟩ := tx
  cases ix <;> rfl

end Step

end ToyDfba
