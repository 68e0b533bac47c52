import Mathlib.Data.Multiset.Filter
import Mathlib.Data.Multiset.Basic
import ToyDfba.Spec.Placement

/-! What the accounts come to for an auction: two pools of orders, in which no order has a
place, an id or a timestamp, with the auction state and the results. Instructions act on the
pools without any limit to their size. -/

namespace ToyDfba

structure Pool where
  auctionState : AuctionState
  orders : AuctionType → Multiset Order
  results : U64 → Option AuctionResult

def Order.anonymous (o : Order) : Order := { o with id := 0, timestamp := 0 }

def ProgramState.pool (s : ProgramState) : Pool where
  auctionState := s.auctionState
  orders t := (s.queue t).orders.map Order.anonymous
  results := s.results

/-- The order that a request places, but for its id and its timestamp. -/
def PlaceOrderParams.order (signer : Pubkey) (p : PlaceOrderParams) : Order :=
  { id := 0, owner := signer, orderType := p.orderType, side := p.side, price := p.price,
    quantity := p.quantity, timestamp := 0, isActive := true, filledQuantity := 0 }

namespace Pool

def post (signer : Pubkey) (ps : List PlaceOrderParams) (pool : Pool) : Pool :=
  { pool with
    orders := fun t =>
      pool.orders t + ↑((ps.filter fun p => p.queue = t).map (PlaceOrderParams.order signer)) }

def withdraw (owner : Pubkey) (pool : Pool) : Pool :=
  { pool with orders := fun t => (pool.orders t).filter fun o => o.owner ≠ owner }

def reserve (batchId : U64) (pool : Pool) : Pool :=
  { pool with
    results := Function.update pool.results batchId ((pool.results batchId).or (some {})) }

/-- A batch clears the orders of a pool in any order. -/
noncomputable def executeBatch (clock : Clock) (batchId : U64) (pool : Pool) : Pool :=
  match executeAuction (pool.orders .bid).toList .bid, executeAuction (pool.orders .ask).toList .ask,
      Checked.add pool.auctionState.batchCounter 1 with
  | some ((bidPrice, bidVolume), bids), some ((askPrice, askVolume), asks), some batchCounter =>
    if pool.results batchId = none ∧
        pool.auctionState.lastBatchSlot.val + pool.auctionState.batchInterval.val ≤ clock.slot.val then
      { auctionState :=
          { pool.auctionState with lastBatchSlot := clock.slot, batchCounter := batchCounter }
        orders := fun
          | .bid => bids.filter stillOpen
          | .ask => asks.filter stillOpen
        results := Function.update pool.results batchId
          (some
            { batchId := batchCounter, bidClearingPrice := bidPrice, bidVolume := bidVolume,
              askClearingPrice := askPrice, askVolume := askVolume, timestamp := clock.unixTimestamp }) }
    else pool
  | _, _, _ => pool

/-- What a transaction does to the pools. A request that is not valid undoes it. -/
noncomputable def act (pool : Pool) (tx : Tx) : Pool :=
  match tx.ix with
  | .initializeAuction _ => pool
  | .placeOrder params =>
    if params.Valid then pool.post tx.signer [params] else pool
  | .placeMultipleOrders orders =>
    if ∀ p ∈ orders, p.Valid then pool.post tx.signer orders else pool
  | .cancelAllOrders => pool.withdraw tx.signer
  | .cancelAllAndPostNewOrders orders =>
    if ∀ p ∈ orders, p.Valid then (pool.withdraw tx.signer).post tx.signer orders else pool
  | .initializeResult batchId => pool.reserve batchId
  | .executeBatch batchId => pool.executeBatch tx.clock batchId

end Pool

/-- A transaction without its clock, of which the pools see only what a batch reads. -/
def Tx.timeless (tx : Tx) : Tx :=
  if tx.ix.executes then tx else { tx with clock := { slot := 0, unixTimestamp := 0 } }

/-- Whether all the orders that a transaction requests find a place in a queue and an id. -/
structure Room (t : AuctionType) (st : ProgramState × Tx) : Prop where
  place : lengthAfter (afterCancel st.1 st.2) st.2.ix.orders t ≤ (st.1.queue t).maxOrders.val
  id : 0 < requests t st.2.ix.orders → (asU64 st.2.clock.unixTimestamp).val +
    lengthAfter (afterCancel st.1 st.2) st.2.ix.orders t ≤ 2 ^ 64

instance (t : AuctionType) (st : ProgramState × Tx) : Decidable (Room t st) :=
  decidable_of_iff
    (lengthAfter (afterCancel st.1 st.2) st.2.ix.orders t ≤ (st.1.queue t).maxOrders.val ∧
      (0 < requests t st.2.ix.orders → (asU64 st.2.clock.unixTimestamp).val +
        lengthAfter (afterCancel st.1 st.2) st.2.ix.orders t ≤ 2 ^ 64))
    ⟨fun h => ⟨h.1, h.2⟩, fun h => ⟨h.place, h.id⟩⟩

end ToyDfba
