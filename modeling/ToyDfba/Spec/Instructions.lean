import Mathlib.Logic.Function.Basic
import ToyDfba.Spec.Auction

/-! The handlers of the instructions, as `instructions/*.rs` computes them. A handler
returns the accounts and the events it emits, or the error that undoes it. -/

namespace ToyDfba

structure Clock where
  slot : U64
  unixTimestamp : I64
  deriving DecidableEq, Repr

structure PlaceOrderParams where
  orderType : OrderType
  side : Side
  price : U64
  quantity : U64
  deriving DecidableEq, Repr

abbrev Outcome := ProgramState × List Event

def require (c : Prop) [Decidable c] (e : ErrorCode) : Except TxError Unit :=
  if c then .ok () else .error (.program e)

def orPanic {α : Type} : Option α → Except TxError α
  | some a => .ok a
  | none => .error .panicked

def ProgramState.queue (s : ProgramState) : AuctionType → OrderQueue
  | .bid => s.bidQueue
  | .ask => s.askQueue

def ProgramState.setOrders (s : ProgramState) (auctionType : AuctionType) (orders : List Order) :
    ProgramState :=
  match auctionType with
  | .bid => { s with bidQueue := { s.bidQueue with orders := orders } }
  | .ask => { s with askQueue := { s.askQueue with orders := orders } }

/-- `init` of the three accounts, then the handler. Result accounts need none of the
three, so some may exist already. -/
def initializeHandler (authority : Pubkey) (batchInterval : U64)
    (results : U64 → Option AuctionResult) : ProgramState where
  auctionState :=
    { authority := authority, batchInterval := batchInterval, lastBatchSlot := 0,
      batchCounter := 0, isPaused := false }
  bidQueue := { auctionType := .bid, orders := [], maxOrders := 85 }
  askQueue := { auctionType := .ask, orders := [], maxOrders := 85 }
  results := results

def orderQueue : OrderType → Side → AuctionType
  | .maker, .buy => .bid
  | .taker, .sell => .bid
  | .maker, .sell => .ask
  | .taker, .buy => .ask

/-- The part that `place_order` and the loops of the two batch placements share. It
gives `none` when the queue is full, where the handlers return `Ok(())` at once. -/
def placeOne (orderPlacer : Pubkey) (clock : Clock) (params : PlaceOrderParams) (s : ProgramState) :
    Except TxError (Option (ProgramState × Event)) := do
  require (params.price > 0 ∧ params.quantity > 0) .invalidOrderParameters
  let queue := s.queue (orderQueue params.orderType params.side)
  if queue.orders.length ≥ queue.maxOrders.val then .ok none
  else
    let orderId ← orPanic
      (Checked.add (asU64 clock.unixTimestamp) (Fin.ofNat (2 ^ 64) queue.orders.length))
    let order : Order :=
      { id := orderId, owner := orderPlacer, orderType := params.orderType, side := params.side,
        price := params.price, quantity := params.quantity, timestamp := clock.unixTimestamp,
        isActive := true, filledQuantity := 0 }
    .ok (some (s.setOrders (orderQueue params.orderType params.side) (queue.orders ++ [order]),
      .orderPlaced
        { orderId := orderId, owner := order.owner, orderType := order.orderType,
          side := order.side, price := order.price, quantity := order.quantity }))

def placeOrderHandler (orderPlacer : Pubkey) (clock : Clock) (params : PlaceOrderParams)
    (s : ProgramState) : Except TxError Outcome := do
  require (!s.auctionState.isPaused) .auctionPaused
  match ← placeOne orderPlacer clock params s with
  | none => .ok (s, [])
  | some (s, e) => .ok (s, [e])

/-- `for params in orders`, with the events emitted so far. -/
def placeLoop (orderPlacer : Pubkey) (clock : Clock) :
    List PlaceOrderParams → Outcome → Except TxError Outcome
  | [], st => .ok st
  | params :: orders, (s, events) => do
    match ← placeOne orderPlacer clock params s with
    | none => .ok (s, events)
    | some (s, e) => placeLoop orderPlacer clock orders (s, events ++ [e])

def placeMultipleOrdersHandler (orderPlacer : Pubkey) (clock : Clock)
    (orders : List PlaceOrderParams) (s : ProgramState) : Except TxError Outcome := do
  require (!s.auctionState.isPaused) .auctionPaused
  placeLoop orderPlacer clock orders (s, [])

/-- `orders.retain(|order| order.owner != owner)` on both queues. -/
def retainOthers (owner : Pubkey) (s : ProgramState) : ProgramState :=
  { s with
    bidQueue := { s.bidQueue with orders := s.bidQueue.orders.filter fun o => o.owner ≠ owner }
    askQueue := { s.askQueue with orders := s.askQueue.orders.filter fun o => o.owner ≠ owner } }

def cancelOrdersHandler (owner : Pubkey) (s : ProgramState) : Except TxError Outcome :=
  .ok (retainOthers owner s, [])

def cancelAllAndPostNewOrdersHandler (orderPlacer : Pubkey) (clock : Clock)
    (orders : List PlaceOrderParams) (s : ProgramState) : Except TxError Outcome := do
  require (!s.auctionState.isPaused) .auctionPaused
  placeLoop orderPlacer clock orders (retainOthers orderPlacer s, [])

/-- `init` of a result account: its address must be free. -/
def initResult (batchId : U64) (s : ProgramState) : Except TxError ProgramState :=
  match s.results batchId with
  | some _ => .error .accountInUse
  | none => .ok { s with results := Function.update s.results batchId (some {}) }

def initializeResultHandler (batchId : U64) (s : ProgramState) : Except TxError Outcome := do
  let s ← initResult batchId s
  .ok (s, [])

/-- `order.is_active && order.filled_quantity < order.quantity` -/
def stillOpen (o : Order) : Bool := o.isActive && decide (o.filledQuantity < o.quantity)

def executeBatchHandler (clock : Clock) (batchId : U64) (s : ProgramState) :
    Except TxError Outcome := do
  let s ← initResult batchId s
  let due ← orPanic (Checked.add s.auctionState.lastBatchSlot s.auctionState.batchInterval)
  require (clock.slot ≥ due) .tooEarlyToExecute
  let ((bidPrice, bidVolume), bidOrders) ← orPanic (executeAuction s.bidQueue.orders .bid)
  let ((askPrice, askVolume), askOrders) ← orPanic (executeAuction s.askQueue.orders .ask)
  let batchCounter ← orPanic (Checked.add s.auctionState.batchCounter 1)
  let result : AuctionResult :=
    { batchId := batchCounter, bidClearingPrice := bidPrice, bidVolume := bidVolume,
      askClearingPrice := askPrice, askVolume := askVolume, timestamp := clock.unixTimestamp }
  .ok ({ auctionState :=
          { s.auctionState with lastBatchSlot := clock.slot, batchCounter := batchCounter }
         bidQueue := { s.bidQueue with orders := bidOrders.filter stillOpen }
         askQueue := { s.askQueue with orders := askOrders.filter stillOpen }
         results := Function.update s.results batchId (some result) },
    [.batchExecuted
      { batchId := result.batchId, bidClearingPrice := bidPrice, bidVolume := bidVolume,
        askClearingPrice := askPrice, askVolume := askVolume }])

end ToyDfba
