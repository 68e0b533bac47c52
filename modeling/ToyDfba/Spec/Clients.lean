import ToyDfba.Lib.Processes
import ToyDfba.Spec.History
import ToyDfba.Spec.Lifecycle

/-! The backend around the program: calls of the crank's `executeBatch` and requests to
`/api/orders` and `/api/results/:count`, any number of each. An `await` ends a step; before
the next one the chain and the other calls may have moved on, and what is awaited may be
rejected. Numbers are JavaScript's, so prices stand here before their division by 1e6. -/

namespace ToyDfba

/-- `toNumber()` throws from `2 ^ 53` on. -/
def toNumber (x : ℤ) : Option ℤ := if x.natAbs < 2 ^ 53 then some x else none

/-- `new BN(n)`, where `n` becomes a `u64`. -/
def newBN (n : ℤ) : Option U64 :=
  if 0 ≤ n ∧ n < 2 ^ 53 then some (Fin.ofNat (2 ^ 64) n.toNat) else none

/-- The account at `getResultPDA(batchId)`. -/
def fetchResult (s : ProgramState) (batchId : ℤ) : Option AuctionResult := do
  s.results (← newBN batchId)

/-- What becomes of a request to the chain: the answer comes, nothing is done, or what it
asked for is done and its sender hears of an error. -/
inductive Network where
  | answers
  | rejects
  | loses
  deriving DecidableEq, Repr

structure Turn where
  clock : Clock
  network : Network
  deriving DecidableEq, Repr

/-- What a fetch brings when it would bring `x`. -/
def Turn.fetch {α : Type} (turn : Turn) (x : Option α) : Option α :=
  if turn.network = .answers then x else none

/-- The results of the batches from `a` to below `b`, those that exist. -/
def resultsBetween (s : ProgramState) (a b : ℤ) : List AuctionResult :=
  (List.range (b - a).toNat).filterMap fun j : ℕ => fetchResult s (a + j)

section Crank

/-- What `executeBatch` prints of a batch. -/
structure CrankLog where
  bid : ℤ
  ask : ℤ
  bidVolume : ℤ
  askVolume : ℤ
  deriving DecidableEq, Repr

def AuctionResult.log (r : AuctionResult) : Option CrankLog := do
  let bid ← toNumber r.bidClearingPrice.val
  let ask ← toNumber r.askClearingPrice.val
  let bidVolume ← toNumber r.bidVolume.val
  let askVolume ← toNumber r.askVolume.val
  some { bid := bid, ask := ask, bidVolume := bidVolume, askVolume := askVolume }

/-- Where a call of `executeBatch` stands. -/
inductive CrankCall where
  | called
  | fetched (nextBatchId : ℤ)
  | executed (nextBatchId : ℤ)
  | logged (nextBatchId : ℤ) (entry : CrankLog)
  /-- The batch was executed, and then something was rejected or threw. -/
  | unlogged (nextBatchId : ℤ)
  | failed
  deriving DecidableEq, Repr

def CrankCall.batch : CrankCall → Option ℤ
  | .executed n | .logged n _ | .unlogged n => some n
  | _ => none

def CrankCall.step (crankKey : Pubkey) (s : ProgramState) (turn : Turn) :
    CrankCall → ProgramState × CrankCall
  | .called =>
    match turn.fetch (toNumber s.auctionState.batchCounter.val) with
    | none => (s, .failed)
    | some batchCounter => (s, .fetched (batchCounter + 1))
  | .fetched n =>
    match newBN n with
    | none => (s, .failed)
    | some batchId =>
      if turn.network = .rejects then (s, .failed) else
      match process s { signer := crankKey, clock := turn.clock, ix := .executeBatch batchId } with
      | .error _ => (s, .failed)
      | .ok (s', _) => (s', if turn.network = .loses then .unlogged n else .executed n)
  | .executed n =>
    match turn.fetch ((fetchResult s n).bind AuctionResult.log) with
    | none => (s, .unlogged n)
    | some entry => (s, .logged n entry)
  | call => (s, call)

end Crank

section Results

structure ResultRow where
  batchId : U64
  bidClearingPrice : ℤ
  bidVolume : ℤ
  askClearingPrice : ℤ
  askVolume : ℤ
  timestamp : ℤ
  deriving DecidableEq, Repr

def AuctionResult.row (r : AuctionResult) : Option ResultRow := do
  let bidClearingPrice ← toNumber r.bidClearingPrice.val
  let bidVolume ← toNumber r.bidVolume.val
  let askClearingPrice ← toNumber r.askClearingPrice.val
  let askVolume ← toNumber r.askVolume.val
  let timestamp ← toNumber r.timestamp.toInt
  some
    { batchId := r.batchId, bidClearingPrice := bidClearingPrice, bidVolume := bidVolume,
      askClearingPrice := askClearingPrice, askVolume := askVolume, timestamp := timestamp }

/-- Where a request to `/api/results/:count` stands; `count` is what `parseInt` makes of
it, none if that is not a number. -/
inductive ResultsRequest where
  | called (count : Option ℤ)
  | reading (count currentBatch i : ℤ) (results : List ResultRow)
  | answered (count currentBatch : ℤ) (results : List ResultRow)
  | failed
  deriving DecidableEq, Repr

/-- `parseInt(req.params.count) || 10` -/
def countOr10 : Option ℤ → ℤ
  | none => 10
  | some count => if count = 0 then 10 else count

/-- `Math.max(1, currentBatch - count + 1)` -/
def firstBatch (count currentBatch : ℤ) : ℤ := max 1 (currentBatch - count + 1)

def ResultsRequest.step (s : ProgramState) (turn : Turn) : ResultsRequest → ResultsRequest
  | .called count =>
    match turn.fetch (toNumber s.auctionState.batchCounter.val) with
    | none => .failed
    | some currentBatch =>
      .reading (countOr10 count) currentBatch (firstBatch (countOr10 count) currentBatch) []
  | .reading count currentBatch i results =>
    if i ≤ currentBatch then
      -- what is rejected or throws on the way to `push` is caught, and the loop goes on
      match turn.fetch ((fetchResult s i).bind AuctionResult.row) with
      | none => .reading count currentBatch (i + 1) results
      | some row => .reading count currentBatch (i + 1) (results ++ [row])
    else .answered count currentBatch results
  | request => request

end Results

section Orders

structure OrderRow where
  id : U64
  owner : Pubkey
  orderType : OrderType
  side : Side
  price : ℤ
  quantity : ℤ
  timestamp : ℤ
  isActive : Bool
  filledQuantity : ℤ
  deriving DecidableEq, Repr

/-- `formatOrder` -/
def Order.row (o : Order) : Option OrderRow := do
  let price ← toNumber o.price.val
  let quantity ← toNumber o.quantity.val
  let timestamp ← toNumber o.timestamp.toInt
  let filledQuantity ← toNumber o.filledQuantity.val
  some
    { id := o.id, owner := o.owner, orderType := o.orderType, side := o.side, price := price,
      quantity := quantity, timestamp := timestamp, isActive := o.isActive,
      filledQuantity := filledQuantity }

inductive OrdersRequest where
  | called
  | fetched (bids : List Order)
  | answered (bidOrders askOrders : List OrderRow)
  | failed
  deriving DecidableEq, Repr

/-- The rows of a queue, in which one that throws spoils them all. -/
def rowsOf (orders : List Order) : Option (List OrderRow) :=
  (orders.filter Order.isActive).mapM Order.row

def OrdersRequest.step (s : ProgramState) (turn : Turn) : OrdersRequest → OrdersRequest
  | .called =>
    match turn.fetch (some s.bidQueue.orders) with
    | none => .failed
    | some bids => .fetched bids
  | .fetched bids =>
    match turn.fetch (some s.askQueue.orders) with
    | none => .failed
    | some asks =>
      match rowsOf bids, rowsOf asks with
      | some bidOrders, some askOrders => .answered bidOrders askOrders
      | _, _ => .failed
  | request => request

end Orders

inductive Client where
  | crank (call : CrankCall)
  | orders (request : OrdersRequest)
  | results (request : ResultsRequest)
  deriving DecidableEq, Repr

def Client.step (crankKey : Pubkey) (s : ProgramState) (client : Client) (turn : Turn) :
    ProgramState × Client :=
  match client with
  | .crank call => ((call.step crankKey s turn).1, .crank (call.step crankKey s turn).2)
  | .orders request => (s, .orders (request.step s turn))
  | .results request => (s, .results (request.step s turn))

def Client.batch : Client → Option ℤ
  | .crank call => call.batch
  | .orders _ | .results _ => none

def Client.Fresh : Client → Prop
  | .crank call => call = .called
  | .orders request => request = .called
  | .results request => ∃ count, request = .called count

variable {κ : Type} [DecidableEq κ]

abbrev runClients (crankKey : Pubkey) (sys : Processes.System ProgramState κ Client)
    (moves : List (Processes.Move κ Tx Turn)) : Processes.System ProgramState κ Client :=
  Processes.run applyTx (Client.step crankKey) sys moves

/-- How many of a client's fetches and transactions were not answered. -/
def refusals (c : κ) (moves : List (Processes.Move κ Tx Turn)) : ℕ :=
  Processes.turnsWith (fun turn : Turn => turn.network ≠ .answers) c moves

/-- A transaction of anyone but the crank runs no batch. -/
def Tx.Outside (tx : Tx) : Prop := ∀ k, tx.ix ≠ .executeBatch k

/-- The day the crank starts: no batch was run, and no client has moved. -/
structure Launched (sys : Processes.System ProgramState κ Client) : Prop where
  started : Started sys.shared
  fresh : ∀ c, (sys.locals c).Fresh

end ToyDfba
