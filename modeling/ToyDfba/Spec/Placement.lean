import ToyDfba.Spec.Lifecycle

/-! What placement is for: which of the requested orders find their place, one after the
other, told on the requests and on the queues as they are before the first of them. -/

namespace ToyDfba

/-- Instructions of one signer in one transaction. The first that fails undoes them all. -/
def atomically (signer : Pubkey) (clock : Clock) :
    List Instruction → ProgramState → Except TxError Outcome
  | [], s => .ok (s, [])
  | ix :: ixs, s => do
    let (s, events) ← process s { signer := signer, clock := clock, ix := ix }
    let (s, events') ← atomically signer clock ixs s
    .ok (s, events ++ events')

def PlaceOrderParams.queue (p : PlaceOrderParams) : AuctionType := orderQueue p.orderType p.side

def PlaceOrderParams.Valid (p : PlaceOrderParams) : Prop := 0 < p.price ∧ 0 < p.quantity

instance : DecidablePred PlaceOrderParams.Valid := fun _ => inferInstanceAs (Decidable (_ ∧ _))

/-- What is left of the queues once a transaction has cancelled what it cancels. -/
def afterCancel (s : ProgramState) (tx : Tx) : ProgramState :=
  if tx.ix.cancels then retainOthers tx.signer s else s

/-- How many of some requests are for a queue. -/
def requests (t : AuctionType) (ps : List PlaceOrderParams) : ℕ := ps.countP fun p => p.queue = t

/-- How many orders are in a queue once those requested by `ps` are placed. -/
def lengthAfter (s : ProgramState) (ps : List PlaceOrderParams) (t : AuctionType) : ℕ :=
  (s.queue t).orders.length + requests t ps

def Full (s : ProgramState) (ps : List PlaceOrderParams) (p : PlaceOrderParams) : Prop :=
  (s.queue p.queue).maxOrders.val ≤ lengthAfter s ps p.queue

/-- Whether `p` is placed once `ps` are: it is valid, there is room, and its id fits. -/
structure Placeable (clock : Clock) (s : ProgramState) (ps : List PlaceOrderParams)
    (p : PlaceOrderParams) : Prop where
  valid : p.Valid
  room : ¬ Full s ps p
  id : (asU64 clock.unixTimestamp).val + lengthAfter s ps p.queue < 2 ^ 64

def AllPlaceable (clock : Clock) (s : ProgramState) (ps : List PlaceOrderParams) : Prop :=
  ∀ pre p post, ps = pre ++ p :: post → Placeable clock s pre p

/-- The requests that a placement places, when it succeeds: all of them, or those before
the first one that finds its queue full. -/
structure Takes (clock : Clock) (s : ProgramState) (ps taken : List PlaceOrderParams) : Prop where
  placeable : AllPlaceable clock s taken
  stop : ps = taken ∨ ∃ p rest, ps = taken ++ p :: rest ∧ p.Valid ∧ Full s taken p

end ToyDfba
