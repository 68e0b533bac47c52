import ToyDfba.Lib.Ledger
import ToyDfba.Spec.Program

/-! What may happen to an order from the transaction that places it to the one that
removes it, told on a ledger that keeps every order ever placed. -/

namespace ToyDfba

def Instruction.orders : Instruction → List PlaceOrderParams
  | .placeOrder params => [params]
  | .placeMultipleOrders orders | .cancelAllAndPostNewOrders orders => orders
  | _ => []

def Instruction.cancels : Instruction → Bool
  | .cancelAllOrders | .cancelAllAndPostNewOrders _ => true
  | _ => false

def Instruction.executes : Instruction → Bool
  | .executeBatch _ => true
  | _ => false

def Succeeds (s : ProgramState) (tx : Tx) : Prop := ∃ out, process s tx = .ok out

inductive Removal where
  | cancelled
  | filled
  deriving DecidableEq, Repr

abbrev Entry := Ledger.Entry AuctionType Order Removal

def AuctionType.admits : AuctionType → OrderType → Side → Bool
  | .bid, .maker, .buy | .bid, .taker, .sell => true
  | .ask, .maker, .sell | .ask, .taker, .buy => true
  | _, _, _ => false

/-- An order as a placement by `signer` makes it, at the request of one of `orders`. -/
structure Fresh (signer : Pubkey) (clock : Clock) (orders : List PlaceOrderParams)
    (auctionType : AuctionType) (o : Order) : Prop where
  owner : o.owner = signer
  timestamp : o.timestamp = clock.unixTimestamp
  requested : ⟨o.orderType, o.side, o.price, o.quantity⟩ ∈ orders
  routed : auctionType.admits o.orderType o.side
  active : o.isActive = true
  price : 0 < o.price
  quantity : 0 < o.quantity
  unfilled : o.filledQuantity = 0

/-- What a transaction may make of an order that it finds in the ledger. -/
structure Evolves (s : ProgramState) (tx : Tx) (e e' : Entry) : Prop where
  queue : e'.place = e.place
  fields : e'.item = { e.item with filledQuantity := e'.item.filledQuantity }
  grows : e.item.filledQuantity ≤ e'.item.filledQuantity
  bound : e'.item.filledQuantity ≤ e'.item.quantity
  trades : e'.item ≠ e.item → Succeeds s tx ∧ tx.ix.executes
  gone : e.removed ≠ none → e' = e
  cancelled : e.removed = none →
    (e'.removed = some .cancelled ↔ Succeeds s tx ∧ tx.ix.cancels ∧ e.item.owner = tx.signer)
  filled : e.removed = none →
    (e'.removed = some .filled ↔
      Succeeds s tx ∧ tx.ix.executes ∧ e'.item.filledQuantity = e'.item.quantity)

structure Placed (s : ProgramState) (tx : Tx) (e : Entry) : Prop where
  succeeds : Succeeds s tx
  fresh : Fresh tx.signer tx.clock tx.ix.orders e.place e.item
  resting : e.removed = none

/-- What a transaction makes of the ledger: the orders it finds keep their places, and
those it places come after them. In a batch the orders of a queue become what the auction
leaves of them, those it fills among them. -/
def Continues (s : ProgramState) (tx : Tx) (ledger ledger' : List Entry) : Prop :=
  ∃ old new, ledger' = old ++ new ∧ List.Forall₂ (Evolves s tx) ledger old ∧
    (Succeeds s tx → tx.ix.executes → ∀ t, ∃ best,
      executeAuction (s.queue t).orders t = some (best, Ledger.became t ledger old)) ∧
    ∀ e ∈ new, Placed s tx e

end ToyDfba
