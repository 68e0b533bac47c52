import ToyDfba.Lib.Reports
import ToyDfba.Spec.History

/-! What a listener hears of a run: the events of its transactions in their order. It
passes over the logs of a transaction that failed. -/

namespace ToyDfba

def Order.event (o : Order) : Event :=
  .orderPlaced
    { orderId := o.id, owner := o.owner, orderType := o.orderType, side := o.side,
      price := o.price, quantity := o.quantity }

def Event.queue : Event → Option AuctionType
  | .orderPlaced e => some (orderQueue e.orderType e.side)
  | .batchExecuted _ => none

def emitted (s : ProgramState) (tx : Tx) : List Event :=
  match process s tx with
  | .ok (_, events) => events
  | .error _ => []

/-- The events of a run. -/
def heard (s : ProgramState) (txs : List Tx) : List Event := Reports.reported applyTx emitted s txs

end ToyDfba
