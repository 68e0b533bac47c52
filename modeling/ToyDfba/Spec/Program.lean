import ToyDfba.Lib.Runs
import ToyDfba.Spec.Instructions

/-! The program as a machine: transactions by any signers at any clock values, one
after the other, where a failed one is rolled back by the runtime. -/

namespace ToyDfba

inductive Instruction where
  | initializeAuction (batchInterval : U64)
  | placeOrder (params : PlaceOrderParams)
  | placeMultipleOrders (orders : List PlaceOrderParams)
  | cancelAllOrders
  | cancelAllAndPostNewOrders (orders : List PlaceOrderParams)
  | initializeResult (batchId : U64)
  | executeBatch (batchId : U64)
  deriving DecidableEq, Repr

structure Tx where
  signer : Pubkey
  clock : Clock
  ix : Instruction
  deriving DecidableEq, Repr

/-- One instruction on the accounts that `initialize` made. A second `initialize` finds
them in use. -/
def process (s : ProgramState) (tx : Tx) : Except TxError Outcome :=
  match tx.ix with
  | .initializeAuction _ => .error .accountInUse
  | .placeOrder params => placeOrderHandler tx.signer tx.clock params s
  | .placeMultipleOrders orders => placeMultipleOrdersHandler tx.signer tx.clock orders s
  | .cancelAllOrders => cancelOrdersHandler tx.signer s
  | .cancelAllAndPostNewOrders orders =>
    cancelAllAndPostNewOrdersHandler tx.signer tx.clock orders s
  | .initializeResult batchId => initializeResultHandler batchId s
  | .executeBatch batchId => executeBatchHandler tx.clock batchId s

def applyTx (s : ProgramState) (tx : Tx) : ProgramState :=
  match process s tx with
  | .ok (s', _) => s'
  | .error _ => s

/-- The accounts `initialize` leaves. Result accounts that exist by then were made by
`initialize_result`, and hold nothing yet. -/
def Started (s : ProgramState) : Prop :=
  ∃ authority batchInterval results, (∀ k r, results k = some r → r = {}) ∧
    s = initializeHandler authority batchInterval results

def sampleStart : ProgramState := initializeHandler 7 2 fun _ => none

theorem started_sampleStart : Started sampleStart :=
  ⟨7, 2, fun _ => none, fun _ _ h => (nomatch h), rfl⟩

abbrev run (s : ProgramState) (txs : List Tx) : ProgramState := Runs.run applyTx s txs

abbrev trace (s : ProgramState) (txs : List Tx) : List (ProgramState × Tx) :=
  Runs.trace applyTx s txs

def Reachable (s : ProgramState) : Prop := ∃ s₀ txs, Started s₀ ∧ s = run s₀ txs

def sampleTx (slot : U64) (ix : Instruction) : Tx :=
  { signer := 1, clock := { slot := slot, unixTimestamp := 1000 }, ix := ix }

/-- A bid for 300 that meets an offer of 200, and the batch that crosses them. -/
def sampleTxs : List Tx :=
  [sampleTx 0 (.placeMultipleOrders [⟨.maker, .buy, 105, 300⟩, ⟨.taker, .sell, 100, 200⟩]),
    sampleTx 2 (.executeBatch 1)]

end ToyDfba
