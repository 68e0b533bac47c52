import ToyDfba.Spec.Clearing
import ToyDfba.Spec.Program

/-! The batches of a run, and what a batch needs to go through. -/

namespace ToyDfba

def AuctionResult.clearing (r : AuctionResult) : AuctionType → U64 × U64
  | .bid => (r.bidClearingPrice, r.bidVolume)
  | .ask => (r.askClearingPrice, r.askVolume)

def AuctionResult.event (r : AuctionResult) : Event :=
  .batchExecuted
    { batchId := r.batchId, bidClearingPrice := r.bidClearingPrice, bidVolume := r.bidVolume,
      askClearingPrice := r.askClearingPrice, askVolume := r.askVolume }

/-- What the accounts must be like for `execute_batch` to succeed. -/
structure BatchReady (clock : Clock) (batchId : U64) (s : ProgramState) : Prop where
  free : s.results batchId = none
  due : s.auctionState.lastBatchSlot.val + s.auctionState.batchInterval.val ≤ clock.slot.val
  clearable : ∀ t, ¬ Jams t (s.queue t).orders
  countable : s.auctionState.batchCounter.val + 1 < 2 ^ 64

/-- Whether a transaction is a successful `execute_batch`. -/
def runsBatch (st : ProgramState × Tx) : Bool :=
  match st.2.ix, process st.1 st.2 with
  | .executeBatch _, .ok _ => true
  | _, _ => false

/-- The successful batches of a run, each with the accounts it met. -/
def batches (s : ProgramState) (txs : List Tx) : List (ProgramState × Tx) :=
  (trace s txs).filter runsBatch

end ToyDfba
