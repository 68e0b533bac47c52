import Mathlib.Order.Fin.Basic
import ToyDfba.Lib.Checked

/-! The accounts of the program, its events and its errors. Words are `Fin`s, so a
field holds exactly the values its Rust type does. -/

namespace ToyDfba

abbrev U64 := Fin (2 ^ 64)

abbrev U32 := Fin (2 ^ 32)

instance neZero_two_pow_64 : NeZero (2 ^ 64) := ⟨(Nat.two_pow_pos 64).ne'⟩

instance neZero_two_pow_32 : NeZero (2 ^ 32) := ⟨(Nat.two_pow_pos 32).ne'⟩

/-- An `i64`, as its 64 two's complement bits. -/
abbrev I64 := BitVec 64

/-- The 32 bytes of a key, read as one little-endian number. -/
abbrev Pubkey := BitVec 256

/-- The cast `as u64` of an `i64` keeps the bits. -/
def asU64 (t : I64) : U64 := t.toFin

inductive AuctionType where
  | bid -- maker buys and taker sells
  | ask -- maker sells and taker buys
  deriving DecidableEq, Repr

inductive OrderType where
  | maker
  | taker
  deriving DecidableEq, Repr

inductive Side where
  | buy
  | sell
  deriving DecidableEq, Repr

structure Order where
  id : U64
  owner : Pubkey
  orderType : OrderType
  side : Side
  price : U64
  quantity : U64
  timestamp : I64
  isActive : Bool
  filledQuantity : U64
  deriving DecidableEq, Repr

structure AuctionState where
  authority : Pubkey
  batchInterval : U64
  lastBatchSlot : U64
  batchCounter : U64
  isPaused : Bool
  deriving DecidableEq, Repr

structure OrderQueue where
  auctionType : AuctionType
  orders : List Order
  maxOrders : U32
  deriving DecidableEq, Repr

/-- A result account. The defaults are the zeroed bytes that `init` leaves. -/
structure AuctionResult where
  batchId : U64 := 0
  bidClearingPrice : U64 := 0
  bidVolume : U64 := 0
  askClearingPrice : U64 := 0
  askVolume : U64 := 0
  timestamp : I64 := 0
  deriving DecidableEq, Repr

structure OrderPlacedEvent where
  orderId : U64
  owner : Pubkey
  orderType : OrderType
  side : Side
  price : U64
  quantity : U64
  deriving DecidableEq, Repr

structure BatchExecutedEvent where
  batchId : U64
  bidClearingPrice : U64
  bidVolume : U64
  askClearingPrice : U64
  askVolume : U64
  deriving DecidableEq, Repr

inductive Event where
  | orderPlaced (e : OrderPlacedEvent)
  | batchExecuted (e : BatchExecutedEvent)
  deriving DecidableEq, Repr

inductive ErrorCode where
  | tooEarlyToExecute
  | orderQueueFull
  | invalidOrderParameters
  | auctionPaused
  deriving DecidableEq, Repr

/-- How an instruction fails: with an error of the program, with a panic of the
overflow-checked build, or because an account to be created exists already. -/
inductive TxError where
  | program (e : ErrorCode)
  | panicked
  | accountInUse
  deriving DecidableEq, Repr

/-- The accounts the instructions run on. Results live at one address for each
`batch_id` argument. -/
structure ProgramState where
  auctionState : AuctionState
  bidQueue : OrderQueue
  askQueue : OrderQueue
  results : U64 → Option AuctionResult

end ToyDfba
