import ToyDfba.Lib.Codec
import ToyDfba.Spec.Borsh
import ToyDfba.Spec.Program

/-! The program as the chain runs it. An instruction arrives as bytes with a list of accounts,
and the accounts are bytes at addresses: a context takes those it lists, the handler runs on
them, and they are written back over what they held. -/

namespace ToyDfba

open Codec

section Formats

def codecU64 : Codec U64 := fin 8 (2 ^ 64)

def codecU32 : Codec U32 := fin 4 (2 ^ 32)

def codecI64 : Codec I64 := bits 8 64

def codecPubkey : Codec Pubkey := bits 32 256

def codecBool : Codec Bool := variants [false, true] (by decide) (by decide) (by decide)

def AuctionType.codec : Codec AuctionType :=
  variants [.bid, .ask] (fun a => by cases a <;> decide) (by decide) (by decide)

def OrderType.codec : Codec OrderType :=
  variants [.maker, .taker] (fun a => by cases a <;> decide) (by decide) (by decide)

def Side.codec : Codec Side :=
  variants [.buy, .sell] (fun a => by cases a <;> decide) (by decide) (by decide)

def Order.fields :
    U64 × Pubkey × OrderType × Side × U64 × U64 × I64 × Bool × U64 ≃ Order where
  toFun := fun (id, owner, orderType, side, price, quantity, timestamp, isActive, filled) =>
    ⟨id, owner, orderType, side, price, quantity, timestamp, isActive, filled⟩
  invFun o := (o.id, o.owner, o.orderType, o.side, o.price, o.quantity, o.timestamp, o.isActive,
    o.filledQuantity)
  left_inv _ := rfl
  right_inv _ := rfl

def Order.codec : Codec Order :=
  (codecU64.seq <| codecPubkey.seq <| OrderType.codec.seq <| Side.codec.seq <| codecU64.seq <|
    codecU64.seq <| codecI64.seq <| codecBool.seq codecU64).iso Order.fields

def OrderQueue.fields : AuctionType × List Order × U32 ≃ OrderQueue where
  toFun := fun (auctionType, orders, maxOrders) => ⟨auctionType, orders, maxOrders⟩
  invFun q := (q.auctionType, q.orders, q.maxOrders)
  left_inv _ := rfl
  right_inv _ := rfl

def OrderQueue.codec : Codec OrderQueue :=
  (AuctionType.codec.seq <| (vec (nat 4) Order.codec).seq codecU32).iso OrderQueue.fields

def AuctionState.fields : Pubkey × U64 × U64 × U64 × Bool ≃ AuctionState where
  toFun := fun (authority, batchInterval, lastBatchSlot, batchCounter, isPaused) =>
    ⟨authority, batchInterval, lastBatchSlot, batchCounter, isPaused⟩
  invFun a := (a.authority, a.batchInterval, a.lastBatchSlot, a.batchCounter, a.isPaused)
  left_inv _ := rfl
  right_inv _ := rfl

def AuctionState.codec : Codec AuctionState :=
  (codecPubkey.seq <| codecU64.seq <| codecU64.seq <| codecU64.seq codecBool).iso
    AuctionState.fields

def AuctionResult.fields : U64 × U64 × U64 × U64 × U64 × I64 ≃ AuctionResult where
  toFun := fun (batchId, bidClearingPrice, bidVolume, askClearingPrice, askVolume, timestamp) =>
    ⟨batchId, bidClearingPrice, bidVolume, askClearingPrice, askVolume, timestamp⟩
  invFun r :=
    (r.batchId, r.bidClearingPrice, r.bidVolume, r.askClearingPrice, r.askVolume, r.timestamp)
  left_inv _ := rfl
  right_inv _ := rfl

def AuctionResult.codec : Codec AuctionResult :=
  (codecU64.seq <| codecU64.seq <| codecU64.seq <| codecU64.seq <| codecU64.seq codecI64).iso
    AuctionResult.fields

/-! An account begins with the discriminator of its type. -/

def AuctionState.account : Codec AuctionState :=
  AuctionState.codec.tagged [252, 227, 205, 147, 72, 64, 250, 126]

def OrderQueue.discriminator : Vector UInt8 8 := #v[190, 69, 194, 176, 26, 115, 144, 53]

def OrderQueue.account : Codec OrderQueue :=
  OrderQueue.codec.tagged OrderQueue.discriminator.toList

def AuctionResult.account : Codec AuctionResult :=
  AuctionResult.codec.tagged [182, 105, 71, 113, 228, 147, 117, 135]

end Formats

section Instructions

def PlaceOrderParams.fields : OrderType × Side × U64 × U64 ≃ PlaceOrderParams where
  toFun := fun (orderType, side, price, quantity) => ⟨orderType, side, price, quantity⟩
  invFun p := (p.orderType, p.side, p.price, p.quantity)
  left_inv _ := rfl
  right_inv _ := rfl

def PlaceOrderParams.codec : Codec PlaceOrderParams :=
  (OrderType.codec.seq <| Side.codec.seq <| codecU64.seq codecU64).iso PlaceOrderParams.fields

inductive EntryPoint where
  | initializeAuction
  | placeOrder
  | placeMultipleOrders
  | cancelAllOrders
  | cancelAllAndPostNewOrders
  | initializeResult
  | executeBatch
  deriving DecidableEq, Repr

/-- The bytes by which the IDL tells the instructions apart. -/
def EntryPoint.discriminator : EntryPoint → List UInt8
  | .initializeAuction => [175, 175, 109, 31, 13, 152, 155, 237]
  | .placeOrder => [51, 194, 155, 175, 109, 130, 96, 106]
  | .placeMultipleOrders => [12, 44, 82, 108, 22, 209, 74, 186]
  | .cancelAllOrders => [196, 83, 243, 171, 17, 100, 160, 143]
  | .cancelAllAndPostNewOrders => [224, 221, 134, 170, 113, 156, 238, 117]
  | .initializeResult => [150, 212, 176, 141, 183, 117, 137, 138]
  | .executeBatch => [112, 159, 211, 51, 238, 70, 212, 60]

def EntryPoint.tags : Tags EntryPoint where
  kinds := [.initializeAuction, .placeOrder, .placeMultipleOrders, .cancelAllOrders,
    .cancelAllAndPostNewOrders, .initializeResult, .executeBatch]
  mem_kinds k := by cases k <;> decide
  width := 8
  tag := EntryPoint.discriminator
  length_tag k := by cases k <;> rfl
  tag_inj k k' h := by cases k <;> cases k' <;> first | rfl | exact absurd h (by decide)

/-- What an entry point takes beside its context. -/
def EntryPoint.Args : EntryPoint → Type
  | .placeOrder => PlaceOrderParams
  | .placeMultipleOrders | .cancelAllAndPostNewOrders => List PlaceOrderParams
  | .cancelAllOrders => Unit
  | .initializeAuction | .initializeResult | .executeBatch => U64

def EntryPoint.args : (k : EntryPoint) → Codec k.Args
  | .placeOrder => PlaceOrderParams.codec
  | .placeMultipleOrders | .cancelAllAndPostNewOrders => vec (nat 4) PlaceOrderParams.codec
  | .cancelAllOrders => unit
  | .initializeAuction | .initializeResult | .executeBatch => codecU64

def Instruction.call : Instruction → Σ k : EntryPoint, k.Args
  | .initializeAuction batchInterval => ⟨.initializeAuction, batchInterval⟩
  | .placeOrder params => ⟨.placeOrder, params⟩
  | .placeMultipleOrders orders => ⟨.placeMultipleOrders, orders⟩
  | .cancelAllOrders => ⟨.cancelAllOrders, ()⟩
  | .cancelAllAndPostNewOrders orders => ⟨.cancelAllAndPostNewOrders, orders⟩
  | .initializeResult batchId => ⟨.initializeResult, batchId⟩
  | .executeBatch batchId => ⟨.executeBatch, batchId⟩

def Instruction.ofCall : (Σ k : EntryPoint, k.Args) → Instruction
  | ⟨.initializeAuction, batchInterval⟩ => .initializeAuction batchInterval
  | ⟨.placeOrder, params⟩ => .placeOrder params
  | ⟨.placeMultipleOrders, orders⟩ => .placeMultipleOrders orders
  | ⟨.cancelAllOrders, _⟩ => .cancelAllOrders
  | ⟨.cancelAllAndPostNewOrders, orders⟩ => .cancelAllAndPostNewOrders orders
  | ⟨.initializeResult, batchId⟩ => .initializeResult batchId
  | ⟨.executeBatch, batchId⟩ => .executeBatch batchId

def Instruction.calls : (Σ k : EntryPoint, k.Args) ≃ Instruction where
  toFun := Instruction.ofCall
  invFun := Instruction.call
  left_inv x := by obtain ⟨k, args⟩ := x; cases k <;> rfl
  right_inv ix := by cases ix <;> rfl

def Instruction.codec : Codec Instruction :=
  (dispatch EntryPoint.tags EntryPoint.args).iso Instruction.calls

/-! The same bytes, written out. -/

def PlaceOrderParams.encode (p : PlaceOrderParams) : List UInt8 :=
  p.orderType.encode ++ p.side.encode ++ encodeU64 p.price ++ encodeU64 p.quantity

def encodeParams (orders : List PlaceOrderParams) : List UInt8 :=
  leBytes 4 orders.length ++ orders.flatMap PlaceOrderParams.encode

def Instruction.data : Instruction → List UInt8
  | .initializeAuction batchInterval =>
    EntryPoint.initializeAuction.discriminator ++ encodeU64 batchInterval
  | .placeOrder params => EntryPoint.placeOrder.discriminator ++ params.encode
  | .placeMultipleOrders orders =>
    EntryPoint.placeMultipleOrders.discriminator ++ encodeParams orders
  | .cancelAllOrders => EntryPoint.cancelAllOrders.discriminator
  | .cancelAllAndPostNewOrders orders =>
    EntryPoint.cancelAllAndPostNewOrders.discriminator ++ encodeParams orders
  | .initializeResult batchId => EntryPoint.initializeResult.discriminator ++ encodeU64 batchId
  | .executeBatch batchId => EntryPoint.executeBatch.discriminator ++ encodeU64 batchId

end Instructions

section Storage

inductive Address where
  | auctionState
  | bidQueue
  | askQueue
  | result (batchId : U64)
  deriving DecidableEq, Repr

def ascii (s : String) : List UInt8 := s.toList.map fun c => UInt8.ofNat c.toNat

def Address.seeds : Address → List (List UInt8)
  | .auctionState => [ascii "auction_state"]
  | .bidQueue => [ascii "bid_queue"]
  | .askQueue => [ascii "ask_queue"]
  | .result batchId => [ascii "result", encodeU64 batchId]

/-- What the address of an account is derived from: its seeds, one after the other. -/
def Address.key (a : Address) : List UInt8 := a.seeds.flatten

/-- The data of the accounts that exist. -/
abbrev Store := List UInt8 → Option (List UInt8)

/-- `space = 8 + 32 + 8 + 8 + 8 + 1` -/
def stateSpace : ℕ := 8 + 32 + 8 + 8 + 8 + 1

/-- `space = 8 + 8 + 8 + 8 + 8 + 8 + 8` -/
def resultSpace : ℕ := 8 + 8 + 8 + 8 + 8 + 8 + 8

/-- How a transaction fails: on its way to the handler or back, or in it. All that is said
of an account that is not the one its place asks for is `accountNotAccepted`. -/
inductive RawError where
  | instructionDidNotDeserialize
  | accountNotAccepted
  | accountNotInitialized
  | accountDidNotDeserialize
  | accountDidNotSerialize
  | handler (e : TxError)
  deriving DecidableEq, Repr

variable {α : Type}

/-- Bytes after the value that an account holds are ignored. -/
def Store.fetch (c : Codec α) (store : Store) (a : Address) : Except RawError α :=
  match store a.key with
  | none => .error .accountNotInitialized
  | some data =>
    match c.decode data with
    | none => .error .accountDidNotDeserialize
    | some (x, _) => .ok x

/-- `init`: a new account of zeros. -/
def Store.create (space : ℕ) (store : Store) (a : Address) : Except RawError Store :=
  match store a.key with
  | some _ => .error (.handler .accountInUse)
  | none => .ok (Function.update store a.key (some (List.replicate space 0)))

/-- A value is written over the first bytes of its account; the others stay. -/
def Store.write (c : Codec α) (x : α) (a : Address) (store : Store) : Except RawError Store :=
  match store a.key with
  | none => .error .accountNotInitialized
  | some data =>
    if (c.encode x).length ≤ data.length then
      .ok (Function.update store a.key (some (c.encode x ++ data.drop (c.encode x).length)))
    else .error .accountDidNotSerialize

def runHandler (x : Except TxError Outcome) : Except RawError Outcome :=
  match x with
  | .ok out => .ok out
  | .error e => .error (.handler e)

/-- The accounts of the contexts that trade. They list no result account, so the handler
sees none. -/
def Store.fetchTrading (store : Store) : Except RawError ProgramState := do
  let auctionState ← store.fetch AuctionState.account .auctionState
  let bidQueue ← store.fetch OrderQueue.account .bidQueue
  let askQueue ← store.fetch OrderQueue.account .askQueue
  .ok
    { auctionState := auctionState, bidQueue := bidQueue, askQueue := askQueue,
      results := fun _ => none }

def Store.writeQueues (s : ProgramState) (store : Store) : Except RawError Store := do
  let store ← store.write OrderQueue.account s.bidQueue .bidQueue
  store.write OrderQueue.account s.askQueue .askQueue

def Store.writeTrading (s : ProgramState) (store : Store) : Except RawError Store := do
  let store ← store.write AuctionState.account s.auctionState .auctionState
  store.writeQueues s

def Store.writeResult (s : ProgramState) (batchId : U64) (store : Store) : Except RawError Store :=
  match s.results batchId with
  | none => .ok store
  | some r => store.write AuctionResult.account r (.result batchId)

/-- What stands for the accounts that a context does not list. -/
def unlisted : ProgramState where
  auctionState := ⟨0, 0, 0, 0, false⟩
  bidQueue := ⟨.bid, [], 0⟩
  askQueue := ⟨.ask, [], 0⟩
  results _ := none

/-- An entry point from the accounts it reads to those it writes. -/
def rawProcess (signer : Pubkey) (clock : Clock) (store : Store) :
    Instruction → Except RawError (Store × List Event)
  | .initializeAuction batchInterval => do
    let store ← store.create stateSpace .auctionState
    let store ← store.create queueSpace .bidQueue
    let store ← store.create queueSpace .askQueue
    let store ← store.writeTrading (initializeHandler signer batchInterval fun _ => none)
    .ok (store, [])
  | .placeOrder params => do
    let s ← store.fetchTrading
    let (s, events) ← runHandler (placeOrderHandler signer clock params s)
    .ok (← store.writeTrading s, events)
  | .placeMultipleOrders orders => do
    let s ← store.fetchTrading
    let (s, events) ← runHandler (placeMultipleOrdersHandler signer clock orders s)
    .ok (← store.writeTrading s, events)
  | .cancelAllOrders => do
    let bidQueue ← store.fetch OrderQueue.account .bidQueue
    let askQueue ← store.fetch OrderQueue.account .askQueue
    let s := { unlisted with bidQueue := bidQueue, askQueue := askQueue }
    let (s, events) ← runHandler (cancelOrdersHandler signer s)
    .ok (← store.writeQueues s, events)
  | .cancelAllAndPostNewOrders orders => do
    let s ← store.fetchTrading
    let (s, events) ← runHandler (cancelAllAndPostNewOrdersHandler signer clock orders s)
    .ok (← store.writeTrading s, events)
  | .initializeResult batchId => do
    let store ← store.create resultSpace (.result batchId)
    let (s, events) ← runHandler (initializeResultHandler batchId unlisted)
    .ok (← store.writeResult s batchId, events)
  | .executeBatch batchId => do
    let s ← store.fetchTrading
    let store ← store.create resultSpace (.result batchId)
    let (s, events) ← runHandler (executeBatchHandler clock batchId s)
    let store ← store.writeTrading s
    .ok (← store.writeResult s batchId, events)

/-- An address: one that the program derives from seeds, or somebody's key. -/
inductive AccountKey where
  | derived (seeds : List UInt8)
  | plain (key : Pubkey)
  deriving DecidableEq, Repr

structure AccountMeta where
  key : AccountKey
  isSigner : Bool
  isWritable : Bool
  deriving DecidableEq, Repr

/-- What a context asks for in one of its places: a `mut` signer, an account of the program
by its seeds, `mut` or `init`, or the system program, whose key is zero. -/
inductive Slot where
  | signer
  | stored (a : Address)
  | systemProgram
  deriving DecidableEq, Repr

def Slot.accepts : Slot → AccountMeta → Bool
  | .signer, account => account.isSigner && account.isWritable
  | .stored a, account => account.key = .derived a.key && account.isWritable
  | .systemProgram, account => account.key = .plain 0

/-- The places of the contexts, in the order of their fields. -/
def Instruction.slots : Instruction → List Slot
  | .initializeAuction _ =>
    [.stored .auctionState, .stored .bidQueue, .stored .askQueue, .signer, .systemProgram]
  | .placeOrder _ | .placeMultipleOrders _ | .cancelAllAndPostNewOrders _ =>
    [.signer, .stored .auctionState, .stored .bidQueue, .stored .askQueue, .systemProgram]
  | .cancelAllOrders => [.signer, .stored .bidQueue, .stored .askQueue]
  | .initializeResult batchId => [.stored (.result batchId), .signer, .systemProgram]
  | .executeBatch batchId =>
    [.stored .auctionState, .stored .bidQueue, .stored .askQueue, .stored (.result batchId),
      .signer, .systemProgram]

/-- Whether every place of a context gets an account that it accepts. More accounts may
follow. -/
def accepted (slots : List Slot) (accounts : List AccountMeta) : Bool :=
  slots.length ≤ accounts.length && (slots.zip accounts).all fun x => x.1.accepts x.2

/-- The key in the place of the signer, when all the places are filled as they should be. -/
def signerIn (slots : List Slot) (accounts : List AccountMeta) : Option Pubkey :=
  if accepted slots accounts then
    (slots.zip accounts).findSome? fun
      | (.signer, { key := .plain key, .. }) => some key
      | _ => none
  else none

structure RawTx where
  accounts : List AccountMeta
  clock : Clock
  data : List UInt8
  deriving DecidableEq, Repr

/-- The instruction that the data begins with; what follows it is ignored. -/
def RawTx.ix (raw : RawTx) : Option Instruction :=
  (Instruction.codec.decode raw.data).map Prod.fst

/-- What a transaction means, if it means anything and names the accounts that belong to it. -/
def RawTx.tx (raw : RawTx) : Option Tx := do
  let ix ← raw.ix
  let signer ← signerIn ix.slots raw.accounts
  some { signer := signer, clock := raw.clock, ix := ix }

def Slot.account (signer : Pubkey) : Slot → AccountMeta
  | .signer => { key := .plain signer, isSigner := true, isWritable := true }
  | .stored a => { key := .derived a.key, isSigner := false, isWritable := true }
  | .systemProgram => { key := .plain 0, isSigner := false, isWritable := false }

def Tx.raw (tx : Tx) : RawTx where
  accounts := tx.ix.slots.map (Slot.account tx.signer)
  clock := tx.clock
  data := tx.ix.data

/-- How the data begins that goes to other code: `delegate_auction_state`,
`delegate_bid_queue`, `delegate_ask_queue`, `delegate_result` and `process_undelegation`, and
what Anchor adds for the IDL, as the feature `no-idl` is off. -/
def foreignTags : List (List UInt8) :=
  [[72, 149, 204, 136, 156, 58, 145, 147], [76, 80, 231, 171, 44, 243, 8, 141],
    [122, 251, 209, 142, 165, 136, 213, 116], [201, 198, 51, 69, 241, 173, 75, 3],
    [196, 28, 41, 206, 48, 37, 51, 167], [64, 244, 188, 120, 167, 233, 105, 10]]

def RawTx.foreign (raw : RawTx) : Bool := raw.data.take 8 ∈ foreignTags

/-- What the rollup's library and Anchor make of these. -/
abbrev Libraries := Store → RawTx → Except RawError (Store × List Event)

def processRaw (libs : Libraries) (store : Store) (raw : RawTx) :
    Except RawError (Store × List Event) :=
  if raw.foreign then libs store raw else
  match raw.ix, raw.tx with
  | none, _ => .error .instructionDidNotDeserialize
  | some _, none => .error .accountNotAccepted
  | some _, some tx => rawProcess tx.signer tx.clock store tx.ix

def applyRaw (libs : Libraries) (store : Store) (raw : RawTx) : Store :=
  match processRaw libs store raw with
  | .ok (store', _) => store'
  | .error _ => store

/-- The accounts after some transactions, from the day the program is deployed. -/
abbrev runRaw (libs : Libraries) (raws : List RawTx) : Store :=
  Runs.run (applyRaw libs) (fun _ => none) raws

end Storage

end ToyDfba
