import ToyDfba.Spec.State

/-! The Borsh encoding of a queue account, and the space `initialize` allocates for it. -/

namespace ToyDfba

/-- The lowest `n` bytes of a number, the least significant first. -/
def leBytes : ℕ → ℕ → List UInt8
  | 0, _ => []
  | n + 1, x => UInt8.ofNat (x % 256) :: leBytes n (x / 256)

def encodeU64 (x : U64) : List UInt8 := leBytes 8 x.val

def encodeU32 (x : U32) : List UInt8 := leBytes 4 x.val

def encodeI64 (x : I64) : List UInt8 := leBytes 8 x.toNat

def encodePubkey (k : Pubkey) : List UInt8 := leBytes 32 k.toNat

def encodeBool (b : Bool) : List UInt8 := [if b then 1 else 0]

def AuctionType.encode : AuctionType → List UInt8
  | .bid => [0]
  | .ask => [1]

def OrderType.encode : OrderType → List UInt8
  | .maker => [0]
  | .taker => [1]

def Side.encode : Side → List UInt8
  | .buy => [0]
  | .sell => [1]

def Order.encode (o : Order) : List UInt8 :=
  encodeU64 o.id ++ encodePubkey o.owner ++ o.orderType.encode ++ o.side.encode ++
    encodeU64 o.price ++ encodeU64 o.quantity ++ encodeI64 o.timestamp ++ encodeBool o.isActive ++
    encodeU64 o.filledQuantity

def encodeOrders (orders : List Order) : List UInt8 :=
  leBytes 4 orders.length ++ orders.flatMap Order.encode

def OrderQueue.encode (q : OrderQueue) : List UInt8 :=
  q.auctionType.encode ++ encodeOrders q.orders ++ encodeU32 q.maxOrders

def OrderQueue.accountData (discriminator : Vector UInt8 8) (q : OrderQueue) : List UInt8 :=
  discriminator.toList ++ q.encode

/-- `space = 8 + 1 + 4 + 4 + (85 * 120)` -/
def queueSpace : ℕ := 8 + 1 + 4 + 4 + (85 * 120)

end ToyDfba
