import ToyDfba.Lib.Fallible
import ToyDfba.Spec.Auction

/-! `processor/auction.rs` once more, over exact numbers. Only the quantities are computed
with: the split, the sorts, the candidate prices and the price groups compare words and
stay as they are. Every addition, subtraction, product, division and index is written
out with the fault it can meet, and `fits` says which sums and products the machine holds. -/

namespace ToyDfba

open Fallible

namespace Exact

/-- An order whose quantities are exact numbers. -/
structure Order where
  id : U64
  owner : Pubkey
  orderType : OrderType
  side : Side
  price : U64
  quantity : ℕ
  timestamp : I64
  isActive : Bool
  filledQuantity : ℕ
  deriving DecidableEq, Repr

structure OrderRef where
  slot : ℕ
  order : Order
  deriving DecidableEq, Repr

def writeBack (orders : List Order) (refs : List OrderRef) : List Order :=
  Loops.writeAll orders (refs.map fun r => (r.slot, r.order))

end Exact

def Order.exact (o : Order) : Exact.Order :=
  { id := o.id, owner := o.owner, orderType := o.orderType, side := o.side, price := o.price,
    quantity := o.quantity.val, timestamp := o.timestamp, isActive := o.isActive,
    filledQuantity := o.filledQuantity.val }

def OrderRef.exact (r : OrderRef) : Exact.OrderRef := ⟨r.slot, r.order.exact⟩

namespace Exact

variable (fits : ℕ → Bool)

/-- `volume += order.quantity - order.filled_quantity` -/
def addRemaining (volume : ℕ) (r : OrderRef) : Except Fault ℕ := do
  let remaining ← sub r.order.quantity r.order.filledQuantity
  add fits volume remaining

/-- The sum of a loop over the orders whose price satisfies `c`. -/
def volumeOf (c : U64 → Bool) (refs : List OrderRef) : Except Fault ℕ :=
  refs.foldlM (fun v r => if c r.order.price then addRemaining fits v r else .ok v) 0

def calculateVolumeAtPrice (makerOrders takerOrders : List OrderRef) (price : U64)
    (auctionType : AuctionType) : Except Fault ℕ := do
  match auctionType with
  | .bid =>
    let makerVolume ← volumeOf fits (fun p => p ≥ price) makerOrders
    let takerVolume ← volumeOf fits (fun p => p ≤ price) takerOrders
    .ok (min makerVolume takerVolume)
  | .ask =>
    let makerVolume ← volumeOf fits (fun p => p ≤ price) makerOrders
    let takerVolume ← volumeOf fits (fun p => p ≥ price) takerOrders
    .ok (min makerVolume takerVolume)

/-- `filled_quantity += (quantity - filled_quantity) * volume / out_of` -/
def fillOrder (volume outOf : ℕ) (r : OrderRef) : Except Fault OrderRef := do
  let available ← sub r.order.quantity r.order.filledQuantity
  let product ← mul fits available volume
  let fillAmount ← div product outOf
  let filled ← add fits r.order.filledQuantity fillAmount
  .ok { r with order := { r.order with filledQuantity := filled } }

def fillLevels : List (List ℕ) → List OrderRef × ℕ → Except Fault (List OrderRef × ℕ)
  | [], st => .ok st
  | group :: groups, (takerOrders, remainingVolume) => do
    if remainingVolume = 0 then .ok (takerOrders, remainingVolume)
    else
      let levelVolume ← group.foldlM (fun v idx => do
        let r ← get takerOrders idx
        addRemaining fits v r) 0
      let volumeToFill := min levelVolume remainingVolume
      let takerOrders ← group.foldlM (updateAt (fillOrder fits volumeToFill levelVolume)) takerOrders
      let remainingVolume ← sub remainingVolume volumeToFill
      fillLevels groups (takerOrders, remainingVolume)

def isEligible (auctionType : AuctionType) (price p : U64) : Bool :=
  match auctionType with
  | .bid => p ≥ price
  | .ask => p ≤ price

/-- `priceGroups` are the positions that the loop over the takers collected. -/
def executeTradesAtPrice (makerOrders takerOrders : List OrderRef) (priceGroups : List (List ℕ))
    (price : U64) (auctionType : AuctionType) : Except Fault (List OrderRef × List OrderRef) := do
  let totalVolume ← calculateVolumeAtPrice fits makerOrders takerOrders price auctionType
  let (takerOrders, remainingVolume) ← fillLevels fits priceGroups (takerOrders, totalVolume)
  let makerVolumeAtClearing ← volumeOf fits (isEligible auctionType price) makerOrders
  if makerVolumeAtClearing > 0 then
    let makerFillVolume ← sub totalVolume (← sub totalVolume remainingVolume)
    let makerOrders ← makerOrders.mapM fun r =>
      if isEligible auctionType price r.order.price then
        fillOrder fits makerFillVolume makerVolumeAtClearing r
      else .ok r
    .ok (makerOrders, takerOrders)
  else .ok (makerOrders, takerOrders)

def searchStep (makerOrders takerOrders : List OrderRef) (auctionType : AuctionType)
    (best : U64 × ℕ) (price : U64) : Except Fault (U64 × ℕ) := do
  let volume ← calculateVolumeAtPrice fits makerOrders takerOrders price auctionType
  .ok (if volume > best.2 then (price, volume) else best)

def executeAuction (orders : List ToyDfba.Order) (auctionType : AuctionType) :
    Except Fault ((U64 × ℕ) × List Order) := do
  let (makerOrders, takerOrders) := splitOrders orders
  if makerOrders.isEmpty || takerOrders.isEmpty then .ok ((0, 0), orders.map Order.exact)
  else
    let (makerOrders, takerOrders) := sortOrders makerOrders takerOrders auctionType
    let makers := makerOrders.map OrderRef.exact
    let takers := takerOrders.map OrderRef.exact
    let best ← (allPrices makerOrders takerOrders).foldlM (searchStep fits makers takers auctionType)
      (0, 0)
    if best.2 > 0 then
      let (makers, takers) ← executeTradesAtPrice fits makers takers
        (priceGroups takerOrders best.1 auctionType) best.1 auctionType
      .ok (best, writeBack (writeBack (orders.map Order.exact) makers) takers)
    else .ok (best, orders.map Order.exact)

end Exact

/-- The build with overflow checks holds the words of 64 bits. -/
def word (n : ℕ) : Bool := n < 2 ^ 64

end ToyDfba
