import Mathlib.Data.List.Destutter
import Mathlib.Data.List.Sort
import ToyDfba.Lib.Loops
import ToyDfba.Spec.State

/-! The clearing of one queue, as `processor/auction.rs` computes it. `none` is a
panic: an overflow, an underflow, a division by zero or an index out of range. -/

namespace ToyDfba

/-- A `&mut Order` into the queue's vector: the slot it points to and the order that
currently stands there. Ending the borrow writes the order back to its slot. -/
structure OrderRef where
  slot : ℕ
  order : Order
  deriving DecidableEq, Repr

def iterMut (orders : List Order) : List OrderRef :=
  orders.zipIdx.map fun (o, i) => ⟨i, o⟩

def writeBack (orders : List Order) (refs : List OrderRef) : List Order :=
  Loops.writeAll orders (refs.map fun r => (r.slot, r.order))

/-- Sort a reference into the makers or the takers, unless its order is inactive or
completely filled. -/
def splitStep (acc : List OrderRef × List OrderRef) (r : OrderRef) :
    List OrderRef × List OrderRef :=
  if !r.order.isActive || r.order.filledQuantity ≥ r.order.quantity then acc
  else match r.order.orderType with
    | .maker => (acc.1 ++ [r], acc.2)
    | .taker => (acc.1, acc.2 ++ [r])

def splitOrders (orders : List Order) : List OrderRef × List OrderRef :=
  (iterMut orders).foldl splitStep ([], [])

def sortUp (refs : List OrderRef) : List OrderRef :=
  refs.insertionSort fun a b => a.order.price ≤ b.order.price

def sortDown (refs : List OrderRef) : List OrderRef :=
  refs.insertionSort fun a b => b.order.price ≤ a.order.price

/-- The orders most willing to trade come first on both sides. -/
def sortOrders (makerOrders takerOrders : List OrderRef) (auctionType : AuctionType) :
    List OrderRef × List OrderRef :=
  match auctionType with
  | .bid => (sortDown makerOrders, sortUp takerOrders)
  | .ask => (sortUp makerOrders, sortDown takerOrders)

/-- `volume += order.quantity - order.filled_quantity` -/
def addRemaining (volume : U64) (r : OrderRef) : Option U64 := do
  let remaining ← Checked.sub r.order.quantity r.order.filledQuantity
  Checked.add volume remaining

def calculateVolumeAtPrice (makerOrders takerOrders : List OrderRef) (price : U64)
    (auctionType : AuctionType) : Option U64 := do
  match auctionType with
  | .bid =>
    let makerVolume ← makerOrders.foldlM
      (fun v r => if r.order.price ≥ price then addRemaining v r else some v) 0
    let takerVolume ← takerOrders.foldlM
      (fun v r => if r.order.price ≤ price then addRemaining v r else some v) 0
    some (min makerVolume takerVolume)
  | .ask =>
    let makerVolume ← makerOrders.foldlM
      (fun v r => if r.order.price ≤ price then addRemaining v r else some v) 0
    let takerVolume ← takerOrders.foldlM
      (fun v r => if r.order.price ≥ price then addRemaining v r else some v) 0
    some (min makerVolume takerVolume)

/-- Whether a taker order may trade at `price`. -/
def canFill (auctionType : AuctionType) (price : U64) (o : Order) : Bool :=
  match auctionType with
  | .bid => o.price ≤ price
  | .ask => o.price ≥ price

/-- Whether a maker order may trade at `price`. -/
def isEligible (auctionType : AuctionType) (price : U64) (o : Order) : Bool :=
  match auctionType with
  | .bid => o.price ≥ price
  | .ask => o.price ≤ price

/-- The local variables of the loop that groups the takers by price. -/
structure Grouping where
  priceGroups : List (List ℕ) := []
  currentGroup : List ℕ := []
  lastPrice : Option U64 := none

/-- `price_groups.push(current_group)`, unless the group is empty. -/
def Grouping.flush (g : Grouping) : Grouping :=
  if g.currentGroup ≠ [] then
    { g with priceGroups := g.priceGroups ++ [g.currentGroup], currentGroup := [] }
  else g

def groupStep (auctionType : AuctionType) (price : U64) (g : Grouping) :
    OrderRef × ℕ → Grouping
  | (r, idx) =>
    if !canFill auctionType price r.order then g
    else
      let g := match g.lastPrice with
        | some lastP => if r.order.price ≠ lastP then g.flush else g
        | none => g
      { g with currentGroup := g.currentGroup ++ [idx], lastPrice := some r.order.price }

def priceGroups (takerOrders : List OrderRef) (price : U64) (auctionType : AuctionType) :
    List (List ℕ) :=
  (takerOrders.zipIdx.foldl (groupStep auctionType price) {}).flush.priceGroups

/-- `filled_quantity += (quantity - filled_quantity) * volume / out_of` -/
def fillOrder (volume outOf : U64) (r : OrderRef) : Option OrderRef := do
  let available ← Checked.sub r.order.quantity r.order.filledQuantity
  let product ← Checked.mul available volume
  let fillAmount ← Checked.div product outOf
  let filled ← Checked.add r.order.filledQuantity fillAmount
  some { r with order := { r.order with filledQuantity := filled } }

def fillLevels : List (List ℕ) → List OrderRef × U64 → Option (List OrderRef × U64)
  | [], st => some st
  | group :: groups, (takerOrders, remainingVolume) => do
    -- the `break`: nothing is left for this level or for any later one
    if remainingVolume = 0 then some (takerOrders, remainingVolume)
    else
      let levelVolume ← group.foldlM (fun v idx => do
        let r ← takerOrders[idx]?
        addRemaining v r) 0
      let volumeToFill := min levelVolume remainingVolume
      let takerOrders ← group.foldlM (Loops.updateAt (fillOrder volumeToFill levelVolume)) takerOrders
      let remainingVolume ← Checked.sub remainingVolume volumeToFill
      fillLevels groups (takerOrders, remainingVolume)

def executeTradesAtPrice (makerOrders takerOrders : List OrderRef) (price : U64)
    (auctionType : AuctionType) : Option (List OrderRef × List OrderRef) := do
  let totalVolume ← calculateVolumeAtPrice makerOrders takerOrders price auctionType
  let (takerOrders, remainingVolume) ←
    fillLevels (priceGroups takerOrders price auctionType) (takerOrders, totalVolume)
  let makerVolumeAtClearing ← makerOrders.foldlM
    (fun v r => if isEligible auctionType price r.order then addRemaining v r else some v) 0
  if makerVolumeAtClearing > 0 then
    let makerFillVolume ← Checked.sub totalVolume (← Checked.sub totalVolume remainingVolume)
    let makerOrders ← makerOrders.mapM fun r =>
      if isEligible auctionType price r.order then
        fillOrder makerFillVolume makerVolumeAtClearing r
      else some r
    some (makerOrders, takerOrders)
  else some (makerOrders, takerOrders)

/-- One candidate price: it wins only with strictly more volume. -/
def searchStep (makerOrders takerOrders : List OrderRef) (auctionType : AuctionType)
    (best : U64 × U64) (price : U64) : Option (U64 × U64) := do
  let volume ← calculateVolumeAtPrice makerOrders takerOrders price auctionType
  some (if volume > best.2 then (price, volume) else best)

def allPrices (makerOrders takerOrders : List OrderRef) : List U64 :=
  ((makerOrders.map (·.order.price) ++ takerOrders.map (·.order.price)).insertionSort
    (· ≤ ·)).destutter (· ≠ ·)

/-- Clear one queue: the clearing price and volume, and the orders as they are left. -/
def executeAuction (orders : List Order) (auctionType : AuctionType) :
    Option ((U64 × U64) × List Order) := do
  let (makerOrders, takerOrders) := splitOrders orders
  if makerOrders.isEmpty || takerOrders.isEmpty then some ((0, 0), orders)
  else
    let (makerOrders, takerOrders) := sortOrders makerOrders takerOrders auctionType
    let best ← (allPrices makerOrders takerOrders).foldlM
      (searchStep makerOrders takerOrders auctionType) (0, 0)
    if best.2 > 0 then
      let (makerOrders, takerOrders) ←
        executeTradesAtPrice makerOrders takerOrders best.1 auctionType
      some (best, writeBack (writeBack orders makerOrders) takerOrders)
    else some (best, orders)

end ToyDfba
