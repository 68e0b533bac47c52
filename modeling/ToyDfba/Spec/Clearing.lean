import ToyDfba.Lib.Crossing
import ToyDfba.Lib.ProRata
import ToyDfba.Spec.State

/-! What clearing a queue is for, on exact numbers and without any order of
processing: the price that matches the most, the volume it matches, and the part of
it that each taker receives. -/

namespace ToyDfba

open Totals

def Order.remaining (o : Order) : ℕ := o.quantity.val - o.filledQuantity.val

def Order.live (o : Order) : Bool := o.isActive && decide (o.filledQuantity < o.quantity)

def Order.liveMaker (o : Order) : Bool := o.live && decide (o.orderType = .maker)

def Order.liveTaker (o : Order) : Bool := o.live && decide (o.orderType = .taker)

def liveMakers (orders : List Order) : List Order := orders.filter Order.liveMaker

def liveTakers (orders : List Order) : List Order := orders.filter Order.liveTaker

/-- The volume that can trade at a price. In the bid auction the makers bid and the
takers ask, in the ask auction the takers bid and the makers ask. -/
def matchedVolume (auctionType : AuctionType) (orders : List Order) (p : U64) : ℕ :=
  match auctionType with
  | .bid => Crossing.matched Order.price Order.remaining (liveMakers orders) (liveTakers orders) p
  | .ask => Crossing.matched Order.price Order.remaining (liveTakers orders) (liveMakers orders) p

def clearingVolume (auctionType : AuctionType) (orders : List Order) : ℕ :=
  (orders.map fun o => matchedVolume auctionType orders o.price).foldr max 0

/-- A clearing of the queue: no price trades more than `volume`, `price` is the lowest
that trades it, and the price is zero when nothing trades. -/
structure Clears (auctionType : AuctionType) (orders : List Order) (price : U64) (volume : ℕ) :
    Prop where
  greatest : IsGreatest (Set.range (matchedVolume auctionType orders)) volume
  least : 0 < volume → IsLeast {p | matchedVolume auctionType orders p = volume} price
  idle : volume = 0 → price = 0

/-- Whether `p` is a strictly more aggressive taker price than `q`. -/
def ahead (auctionType : AuctionType) (p q : U64) : Bool :=
  match auctionType with
  | .bid => p < q
  | .ask => q < p

/-- What the live takers at a price want together. -/
def levelVolume (orders : List Order) (p : U64) : ℕ :=
  total Order.remaining (fun o => o.price = p) (liveTakers orders)

/-- What the live takers at strictly more aggressive prices want together. -/
def aheadVolume (auctionType : AuctionType) (orders : List Order) (p : U64) : ℕ :=
  total Order.remaining (fun o => ahead auctionType o.price p) (liveTakers orders)

/-- The part of the clearing volume that reaches a taker price level. -/
def levelFill (auctionType : AuctionType) (orders : List Order) (p : U64) : ℕ :=
  min (levelVolume orders p) (clearingVolume auctionType orders - aheadVolume auctionType orders p)

/-- The part of it that one order of the level receives. -/
def takerFill (auctionType : AuctionType) (orders : List Order) (o : Order) : ℕ :=
  ProRata.share o.remaining (levelFill auctionType orders o.price) (levelVolume orders o.price)

def Order.fillBy (o : Order) (n : ℕ) : Order :=
  { o with filledQuantity := Fin.ofNat (2 ^ 64) (o.filledQuantity.val + n) }

/-- An order as the auction leaves it. -/
def settle (auctionType : AuctionType) (orders : List Order) (o : Order) : Order :=
  if o.liveTaker then o.fillBy (takerFill auctionType orders o) else o

/-- The books on which a sum or a product of the auction exceeds a word. -/
def Jams (auctionType : AuctionType) (orders : List Order) : Prop :=
  liveMakers orders ≠ [] ∧ liveTakers orders ≠ [] ∧
    (2 ^ 64 ≤ total Order.remaining (fun _ => true) (liveMakers orders) ∨
      2 ^ 64 ≤ total Order.remaining (fun _ => true) (liveTakers orders) ∨
      ∃ o ∈ liveTakers orders, 2 ^ 64 ≤ o.remaining * levelFill auctionType orders o.price)

instance (auctionType : AuctionType) (orders : List Order) : Decidable (Jams auctionType orders) :=
  inferInstanceAs (Decidable (_ ∧ _ ∧ (_ ∨ _ ∨ _)))

end ToyDfba
