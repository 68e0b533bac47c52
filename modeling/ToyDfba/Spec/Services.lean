import ToyDfba.Spec.Program

/-! The services of the backend that place orders. What `Math.random` and the doubles
decide is a parameter: a price of any size, and a quantity within its bounds. -/

namespace ToyDfba

/-- What is drawn for one order: its price, and by how much its quantity exceeds the least
one, which `Math.floor(Math.random() * n)` keeps below `n`. -/
structure Draw (n : ℕ) where
  price : U64
  extra : Fin n

/-- One turn of the loops that push orders. -/
def Draw.order {n : ℕ} (orderType : OrderType) (side : Side) (least : ℕ) (d : Draw n) :
    PlaceOrderParams :=
  { orderType := orderType, side := side, price := d.price,
    quantity := Fin.ofNat (2 ^ 64) (least + d.extra.val) }

/-- The orders that `MakerService.cancelAllAndPostNewOrders` pushes. -/
def makerOrders (buys sells : Fin 5 → Draw 2000) : List PlaceOrderParams :=
  (List.ofFn fun i => (buys i).order .maker .buy 1000) ++
    List.ofFn fun i => (sells i).order .maker .sell 1000

/-- The orders that `TakerService.placeTakerOrders` pushes. -/
def takerOrders (buys sells : Fin 3 → Draw 1500) : List PlaceOrderParams :=
  (List.ofFn fun i => (buys i).order .taker .buy 500) ++
    List.ofFn fun i => (sells i).order .taker .sell 500

/-- The transactions of the services, with the keypairs of the configuration. The crank may
call for any batch. -/
inductive FromService (makerKeypair takerKeypair crankKeypair : Pubkey) : Tx → Prop
  | maker (clock : Clock) (buys sells : Fin 5 → Draw 2000) :
    FromService makerKeypair takerKeypair crankKeypair
      ⟨makerKeypair, clock, .cancelAllAndPostNewOrders (makerOrders buys sells)⟩
  | taker (clock : Clock) (buys sells : Fin 3 → Draw 1500) :
    FromService makerKeypair takerKeypair crankKeypair
      ⟨takerKeypair, clock, .placeMultipleOrders (takerOrders buys sells)⟩
  | crank (clock : Clock) (batchId : U64) :
    FromService makerKeypair takerKeypair crankKeypair ⟨crankKeypair, clock, .executeBatch batchId⟩

end ToyDfba
