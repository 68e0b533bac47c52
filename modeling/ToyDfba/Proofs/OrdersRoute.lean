import ToyDfba.Proofs.Clients
import ToyDfba.Proofs.Queues

/-! What a request for the open orders tells about the queues while everybody else goes on:
the bids and the asks, each complete and in order, at two moments of the request. One fetch
that is rejected, or one number that is too large, and it tells nothing. -/

namespace ToyDfba

open Processes

section Rows

/-- JavaScript holds the numbers of the order. -/
def Order.Shown (o : Order) : Prop :=
  o.price.val < 2 ^ 53 ∧ o.quantity.val < 2 ^ 53 ∧ o.timestamp.toInt.natAbs < 2 ^ 53 ∧
    o.filledQuantity.val < 2 ^ 53

theorem Order.row_eq_none_iff {o : Order} : o.row = none ↔ ¬ o.Shown := by
  have hrow : (∃ row, o.row = some row) ↔ o.Shown := by
    simp [Order.row, Order.Shown, Option.bind_eq_some_iff, toNumber_eq_some_iff]
  rw [← hrow, Option.eq_none_iff_forall_ne_some, not_exists]

theorem QueueOk.rowsOf_eq {t : AuctionType} {q : OrderQueue} (h : QueueOk t q) :
    rowsOf q.orders = q.orders.mapM Order.row := by
  rw [rowsOf, List.filter_eq_self.mpr fun o ho => (h.orders o ho).active]

theorem QueueOk.exists_not_shown {t : AuctionType} {q : OrderQueue} (h : QueueOk t q)
    (hnone : rowsOf q.orders = none) : ∃ o ∈ q.orders, ¬ o.Shown := by
  rw [h.rowsOf_eq] at hnone
  obtain ⟨o, ho, hrow⟩ := Loops.exists_of_mapM_eq_none hnone
  exact ⟨o, ho, Order.row_eq_none_iff.mp hrow⟩

end Rows

variable {κ : Type} [DecidableEq κ] {crankKey : Pubkey} {sys : System ProgramState κ Client}

theorem queueOk_runClients (h : Started sys.shared) (moves : List (Move κ Tx Turn))
    (t : AuctionType) : QueueOk t ((runClients crankKey sys moves).shared.queue t) := by
  apply run_invariant (C := fun _ => True)
    (P := fun sys : System ProgramState κ Client => QueueOk t (sys.shared.queue t)) _ _ (h.queueOk t)
  · exact fun _ _ => trivial
  · exact fun _ tx _ hq => queueOk_applyTx tx hq
  · intro sys c turn hq
    change QueueOk t (((sys.locals c).step crankKey sys.shared turn).1.queue t)
    rcases client_shared crankKey sys.shared (sys.locals c) turn with hsame | ⟨tx, htx⟩
    · rwa [hsame]
    · rw [htx]
      exact queueOk_applyTx tx hq

section Moments

/-- What holds of the bids at some moment of `post`, and of the asks then or later. -/
def ReadsTwice (crankKey : Pubkey) (sys : System ProgramState κ Client)
    (pre post : List (Move κ Tx Turn)) (P : List Order → List Order → Prop) : Prop :=
  ∃ mid mid', mid <+: mid' ∧ mid' <+: post ∧
    P (runClients crankKey sys (pre ++ mid)).shared.bidQueue.orders
      (runClients crankKey sys (pre ++ mid')).shared.askQueue.orders

variable {pre post : List (Move κ Tx Turn)} {P : List Order → List Order → Prop} {c : κ}

theorem ReadsTwice.longer (h : ReadsTwice crankKey sys pre post P) (move : Move κ Tx Turn) :
    ReadsTwice crankKey sys pre (post ++ [move]) P := by
  obtain ⟨mid, mid', hmid, hpost, hP⟩ := h
  exact ⟨mid, mid', hmid, hpost.trans (List.prefix_append _ _), hP⟩

/-- What a request made after `pre` has seen when `post` has passed since. -/
def OrdersRequest.Saw (crankKey : Pubkey) (sys : System ProgramState κ Client)
    (pre post : List (Move κ Tx Turn)) (c : κ) : OrdersRequest → Prop
  | .called => True
  | .fetched bids => ∃ mid, mid <+: post ∧
      (runClients crankKey sys (pre ++ mid)).shared.bidQueue.orders = bids
  | .answered bidOrders askOrders =>
    ReadsTwice crankKey sys pre post fun bids asks =>
      rowsOf bids = some bidOrders ∧ rowsOf asks = some askOrders
  | .failed => 0 < refusals c post ∨
    ReadsTwice crankKey sys pre post fun bids asks => rowsOf bids = none ∨ rowsOf asks = none

theorem OrdersRequest.Saw.longer {request : OrdersRequest}
    (h : request.Saw crankKey sys pre post c) (move : Move κ Tx Turn) :
    request.Saw crankKey sys pre (post ++ [move]) c := by
  cases request with
  | called => trivial
  | fetched bids =>
    obtain ⟨mid, hmid, hbids⟩ := h
    exact ⟨mid, hmid.trans (List.prefix_append _ _), hbids⟩
  | answered bidOrders askOrders =>
    unfold Saw at h ⊢
    exact h.longer move
  | failed =>
    unfold Saw at h ⊢
    rcases h with hrefused | hread
    · exact Or.inl (hrefused.trans_le (turnsWith_le_snoc ..))
    · exact Or.inr (hread.longer move)

theorem OrdersRequest.saw_failed {turn : Turn} (hrefused : turn.network ≠ .answers) :
    failed.Saw crankKey sys pre (post ++ [.step c turn]) c := by
  unfold Saw
  apply Or.inl
  rw [refusals, turnsWith_snoc, if_pos hrefused]
  exact Nat.succ_pos _

/-- The request reads where the run stands. -/
theorem OrdersRequest.Saw.step {request : OrdersRequest}
    (h : request.Saw crankKey sys pre post c) (turn : Turn) :
    (request.step (runClients crankKey sys (pre ++ post)).shared turn).Saw crankKey sys pre
      (post ++ [.step c turn]) c := by
  cases request with
  | called =>
    simp only [OrdersRequest.step, Turn.fetch]
    split_ifs with hanswers
    · exact ⟨post, List.prefix_append _ _, rfl⟩
    · exact saw_failed hanswers
  | fetched bids =>
    obtain ⟨mid, hmid, rfl⟩ := h
    have hreads : ∀ P : List Order → List Order → Prop,
        P (runClients crankKey sys (pre ++ mid)).shared.bidQueue.orders
          (runClients crankKey sys (pre ++ post)).shared.askQueue.orders →
        ReadsTwice crankKey sys pre (post ++ [.step c turn]) P :=
      fun P hP => ⟨mid, post, hmid, List.prefix_append _ _, hP⟩
    simp only [OrdersRequest.step, Turn.fetch]
    split_ifs with hanswers
    · cases hbids : rowsOf (runClients crankKey sys (pre ++ mid)).shared.bidQueue.orders with
      | none =>
        simp only [Saw]
        exact Or.inr (hreads _ (Or.inl hbids))
      | some bidOrders =>
        cases hasks : rowsOf (runClients crankKey sys (pre ++ post)).shared.askQueue.orders with
        | none =>
          simp only [hasks, Saw]
          exact Or.inr (hreads _ (Or.inr hasks))
        | some askOrders =>
          simp only [hasks, Saw]
          exact hreads _ ⟨hbids, hasks⟩
    · exact saw_failed hanswers
  | answered bidOrders askOrders => exact h.longer _
  | failed => exact h.longer _

theorem saw_orders (hcalled : (runClients crankKey sys pre).locals c = .orders .called)
    (post : List (Move κ Tx Turn)) :
    ∃ request, (runClients crankKey sys (pre ++ post)).locals c = .orders request ∧
      request.Saw crankKey sys pre post c := by
  apply run_history (H := fun mid client => ∃ request, client = Client.orders request ∧
    request.Saw crankKey sys pre mid c)
  · rintro mid move client - ⟨request, hclient, hrequest⟩
    exact ⟨request, hclient, hrequest.longer move⟩
  · rintro mid _ turn - ⟨request, rfl, hrequest⟩
    exact ⟨_, rfl, hrequest.step turn⟩
  · exact ⟨.called, hcalled, trivial⟩

end Moments

/-- A request for the open orders, whatever goes on meanwhile. It answers with all the bids
as they stood at a moment of the request and all the asks as they stood then or later, or it
fails, and then one of its fetches was rejected or one of these orders has a number that
JavaScript does not hold. -/
theorem orders_request (h : Started sys.shared) {pre post : List (Move κ Tx Turn)} {c : κ}
    (hcalled : (runClients crankKey sys pre).locals c = .orders .called) :
    (∀ bidOrders askOrders,
      (runClients crankKey sys (pre ++ post)).locals c = .orders (.answered bidOrders askOrders) →
      ReadsTwice crankKey sys pre post fun bids asks =>
        bids.map Order.row = bidOrders.map some ∧ asks.map Order.row = askOrders.map some) ∧
    ((runClients crankKey sys (pre ++ post)).locals c = .orders .failed →
      0 < refusals c post ∨ ReadsTwice crankKey sys pre post fun bids asks =>
        ∃ o ∈ bids ++ asks, ¬ o.Shown) := by
  obtain ⟨request, hclient, hrequest⟩ := saw_orders hcalled post
  constructor
  · intro bidOrders askOrders hanswered
    obtain rfl := Client.orders.inj (hclient.symm.trans hanswered)
    obtain ⟨mid, mid', hmid, hpost, hbids, hasks⟩ := hrequest
    have hbids := (queueOk_runClients h (pre ++ mid) .bid).rowsOf_eq.symm.trans hbids
    have hasks := (queueOk_runClients h (pre ++ mid') .ask).rowsOf_eq.symm.trans hasks
    exact ⟨mid, mid', hmid, hpost, Loops.mapM_eq_some_iff.mp hbids,
      Loops.mapM_eq_some_iff.mp hasks⟩
  · intro hfailed
    obtain rfl := Client.orders.inj (hclient.symm.trans hfailed)
    rcases hrequest with hrefused | ⟨mid, mid', hmid, hpost, hnone⟩
    · exact Or.inl hrefused
    · have hmissing : ∃ o ∈ (runClients crankKey sys (pre ++ mid)).shared.bidQueue.orders ++
          (runClients crankKey sys (pre ++ mid')).shared.askQueue.orders, ¬ o.Shown := by
        rcases hnone with hbids | hasks
        · obtain ⟨o, ho, hshown⟩ :=
            (queueOk_runClients h (pre ++ mid) .bid).exists_not_shown hbids
          exact ⟨o, List.mem_append_left _ ho, hshown⟩
        · obtain ⟨o, ho, hshown⟩ :=
            (queueOk_runClients h (pre ++ mid') .ask).exists_not_shown hasks
          exact ⟨o, List.mem_append_right _ ho, hshown⟩
      exact Or.inr ⟨mid, mid', hmid, hpost, hmissing⟩

/-- A request during which a maker replaces its orders: the answer holds its old bid beside
its new ask, which were never there together. -/
def sampleViewer : System ProgramState Bool Client := ⟨sampleStart, fun _ => .orders .called⟩

def sampleQuotes : List (Move Bool Tx Turn) :=
  [.world (sampleTx 0 (.placeMultipleOrders [⟨.maker, .buy, 105, 300⟩, ⟨.maker, .sell, 107, 300⟩]))]

def sampleRequote : List (Move Bool Tx Turn) :=
  [.step true (sampleTurn 1 .answers),
    .world (sampleTx 1 (.cancelAllAndPostNewOrders [⟨.maker, .buy, 115, 300⟩, ⟨.maker, .sell, 117, 300⟩])),
    .step false (sampleTurn 1 .rejects), .step true (sampleTurn 2 .answers)]

theorem orders_request_sampleViewer :
    ReadsTwice 9 sampleViewer sampleQuotes sampleRequote fun bids asks =>
      bids.map Order.row = [some ⟨1000, 1, .maker, .buy, 105, 300, 1000, true, 0⟩] ∧
        asks.map Order.row = [some ⟨1000, 1, .maker, .sell, 117, 300, 1000, true, 0⟩] := by
  have hcalled : (runClients 9 sampleViewer sampleQuotes).locals true = .orders .called := by decide
  have hanswered : (runClients 9 sampleViewer (sampleQuotes ++ sampleRequote)).locals true =
      .orders (.answered [⟨1000, 1, .maker, .buy, 105, 300, 1000, true, 0⟩]
        [⟨1000, 1, .maker, .sell, 117, 300, 1000, true, 0⟩]) := by decide
  exact (orders_request started_sampleStart hcalled).1 _ _ hanswered

end ToyDfba
