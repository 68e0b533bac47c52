import ToyDfba.Proofs.Auction
import ToyDfba.Spec.History
import ToyDfba.Spec.Lifecycle

/-! What the instructions that succeed can have done, said once for each handler. Later
proofs read a step off these lemmas and never open a handler again. -/

namespace ToyDfba

theorem bind_eq_ok {ε α β : Type} {x : Except ε α} {f : α → Except ε β} {b : β} :
    (x >>= f) = .ok b ↔ ∃ a, x = .ok a ∧ f a = .ok b := by
  cases x <;> simp [bind, Except.bind]

@[simp] theorem require_eq_ok {c : Prop} [Decidable c] {e : ErrorCode} {u : Unit} :
    require c e = .ok u ↔ c := by
  unfold require
  split_ifs with h <;> simp [h]

@[simp] theorem orPanic_eq_ok {α : Type} {x : Option α} {a : α} :
    orPanic x = .ok a ↔ x = some a := by
  cases x <;> simp [orPanic]

@[simp] theorem initResult_eq_ok {batchId : U64} {s s' : ProgramState} :
    initResult batchId s = .ok s' ↔
      s.results batchId = none ∧
        s' = { s with results := Function.update s.results batchId (some {}) } := by
  unfold initResult
  cases h : s.results batchId <;> simp [eq_comm]

theorem ProgramState.queue_setOrders (s : ProgramState) (t t' : AuctionType) (orders : List Order) :
    (s.setOrders t orders).queue t' =
      if t' = t then { s.queue t with orders := orders } else s.queue t' := by
  cases t <;> cases t' <;> rfl

theorem admits_orderQueue (orderType : OrderType) (side : Side) :
    (orderQueue orderType side).admits orderType side := by
  cases orderType <;> cases side <;> rfl

/-- Placement appends fresh orders to the queues, within their capacity. -/
structure Appends (signer : Pubkey) (clock : Clock) (orders : List PlaceOrderParams)
    (s s' : ProgramState) : Prop where
  auctionState : s'.auctionState = s.auctionState
  results : s'.results = s.results
  queue : ∀ t, ∃ new, (∀ o ∈ new, Fresh signer clock orders t o) ∧
    s'.queue t = { s.queue t with orders := (s.queue t).orders ++ new }
  fits : ∀ t, (s.queue t).orders.length ≤ (s.queue t).maxOrders.val →
    (s'.queue t).orders.length ≤ (s.queue t).maxOrders.val

section Placement

variable {signer : Pubkey} {clock : Clock} {orders : List PlaceOrderParams}

theorem Fresh.mono {orders' : List PlaceOrderParams} {t : AuctionType} {o : Order}
    (h : Fresh signer clock orders t o) (hsub : orders ⊆ orders') :
    Fresh signer clock orders' t o :=
  { h with requested := hsub h.requested }

theorem Appends.mono {orders' : List PlaceOrderParams} {s s' : ProgramState}
    (h : Appends signer clock orders s s') (hsub : orders ⊆ orders') :
    Appends signer clock orders' s s' := by
  refine ⟨h.auctionState, h.results, fun t => ?_, h.fits⟩
  obtain ⟨new, hnew, hqueue⟩ := h.queue t
  exact ⟨new, fun o ho => (hnew o ho).mono hsub, hqueue⟩

theorem Appends.refl (s : ProgramState) : Appends signer clock orders s s :=
  ⟨rfl, rfl, fun _ => ⟨[], by simp, by simp⟩, fun _ h => h⟩

theorem Appends.trans {a b c : ProgramState} (h : Appends signer clock orders a b)
    (h' : Appends signer clock orders b c) : Appends signer clock orders a c := by
  refine ⟨h'.auctionState.trans h.auctionState, h'.results.trans h.results, fun t => ?_,
    fun t hfits => ?_⟩
  · obtain ⟨new, hnew, hb⟩ := h.queue t
    obtain ⟨new', hnew', hc⟩ := h'.queue t
    refine ⟨new ++ new', fun o ho => ?_, by rw [hc, hb, List.append_assoc]⟩
    rcases List.mem_append.mp ho with ho | ho
    · exact hnew o ho
    · exact hnew' o ho
  · obtain ⟨new, -, hb⟩ := h.queue t
    have hmax : (b.queue t).maxOrders = (a.queue t).maxOrders := by rw [hb]
    have := h'.fits t (hmax ▸ h.fits t hfits)
    rwa [hmax] at this

theorem placeOne_appends {params : PlaceOrderParams} {s s' : ProgramState} {e : Event}
    (h : placeOne signer clock params s = .ok (some (s', e))) :
    Appends signer clock [params] s s' := by
  simp only [placeOne, bind_eq_ok, require_eq_ok] at h
  obtain ⟨-, ⟨hprice, hquantity⟩, h⟩ := h
  split_ifs at h with hfull
  · cases h
  · obtain ⟨orderId, -, h⟩ := bind_eq_ok.mp h
    simp only [Except.ok.injEq, Option.some.injEq, Prod.mk.injEq] at h
    obtain ⟨rfl, -⟩ := h
    refine ⟨?_, ?_, fun t => ?_, fun t hfits => ?_⟩
    · cases orderQueue params.orderType params.side <;> rfl
    · cases orderQueue params.orderType params.side <;> rfl
    · rw [ProgramState.queue_setOrders]
      split_ifs with ht
      · subst ht
        exact ⟨_, fun o ho => by
          obtain rfl := List.mem_singleton.mp ho
          exact ⟨rfl, rfl, List.mem_singleton_self _, admits_orderQueue _ _, rfl, hprice, hquantity,
            rfl⟩, rfl⟩
      · exact ⟨[], by simp, by simp⟩
    · rw [ProgramState.queue_setOrders]
      split_ifs with ht
      · subst ht
        rw [List.length_append]
        exact not_le.mp hfull
      · exact hfits

theorem placeLoop_appends {s s' : ProgramState} {events events' : List Event}
    (h : placeLoop signer clock orders (s, events) = .ok (s', events')) :
    Appends signer clock orders s s' := by
  induction orders generalizing s events with
  | nil =>
    obtain ⟨rfl, -⟩ := Prod.mk.inj (Except.ok.inj h)
    exact Appends.refl s
  | cons params orders ih =>
    obtain ⟨placed, hplace, h⟩ := bind_eq_ok.mp h
    cases placed with
    | none =>
      obtain ⟨rfl, -⟩ := Prod.mk.inj (Except.ok.inj h)
      exact Appends.refl s
    | some st =>
      have hfirst := (placeOne_appends hplace).mono (List.cons_subset_cons params (List.nil_subset orders))
      exact hfirst.trans ((ih h).mono (List.subset_cons_self params orders))

theorem placeOrderHandler_appends {params : PlaceOrderParams} {s s' : ProgramState}
    {events : List Event} (h : placeOrderHandler signer clock params s = .ok (s', events)) :
    Appends signer clock [params] s s' := by
  obtain ⟨-, -, h⟩ := bind_eq_ok.mp h
  obtain ⟨placed, hplace, h⟩ := bind_eq_ok.mp h
  cases placed with
  | none =>
    obtain ⟨rfl, -⟩ := Prod.mk.inj (Except.ok.inj h)
    exact Appends.refl s
  | some st =>
    obtain ⟨rfl, -⟩ := Prod.mk.inj (Except.ok.inj h)
    exact placeOne_appends hplace

theorem placeMultipleOrdersHandler_appends {s s' : ProgramState} {events : List Event}
    (h : placeMultipleOrdersHandler signer clock orders s = .ok (s', events)) :
    Appends signer clock orders s s' := by
  obtain ⟨-, -, h⟩ := bind_eq_ok.mp h
  exact placeLoop_appends h

theorem cancelAllAndPostNewOrdersHandler_appends {s s' : ProgramState} {events : List Event}
    (h : cancelAllAndPostNewOrdersHandler signer clock orders s = .ok (s', events)) :
    Appends signer clock orders (retainOthers signer s) s' := by
  obtain ⟨-, -, h⟩ := bind_eq_ok.mp h
  exact placeLoop_appends h

end Placement

theorem retainOthers_queue (owner : Pubkey) (s : ProgramState) (t : AuctionType) :
    (retainOthers owner s).queue t =
      { s.queue t with orders := (s.queue t).orders.filter fun o => o.owner ≠ owner } := by
  cases t <;> rfl

structure Executes (clock : Clock) (batchId : U64) (s s' : ProgramState) (r : AuctionResult) :
    Prop where
  free : s.results batchId = none
  due : s.auctionState.lastBatchSlot.val + s.auctionState.batchInterval.val ≤ clock.slot.val
  number : r.batchId.val = s.auctionState.batchCounter.val + 1
  clears : ∀ t, executeAuction (s.queue t).orders t =
    some (r.clearing t, (s.queue t).orders.map (settle t (s.queue t).orders))
  auctionState : s'.auctionState =
    { s.auctionState with lastBatchSlot := clock.slot, batchCounter := r.batchId }
  queue : ∀ t, s'.queue t =
    { s.queue t with
      orders := ((s.queue t).orders.map (settle t (s.queue t).orders)).filter stillOpen }
  results : s'.results = Function.update s.results batchId (some r)

theorem executeBatchHandler_executes {clock : Clock} {batchId : U64} {s s' : ProgramState}
    {events : List Event} (h : executeBatchHandler clock batchId s = .ok (s', events)) :
    ∃ r, Executes clock batchId s s' r ∧ events = [r.event] := by
  simp only [executeBatchHandler, bind_eq_ok, initResult_eq_ok, require_eq_ok, orPanic_eq_ok,
    Checked.add_eq_some, Except.ok.injEq, Prod.mk.injEq] at h
  obtain ⟨_, ⟨hfree, rfl⟩, due, hdue, -, hslot, ⟨⟨bidPrice, bidVolume⟩, bids⟩, hbid,
    ⟨⟨askPrice, askVolume⟩, asks⟩, hask, batchCounter, hcounter, rfl, rfl⟩ := h
  obtain rfl := executeAuction_orders hbid
  obtain rfl := executeAuction_orders hask
  refine ⟨⟨batchCounter, bidPrice, bidVolume, askPrice, askVolume, clock.unixTimestamp⟩,
    ⟨hfree, ?_, hcounter.symm, fun t => ?_, rfl, fun t => ?_, ?_⟩, rfl⟩
  · rw [hdue]
    exact hslot
  · cases t
    · exact hbid
    · exact hask
  · cases t <;> rfl
  · exact Function.update_idem _ _ _

theorem executeBatchHandler_ok_iff {clock : Clock} {batchId : U64} {s : ProgramState} :
    (∃ out, executeBatchHandler clock batchId s = .ok out) ↔ BatchReady clock batchId s := by
  refine ⟨?_, ?_⟩
  · intro hsome
    obtain ⟨⟨s', events⟩, h⟩ := hsome
    obtain ⟨r, hr, -⟩ := executeBatchHandler_executes h
    refine ⟨hr.free, hr.due, fun t => (executeAuction_eq_some_iff.mp (hr.clears t)).1, ?_⟩
    exact hr.number ▸ r.batchId.isLt
  · intro h
    have hclears : ∀ t, ∃ best, executeAuction (s.queue t).orders t = some best := fun t =>
      Option.ne_none_iff_exists'.mp (mt executeAuction_eq_none_iff.mp (h.clearable t))
    obtain ⟨⟨⟨bidPrice, bidVolume⟩, bids⟩, hbid⟩ := hclears .bid
    obtain ⟨⟨⟨askPrice, askVolume⟩, asks⟩, hask⟩ := hclears .ask
    have hdue := lt_of_le_of_lt h.due clock.slot.isLt
    simp only [executeBatchHandler, bind_eq_ok, initResult_eq_ok, require_eq_ok, orPanic_eq_ok,
      Checked.add_eq_some]
    exact ⟨_, _, ⟨h.free, rfl⟩, ⟨_, hdue⟩, rfl, (), h.due, _, hbid, _, hask, ⟨_, h.countable⟩, rfl, rfl⟩

section Process

variable {s s' : ProgramState} {tx : Tx} {events : List Event}

theorem succeeds_iff_ready {batchId : U64} (hix : tx.ix = .executeBatch batchId) :
    Succeeds s tx ↔ BatchReady tx.clock batchId s := by
  rw [Succeeds, process, hix]
  exact executeBatchHandler_ok_iff

/-- What a transaction that succeeds can have done. -/
inductive Committed (s s' : ProgramState) (tx : Tx) : Prop
  | placed (hcancels : ¬ tx.ix.cancels) (hexecutes : ¬ tx.ix.executes)
    (h : Appends tx.signer tx.clock tx.ix.orders s s')
  | cancelled (hcancels : tx.ix.cancels)
    (h : Appends tx.signer tx.clock tx.ix.orders (retainOthers tx.signer s) s')
  | reserved (batchId : U64) (hix : tx.ix = .initializeResult batchId)
    (free : s.results batchId = none)
    (hs' : s' = { s with results := Function.update s.results batchId (some {}) })
  | executed (batchId : U64) (hix : tx.ix = .executeBatch batchId) (r : AuctionResult)
    (h : Executes tx.clock batchId s s' r)

theorem process_committed (h : process s tx = .ok (s', events)) : Committed s s' tx := by
  obtain ⟨signer, clock, ix⟩ := tx
  cases ix with
  | initializeAuction batchInterval => cases h
  | placeOrder params =>
    exact .placed Bool.false_ne_true Bool.false_ne_true (placeOrderHandler_appends h)
  | placeMultipleOrders orders =>
    exact .placed Bool.false_ne_true Bool.false_ne_true (placeMultipleOrdersHandler_appends h)
  | cancelAllOrders =>
    obtain ⟨rfl, -⟩ := Prod.mk.inj (Except.ok.inj h)
    exact .cancelled rfl (Appends.refl _)
  | cancelAllAndPostNewOrders orders =>
    exact .cancelled rfl (cancelAllAndPostNewOrdersHandler_appends h)
  | initializeResult batchId =>
    obtain ⟨_, hinit, h⟩ := bind_eq_ok.mp h
    obtain ⟨hfree, rfl⟩ := initResult_eq_ok.mp hinit
    obtain ⟨rfl, -⟩ := Prod.mk.inj (Except.ok.inj h)
    exact .reserved batchId rfl hfree rfl
  | executeBatch batchId =>
    obtain ⟨r, hr, -⟩ := executeBatchHandler_executes h
    exact .executed batchId rfl r hr

/-- What a successful instruction does to an order that rests in a queue, and whether it
removes it. -/
def fateOk (s : ProgramState) (tx : Tx) (t : AuctionType) : Order → Order × Option Removal :=
  match tx.ix with
  | .cancelAllOrders | .cancelAllAndPostNewOrders _ =>
    fun o => (o, if o.owner = tx.signer then some .cancelled else none)
  | .executeBatch _ =>
    fun o => (settle t (s.queue t).orders o,
      if stillOpen (settle t (s.queue t).orders o) then none else some .filled)
  | _ => fun o => (o, none)

theorem executes_iff {ix : Instruction} : ix.executes ↔ ∃ batchId, ix = .executeBatch batchId := by
  cases ix <;> simp [Instruction.executes]

theorem fateOk_of_executes (s : ProgramState) (h : tx.ix.executes) (t : AuctionType) :
    fateOk s tx t = fun o =>
      (settle t (s.queue t).orders o,
        if stillOpen (settle t (s.queue t).orders o) then none else some .filled) := by
  obtain ⟨batchId, hix⟩ := executes_iff.mp h
  simp only [fateOk, hix]

theorem fateOk_of_cancels (s : ProgramState) (h : tx.ix.cancels) (t : AuctionType) :
    fateOk s tx t = fun o => (o, if o.owner = tx.signer then some .cancelled else none) := by
  unfold fateOk
  cases hix : tx.ix <;> simp [hix, Instruction.cancels] at h ⊢

theorem fateOk_of_keeps (s : ProgramState) (hcancels : ¬ tx.ix.cancels)
    (hexecutes : ¬ tx.ix.executes) (t : AuctionType) : fateOk s tx t = fun o => (o, none) := by
  unfold fateOk
  cases hix : tx.ix <;> simp [hix, Instruction.cancels, Instruction.executes] at hcancels hexecutes ⊢

theorem fateOk_order (s : ProgramState) (h : ¬ tx.ix.executes) (t : AuctionType) (o : Order) :
    (fateOk s tx t o).1 = o := by
  unfold fateOk
  cases hix : tx.ix with
  | executeBatch batchId => exact absurd (executes_iff.mpr ⟨batchId, hix⟩) h
  | _ => rfl

theorem fateOk_fields (s : ProgramState) (tx : Tx) (t : AuctionType) (o : Order) :
    (fateOk s tx t o).1 = { o with filledQuantity := (fateOk s tx t o).1.filledQuantity } := by
  by_cases hix : tx.ix.executes
  · rw [fateOk_of_executes s hix]
    exact settle_fields t (s.queue t).orders o
  · rw [fateOk_order s hix]

theorem le_fateOk_filled (s : ProgramState) (tx : Tx) (t : AuctionType) (o : Order) :
    o.filledQuantity ≤ (fateOk s tx t o).1.filledQuantity := by
  by_cases hix : tx.ix.executes
  · rw [fateOk_of_executes s hix]
    exact le_settle_filled t (s.queue t).orders o
  · rw [fateOk_order s hix]

theorem fateOk_filled_le (s : ProgramState) (tx : Tx) (t : AuctionType) {o : Order}
    (h : o.filledQuantity ≤ o.quantity) :
    (fateOk s tx t o).1.filledQuantity ≤ (fateOk s tx t o).1.quantity := by
  rw [fateOk_fields]
  by_cases hix : tx.ix.executes
  · rw [fateOk_of_executes s hix]
    exact settle_filled_le t (s.queue t).orders h
  · rwa [fateOk_order s hix]

theorem fateOk_filled_iff (s : ProgramState) (tx : Tx) (t : AuctionType) (o : Order) :
    (fateOk s tx t o).2 = some .filled ↔
      tx.ix.executes ∧ ¬ stillOpen (settle t (s.queue t).orders o) := by
  unfold fateOk
  cases hix : tx.ix <;> simp [Instruction.executes]

theorem fateOk_cancelled_iff (s : ProgramState) (tx : Tx) (t : AuctionType) (o : Order) :
    (fateOk s tx t o).2 = some .cancelled ↔ tx.ix.cancels ∧ o.owner = tx.signer := by
  unfold fateOk
  cases hix : tx.ix <;> simp [Instruction.cancels]

theorem filterMap_survivor_retain (orders : List Order) (owner : Pubkey) :
    orders.filterMap (Ledger.survivor fun o =>
      (o, if o.owner = owner then some Removal.cancelled else none)) =
        orders.filter fun o => o.owner ≠ owner := by
  rw [← List.filterMap_eq_filter]
  refine List.filterMap_congr fun o _ => ?_
  by_cases h : o.owner = owner <;> simp [Ledger.survivor, Option.guard, h]

theorem filterMap_survivor_settle (orders : List Order) (f : Order → Order) :
    orders.filterMap (Ledger.survivor fun o =>
      (f o, if stillOpen (f o) then none else some Removal.filled)) =
        (orders.map f).filter stillOpen := by
  rw [← List.filterMap_eq_filter, List.filterMap_map]
  refine List.filterMap_congr fun o _ => ?_
  by_cases h : stillOpen (f o) <;> simp [Ledger.survivor, Option.guard, h]

theorem filterMap_survivor_keep (orders : List Order) :
    orders.filterMap (Ledger.survivor fun o => (o, (none : Option Removal))) = orders :=
  List.filterMap_some

/-- What a successful instruction does to a queue: it leaves the survivors in their
order and appends the orders it places. -/
structure QueueStep (s s' : ProgramState) (tx : Tx) (t : AuctionType) (new : List Order) : Prop where
  fresh : ∀ o ∈ new, Fresh tx.signer tx.clock tx.ix.orders t o
  queue : s'.queue t =
    { s.queue t with
      orders := (s.queue t).orders.filterMap (Ledger.survivor (fateOk s tx t)) ++ new }
  fits : (s.queue t).orders.length ≤ (s.queue t).maxOrders.val →
    (s'.queue t).orders.length ≤ (s.queue t).maxOrders.val

theorem Appends.queueStep {a : ProgramState} {t : AuctionType}
    (h : Appends tx.signer tx.clock tx.ix.orders a s')
    (ha : a.queue t =
      { s.queue t with
        orders := (s.queue t).orders.filterMap (Ledger.survivor (fateOk s tx t)) }) :
    ∃ new, QueueStep s s' tx t new := by
  obtain ⟨new, hnew, hqueue⟩ := h.queue t
  have hmax : (a.queue t).maxOrders = (s.queue t).maxOrders := by rw [ha]
  refine ⟨new, hnew, by rw [hqueue, ha], fun hfits => ?_⟩
  rw [← hmax]
  refine h.fits t (le_trans ?_ (hmax ▸ hfits))
  rw [ha]
  exact List.length_filterMap_le _ _

theorem QueueStep.of_survivors {t : AuctionType}
    (h : s'.queue t =
      { s.queue t with
        orders := (s.queue t).orders.filterMap (Ledger.survivor (fateOk s tx t)) }) :
    QueueStep s s' tx t [] := by
  refine ⟨by simp, by rw [h, List.append_nil], fun hfits => le_trans ?_ hfits⟩
  rw [h]
  exact List.length_filterMap_le _ _

theorem process_queue (h : process s tx = .ok (s', events)) (t : AuctionType) :
    ∃ new, QueueStep s s' tx t new := by
  cases process_committed h with
  | placed hcancels hexecutes happ =>
    refine happ.queueStep ?_
    rw [fateOk_of_keeps s hcancels hexecutes, filterMap_survivor_keep]
  | cancelled hcancels happ =>
    refine happ.queueStep ?_
    rw [fateOk_of_cancels s hcancels, filterMap_survivor_retain, retainOthers_queue]
  | reserved batchId hix hfree hs' =>
    refine ⟨[], QueueStep.of_survivors ?_⟩
    have hkeeps := @fateOk_of_keeps tx s (by simp [hix, Instruction.cancels])
      (by simp [hix, Instruction.executes]) t
    rw [hkeeps, filterMap_survivor_keep, hs']
    cases t <;> rfl
  | executed batchId hix r hr =>
    refine ⟨[], QueueStep.of_survivors ?_⟩
    have hexecutes := executes_iff.mpr ⟨batchId, hix⟩
    rw [fateOk_of_executes s hexecutes, filterMap_survivor_settle, hr.queue]

theorem applyTx_of_ok {s s' : ProgramState} {tx : Tx} {events : List Event}
    (h : process s tx = .ok (s', events)) : applyTx s tx = s' := by
  rw [applyTx, h]

theorem applyTx_of_error {s : ProgramState} {tx : Tx} {e : TxError} (h : process s tx = .error e) :
    applyTx s tx = s := by
  rw [applyTx, h]

theorem applyTx_cases (s : ProgramState) (tx : Tx) :
    (∃ events, process s tx = .ok (applyTx s tx, events)) ∨
      (¬ Succeeds s tx ∧ applyTx s tx = s) := by
  unfold applyTx Succeeds
  cases h : process s tx with
  | ok out => exact Or.inl ⟨out.2, rfl⟩
  | error e => exact Or.inr ⟨by simp, rfl⟩

theorem runsBatch_iff : runsBatch (s, tx) ↔ tx.ix.executes ∧ Succeeds s tx := by
  unfold runsBatch Succeeds
  dsimp only
  cases hix : tx.ix <;> cases hp : process s tx <;> simp [Instruction.executes]

theorem runsBatch_of_ready {batchId : U64} (hix : tx.ix = .executeBatch batchId) :
    runsBatch (s, tx) ↔ BatchReady tx.clock batchId s := by
  rw [runsBatch_iff, succeeds_iff_ready hix, executes_iff]
  exact and_iff_right ⟨batchId, hix⟩

/-- What a transaction does to the auction state and the result accounts. -/
inductive AccountStep (s s' : ProgramState) (tx : Tx) : Prop
  | quiet (hruns : ¬ runsBatch (s, tx)) (auctionState : s'.auctionState = s.auctionState)
    (results : s'.results = s.results)
  | reserved (batchId : U64) (hruns : ¬ runsBatch (s, tx))
    (hix : tx.ix = .initializeResult batchId) (free : s.results batchId = none)
    (auctionState : s'.auctionState = s.auctionState)
    (results : s'.results = Function.update s.results batchId (some {}))
  | executed (batchId : U64) (hruns : runsBatch (s, tx)) (hix : tx.ix = .executeBatch batchId)
    (r : AuctionResult) (h : Executes tx.clock batchId s s' r)

theorem process_accounts (h : process s tx = .ok (s', events)) : AccountStep s s' tx := by
  have hquiet : ¬ tx.ix.executes → ¬ runsBatch (s, tx) := fun hix hruns =>
    hix (runsBatch_iff.mp hruns).1
  cases process_committed h with
  | placed _ hexecutes happ => exact .quiet (hquiet hexecutes) happ.auctionState happ.results
  | cancelled hcancels happ =>
    refine .quiet (hquiet fun hexecutes => ?_) happ.auctionState happ.results
    obtain ⟨batchId, hix⟩ := executes_iff.mp hexecutes
    simp [hix, Instruction.cancels] at hcancels
  | reserved batchId hix hfree hs' =>
    subst hs'
    exact .reserved batchId (hquiet (by simp [hix, Instruction.executes])) hix hfree rfl rfl
  | executed batchId hix r hr =>
    exact .executed batchId (runsBatch_iff.mpr ⟨executes_iff.mpr ⟨batchId, hix⟩, ⟨_, h⟩⟩) hix r hr

theorem applyTx_accounts (s : ProgramState) (tx : Tx) : AccountStep s (applyTx s tx) tx := by
  rcases applyTx_cases s tx with ⟨events, hok⟩ | ⟨hfailed, hsame⟩
  · exact process_accounts hok
  · rw [hsame]
    exact .quiet (fun hruns => hfailed (runsBatch_iff.mp hruns).2) rfl rfl

end Process

theorem applyTx_isPaused (s : ProgramState) (tx : Tx) :
    (applyTx s tx).auctionState.isPaused = s.auctionState.isPaused := by
  cases applyTx_accounts s tx with
  | quiet _ hstate _ => rw [hstate]
  | reserved _ _ _ _ hstate _ => rw [hstate]
  | executed _ _ _ r h => rw [h.auctionState]

theorem Started.isPaused_run {s₀ : ProgramState} (h : Started s₀) (txs : List Tx) :
    (run s₀ txs).auctionState.isPaused = false := by
  refine Runs.invariant (P := fun s : ProgramState => s.auctionState.isPaused = false)
    (fun s tx hs => (applyTx_isPaused s tx).trans hs) ?_ txs
  obtain ⟨authority, batchInterval, results, -, rfl⟩ := h
  rfl

theorem Reachable.isPaused_eq {s : ProgramState} (h : Reachable s) :
    s.auctionState.isPaused = false := by
  obtain ⟨s₀, txs, hs₀, rfl⟩ := h
  exact hs₀.isPaused_run txs

end ToyDfba
