import ToyDfba.Proofs.Steps
import ToyDfba.Spec.Borsh

/-! What the two queues look like in every state that a run reaches, and why their
accounts are large enough for them. -/

namespace ToyDfba

open Ledger

structure Rests (t : AuctionType) (o : Order) : Prop where
  routed : t.admits o.orderType o.side
  active : o.isActive = true
  price : 0 < o.price
  quantity : 0 < o.quantity
  unfilled : o.filledQuantity < o.quantity

structure QueueOk (t : AuctionType) (q : OrderQueue) : Prop where
  type : q.auctionType = t
  capacity : q.maxOrders = 85
  fits : q.orders.length ≤ q.maxOrders.val
  orders : ∀ o ∈ q.orders, Rests t o

theorem Fresh.rests {signer : Pubkey} {clock : Clock} {orders : List PlaceOrderParams}
    {t : AuctionType} {o : Order} (h : Fresh signer clock orders t o) : Rests t o :=
  ⟨h.routed, h.active, h.price, h.quantity, by rw [h.unfilled]; exact h.quantity⟩

theorem stillOpen_iff {o : Order} : stillOpen o ↔ o.isActive ∧ o.filledQuantity < o.quantity := by
  simp [stillOpen]

theorem Rests.live {t : AuctionType} {o : Order} (h : Rests t o) : o.live :=
  stillOpen_iff.mpr ⟨h.active, h.unfilled⟩

theorem survivor_eq_some {α ρ : Type} {fate : α → α × Option ρ} {a b : α} :
    survivor fate a = some b ↔ (fate a).2 = none ∧ (fate a).1 = b := by
  simp [survivor]

theorem Rests.survivor {s : ProgramState} {tx : Tx} {t : AuctionType} {o o' : Order}
    (h : Rests t o) (hsurvives : Ledger.survivor (fateOk s tx t) o = some o') : Rests t o' := by
  obtain ⟨hstays, rfl⟩ := survivor_eq_some.mp hsurvives
  by_cases hix : tx.ix.executes
  · have hopen : stillOpen (settle t (s.queue t).orders o) := by
      by_contra hnot
      simp [fateOk_of_executes s hix, hnot] at hstays
    have hunfilled := (stillOpen_iff.mp hopen).2
    rw [fateOk_of_executes s hix]
    dsimp only
    rw [settle_fields] at hunfilled ⊢
    exact ⟨h.routed, h.active, h.price, h.quantity, hunfilled⟩
  · rwa [fateOk_order s hix]

theorem QueueOk.step {s s' : ProgramState} {tx : Tx} {t : AuctionType} {new : List Order}
    (h : QueueOk t (s.queue t)) (hstep : QueueStep s s' tx t new) : QueueOk t (s'.queue t) := by
  have hmax : (s'.queue t).maxOrders = (s.queue t).maxOrders := by rw [hstep.queue]
  refine ⟨by rw [hstep.queue]; exact h.type, hmax.trans h.capacity,
    hmax ▸ hstep.fits h.fits, fun o ho => ?_⟩
  rw [hstep.queue] at ho
  rcases List.mem_append.mp ho with ho | ho
  · obtain ⟨old, hold, hsurvives⟩ := List.mem_filterMap.mp ho
    exact (h.orders old hold).survivor hsurvives
  · exact (hstep.fresh o ho).rests

theorem queueOk_applyTx {s : ProgramState} {t : AuctionType} (tx : Tx) (h : QueueOk t (s.queue t)) :
    QueueOk t ((applyTx s tx).queue t) := by
  rcases applyTx_cases s tx with ⟨events, hok⟩ | ⟨-, hsame⟩
  · obtain ⟨new, hstep⟩ := process_queue hok t
    exact h.step hstep
  · rwa [hsame]

theorem Started.queueOk {s : ProgramState} (h : Started s) (t : AuctionType) :
    QueueOk t (s.queue t) := by
  obtain ⟨authority, batchInterval, results, -, rfl⟩ := h
  cases t <;> exact ⟨rfl, rfl, Nat.zero_le _, fun o ho => nomatch ho⟩

theorem Started.queueOk_run {s : ProgramState} (h : Started s) (txs : List Tx) (t : AuctionType) :
    QueueOk t ((run s txs).queue t) :=
  Runs.invariant (P := fun s : ProgramState => QueueOk t (s.queue t))
    (fun _ tx hq => queueOk_applyTx tx hq) (h.queueOk t) txs

theorem Reachable.queueOk {s : ProgramState} (h : Reachable s) (t : AuctionType) :
    QueueOk t (s.queue t) := by
  obtain ⟨s₀, txs, hs₀, rfl⟩ := h
  exact hs₀.queueOk_run txs t

theorem leBytes_length (n x : ℕ) : (leBytes n x).length = n := by
  induction n generalizing x with
  | zero => rfl
  | succ n ih => rw [leBytes, List.length_cons, ih]

/-- An order takes 75 bytes, well below the 120 the allocation counts. -/
theorem Order.encode_length (o : Order) : o.encode.length = 75 := by
  have hType : o.orderType.encode.length = 1 := by cases o.orderType <;> rfl
  have hSide : o.side.encode.length = 1 := by cases o.side <;> rfl
  simp [Order.encode, encodeU64, encodePubkey, encodeI64, encodeBool, leBytes_length, hType, hSide]

theorem OrderQueue.accountData_length (discriminator : Vector UInt8 8) (q : OrderQueue) :
    (q.accountData discriminator).length = 8 + 1 + 4 + 4 + q.orders.length * 75 := by
  have hType : q.auctionType.encode.length = 1 := by cases q.auctionType <;> rfl
  have hOrders : (q.orders.flatMap Order.encode).length = q.orders.length * 75 := by
    rw [List.length_flatMap, List.map_congr_left fun o _ => o.encode_length]
    simp
  simp only [accountData, encode, encodeOrders, encodeU32, List.length_append, leBytes_length,
    hType, hOrders, Vector.length_toList]
  omega

/-- In every reachable state a queue holds at most its 85 orders, each of the kind the
queue is for, active and not yet filled, and its account has room for it. -/
theorem queue_wellFormed {s : ProgramState} (h : Reachable s) (t : AuctionType) :
    (s.queue t).orders.length ≤ (s.queue t).maxOrders.val ∧ (s.queue t).maxOrders = 85 ∧
      (∀ o ∈ (s.queue t).orders, t.admits o.orderType o.side ∧ o.isActive ∧ 0 < o.price ∧
        0 < o.quantity ∧ o.filledQuantity < o.quantity) ∧
      ∀ discriminator, ((s.queue t).accountData discriminator).length ≤ queueSpace := by
  have hq := h.queueOk t
  refine ⟨hq.fits, hq.capacity, fun o ho => ?_, fun discriminator => ?_⟩
  · have hrests := hq.orders o ho
    exact ⟨hrests.routed, hrests.active, hrests.price, hrests.quantity, hrests.unfilled⟩
  · have hfits := hq.fits
    rw [hq.capacity, show (85 : U32).val = 85 from rfl] at hfits
    rw [OrderQueue.accountData_length, queueSpace]
    omega

theorem queue_wellFormed_sampleTxs :
    ((run sampleStart sampleTxs).queue .bid).orders.length = 1 ∧
      ∀ o ∈ ((run sampleStart sampleTxs).queue .bid).orders,
        AuctionType.bid.admits o.orderType o.side ∧ o.isActive ∧ 0 < o.price ∧ 0 < o.quantity ∧
          o.filledQuantity < o.quantity :=
  ⟨by decide, (queue_wellFormed ⟨_, _, started_sampleStart, rfl⟩ .bid).2.2.1⟩

end ToyDfba
