import ToyDfba.Proofs.Queues

/-! The books that stop the crank. Placement asks for a positive price and quantity and
nothing else, the sums and products of the auction must fit a word, and an auction that
panics leaves its orders in the queue for the next attempt. -/

namespace ToyDfba

open Totals

/-- The books of resting orders that the auction can clear in 64 bits: one type of order
is missing, or both sides and the products behind every taker's share fit. -/
def Clearable (t : AuctionType) (orders : List Order) : Prop :=
  (∀ o ∈ orders, o.orderType ≠ .maker) ∨ (∀ o ∈ orders, o.orderType ≠ .taker) ∨
    (total Order.remaining (fun o => o.orderType = .maker) orders < 2 ^ 64 ∧
      total Order.remaining (fun o => o.orderType = .taker) orders < 2 ^ 64 ∧
      ∀ o ∈ orders, o.orderType = .taker → ∀ p,
        o.remaining * min (levelVolume orders o.price)
          (matchedVolume t orders p - aheadVolume t orders o.price) < 2 ^ 64)

section Live

variable {t : AuctionType} {orders : List Order} (hlive : ∀ o ∈ orders, o.live)

include hlive

theorem liveMaker_of_live {o : Order} (ho : o ∈ orders) :
    o.liveMaker = decide (o.orderType = .maker) := by
  rw [Order.liveMaker, hlive o ho, Bool.true_and]

theorem liveTaker_of_live {o : Order} (ho : o ∈ orders) :
    o.liveTaker = decide (o.orderType = .taker) := by
  rw [Order.liveTaker, hlive o ho, Bool.true_and]

theorem liveMakers_of_live :
    liveMakers orders = orders.filter fun o => o.orderType = .maker :=
  List.filter_congr fun _ ho => liveMaker_of_live hlive ho

theorem liveTakers_of_live :
    liveTakers orders = orders.filter fun o => o.orderType = .taker :=
  List.filter_congr fun _ ho => liveTaker_of_live hlive ho

theorem clearable_iff : Clearable t orders ↔ ¬ Jams t orders := by
  obtain ⟨price, volume, hclears⟩ := exists_clears t orders
  obtain ⟨p₀, hp₀⟩ := hclears.greatest.1
  rw [hclears.volume_eq] at hp₀
  have hshare : ∀ o : Order, (∀ p, o.remaining * min (levelVolume orders o.price)
      (matchedVolume t orders p - aheadVolume t orders o.price) < 2 ^ 64) ↔
        o.remaining * levelFill t orders o.price < 2 ^ 64 := by
    refine fun o => ⟨fun h => ?_, fun h p => lt_of_le_of_lt ?_ h⟩
    · rw [levelFill, ← hp₀]
      exact h p₀
    · have hle := matchedVolume_le_clearingVolume t orders p
      exact Nat.mul_le_mul_left _ (min_le_min_left _ (Nat.sub_le_sub_right hle _))
  rw [Clearable, Jams, not_and_or, not_and_or, not_or, not_or, not_not, not_not]
  simp only [liveMakers_of_live hlive, liveTakers_of_live hlive, total_filter, Bool.true_and,
    hshare, ne_eq, List.filter_eq_nil_iff, List.mem_filter, decide_eq_true_eq, not_exists, not_and,
    not_le, and_imp]

end Live

/-- The slots from which on a batch may run. -/
def Due (s : ProgramState) (slot : U64) : Prop :=
  s.auctionState.lastBatchSlot.val + s.auctionState.batchInterval.val ≤ slot.val

instance (s : ProgramState) (slot : U64) : Decidable (Due s slot) :=
  inferInstanceAs (Decidable (_ ≤ _))

theorem exists_due_iff {s : ProgramState} :
    (∃ slot, Due s slot) ↔
      s.auctionState.lastBatchSlot.val + s.auctionState.batchInterval.val < 2 ^ 64 := by
  constructor
  · rintro ⟨slot, hdue⟩
    exact lt_of_le_of_lt hdue slot.isLt
  · intro hlt
    exact ⟨⟨_, hlt⟩, le_rfl⟩

/-- In a run both auctions of the crank go through at every slot that is due exactly when
both books are clearable in every state in which some slot is. -/
theorem auctions_complete_iff {s₀ : ProgramState} (h : Started s₀) (txs : List Tx) :
    (∀ pre, pre <+: txs → ∀ slot, Due (run s₀ pre) slot → ∀ t,
        (executeAuction ((run s₀ pre).queue t).orders t).isSome) ↔
      ∀ pre, pre <+: txs →
        (run s₀ pre).auctionState.lastBatchSlot.val + (run s₀ pre).auctionState.batchInterval.val <
          2 ^ 64 → ∀ t, Clearable t ((run s₀ pre).queue t).orders := by
  apply forall₂_congr
  intro pre _
  have hcomplete : (∀ t, (executeAuction ((run s₀ pre).queue t).orders t).isSome) ↔
      ∀ t, Clearable t ((run s₀ pre).queue t).orders := by
    apply forall_congr'
    intro t
    have hlive : ∀ o ∈ ((run s₀ pre).queue t).orders, o.live :=
      fun o ho => ((h.queueOk_run pre t).orders o ho).live
    rw [clearable_iff hlive, ← executeAuction_eq_none_iff, Option.isSome_iff_ne_none]
  rw [← exists_due_iff, hcomplete, exists_imp]

/-- Slot 2 is due from the start on, and slot 4 after the batch. -/
theorem clearable_sampleTxs :
    Clearable .bid (run sampleStart (sampleTxs.take 1)).bidQueue.orders ∧
      Clearable .bid (run sampleStart sampleTxs).bidQueue.orders := by
  have hall : ∀ pre ∈ sampleTxs.inits, ∀ t ∈ [AuctionType.bid, .ask],
      (executeAuction ((run sampleStart pre).queue t).orders t).isSome := by
    decide
  have hclearable := (auctions_complete_iff started_sampleStart sampleTxs).mp fun pre hpre _ _ t =>
    hall pre ((List.mem_inits _ _).mpr hpre) t (by cases t <;> decide)
  exact ⟨hclearable _ (List.take_prefix 1 _) (by decide) .bid,
    hclearable _ (List.prefix_refl _) (by decide) .bid⟩

/-- A bid and an offer for 2 ^ 33 units each, which placement accepts, stop the crank when
the next batch is due. -/
theorem auction_panics_of_large_orders :
    ¬ ∀ s, Reachable s → ∀ slot, Due s slot → ∀ t, (executeAuction (s.queue t).orders t).isSome := by
  intro h
  have hsome := h _ ⟨sampleStart,
    [sampleTx 0 (.placeOrder ⟨.maker, .buy, 100, 2 ^ 33⟩),
      sampleTx 0 (.placeOrder ⟨.taker, .sell, 100, 2 ^ 33⟩)], started_sampleStart, rfl⟩ 2
    (by decide) .bid
  revert hsome
  decide

/-- A quantity of which a full queue holds less than 2 ^ 32. -/
def Small (quantity : U64) : Prop := 85 * quantity.val < 2 ^ 32

theorem clearable_of_small {t : AuctionType} {q : OrderQueue} (hq : QueueOk t q)
    (hsmall : ∀ o ∈ q.orders, Small o.quantity) : Clearable t q.orders := by
  have hlength := hq.fits
  rw [hq.capacity, show (85 : U32).val = 85 from rfl] at hlength
  have hremaining : ∀ o ∈ q.orders, o.remaining ≤ (2 ^ 32 - 1) / 85 := by
    intro o ho
    have hle := hsmall o ho
    rw [Small] at hle
    rw [Order.remaining]
    omega
  have htotal : ∀ c, total Order.remaining c q.orders < 2 ^ 32 := by
    intro c
    have hle := total_le_mul Order.remaining (c := c) hremaining
    have hmul := Nat.mul_le_mul_right ((2 ^ 32 - 1) / 85) hlength
    omega
  refine Or.inr (Or.inr ⟨(htotal _).trans (by decide), (htotal _).trans (by decide), ?_⟩)
  intro o ho _ p
  have hlevel : levelVolume q.orders o.price < 2 ^ 32 := by
    rw [levelVolume, liveTakers, total_filter]
    exact htotal _
  have hown : o.remaining < 2 ^ 32 := lt_of_le_of_lt (hremaining o ho) (by decide)
  calc o.remaining * min (levelVolume q.orders o.price) _
      ≤ o.remaining * levelVolume q.orders o.price := Nat.mul_le_mul_left _ (min_le_left _ _)
    _ < 2 ^ 32 * 2 ^ 32 := Nat.mul_lt_mul'' hown hlevel
    _ = 2 ^ 64 := by rw [← Nat.pow_add]

theorem small_applyTx {s : ProgramState} {tx : Tx} {t : AuctionType}
    (hplaced : ∀ params ∈ tx.ix.orders, Small params.quantity)
    (h : ∀ o ∈ (s.queue t).orders, Small o.quantity) :
    ∀ o ∈ ((applyTx s tx).queue t).orders, Small o.quantity := by
  rcases applyTx_cases s tx with ⟨events, hok⟩ | ⟨-, hsame⟩
  · obtain ⟨new, hstep⟩ := process_queue hok t
    intro o ho
    rw [hstep.queue] at ho
    rcases List.mem_append.mp ho with ho | ho
    · obtain ⟨old, hold, hsurvives⟩ := List.mem_filterMap.mp ho
      obtain ⟨-, rfl⟩ := survivor_eq_some.mp hsurvives
      rw [fateOk_fields]
      exact h old hold
    · exact hplaced _ (hstep.fresh o ho).requested
  · rwa [hsame]

/-- While every order placed is small the crank is never stopped. -/
theorem auctions_complete_of_small {s₀ : ProgramState} (h : Started s₀) {txs : List Tx}
    (hsmall : ∀ tx ∈ txs, ∀ params ∈ tx.ix.orders, Small params.quantity) :
    ∀ t, (executeAuction ((run s₀ txs).queue t).orders t).isSome := by
  intro t
  have hq := h.queueOk_run txs t
  have horders : ∀ o ∈ ((run s₀ txs).queue t).orders, Small o.quantity := by
    induction txs using List.reverseRecOn with
    | nil =>
      obtain ⟨authority, batchInterval, results, -, rfl⟩ := h
      cases t <;> exact fun o ho => nomatch ho
    | append_singleton txs tx ih =>
      rw [run, Runs.run_snoc]
      exact small_applyTx (hsmall tx (by simp))
        (ih (fun tx htx => hsmall tx (List.mem_append_left _ htx)) (h.queueOk_run txs t))
  rw [Option.isSome_iff_ne_none, ne_eq, executeAuction_eq_none_iff]
  exact (clearable_iff fun o ho => (hq.orders o ho).live).mp (clearable_of_small hq horders)

end ToyDfba
