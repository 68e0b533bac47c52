import ToyDfba.Proofs.Queues

/-! Limit prices. The auction never reads an order's side: it decides by the order's
type and its own. That the sides are respected comes from the routing of the orders. -/

namespace ToyDfba

/-- An order that a batch filled traded at a price within its limit. -/
def WithinLimit (price volume : U64) (before after : Order) : Prop :=
  before.filledQuantity < after.filledQuantity →
    0 < volume ∧ (before.side = .buy → price ≤ before.price) ∧
      (before.side = .sell → before.price ≤ price)

theorem crosses_of_grows {t : AuctionType} {orders : List Order} {price : U64} {volume : ℕ}
    (hclears : Clears t orders price volume) {o : Order}
    (hgrows : o.filledQuantity < (settle t orders o).filledQuantity) :
    0 < volume ∧ o.orderType = .taker ∧ canFill t price o := by
  rw [Fin.lt_def, settle_filled] at hgrows
  have ht : o.liveTaker := by
    by_contra hnot
    simp [hnot] at hgrows
  have hfill : levelFill t orders o.price ≠ 0 := by
    intro hzero
    simp [ht, takerFill, hzero] at hgrows
  obtain ⟨hpos, hcan, -⟩ := hclears.of_levelFill_ne_zero hfill
  exact ⟨hpos, orderType_of_liveTaker ht, hcan⟩

theorem withinLimit_settle {t : AuctionType} {orders : List Order} {price volume : U64}
    (hclears : Clears t orders price volume.val) {o : Order}
    (hrouted : t.admits o.orderType o.side) : WithinLimit price volume o (settle t orders o) := by
  intro hgrows
  obtain ⟨hpos, htaker, hcross⟩ := crosses_of_grows hclears hgrows
  refine ⟨hpos, fun hbuy => ?_, fun hsell => ?_⟩
  · cases t with
    | bid => simp [htaker, hbuy, AuctionType.admits] at hrouted
    | ask => simpa [canFill] using hcross
  · cases t with
    | bid => simpa [canFill] using hcross
    | ask => simp [htaker, hsell, AuctionType.admits] at hrouted

/-- Whatever a batch fills, it fills within the limit, at the price that the batch's
result and event record for the queue, and only if they record a volume. -/
theorem batch_withinLimits {s s' : ProgramState} {tx : Tx} {batchId : U64} {events : List Event}
    (hs : Reachable s) (hix : tx.ix = .executeBatch batchId)
    (h : process s tx = .ok (s', events)) :
    ∃ r, s'.results batchId = some r ∧ events = [r.event] ∧
      ∀ t, ∃ out, executeAuction (s.queue t).orders t = some (r.clearing t, out) ∧
        (s'.queue t).orders = out.filter stillOpen ∧
        List.Forall₂ (WithinLimit (r.clearing t).1 (r.clearing t).2) (s.queue t).orders out := by
  rw [process, hix] at h
  obtain ⟨r, hr, hevents⟩ := executeBatchHandler_executes h
  refine ⟨r, by rw [hr.results, Function.update_self], hevents, fun t => ?_⟩
  refine ⟨_, hr.clears t, by rw [hr.queue], ?_⟩
  obtain ⟨-, hclears, -⟩ := executeAuction_eq_some_iff.mp (hr.clears t)
  rw [List.forall₂_map_right_iff, List.forall₂_same]
  exact fun o ho => withinLimit_settle hclears ((hs.queueOk t).orders o ho).routed

theorem batch_withinLimits_sampleTxs :
    ∃ s' events r, process (run sampleStart (sampleTxs.take 1)) (sampleTx 2 (.executeBatch 1)) =
        .ok (s', events) ∧ s'.results 1 = some r ∧ events = [r.event] ∧
      List.Forall₂ (WithinLimit r.bidClearingPrice r.bidVolume)
        (run sampleStart (sampleTxs.take 1)).bidQueue.orders
        ((run sampleStart (sampleTxs.take 1)).bidQueue.orders.map
          (settle .bid (run sampleStart (sampleTxs.take 1)).bidQueue.orders)) := by
  have hreachable : Reachable (run sampleStart (sampleTxs.take 1)) :=
    ⟨_, _, started_sampleStart, rfl⟩
  have hok : (process (run sampleStart (sampleTxs.take 1))
      (sampleTx 2 (.executeBatch 1))).toBool = true := by decide
  cases h : process (run sampleStart (sampleTxs.take 1)) (sampleTx 2 (.executeBatch 1)) with
  | error e => simp [h, Except.toBool] at hok
  | ok out =>
    obtain ⟨r, hresult, hevents, hqueues⟩ := batch_withinLimits hreachable rfl h
    obtain ⟨out', hrun, -, hlimits⟩ := hqueues .bid
    exact ⟨out.1, out.2, r, rfl, hresult, hevents, executeAuction_orders hrun ▸ hlimits⟩

end ToyDfba
