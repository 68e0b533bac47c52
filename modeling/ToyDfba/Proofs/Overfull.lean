import ToyDfba.Proofs.Makers
import ToyDfba.Proofs.Pool

/-! Orders whose volumes no auction can add up stop the batches of both queues, and one
trader is enough to place them. -/

namespace ToyDfba

open Ledger Totals

/-- The makers of the owners that `keep` accepts are more than a word holds, and one of these
owners has a taker. -/
structure Overfull (keep : Pubkey → Bool) (orders : List Order) : Prop where
  makers : 2 ^ 64 ≤ total Order.remaining (fun o => keep o.owner) (liveMakers orders)
  taker : ∃ o ∈ liveTakers orders, keep o.owner

section Book

variable {keep : Pubkey → Bool} {orders : List Order}

theorem Overfull.jams (h : Overfull keep orders) (t : AuctionType) : Jams t orders := by
  have hmakers : 2 ^ 64 ≤ total Order.remaining (fun _ => true) (liveMakers orders) :=
    h.makers.trans (total_le _ fun _ _ _ => rfl)
  obtain ⟨o, ho, -⟩ := h.taker
  constructor
  · intro hnil
    rw [hnil, total_nil] at hmakers
    omega
  · exact ⟨List.ne_nil_of_mem ho, Or.inl hmakers⟩

/-- What counts are the orders of these owners. -/
theorem overfull_iff :
    Overfull keep orders ↔ Overfull keep (orders.filter fun o => keep o.owner) := by
  have hmakers : total Order.remaining (fun o => keep o.owner)
      (liveMakers (orders.filter fun o => keep o.owner)) =
        total Order.remaining (fun o => keep o.owner) (liveMakers orders) := by
    unfold liveMakers
    rw [total_filter, total_filter, total_filter]
    apply total_congr
    intro o _
    cases keep o.owner <;> simp
  constructor
  · rintro ⟨hover, o, ho, howner⟩
    obtain ⟨ho, htaker⟩ := List.mem_filter.mp ho
    exact ⟨hmakers.ge.trans' hover, o,
      List.mem_filter.mpr ⟨List.mem_filter.mpr ⟨ho, howner⟩, htaker⟩, howner⟩
  · rintro ⟨hover, o, ho, howner⟩
    obtain ⟨ho, htaker⟩ := List.mem_filter.mp ho
    exact ⟨hover.trans hmakers.le, o,
      List.mem_filter.mpr ⟨(List.mem_filter.mp ho).1, htaker⟩, howner⟩

theorem Overfull.perm {orders' : List Order} (h : Overfull keep orders) (hperm : orders.Perm orders') :
    Overfull keep orders' := by
  obtain ⟨hover, o, ho, howner⟩ := h
  constructor
  · unfold liveMakers
    rwa [← total_perm _ (hperm.filter _)]
  · exact ⟨o, (hperm.filter _).mem_iff.mp ho, howner⟩

theorem overfull_anonymous : Overfull keep (orders.map Order.anonymous) ↔ Overfull keep orders := by
  have hmakers : liveMakers (orders.map Order.anonymous) = (liveMakers orders).map Order.anonymous :=
    List.filter_map
  have htakers : liveTakers (orders.map Order.anonymous) = (liveTakers orders).map Order.anonymous :=
    List.filter_map
  constructor
  · rintro ⟨hover, taker⟩
    rw [hmakers, total_map] at hover
    rw [htakers] at taker
    obtain ⟨_, ho, howner⟩ := taker
    obtain ⟨o, ho', rfl⟩ := List.mem_map.mp ho
    exact ⟨hover, o, ho', howner⟩
  · rintro ⟨hover, o, ho, howner⟩
    constructor
    · rw [hmakers, total_map]
      exact hover
    · rw [htakers]
      exact ⟨o.anonymous, List.mem_map_of_mem ho, howner⟩

theorem Overfull.append (h : Overfull keep orders) (new : List Order) :
    Overfull keep (orders ++ new) := by
  obtain ⟨hover, o, ho, howner⟩ := h
  constructor
  · rw [liveMakers, List.filter_append, total_append]
    exact hover.trans (Nat.le_add_right _ _)
  · rw [liveTakers, List.filter_append]
    exact ⟨o, List.mem_append_left _ ho, howner⟩

end Book

section Step

variable {keep : Pubkey → Bool} {s : ProgramState} {tx : Tx} {t : AuctionType}

theorem Overfull.not_runsBatch (h : Overfull keep (s.queue t).orders) (tx : Tx) :
    ¬ runsBatch (s, tx) := by
  intro hruns
  obtain ⟨batchId, hix⟩ := executes_iff.mp (runsBatch_iff.mp hruns).1
  exact ((runsBatch_of_ready hix).mp hruns).clearable t (h.jams t)

/-- Nothing but a cancellation by one of the owners gets rid of their orders. -/
theorem Overfull.applyTx (h : Overfull keep (s.queue t).orders) (hstays : ¬ Withdraws keep (s, tx)) :
    Overfull keep ((applyTx s tx).queue t).orders := by
  have hfate : ∀ o ∈ (s.queue t).orders, keep o.owner → fate s tx t o = (o, none) := by
    intro o _ howner
    by_cases hs : Succeeds s tx
    · obtain ⟨out, hok⟩ := id hs
      have hexecutes : ¬ tx.ix.executes := fun hix =>
        h.not_runsBatch tx (runsBatch_iff.mpr ⟨hix, hs⟩)
      rw [fate_of_ok hok]
      by_cases hcancels : tx.ix.cancels
      · rw [fateOk_of_cancels s hcancels]
        dsimp only
        rw [if_neg]
        intro he
        exact hstays ⟨hs, hcancels, he ▸ howner⟩
      · rw [fateOk_of_keeps s hcancels hexecutes]
    · rw [fate_of_failed hs]
  have hkind : ∀ o ∈ (s.queue t).orders, keep (fate s tx t o).1.owner → keep o.owner := by
    intro o _ howner
    rwa [fate_fields] at howner
  have hkept := filter_filterMap_survivor (c := fun o : Order => keep o.owner) hfate hkind
  rw [(applyTx_orders s tx t).1]
  apply Overfull.append
  rw [overfull_iff, hkept, ← overfull_iff]
  exact h

end Step

/-- While the owners of such orders do not cancel, no batch of any queue goes through. -/
theorem Overfull.stops {keep : Pubkey → Bool} {s : ProgramState} {t : AuctionType}
    (h : Overfull keep (s.queue t).orders) {txs : List Tx}
    (hstays : ∀ st ∈ trace s txs, ¬ Withdraws keep st) : batches s txs = [] := by
  apply List.filter_eq_nil_iff.mpr
  intro st hst
  obtain ⟨pre, hpre, hmet⟩ := Runs.mem_trace_iff.mp hst
  have hprefix : pre <+: txs := (List.prefix_append pre [st.2]).trans hpre
  have hfull : Overfull keep ((run s pre).queue t).orders := by
    apply Runs.invariant_of_steps (C := fun st => ¬ Withdraws keep st)
      (P := fun s' : ProgramState => Overfull keep (s'.queue t).orders) _ h
    · exact fun st hst => hstays st (Runs.trace_subset_of_prefix hprefix hst)
    · exact fun s' tx hstep hfull => hfull.applyTx hstep
  obtain ⟨s', tx⟩ := st
  obtain rfl : s' = run s pre := hmet
  exact hfull.not_runsBatch tx

def hostileMaker (side : Side) : PlaceOrderParams := ⟨.maker, side, 1, 9223372036854775808⟩

/-- Two such makers and a taker, all of one queue. -/
def hostileOrders : AuctionType → List PlaceOrderParams
  | .bid => [hostileMaker .buy, hostileMaker .buy, ⟨.taker, .sell, 1, 1⟩]
  | .ask => [hostileMaker .sell, hostileMaker .sell, ⟨.taker, .buy, 1, 1⟩]

theorem overfull_hostileOrders (trader : Pubkey) (t : AuctionType) :
    Overfull (fun owner => owner = trader)
      (((hostileOrders t).filter fun p => p.queue = t).map (PlaceOrderParams.order trader)) := by
  have htwo : ∀ side, total Order.remaining (fun o => decide (o.owner = trader))
      [(hostileMaker side).order trader, (hostileMaker side).order trader] =
        2 ^ 63 + 2 ^ 63 := by
    intro side
    have howner : decide (((hostileMaker side).order trader).owner = trader) = true :=
      decide_eq_true rfl
    have hremaining : ((hostileMaker side).order trader).remaining = 2 ^ 63 := rfl
    rw [total_cons, total_cons, total_nil, hremaining, if_pos howner, Nat.add_zero]
  have hmakers : total Order.remaining (fun o => decide (o.owner = trader))
      (liveMakers (((hostileOrders t).filter fun p => p.queue = t).map
        (PlaceOrderParams.order trader))) = 2 ^ 63 + 2 ^ 63 := by
    cases t with
    | bid => exact htwo .buy
    | ask => exact htwo .sell
  constructor
  · omega
  · cases t with
    | bid => exact ⟨_, List.mem_singleton_self _, decide_eq_true rfl⟩
    | ask => exact ⟨_, List.mem_singleton_self _, decide_eq_true rfl⟩

def hostileTx (trader : Pubkey) (clock : Clock) (t : AuctionType) : Tx :=
  ⟨trader, clock, .placeMultipleOrders (hostileOrders t)⟩

theorem overfull_hostileTx {s : ProgramState} (h : Reachable s) {t : AuctionType}
    (trader : Pubkey) {clock : Clock} (hlength : (s.queue t).orders.length + 3 ≤ 85)
    (hclock : (asU64 clock.unixTimestamp).val + 85 ≤ 2 ^ 64) :
    Overfull (fun owner => owner = trader)
      ((applyTx s (hostileTx trader clock t)).queue t).orders := by
  have hmax : ∀ u, (s.queue u).maxOrders.val = 85 := by
    intro u
    rw [(h.queueOk u).capacity]
    rfl
  have hroom : ∀ u, Room u (s, hostileTx trader clock t) := by
    intro u
    have hplace : (s.queue u).orders.length + requests u (hostileOrders t) ≤ 85 := by
      have hfits := (h.queueOk u).fits
      rw [hmax] at hfits
      by_cases hu : u = t
      · subst hu
        cases u <;> exact hlength
      · have hnone : requests u (hostileOrders t) = 0 := by
          cases u <;> cases t <;> first | rfl | exact absurd rfl hu
        omega
    constructor
    · exact hplace.trans (hmax u).ge
    · intro _
      exact (Nat.add_le_add_left hplace _).trans hclock
  have hvalid : ∀ p ∈ hostileOrders t, p.Valid := by
    cases t <;> decide
  have hpool := applyTx_pool h.isPaused_eq hroom
  rw [Pool.act, hostileTx] at hpool
  dsimp only at hpool
  rw [if_pos hvalid] at hpool
  have horders := congrFun (congrArg Pool.orders hpool) t
  have hperm := Multiset.coe_eq_coe.mp horders
  apply overfull_anonymous.mp
  apply ((overfull_hostileOrders trader t).append _).perm
  exact List.perm_append_comm.trans hperm.symm

/-- Any trader who finds three places in a queue can stop the batches of both queues for as
long as it likes: none goes through until it cancels. -/
theorem one_trader_stops_batches {s : ProgramState} (h : Reachable s) {t : AuctionType}
    {trader : Pubkey} {clock : Clock} (hlength : (s.queue t).orders.length + 3 ≤ 85)
    (hclock : (asU64 clock.unixTimestamp).val + 85 ≤ 2 ^ 64) {txs : List Tx}
    (hstays : ∀ st ∈ trace (applyTx s (hostileTx trader clock t)) txs,
      Succeeds st.1 st.2 → st.2.ix.cancels → st.2.signer ≠ trader) :
    batches (applyTx s (hostileTx trader clock t)) txs = [] := by
  have hfull := overfull_hostileTx h trader hlength hclock
  apply hfull.stops
  rintro st hst ⟨hs, hcancels, hsigner⟩
  exact hstays st hst hs hcancels (of_decide_eq_true hsigner)

theorem one_trader_stops_batches_sampleTxs :
    batches (applyTx (run sampleStart sampleTxs) (hostileTx 2 ⟨3, 1000⟩ .bid))
      [sampleTx 4 .cancelAllOrders, sampleTx 9 (.executeBatch 2)] = [] := by
  apply one_trader_stops_batches ⟨_, _, started_sampleStart, rfl⟩ (by decide) (by decide)
  intro st hst _ _
  rcases List.mem_cons.mp hst with rfl | hst
  · decide
  · obtain rfl := List.mem_singleton.mp hst
    decide

end ToyDfba
