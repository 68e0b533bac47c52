import ToyDfba.Proofs.Traded

/-! The makers over a whole run. No batch fills a maker, so nothing but a cancellation by
its owner ever takes one out of its queue. A queue that one side fills is closed for good. -/

namespace ToyDfba

open Ledger

/-- Whether a step is a cancellation by an owner that `keep` accepts. -/
def Withdraws (keep : Pubkey → Bool) (st : ProgramState × Tx) : Prop :=
  Succeeds st.1 st.2 ∧ st.2.ix.cancels ∧ keep st.2.signer

theorem settle_maker (t : AuctionType) (orders : List Order) {o : Order} (h : o.orderType = .maker) :
    settle t orders o = o := by
  refine if_neg fun htaker => ?_
  rw [orderType_of_liveTaker htaker] at h
  cases h

section Step

variable {keep : Pubkey → Bool} {s : ProgramState} {tx : Tx} {t : AuctionType} {o : Order}

theorem fate_fields (s : ProgramState) (tx : Tx) (t : AuctionType) (o : Order) :
    (fate s tx t o).1 = { o with filledQuantity := (fate s tx t o).1.filledQuantity } := by
  unfold fate
  cases process s tx with
  | ok out => exact fateOk_fields s tx t o
  | error e => rfl

theorem fate_orderType : (fate s tx t o).1.orderType = o.orderType := by
  rw [fate_fields]

theorem fate_order_of_maker (hmaker : o.orderType = .maker) : (fate s tx t o).1 = o := by
  by_cases hs : Succeeds s tx
  · obtain ⟨out, hok⟩ := id hs
    rw [fate_of_ok hok]
    by_cases hexecutes : tx.ix.executes
    · rw [fateOk_of_executes s hexecutes]
      exact settle_maker t _ hmaker
    · exact fateOk_order s hexecutes t o
  · rw [fate_of_failed hs]

/-- A maker that rests in its queue stays there as it is, or its owner takes it out. -/
theorem fate_maker (hrests : Rests t o) (hmaker : o.orderType = .maker) :
    fate s tx t o = (o, none) ∨
      fate s tx t o = (o, some .cancelled) ∧
        Succeeds s tx ∧ tx.ix.cancels ∧ o.owner = tx.signer := by
  have hsame : (fate s tx t o).1 = o := fate_order_of_maker hmaker
  have hevolves := evolves_of_rests (s := s) tx hrests
  rw [hsame] at hevolves
  cases hgone : (fate s tx t o).2 with
  | none => exact Or.inl (Prod.ext hsame hgone)
  | some removal =>
    cases removal with
    | cancelled => exact Or.inr ⟨Prod.ext hsame hgone, (hevolves.cancelled rfl).mp hgone⟩
    | filled =>
      obtain ⟨-, -, hfull⟩ := (hevolves.filled rfl).mp hgone
      exact absurd hfull hrests.unfilled.ne

end Step

section Full

variable {s : ProgramState} {tx : Tx} {t : AuctionType}

/-- A batch takes nothing out of a queue that has one side only. -/
theorem fate_one_sided (hrests : ∀ o ∈ (s.queue t).orders, Rests t o)
    (hsided : liveMakers (s.queue t).orders = [] ∨ liveTakers (s.queue t).orders = [])
    (hstays : Succeeds s tx → tx.ix.cancels → ∀ o ∈ (s.queue t).orders, o.owner ≠ tx.signer) :
    ∀ o ∈ (s.queue t).orders, fate s tx t o = (o, none) := by
  intro o ho
  by_cases hs : Succeeds s tx
  · obtain ⟨out, hok⟩ := id hs
    rw [fate_of_ok hok]
    by_cases hexecutes : tx.ix.executes
    · have hidle := (@clears_of_empty t _ hsided).volume_eq.symm
      rw [fateOk_of_executes s hexecutes]
      dsimp only
      rw [settle_of_idle hidle]
      exact congrArg (Prod.mk o) (if_pos (hrests o ho).live)
    · by_cases hcancels : tx.ix.cancels
      · rw [fateOk_of_cancels s hcancels]
        exact congrArg (Prod.mk o) (if_neg (hstays hs hcancels o ho))
      · rw [fateOk_of_keeps s hcancels hexecutes]
  · rw [fate_of_failed hs]

theorem applyTx_one_sided (hq : QueueOk t (s.queue t)) (hfull : (s.queue t).orders.length = 85)
    (hsided : liveMakers (s.queue t).orders = [] ∨ liveTakers (s.queue t).orders = [])
    (hstays : Succeeds s tx → tx.ix.cancels → ∀ o ∈ (s.queue t).orders, o.owner ≠ tx.signer) :
    (applyTx s tx).queue t = s.queue t := by
  have hq' := queueOk_applyTx tx hq
  have hsurvive : (s.queue t).orders.filterMap (survivor (fate s tx t)) = (s.queue t).orders := by
    refine (List.filterMap_congr fun o ho => ?_).trans List.filterMap_some
    rw [survivor, fate_one_sided hq.orders hsided hstays o ho]
    rfl
  -- whoever arrives finds the queue full
  have horders := (applyTx_orders s tx t).1
  have hlength := hq'.fits
  rw [hsurvive] at horders
  rw [hq'.capacity, horders, List.length_append, hfull] at hlength
  have hnone : arrivals s tx t = [] := List.length_eq_zero_iff.mp (by
    have h85 : (85 : U32).val = 85 := rfl
    omega)
  rw [hnone, List.append_nil] at horders
  have htype := hq'.type.trans hq.type.symm
  have hmax := hq'.capacity.trans hq.capacity.symm
  cases hafter : (applyTx s tx).queue t
  cases hbefore : s.queue t
  simp only [hafter, hbefore] at htype hmax horders
  rw [htype, hmax, horders]

/-- A queue that holds eighty-five orders of one type is closed: until the owner of one of
them cancels, nobody finds a place there, and no batch trades anything in it. -/
theorem full_queue_freezes (h : Reachable s) {kind : OrderType}
    (hkind : ∀ o ∈ (s.queue t).orders, o.orderType = kind)
    (hfull : (s.queue t).orders.length = 85) {txs : List Tx}
    (hstays : ∀ st ∈ trace s txs, Succeeds st.1 st.2 → st.2.ix.cancels →
      ∀ o ∈ (s.queue t).orders, o.owner ≠ st.2.signer) :
    (run s txs).queue t = s.queue t ∧ ∀ b ∈ batches s txs, recorded b t = (0, 0) := by
  have hsided : liveMakers (s.queue t).orders = [] ∨ liveTakers (s.queue t).orders = [] := by
    cases kind with
    | maker =>
      refine Or.inr (List.filter_eq_nil_iff.mpr fun o ho htaker => ?_)
      cases (orderType_of_liveTaker htaker).symm.trans (hkind o ho)
    | taker =>
      refine Or.inl (List.filter_eq_nil_iff.mpr fun o ho hmaker => ?_)
      cases (orderType_of_liveMaker hmaker).symm.trans (hkind o ho)
  have hstill : ∀ pre, pre <+: txs → (run s pre).queue t = s.queue t := by
    intro pre hpre
    apply Runs.invariant_of_steps (P := fun s' : ProgramState => s'.queue t = s.queue t)
      (C := fun st => Succeeds st.1 st.2 → st.2.ix.cancels →
        ∀ o ∈ (s.queue t).orders, o.owner ≠ st.2.signer) _ rfl
      fun st hst => hstays st (Runs.trace_subset_of_prefix hpre hst)
    intro s' tx hstep hs'
    have hq := h.queueOk t
    rw [← hs'] at hq hfull hsided hstep ⊢
    exact applyTx_one_sided hq hfull hsided hstep
  refine ⟨hstill txs (List.prefix_refl _), fun b hb => ?_⟩
  obtain ⟨hb, hruns⟩ := List.mem_filter.mp hb
  obtain ⟨pre, hpre, hmet⟩ := Runs.mem_trace_iff.mp hb
  have hqueue : b.1.queue t = s.queue t := by
    rw [hmet]
    exact hstill pre ((List.prefix_append pre [b.2]).trans hpre)
  have hclears : Clears t (b.1.queue t).orders (recorded b t).1 (recorded b t).2.val :=
    recorded_clears hruns t
  rw [hqueue] at hclears
  obtain ⟨hprice, hvolume⟩ := hclears.unique (clears_of_empty hsided)
  exact Prod.ext hprice (Fin.ext hvolume)

/-- Eighty-five bids that nobody meets. -/
def crowdTx : Tx := sampleTx 0 (.placeMultipleOrders (List.replicate 85 ⟨.maker, .buy, 105, 300⟩))

theorem crowdTx_makers :
    (∀ o ∈ ((run sampleStart [crowdTx]).queue .bid).orders, o.orderType = .maker) ∧
      ((run sampleStart [crowdTx]).queue .bid).orders.length = 85 := by
  decide +kernel

theorem full_queue_freezes_crowdTx :
    (run (run sampleStart [crowdTx]) [sampleTx 2 (.executeBatch 1)]).queue .bid =
      (run sampleStart [crowdTx]).queue .bid := by
  have hreachable : Reachable (run sampleStart [crowdTx]) := ⟨_, _, started_sampleStart, rfl⟩
  refine (full_queue_freezes hreachable crowdTx_makers.1 crowdTx_makers.2 fun st hst _ hcancels => ?_).1
  obtain rfl := List.mem_singleton.mp hst
  exact absurd hcancels Bool.false_ne_true

end Full

end ToyDfba
