import ToyDfba.Proofs.Placement

/-! One instruction against several in one transaction. Cancel-and-replace is a cancel
followed by a placement. A placement of several orders is their placement one by one
only as long as no full queue stops it: a single order that finds its queue full is
dropped, and in a loop it takes the orders behind it along. -/

namespace ToyDfba

theorem emitAfter_injective (events : List Event) : (emitAfter events).Injective := by
  intro out out' h
  obtain ⟨hstate, hevents⟩ := Prod.mk.inj h
  exact Prod.ext hstate (List.append_cancel_left hevents)

theorem map_emitAfter_nil (res : Except TxError Outcome) : res.map (emitAfter []) = res := by
  cases res <;> rfl

theorem map_emitAfter_inj {events : List Event} {res res' : Except TxError Outcome} :
    res.map (emitAfter events) = res'.map (emitAfter events) ↔ res = res' := by
  refine ⟨fun h => ?_, fun h => by rw [h]⟩
  cases res <;> cases res' <;> simp only [Except.map, Except.ok.injEq, Except.error.injEq,
    reduceCtorEq] at h ⊢
  · exact h
  · exact emitAfter_injective events h

section Atomic

variable {signer : Pubkey} {clock : Clock} {s s' : ProgramState} {ix : Instruction}
  {ixs : List Instruction} {events : List Event}

theorem atomically_of_ok (h : process s ⟨signer, clock, ix⟩ = .ok (s', events)) :
    atomically signer clock (ix :: ixs) s =
      (atomically signer clock ixs s').map (emitAfter events) := by
  rw [atomically, h]
  change (atomically signer clock ixs s' >>= fun out => .ok (out.1, events ++ out.2)) = _
  cases atomically signer clock ixs s' <;> rfl

theorem atomically_of_error {e : TxError} (h : process s ⟨signer, clock, ix⟩ = .error e) :
    atomically signer clock (ix :: ixs) s = .error e := by
  rw [atomically, h]
  rfl

theorem atomically_singleton (signer : Pubkey) (clock : Clock) (ix : Instruction)
    (s : ProgramState) : atomically signer clock [ix] s = process s ⟨signer, clock, ix⟩ := by
  cases h : process s ⟨signer, clock, ix⟩ with
  | error e => exact atomically_of_error h
  | ok out =>
    rw [atomically_of_ok h]
    simp [atomically, Except.map, emitAfter]

end Atomic

/-- Cancel-and-replace equals cancel followed by place: the same error, or the same
accounts and events. -/
theorem cancelAllAndPostNewOrders_eq (s : ProgramState) (signer : Pubkey) (clock : Clock)
    (orders : List PlaceOrderParams) :
    process s ⟨signer, clock, .cancelAllAndPostNewOrders orders⟩ =
      atomically signer clock [.cancelAllOrders, .placeMultipleOrders orders] s := by
  have hcancel : process s ⟨signer, clock, .cancelAllOrders⟩ = .ok (retainOthers signer s, []) := rfl
  rw [atomically_of_ok hcancel, map_emitAfter_nil, atomically_singleton]
  rfl

section Batch

variable {signer : Pubkey} {clock : Clock} {s s' : ProgramState} {p : PlaceOrderParams}
  {ps : List PlaceOrderParams} (hrunning : s.auctionState.isPaused = false)

include hrunning

/-- Placing orders one by one changes nothing exactly when every one of them is dropped. -/
theorem atomically_idle_iff :
    atomically signer clock (ps.map .placeOrder) s = .ok (s, []) ↔
      ∀ q ∈ ps, q.Valid ∧ Full s [] q := by
  induction ps with
  | nil => simp [atomically]
  | cons p ps ih =>
    have hone := process_placeOrder hrunning signer clock p
    have hstep := placeOne_step signer clock s p
    rw [List.map_cons, List.forall_mem_cons]
    generalize hplace : placeOne signer clock p s = placed at hstep
    cases hstep with
    | failed e _ hstop =>
      rw [placeLoop_of_error hplace] at hone
      rw [atomically_of_error hone]
      exact ⟨fun h => (nomatch h), fun h => absurd h.1 hstop⟩
    | full hvalid hfull =>
      rw [placeLoop_of_full hplace] at hone
      rw [atomically_of_ok hone, map_emitAfter_nil, ih]
      exact (and_iff_right ⟨hvalid, hfull⟩).symm
    | placed s₁ e hplaceable _ =>
      rw [placeLoop_of_placed hplace] at hone
      rw [atomically_of_ok hone]
      refine ⟨fun h => ?_, fun h => absurd h.1.2 hplaceable.room⟩
      -- the event of the placed order cannot be taken back
      cases hrest : atomically signer clock (ps.map .placeOrder) s₁ with
      | error e => rw [hrest] at h; cases h
      | ok out => rw [hrest] at h; cases h

/-- The loop does what the single placements do exactly when, behind an order that finds
its queue full, there is nothing but orders that find theirs full as well. -/
theorem placeLoop_eq_atomically_iff :
    placeLoop signer clock ps (s, []) = atomically signer clock (ps.map .placeOrder) s ↔
      ∀ pre p rest, ps = pre ++ p :: rest → AllPlaceable clock s pre → p.Valid → Full s pre p →
        ∀ q ∈ rest, q.Valid ∧ Full s pre q := by
  induction ps generalizing s with
  | nil => exact iff_of_true rfl fun pre p rest he => absurd he Positions.nil_ne_split
  | cons p ps ih =>
    have hone := process_placeOrder hrunning signer clock p
    have hstep := placeOne_step signer clock s p
    rw [List.map_cons, Positions.forall_split_cons]
    generalize hplace : placeOne signer clock p s = placed at hstep
    cases hstep with
    | failed e hnot hstop =>
      rw [placeLoop_of_error hplace] at hone
      rw [atomically_of_error hone, placeLoop_of_error hplace]
      exact iff_of_true rfl ⟨fun _ hvalid hfull => absurd ⟨hvalid, hfull⟩ hstop,
        fun pre q rest _ hall => absurd (placeable_of_allPlaceable_cons hall) hnot⟩
    | full hvalid hfull =>
      rw [placeLoop_of_full hplace] at hone
      rw [atomically_of_ok hone, map_emitAfter_nil, placeLoop_of_full hplace, eq_comm,
        atomically_idle_iff hrunning]
      exact ⟨fun h => ⟨fun _ _ _ => h,
        fun pre q rest _ hall => absurd hfull (placeable_of_allPlaceable_cons hall).room⟩,
        fun h => h.1 (allPlaceable_nil clock s) hvalid hfull⟩
    | placed s₁ e hplaceable hputs =>
      rw [placeLoop_of_placed hplace] at hone
      rw [atomically_of_ok hone, placeLoop_of_placed hplace, placeLoop_events, map_emitAfter_inj,
        ih (by rw [hputs.auctionState, hrunning])]
      simp only [allPlaceable_cons_iff hputs, hputs.full_iff, and_iff_right hplaceable,
        List.singleton_append]
      exact (and_iff_right fun _ _ hfull => absurd hfull hplaceable.room).symm

end Batch

/-- In a reachable state batched placement has the outcome of one-by-one placement exactly
when, behind an order of the list that finds its queue full, there is nothing but orders
that are valid and find theirs full as well. -/
theorem placeMultipleOrders_eq_iff {s : ProgramState} (h : Reachable s) (signer : Pubkey)
    (clock : Clock) (orders : List PlaceOrderParams) :
    process s ⟨signer, clock, .placeMultipleOrders orders⟩ =
        atomically signer clock (orders.map .placeOrder) s ↔
      ∀ pre p rest, orders = pre ++ p :: rest → AllPlaceable clock s pre → p.Valid → Full s pre p →
        ∀ q ∈ rest, q.Valid ∧ Full s pre q := by
  rw [process_placeMultipleOrders h.isPaused_eq]
  exact placeLoop_eq_atomically_iff h.isPaused_eq

def sampleBid : PlaceOrderParams := ⟨.maker, .buy, 100, 1⟩

def sampleAsk : PlaceOrderParams := ⟨.maker, .sell, 100, 1⟩

/-- The bid queue holds its 85 orders, and the ask queue is empty. -/
def fullBids : ProgramState :=
  run sampleStart [sampleTx 0 (.placeMultipleOrders (List.replicate 85 sampleBid))]

theorem reachable_fullBids : Reachable fullBids := ⟨_, _, started_sampleStart, rfl⟩

theorem full_fullBids : Full fullBids [] sampleBid ∧ ¬ Full fullBids [] sampleAsk := by
  unfold Full
  decide +kernel

theorem placeMultipleOrders_eq_fullBids :
    process fullBids ⟨1, ⟨0, 1000⟩, .placeMultipleOrders [sampleAsk, sampleBid]⟩ =
      atomically 1 ⟨0, 1000⟩ [.placeOrder sampleAsk, .placeOrder sampleBid] fullBids := by
  refine (placeMultipleOrders_eq_iff reachable_fullBids 1 ⟨0, 1000⟩ [sampleAsk, sampleBid]).mpr ?_
  rw [Positions.forall_split_cons, Positions.forall_split_cons]
  refine ⟨fun _ _ hfull => absurd hfull full_fullBids.2, ?_, ?_⟩
  · intro _ _ _ q hq
    cases hq
  · intro pre p rest he
    exact absurd he Positions.nil_ne_split

/-- Behind a bid that finds the full queue the loop drops an offer for the empty one. -/
theorem placeMultipleOrders_ne_fullBids :
    Reachable fullBids ∧
      process fullBids ⟨1, ⟨0, 1000⟩, .placeMultipleOrders [sampleBid, sampleAsk]⟩ ≠
        atomically 1 ⟨0, 1000⟩ [.placeOrder sampleBid, .placeOrder sampleAsk] fullBids := by
  refine ⟨reachable_fullBids, fun h => ?_⟩
  have hrunning := reachable_fullBids.isPaused_eq
  have hiff := @placeLoop_eq_atomically_iff 1 ⟨0, 1000⟩ fullBids [sampleBid, sampleAsk] hrunning
  rw [← process_placeMultipleOrders hrunning] at hiff
  have hdropped :=
    hiff.mp h [] sampleBid [sampleAsk] rfl (allPlaceable_nil _ _) (by decide) full_fullBids.1
  exact full_fullBids.2 (hdropped sampleAsk (by simp)).2

end ToyDfba
