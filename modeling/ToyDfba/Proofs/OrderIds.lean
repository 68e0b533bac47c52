import Mathlib.Data.List.Nodup
import ToyDfba.Proofs.Placement

/-! Order ids. A new order is numbered by the clock's seconds plus the length of its queue.
Both count up as orders come in, but the length falls when orders leave, so a number can
come back while the order that has it still rests. -/

namespace ToyDfba

def UniqueIds (s : ProgramState) : Prop := ∀ t, ((s.queue t).orders.map Order.id).Nodup

/-- Whether the ids a transaction gives out are free: no order that stays in a queue has
one of the numbers that come next there, as many as the transaction places. -/
def IdsFree (s : ProgramState) (tx : Tx) : Prop :=
  ∀ taken, Takes tx.clock (afterCancel s tx) tx.ix.orders taken → ∀ t,
    ∀ o ∈ ((afterCancel s tx).queue t).orders,
      o.id.val < (asU64 tx.clock.unixTimestamp).val + lengthAfter (afterCancel s tx) [] t ∨
        (asU64 tx.clock.unixTimestamp).val + lengthAfter (afterCancel s tx) taken t ≤ o.id.val

section Step

variable {s s' a : ProgramState} {tx : Tx} {clock : Clock} {ps : List PlaceOrderParams}

theorem nodup_ids_iff {orders : List Order} :
    (orders.map fun o => o.id.val).Nodup ↔ (orders.map Order.id).Nodup := by
  rw [← List.nodup_map_iff Fin.val_injective, List.map_map]
  rfl

theorem Puts.keepApart_iff (h : Puts clock ps a s') (ha : UniqueIds a) :
    UniqueIds s' ↔ ∀ t, ∀ o ∈ (a.queue t).orders,
      o.id.val < (asU64 clock.unixTimestamp).val + lengthAfter a [] t ∨
        (asU64 clock.unixTimestamp).val + lengthAfter a ps t ≤ o.id.val := by
  refine forall_congr' fun t => ?_
  obtain ⟨new, hqueue, hids⟩ := h.queue t
  rw [hqueue, ← nodup_ids_iff, List.map_append, hids, List.nodup_append,
    and_iff_right (nodup_ids_iff.mpr (ha t)), and_iff_right List.nodup_range']
  simp only [List.forall_mem_map, List.mem_range'_1, lengthAfter, requests_nil, Nat.add_zero]
  refine forall₂_congr fun o _ => ⟨fun h => ?_, fun h n hn he => ?_⟩
  · by_contra hnot
    exact h o.id.val (by omega) rfl
  · omega

theorem uniqueIds_afterCancel (tx : Tx) (h : UniqueIds s) : UniqueIds (afterCancel s tx) := by
  unfold afterCancel
  split_ifs
  · intro t
    rw [retainOthers_queue]
    exact (h t).sublist ((List.filter_sublist).map _)
  · exact h

theorem uniqueIds_placement_iff (hs : UniqueIds s)
    (hprocess : process s tx =
      placeLoop tx.signer tx.clock tx.ix.orders (afterCancel s tx, [])) :
    UniqueIds (applyTx s tx) ↔ IdsFree s tx := by
  have hstart := uniqueIds_afterCancel tx hs
  unfold applyTx
  rw [hprocess]
  cases hloop : placeLoop tx.signer tx.clock tx.ix.orders (afterCancel s tx, []) with
  | error e =>
    refine iff_of_true hs fun taken htakes => ?_
    obtain ⟨s', events, hok, -⟩ := exists_placeLoop_of_takes tx.signer [] htakes
    cases hloop.symm.trans hok
  | ok out =>
    refine ⟨fun hunique taken htakes => ?_, fun hfree => ?_⟩
    · obtain ⟨s', events, hok, hputs⟩ := exists_placeLoop_of_takes tx.signer [] htakes
      obtain rfl : out = (s', events) := Except.ok.inj (hloop.symm.trans hok)
      exact (hputs.keepApart_iff hstart).mp hunique
    · obtain ⟨taken, htakes, hputs⟩ := placeLoop_takes hloop
      exact (hputs.keepApart_iff hstart).mpr (hfree taken htakes)

theorem filterMap_survivor_ids {ρ : Type} {fate : Order → Order × Option ρ}
    (hid : ∀ o, (fate o).1.id = o.id) (orders : List Order) :
    ((orders.filterMap (Ledger.survivor fate)).map Order.id).Sublist (orders.map Order.id) := by
  induction orders with
  | nil => exact List.Sublist.refl _
  | cons o orders ih =>
    cases hgone : (fate o).2 with
    | some reason =>
      rw [List.filterMap_cons_none (by simp [Ledger.survivor, hgone]), List.map_cons]
      exact ih.cons _
    | none =>
      rw [List.filterMap_cons_some (by simp [Ledger.survivor, hgone]; rfl), List.map_cons,
        List.map_cons, hid]
      exact ih.cons_cons _

theorem uniqueIds_of_no_orders (hs : UniqueIds s) (hix : tx.ix.orders = []) :
    UniqueIds (applyTx s tx) := by
  rcases applyTx_cases s tx with ⟨events, hok⟩ | ⟨-, hsame⟩
  · intro t
    obtain ⟨new, hnew⟩ := process_queue hok t
    obtain rfl : new = [] := by
      refine List.eq_nil_iff_forall_not_mem.mpr fun o ho => ?_
      have hrequested := (hnew.fresh o ho).requested
      rw [hix] at hrequested
      cases hrequested
    have hid : ∀ o, (fateOk s tx t o).1.id = o.id := fun o => by rw [fateOk_fields]
    rw [hnew.queue, List.append_nil]
    exact (hs t).sublist (filterMap_survivor_ids hid _)
  · rwa [hsame]

theorem idsFree_of_no_orders (hix : tx.ix.orders = []) : IdsFree s tx := by
  intro taken htakes t o _
  have htaken : taken = [] := by
    rcases htakes.stop with he | ⟨p, rest, he, -⟩
    · rw [← he, hix]
    · rw [hix] at he
      exact absurd he Positions.nil_ne_split
  rw [htaken]
  exact lt_or_ge _ _

theorem uniqueIds_applyTx_iff (hrunning : s.auctionState.isPaused = false) (hs : UniqueIds s)
    (tx : Tx) : UniqueIds (applyTx s tx) ↔ IdsFree s tx := by
  obtain ⟨signer, clock, ix⟩ := tx
  cases ix with
  | placeOrder p => exact uniqueIds_placement_iff hs (process_placeOrder hrunning signer clock p)
  | placeMultipleOrders orders =>
    exact uniqueIds_placement_iff hs (process_placeMultipleOrders hrunning signer clock orders)
  | cancelAllAndPostNewOrders orders =>
    have hretained : (retainOthers signer s).auctionState.isPaused = false := hrunning
    exact uniqueIds_placement_iff hs (process_placeMultipleOrders hretained signer clock orders)
  | initializeAuction _ | cancelAllOrders | initializeResult _ | executeBatch _ =>
    exact iff_of_true (uniqueIds_of_no_orders hs rfl) (idsFree_of_no_orders rfl)

end Step

/-- Order ids are unique among resting orders in every state of a run exactly when every
transaction of it gives out free ids. -/
theorem uniqueIds_iff {s₀ : ProgramState} (h : Started s₀) (txs : List Tx) :
    (∀ pre, pre <+: txs → UniqueIds (run s₀ pre)) ↔ ∀ st ∈ trace s₀ txs, IdsFree st.1 st.2 := by
  refine ⟨?_, ?_⟩
  · intro hunique st hst
    obtain ⟨pre, hpre, hs⟩ := Runs.mem_trace_iff.mp hst
    have hs : st.1 = run s₀ pre := hs
    have hbefore := hunique pre ((List.prefix_append _ _).trans hpre)
    have hafter := hunique _ hpre
    rw [run, Runs.run_snoc] at hafter
    rw [hs]
    exact (uniqueIds_applyTx_iff (h.isPaused_run pre) hbefore st.2).mp hafter
  · intro hfree pre hpre
    have hstart : UniqueIds s₀ ∧ s₀.auctionState.isPaused = false := by
      refine ⟨?_, h.isPaused_run []⟩
      obtain ⟨authority, batchInterval, results, -, rfl⟩ := h
      intro t
      cases t <;> exact List.nodup_nil
    have hsteps : ∀ st ∈ trace s₀ pre, IdsFree st.1 st.2 :=
      fun st hst => hfree st (Runs.trace_subset_of_prefix hpre hst)
    refine (Runs.invariant_of_steps (C := fun st => IdsFree st.1 st.2)
      (P := fun s : ProgramState => UniqueIds s ∧ s.auctionState.isPaused = false) ?_ hstart hsteps).1
    intro s tx hids hs
    exact ⟨(uniqueIds_applyTx_iff hs.2 hs.1 tx).mpr hids, (applyTx_isPaused s tx).trans hs.2⟩

/-- Two bids come in, then the owner of the first cancels and bids again, all within one
second. -/
def collidingTxs : List Tx :=
  [sampleTx 0 (.placeOrder ⟨.maker, .buy, 100, 1⟩),
    { sampleTx 0 (.placeOrder ⟨.maker, .buy, 100, 1⟩) with signer := 2 },
    sampleTx 1 .cancelAllOrders,
    sampleTx 1 (.placeOrder ⟨.maker, .buy, 100, 1⟩)]

theorem idsFree_collidingTxs :
    IdsFree sampleStart (sampleTx 0 (.placeOrder ⟨.maker, .buy, 100, 1⟩)) ∧
      IdsFree (run sampleStart (collidingTxs.take 1))
        { sampleTx 0 (.placeOrder ⟨.maker, .buy, 100, 1⟩) with signer := 2 } := by
  have hunique : ∀ pre, pre <+: collidingTxs.take 3 → UniqueIds (run sampleStart pre) := by
    intro pre hpre t
    have hmem := (List.mem_inits pre _).mpr hpre
    simp only [collidingTxs, List.take, List.inits, List.map, List.mem_cons, List.not_mem_nil,
      or_false] at hmem
    rcases hmem with rfl | rfl | rfl | rfl <;> cases t <;> decide
  have hfree := (uniqueIds_iff started_sampleStart (collidingTxs.take 3)).mp hunique
  exact ⟨hfree (sampleStart, _) (List.mem_cons_self ..),
    hfree (_, _) (List.mem_cons_of_mem _ (List.mem_cons_self ..))⟩

/-- The new bid gets the number of the one that stayed. -/
theorem not_uniqueIds_of_cancel :
    ¬ ∀ s₀, Started s₀ → ∀ txs : List Tx, (∀ tx ∈ txs, 0 ≤ tx.clock.unixTimestamp.toInt) →
      txs.Pairwise (fun tx tx' => tx.clock.unixTimestamp.toInt ≤ tx'.clock.unixTimestamp.toInt) →
        UniqueIds (run s₀ txs) := by
  intro h
  have hunique := h sampleStart started_sampleStart collidingTxs (by decide) (by decide) .bid
  have hids : ((run sampleStart collidingTxs).queue .bid).orders.map Order.id = [1001, 1001] := by
    decide
  rw [hids] at hunique
  exact absurd hunique (by decide)

end ToyDfba
