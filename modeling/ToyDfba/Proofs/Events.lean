import ToyDfba.Proofs.History
import ToyDfba.Proofs.Makers
import ToyDfba.Proofs.Placement
import ToyDfba.Spec.Events

/-! The events of a run tell all that ever happened but the cancellations: every order
that was placed, and every batch with its result. -/

namespace ToyDfba

open Reports

/-- Placements that tell of every order they append, and of nothing else. -/
structure Tells (s s' : ProgramState) (events : List Event) : Prop where
  placed : ∀ t, ∃ new, (s'.queue t).orders = (s.queue t).orders ++ new ∧
    events.filter (fun e => e.queue = some t) = new.map Order.event
  only : ∀ e ∈ events, e.queue ≠ none

section Placement

variable {signer : Pubkey} {clock : Clock} {s s' s'' : ProgramState} {p : PlaceOrderParams}
  {ps : List PlaceOrderParams} {events events' : List Event}

theorem Tells.refl (s : ProgramState) : Tells s s [] :=
  ⟨fun _ => ⟨[], (List.append_nil _).symm, rfl⟩, fun _ he => absurd he List.not_mem_nil⟩

theorem Tells.trans (h : Tells s s' events) (h' : Tells s' s'' events') :
    Tells s s'' (events ++ events') := by
  constructor
  · intro t
    obtain ⟨new, hqueue, htold⟩ := h.placed t
    obtain ⟨new', hqueue', htold'⟩ := h'.placed t
    exact ⟨new ++ new', by rw [hqueue', hqueue, List.append_assoc],
      by rw [List.filter_append, htold, htold', List.map_append]⟩
  · intro e he
    rcases List.mem_append.mp he with he | he
    · exact h.only e he
    · exact h'.only e he

theorem placeOne_tells {e : Event} (h : placeOne signer clock p s = .ok (some (s', e))) :
    Tells s s' [e] := by
  simp only [placeOne, bind_eq_ok, require_eq_ok] at h
  obtain ⟨-, -, h⟩ := h
  split_ifs at h
  · cases h
  · obtain ⟨orderId, -, h⟩ := bind_eq_ok.mp h
    simp only [Except.ok.injEq, Option.some.injEq, Prod.mk.injEq] at h
    obtain ⟨rfl, rfl⟩ := h
    constructor
    · intro t
      rw [ProgramState.queue_setOrders]
      by_cases ht : t = orderQueue p.orderType p.side
      · subst ht
        exact ⟨_, by rw [if_pos rfl], by simp [Event.queue, Order.event]⟩
      · exact ⟨[], by rw [if_neg ht, List.append_nil], by simp [Event.queue, Ne.symm ht]⟩
    · intro e he
      obtain rfl := List.mem_singleton.mp he
      exact Option.some_ne_none _

theorem placeLoop_tells (h : placeLoop signer clock ps (s, events) = .ok (s', events')) :
    ∃ new, events' = events ++ new ∧ Tells s s' new := by
  induction ps generalizing s events with
  | nil =>
    obtain ⟨rfl, rfl⟩ := Prod.mk.inj (Except.ok.inj h)
    exact ⟨[], (List.append_nil _).symm, Tells.refl s⟩
  | cons p ps ih =>
    obtain ⟨placed, hplace, hloop⟩ := bind_eq_ok.mp h
    cases placed with
    | none =>
      obtain ⟨rfl, rfl⟩ := Prod.mk.inj (Except.ok.inj hloop)
      exact ⟨[], (List.append_nil _).symm, Tells.refl s⟩
    | some st =>
      obtain ⟨new, rfl, htells⟩ := ih hloop
      exact ⟨st.2 :: new, List.append_assoc _ _ _, (placeOne_tells hplace).trans htells⟩

end Placement

section Process

variable {s s' : ProgramState} {tx : Tx} {t : AuctionType} {events : List Event}

theorem arrivals_of_no_orders (s : ProgramState) (h : tx.ix.orders = []) (t : AuctionType) :
    arrivals s tx t = [] := by
  apply List.eq_nil_iff_forall_not_mem.mpr
  intro o ho
  have hrequested := ((applyTx_orders s tx t).2 o ho).2.requested
  rw [h] at hrequested
  cases hrequested

/-- What a placement tells is what it appends to what its cancellation leaves. -/
theorem Tells.filter_queue {before : ProgramState} (h : Tells before s' events)
    (hok : process s tx = .ok (s', events))
    (hbefore : (before.queue t).orders =
      (s.queue t).orders.filterMap (Ledger.survivor (fateOk s tx t))) :
    events.filter (fun e => e.queue = some t) = (arrivals s tx t).map Order.event := by
  obtain ⟨new, hqueue, htold⟩ := h.placed t
  unfold arrivals
  rw [htold, fate_of_ok hok, applyTx_of_ok hok, hqueue, hbefore, List.drop_left]

theorem Tells.filter_queue_of_keeps (h : Tells s s' events) (hok : process s tx = .ok (s', events))
    (hcancels : ¬ tx.ix.cancels) (hexecutes : ¬ tx.ix.executes) (t : AuctionType) :
    events.filter (fun e => e.queue = some t) = (arrivals s tx t).map Order.event := by
  apply h.filter_queue hok
  rw [fateOk_of_keeps s hcancels hexecutes, filterMap_survivor_keep]

theorem filter_queue_of_no_orders (horders : tx.ix.orders = [])
    (hevents : ∀ e ∈ events, e.queue = none) (t : AuctionType) :
    events.filter (fun e => e.queue = some t) = (arrivals s tx t).map Order.event := by
  rw [arrivals_of_no_orders s horders t]
  apply List.filter_eq_nil_iff.mpr
  intro e he
  simp [hevents e he]

/-- A transaction tells of the orders that it places, queue by queue, and of nothing else
unless it is a batch. -/
theorem process_tells (h : process s tx = .ok (s', events)) :
    (∀ t, events.filter (fun e => e.queue = some t) = (arrivals s tx t).map Order.event) ∧
      (¬ tx.ix.executes → ∀ e ∈ events, e.queue ≠ none) := by
  have hsilent : ∀ e ∈ ([] : List Event), e.queue = none := by simp
  obtain ⟨signer, clock, ix⟩ := tx
  cases ix with
  | initializeAuction batchInterval => cases h
  | placeOrder p =>
    have hmany : placeMultipleOrdersHandler signer clock [p] s = .ok (s', events) :=
      (placeOrderHandler_eq signer clock p s).symm.trans h
    obtain ⟨_, -, hloop⟩ := bind_eq_ok.mp hmany
    obtain ⟨new, rfl, htells⟩ := placeLoop_tells hloop
    exact ⟨htells.filter_queue_of_keeps h Bool.false_ne_true Bool.false_ne_true, fun _ => htells.only⟩
  | placeMultipleOrders ps =>
    obtain ⟨_, -, hloop⟩ := bind_eq_ok.mp h
    obtain ⟨new, rfl, htells⟩ := placeLoop_tells hloop
    exact ⟨htells.filter_queue_of_keeps h Bool.false_ne_true Bool.false_ne_true, fun _ => htells.only⟩
  | cancelAllAndPostNewOrders ps =>
    obtain ⟨_, -, hloop⟩ := bind_eq_ok.mp h
    obtain ⟨new, rfl, htells⟩ := placeLoop_tells hloop
    constructor
    · intro t
      apply htells.filter_queue h
      have hfate := @fateOk_of_cancels ⟨signer, clock, .cancelAllAndPostNewOrders ps⟩ s rfl t
      rw [hfate, filterMap_survivor_retain, retainOthers_queue]
    · exact fun _ => htells.only
  | cancelAllOrders =>
    obtain ⟨-, rfl⟩ := Prod.mk.inj (Except.ok.inj h)
    exact ⟨filter_queue_of_no_orders rfl hsilent, fun _ e he => absurd he List.not_mem_nil⟩
  | initializeResult batchId =>
    obtain ⟨_, -, hinit⟩ := bind_eq_ok.mp h
    obtain ⟨-, rfl⟩ := Prod.mk.inj (Except.ok.inj hinit)
    exact ⟨filter_queue_of_no_orders rfl hsilent, fun _ e he => absurd he List.not_mem_nil⟩
  | executeBatch batchId =>
    obtain ⟨r, -, rfl⟩ := executeBatchHandler_executes h
    have hbatch : ∀ e ∈ [r.event], e.queue = none := by
      intro e he
      obtain rfl := List.mem_singleton.mp he
      rfl
    exact ⟨filter_queue_of_no_orders rfl hbatch, fun hix => absurd rfl hix⟩

theorem emitted_placed (s : ProgramState) (tx : Tx) (t : AuctionType) :
    (emitted s tx).filter (fun e => e.queue = some t) = (arrivals s tx t).map Order.event := by
  unfold emitted
  cases hp : process s tx with
  | ok out => exact (process_tells hp).1 t
  | error e =>
    have hnone : arrivals s tx t = [] := by
      apply List.eq_nil_iff_forall_not_mem.mpr
      intro o ho
      obtain ⟨out, hok⟩ := ((applyTx_orders s tx t).2 o ho).1
      cases hp.symm.trans hok
    rw [hnone]
    rfl

def Written (s : ProgramState) (r : AuctionResult) : Prop :=
  r.batchId ≠ 0 ∧ ∃ k, s.results k = some r

/-- What a transaction tells of a batch, and what it writes of one. -/
inductive BatchStep (s : ProgramState) (tx : Tx) : Prop
  | quiet (hruns : ¬ runsBatch (s, tx))
    (told : (emitted s tx).filter (fun e => e.queue = none) = [])
    (written : ∀ r, Written (applyTx s tx) r ↔ Written s r)
  | batch (r : AuctionResult) (hruns : runsBatch (s, tx))
    (told : (emitted s tx).filter (fun e => e.queue = none) = [r.event])
    (number : r.batchId.val = s.auctionState.batchCounter.val + 1)
    (written : ∀ r', Written (applyTx s tx) r' ↔ Written s r' ∨ r' = r)

theorem exists_update_iff {batchId : U64} {r r' : AuctionResult} (hfree : s.results batchId = none) :
    (∃ k, Function.update s.results batchId (some r) k = some r') ↔
      (∃ k, s.results k = some r') ∨ r' = r := by
  constructor
  · rintro ⟨k, hk⟩
    rcases update_results_cases hk with ⟨-, rfl⟩ | hk
    · exact Or.inr rfl
    · exact Or.inl ⟨k, hk⟩
  · rintro (⟨k, hk⟩ | rfl)
    · exact ⟨k, update_results_of_some hfree hk⟩
    · exact ⟨batchId, Function.update_self ..⟩

theorem emitted_of_not_runsBatch (h : ¬ runsBatch (s, tx)) :
    (emitted s tx).filter (fun e => e.queue = none) = [] := by
  unfold emitted
  cases hp : process s tx with
  | error e => rfl
  | ok out =>
    have hix : ¬ tx.ix.executes := fun hix => h (runsBatch_iff.mpr ⟨hix, out, hp⟩)
    have honly := (process_tells hp).2 hix
    exact List.filter_eq_nil_iff.mpr fun e he => by simp [honly e he]

theorem batchStep (s : ProgramState) (tx : Tx) : BatchStep s tx := by
  by_cases hruns : runsBatch (s, tx)
  · obtain ⟨hix, ⟨s', events⟩, hok⟩ := runsBatch_iff.mp hruns
    obtain ⟨batchId, hix⟩ := executes_iff.mp hix
    have hhandler : executeBatchHandler tx.clock batchId s = .ok (s', events) := by
      rw [process, hix] at hok
      exact hok
    obtain ⟨r, hr, rfl⟩ := executeBatchHandler_executes hhandler
    have happly : applyTx s tx = s' := applyTx_of_ok hok
    have hne : r.batchId ≠ 0 := by
      intro hzero
      have hnumber := hr.number
      rw [hzero, Fin.val_zero] at hnumber
      omega
    apply BatchStep.batch r hruns
    · rw [emitted, hok]
      rfl
    · exact hr.number
    · intro r'
      unfold Written
      rw [happly, hr.results, exists_update_iff hr.free, and_or_left]
      constructor
      · rintro (hold | ⟨-, rfl⟩)
        · exact Or.inl hold
        · exact Or.inr rfl
      · rintro (hold | rfl)
        · exact Or.inl hold
        · exact Or.inr ⟨hne, rfl⟩
  · apply BatchStep.quiet hruns (emitted_of_not_runsBatch hruns)
    intro r
    unfold Written
    cases applyTx_accounts s tx with
    | quiet _ _ hresults => rw [hresults]
    | reserved batchId _ _ hfree _ hresults =>
      rw [hresults, exists_update_iff hfree, and_or_left]
      constructor
      · rintro (hold | ⟨hne, rfl⟩)
        · exact hold
        · exact absurd rfl hne
      · exact Or.inl
    | executed batchId hbatch => exact absurd hbatch hruns

end Process

theorem heard_placed (s₀ : ProgramState) (txs : List Tx) (t : AuctionType) :
    (heard s₀ txs).filter (fun e => e.queue = some t) =
      ((ledger s₀ txs).filter fun e => e.place = t).map fun e => e.item.event := by
  have hnd : [AuctionType.bid, .ask].Nodup := by decide
  have hall : ∀ t, t ∈ [AuctionType.bid, .ask] := by
    intro t
    cases t <;> decide
  have hevent : ∀ s tx t o, (fate s tx t o).1.event = o.event := by
    intro s tx t o
    rw [fate_fields]
    rfl
  exact reported_told hnd hall emitted_placed hevent s₀ txs t

theorem heard_written {s₀ : ProgramState} (h : Started s₀) (txs : List Tx) :
    ∃ results : List AuctionResult,
      (heard s₀ txs).filter (fun e => e.queue = none) = results.map AuctionResult.event ∧
      results.map (fun r => r.batchId.val) = List.range' 1 (batches s₀ txs).length ∧
      ∀ r, r ∈ results ↔ r.batchId ≠ 0 ∧ ∃ k, (run s₀ txs).results k = some r := by
  induction txs using List.reverseRecOn with
  | nil =>
    obtain ⟨authority, batchInterval, made, hblank, rfl⟩ := h
    refine ⟨[], rfl, rfl, fun r => ⟨fun hr => absurd hr List.not_mem_nil, ?_⟩⟩
    rintro ⟨hne, k, hk⟩
    rw [hblank k r hk] at hne
    exact absurd rfl hne
  | append_singleton txs tx ih =>
    obtain ⟨results, htold, hnumbers, hwritten⟩ := ih
    have hcounter := (h.paced txs).counter
    have hheard : heard s₀ (txs ++ [tx]) = heard s₀ txs ++ emitted (run s₀ txs) tx :=
      reported_snoc applyTx emitted s₀ txs tx
    have hrun : run s₀ (txs ++ [tx]) = applyTx (run s₀ txs) tx := Runs.run_snoc applyTx s₀ txs tx
    rw [hheard, hrun, List.filter_append, batches_snoc, htold]
    cases batchStep (run s₀ txs) tx with
    | quiet hruns hnone hsame =>
      rw [hnone, if_neg hruns, List.append_nil, List.append_nil]
      exact ⟨results, rfl, hnumbers, fun r => (hwritten r).trans (hsame r).symm⟩
    | batch r hruns htells hnumber hnew =>
      refine ⟨results ++ [r], ?_, ?_, fun r' => ?_⟩
      · rw [htells, List.map_append]
        rfl
      · rw [if_pos hruns, List.map_append, hnumbers, List.length_append, List.length_singleton,
          List.range'_concat, List.map_singleton, hnumber, hcounter, Nat.one_mul, Nat.add_comm]
      · rw [List.mem_append, List.mem_singleton, hwritten]
        exact (hnew r').symm

/-- A listener that hears a whole run knows every order that was ever placed in a queue, in
the order of their arrival, and every result that a batch wrote, in the order of the
batches. -/
theorem heard_tells {s₀ : ProgramState} (h : Started s₀) (txs : List Tx) :
    (∀ t, (heard s₀ txs).filter (fun e => e.queue = some t) =
      ((ledger s₀ txs).filter fun e => e.place = t).map fun e => e.item.event) ∧
      ∃ results : List AuctionResult,
        (heard s₀ txs).filter (fun e => e.queue = none) = results.map AuctionResult.event ∧
        results.map (fun r => r.batchId.val) = List.range' 1 (batches s₀ txs).length ∧
        ∀ r, r ∈ results ↔ r.batchId ≠ 0 ∧ ∃ k, (run s₀ txs).results k = some r :=
  ⟨heard_placed s₀ txs, heard_written h txs⟩

theorem heard_tells_sampleTxs :
    heard sampleStart sampleTxs =
        [.orderPlaced ⟨1000, 1, .maker, .buy, 105, 300⟩, .orderPlaced ⟨1001, 1, .taker, .sell, 100, 200⟩,
          .batchExecuted ⟨1, 100, 200, 0, 0⟩] ∧
      ((ledger sampleStart sampleTxs).filter fun e => e.place = .bid).map (fun e => e.item.event) =
        [.orderPlaced ⟨1000, 1, .maker, .buy, 105, 300⟩,
          .orderPlaced ⟨1001, 1, .taker, .sell, 100, 200⟩] := by
  have hheard : heard sampleStart sampleTxs =
      [.orderPlaced ⟨1000, 1, .maker, .buy, 105, 300⟩, .orderPlaced ⟨1001, 1, .taker, .sell, 100, 200⟩,
        .batchExecuted ⟨1, 100, 200, 0, 0⟩] := by decide
  have htold := (heard_tells started_sampleStart sampleTxs).1 .bid
  rw [hheard] at htold
  exact ⟨hheard, htold.symm⟩

end ToyDfba
