import ToyDfba.Proofs.Queues

/-! The life of every order. The ledger of a run keeps each order that was ever placed,
where it was placed; the queues hold at any time the orders of the ledger that have
not been removed, and a transaction changes an entry only as the program allows. -/

namespace ToyDfba

open Ledger

/-- What a transaction does to an order that rests in a queue. A failed one is undone. -/
def fate (s : ProgramState) (tx : Tx) (t : AuctionType) : Order → Order × Option Removal :=
  match process s tx with
  | .ok _ => fateOk s tx t
  | .error _ => fun o => (o, none)

/-- The orders a transaction appends to a queue: what follows the survivors there. -/
def arrivals (s : ProgramState) (tx : Tx) (t : AuctionType) : List Order :=
  ((applyTx s tx).queue t).orders.drop
    ((s.queue t).orders.filterMap (survivor (fate s tx t))).length

def ledger (s : ProgramState) (txs : List Tx) : List Entry :=
  book applyTx fate arrivals [.bid, .ask] s txs

section Step

variable {s : ProgramState} {tx : Tx} {t : AuctionType}

theorem fate_of_ok {out : Outcome} (h : process s tx = .ok out) : fate s tx t = fateOk s tx t := by
  rw [fate, h]

theorem fate_of_failed (h : ¬ Succeeds s tx) : fate s tx t = fun o => (o, none) := by
  unfold fate
  cases hp : process s tx with
  | ok out => exact absurd ⟨out, hp⟩ h
  | error e => rfl

/-- A queue holds after a transaction the survivors in their order, then the orders that
the transaction placed. -/
theorem applyTx_orders (s : ProgramState) (tx : Tx) (t : AuctionType) :
    ((applyTx s tx).queue t).orders =
        (s.queue t).orders.filterMap (survivor (fate s tx t)) ++ arrivals s tx t ∧
      ∀ o ∈ arrivals s tx t, Succeeds s tx ∧ Fresh tx.signer tx.clock tx.ix.orders t o := by
  unfold arrivals
  rcases applyTx_cases s tx with ⟨events, hok⟩ | ⟨hfailed, hsame⟩
  · obtain ⟨new, hnew⟩ := process_queue hok t
    rw [fate_of_ok hok, hnew.queue, List.drop_left]
    exact ⟨rfl, fun o ho => ⟨⟨_, hok⟩, hnew.fresh o ho⟩⟩
  · rw [fate_of_failed hfailed, hsame, filterMap_survivor_keep, List.drop_length]
    exact ⟨(List.append_nil _).symm, fun o ho => nomatch ho⟩

theorem fateOk_filled_iff_full {o : Order} (h : Rests t o) :
    (fateOk s tx t o).2 = some .filled ↔
      tx.ix.executes ∧
        (fateOk s tx t o).1.filledQuantity = (fateOk s tx t o).1.quantity := by
  rw [fateOk_filled_iff]
  refine and_congr_right fun hix => ?_
  have hle := fateOk_filled_le s tx t h.unfilled.le
  have hactive : (fateOk s tx t o).1.isActive = true := by
    rw [fateOk_fields]
    exact h.active
  rw [fateOk_of_executes s hix] at hle hactive ⊢
  dsimp only at hle hactive ⊢
  rw [stillOpen_iff, and_iff_right hactive, not_lt]
  exact ⟨fun hge => le_antisymm hle hge, fun he => he.ge⟩

theorem evolves_of_rests (tx : Tx) {o : Order} (h : Rests t o) :
    Evolves s tx ⟨t, o, none⟩ ⟨t, (fate s tx t o).1, (fate s tx t o).2⟩ := by
  by_cases hs : Succeeds s tx
  · obtain ⟨out, hok⟩ := id hs
    rw [fate_of_ok hok]
    refine ⟨rfl, fateOk_fields s tx t o, le_fateOk_filled s tx t o,
      fateOk_filled_le s tx t h.unfilled.le, fun hne => ⟨hs, ?_⟩, fun hgone => absurd rfl hgone,
      fun _ => ?_, fun _ => ?_⟩
    · by_contra hix
      exact hne (fateOk_order s hix t o)
    · rw [and_iff_right hs]
      exact fateOk_cancelled_iff s tx t o
    · rw [and_iff_right hs]
      exact fateOk_filled_iff_full h
  · rw [fate_of_failed hs]
    exact ⟨rfl, rfl, le_rfl, h.unfilled.le, fun hne => absurd rfl hne, fun hgone => absurd rfl hgone,
      fun _ => by simp [hs], fun _ => by simp [hs]⟩

theorem evolves_of_gone (tx : Tx) {e : Entry} (hgone : e.removed ≠ none)
    (hle : e.item.filledQuantity ≤ e.item.quantity) : Evolves s tx e e :=
  ⟨rfl, rfl, le_rfl, hle, fun hne => absurd rfl hne, fun _ => rfl, fun h => absurd h hgone,
    fun h => absurd h hgone⟩

end Step

section Run

variable {s₀ : ProgramState} (hs₀ : Started s₀)

include hs₀

/-- The queues hold the orders of the ledger that are not removed. -/
theorem resting_ledger (txs : List Tx) (t : AuctionType) :
    resting t (ledger s₀ txs) = ((run s₀ txs).queue t).orders := by
  have hnd : [AuctionType.bid, .ask].Nodup := by decide
  have hall : ∀ t, t ∈ [AuctionType.bid, .ask] := fun t => by cases t <;> decide
  have hempty : ∀ t, (s₀.queue t).orders = [] := by
    obtain ⟨authority, batchInterval, results, -, rfl⟩ := hs₀
    exact fun t => by cases t <;> rfl
  exact resting_book (fun s t => (s.queue t).orders) hnd hall
    (fun s tx t => (applyTx_orders s tx t).1) hempty txs t

theorem evolves_advance (txs : List Tx) (tx : Tx) {e : Entry} (he : e ∈ ledger s₀ txs)
    (hle : e.item.filledQuantity ≤ e.item.quantity) :
    Evolves (run s₀ txs) tx e (e.advance (fate (run s₀ txs) tx)) := by
  cases hgone : e.removed with
  | some removal =>
    have hsame : e.advance (fate (run s₀ txs) tx) = e := by simp [Entry.advance, hgone]
    rw [hsame]
    exact evolves_of_gone tx (by simp [hgone]) hle
  | none =>
    have hmem := mem_resting he rfl hgone
    rw [resting_ledger hs₀] at hmem
    have hevolves := evolves_of_rests (s := run s₀ txs) tx
      ((hs₀.queueOk_run txs e.place).orders e.item hmem)
    obtain ⟨place, item, removed⟩ := e
    obtain rfl : removed = none := hgone
    exact hevolves

theorem ledger_filled_le (txs : List Tx) :
    ∀ e ∈ ledger s₀ txs, e.item.filledQuantity ≤ e.item.quantity := by
  induction txs using List.reverseRecOn with
  | nil => exact fun e he => nomatch he
  | append_singleton txs tx ih =>
    intro e he
    rw [ledger, book_snoc] at he
    rcases List.mem_append.mp he with he | he
    · obtain ⟨old, hold, rfl⟩ := List.mem_map.mp he
      exact (evolves_advance hs₀ txs tx hold (ih old hold)).bound
    · obtain ⟨t, -, he⟩ := List.mem_flatMap.mp he
      obtain ⟨o, ho, rfl⟩ := List.mem_map.mp he
      have hfresh := ((applyTx_orders _ tx t).2 o ho).2
      exact hfresh.rests.unfilled.le

/-- The auction leaves of each order what its entry becomes. -/
theorem executeAuction_became (txs : List Tx) {tx : Tx} (hs : Succeeds (run s₀ txs) tx)
    (hix : tx.ix.executes) (t : AuctionType) :
    ∃ best, executeAuction ((run s₀ txs).queue t).orders t = some (best,
      became t (ledger s₀ txs) ((ledger s₀ txs).map (Entry.advance (fate (run s₀ txs) tx)))) := by
  obtain ⟨out, hok⟩ := hs
  obtain ⟨batchId, hbatch⟩ := executes_iff.mp hix
  have hhandler : executeBatchHandler tx.clock batchId (run s₀ txs) = .ok out := by
    rw [process, hbatch] at hok
    exact hok
  obtain ⟨r, hr, -⟩ := executeBatchHandler_executes hhandler
  have hfate := fateOk_of_executes (run s₀ txs) hix t
  apply Exists.intro (r.clearing t)
  rw [became_advance, resting_ledger hs₀, fate_of_ok hok, hfate]
  exact hr.clears t

theorem continues_ledger (txs : List Tx) (tx : Tx) :
    Continues (run s₀ txs) tx (ledger s₀ txs) (ledger s₀ (txs ++ [tx])) := by
  refine ⟨_, _, book_snoc .., ?_, executeAuction_became hs₀ txs, fun e he => ?_⟩
  · refine List.forall₂_map_right_iff.mpr (List.forall₂_same.mpr fun e he => ?_)
    exact evolves_advance hs₀ txs tx he (ledger_filled_le hs₀ txs e he)
  · obtain ⟨t, -, he⟩ := List.mem_flatMap.mp he
    obtain ⟨o, ho, rfl⟩ := List.mem_map.mp he
    obtain ⟨hsucceeds, hfresh⟩ := (applyTx_orders _ tx t).2 o ho
    exact ⟨hsucceeds, hfresh, rfl⟩

end Run

/-- Every order ever placed has an entry in the ledger of the run, from the transaction
that placed it on. The queues hold the entries that are not removed, in their order, and
each transaction makes of the entries what `Continues` says and nothing else. -/
theorem order_lifecycle {s₀ : ProgramState} (h : Started s₀) :
    ∃ ledger : List Tx → List Entry, ledger [] = [] ∧
      ∀ txs, (∀ t, ((run s₀ txs).queue t).orders = resting t (ledger txs)) ∧
        ∀ tx, Continues (run s₀ txs) tx (ledger txs) (ledger (txs ++ [tx])) :=
  ⟨ledger s₀, rfl, fun txs => ⟨fun t => (resting_ledger h txs t).symm, continues_ledger h txs⟩⟩

/-- The batch leaves the bid as it was and fills the offer, which it then takes out. -/
theorem order_lifecycle_sampleTxs :
    ∃ placed old new : List Entry,
      ((run sampleStart (sampleTxs.take 1)).queue .bid).orders = resting .bid placed ∧
      ((run sampleStart sampleTxs).queue .bid).orders = resting .bid (old ++ new) ∧
      List.Forall₂ (Evolves (run sampleStart (sampleTxs.take 1)) (sampleTx 2 (.executeBatch 1)))
        placed old ∧
      became .bid placed old = [⟨1000, 1, .maker, .buy, 105, 300, 1000, true, 0⟩,
        ⟨1001, 1, .taker, .sell, 100, 200, 1000, true, 200⟩] := by
  obtain ⟨ledger, -, h⟩ := order_lifecycle started_sampleStart
  obtain ⟨old, new, hnext, hevolves, htrades, -⟩ :=
    (h (sampleTxs.take 1)).2 (sampleTx 2 (.executeBatch 1))
  have hsucceeds : Succeeds (run sampleStart (sampleTxs.take 1)) (sampleTx 2 (.executeBatch 1)) :=
    (runsBatch_iff.mp (by decide)).2
  obtain ⟨best, hbest⟩ := htrades hsucceeds rfl .bid
  have hrun : executeAuction ((run sampleStart (sampleTxs.take 1)).queue .bid).orders .bid =
      some ((100, 200), [⟨1000, 1, .maker, .buy, 105, 300, 1000, true, 0⟩,
        ⟨1001, 1, .taker, .sell, 100, 200, 1000, true, 200⟩]) := by decide
  have hbecame := (Prod.mk.inj (Option.some.inj (hbest.symm.trans hrun))).2
  exact ⟨_, old, new, (h _).1 .bid, hnext ▸ (h sampleTxs).1 .bid, hevolves, hbecame⟩

end ToyDfba
