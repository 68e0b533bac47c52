import ToyDfba.Proofs.Allocation
import ToyDfba.Proofs.History
import ToyDfba.Proofs.Lifecycle

/-! What the batches of a run record, and what the orders of the run received. The
result accounts count a volume that the queues may have lost to rounding, and never less
than the orders received. -/

namespace ToyDfba

open Ledger Totals

def recorded (b : ProgramState × Tx) (t : AuctionType) : U64 × U64 :=
  match b.2.ix with
  | .executeBatch batchId => (((applyTx b.1 b.2).results batchId).getD {}).clearing t
  | _ => (0, 0)

def recordedTotal (s : ProgramState) (txs : List Tx) (t : AuctionType) : ℕ :=
  ((batches s txs).map fun b => (recorded b t).2.val).sum

/-- What the orders of a run received, all those that ever rested in a queue. -/
def filledTotal (s : ProgramState) (txs : List Tx) (t : AuctionType) : ℕ :=
  held (fun o => o.filledQuantity.val) t (ledger s txs)

section Batch

variable {s : ProgramState} {tx : Tx}

theorem runsBatch_recorded (h : runsBatch (s, tx)) (t : AuctionType) :
    executeAuction (s.queue t).orders t =
        some (recorded (s, tx) t, (s.queue t).orders.map (settle t (s.queue t).orders)) ∧
      (applyTx s tx).queue t =
        { s.queue t with
          orders := ((s.queue t).orders.map (settle t (s.queue t).orders)).filter stillOpen } := by
  cases applyTx_accounts s tx with
  | quiet hruns _ _ => exact absurd h hruns
  | reserved _ hruns _ _ _ _ => exact absurd h hruns
  | executed batchId _ hix r hr =>
    have hrecorded : recorded (s, tx) t = r.clearing t := by
      simp only [recorded, hix, hr.results, Function.update_self, Option.getD_some]
    rw [hrecorded]
    exact ⟨hr.clears t, hr.queue t⟩

theorem recorded_clears (h : runsBatch (s, tx)) (t : AuctionType) :
    Clears t (s.queue t).orders (recorded (s, tx) t).1 (recorded (s, tx) t).2.val :=
  executeAuction_clears (runsBatch_recorded h t).1

theorem recorded_volume (h : runsBatch (s, tx)) (t : AuctionType) :
    (recorded (s, tx) t).2.val = clearingVolume t (s.queue t).orders :=
  (recorded_clears h t).volume_eq

end Batch

section Book

variable (t : AuctionType) (orders : List Order)

theorem growth_taker_eq_award :
    growth .taker orders (orders.map (settle t orders)) =
      total (Priority.award (takerKey t) Order.remaining (clearingVolume t orders)
        (liveTakers orders)) (fun _ => true) (liveTakers orders) := by
  rw [growth_taker]
  exact total_congr_weight _ fun o _ _ => takerFill_eq t orders o

theorem clearingVolume_le_takerTotal : clearingVolume t orders ≤ takerTotal orders := by
  obtain ⟨price, volume, hclears⟩ := exists_clears t orders
  rw [← hclears.volume_eq]
  rcases Nat.eq_zero_or_pos volume with hzero | hpos
  · exact hzero ▸ Nat.zero_le _
  · exact (hclears.le_takerVolume hpos).trans (takerVolume_le _ _ _)

theorem growth_taker_le_volume :
    growth .taker orders (orders.map (settle t orders)) ≤ clearingVolume t orders := by
  rcases Nat.eq_zero_or_pos (clearingVolume t orders) with hidle | hpos
  · rw [growth_taker, total_eq_zero_iff _ |>.mpr]
    · exact Nat.zero_le _
    · intro o _ _
      rw [takerFill, levelFill, hidle, Nat.zero_sub, Nat.min_zero, ProRata.share_zero]
  · rw [growth_taker_eq_award]
    exact Priority.total_award_le hpos (clearingVolume_le_takerTotal t orders)

theorem length_liveTakers_lt (hpos : 0 < clearingVolume t orders) :
    (liveTakers orders).length < orders.length := by
  obtain ⟨price, volume, hclears⟩ := exists_clears t orders
  rw [← hclears.volume_eq] at hpos
  have hmakers : ¬ (liveMakers orders = [] ∨ liveTakers orders = []) := fun hempty =>
    hpos.ne' ((clears_of_empty hempty).unique hclears).2.symm
  obtain ⟨m, hm⟩ := List.exists_mem_of_ne_nil _ fun he => hmakers (Or.inl he)
  obtain ⟨hm, hmaker⟩ := List.mem_filter.mp hm
  refine List.length_filter_lt_length_iff_exists.mpr ⟨m, hm, fun htaker => ?_⟩
  have htype := orderType_of_liveMaker hmaker
  rw [orderType_of_liveTaker htaker] at htype
  cases htype

/-- A batch loses fewer units to rounding than its book has takers. -/
theorem clearingVolume_le_growth {n : ℕ} (hlength : orders.length ≤ n + 2) :
    clearingVolume t orders ≤ growth .taker orders (orders.map (settle t orders)) + n := by
  rcases Nat.eq_zero_or_pos (clearingVolume t orders) with hidle | hpos
  · rw [hidle]
    exact Nat.zero_le _
  · have hloss : clearingVolume t orders ≤
        growth .taker orders (orders.map (settle t orders)) + ((liveTakers orders).length - 1) := by
      rw [growth_taker_eq_award]
      exact Priority.le_total_award_add_length hpos (clearingVolume_le_takerTotal t orders)
    have htakers := length_liveTakers_lt t orders hpos
    omega

end Book

def received (s : ProgramState) (tx : Tx) (t : AuctionType) : ℕ :=
  if runsBatch (s, tx) then
    growth .taker (s.queue t).orders ((s.queue t).orders.map (settle t (s.queue t).orders))
  else 0

section Step

variable {s : ProgramState} {tx : Tx} {t : AuctionType}

theorem le_fate_filled (s : ProgramState) (tx : Tx) (t : AuctionType) (o : Order) :
    o.filledQuantity ≤ (fate s tx t o).1.filledQuantity := by
  unfold fate
  cases process s tx with
  | ok out => exact le_fateOk_filled s tx t o
  | error e => exact le_rfl

theorem total_growth_fate (s : ProgramState) (tx : Tx) (t : AuctionType) :
    total (fun o => (fate s tx t o).1.filledQuantity.val - o.filledQuantity.val) (fun _ => true)
      (s.queue t).orders = received s tx t := by
  unfold received
  split_ifs with hruns
  · obtain ⟨hix, out, hok⟩ := runsBatch_iff.mp hruns
    have hfill : ∀ o, (fate s tx t o).1.filledQuantity.val - o.filledQuantity.val =
        if o.liveTaker then takerFill t (s.queue t).orders o else 0 := by
      intro o
      rw [fate_of_ok hok, fateOk_of_executes s hix]
      dsimp only
      rw [settle_filled, Nat.add_sub_cancel_left]
    simp only [hfill]
    rw [growth_taker, total_ite, liveTakers, total_filter]
  · refine (total_eq_zero_iff _).mpr fun o _ _ => ?_
    by_cases hs : Succeeds s tx
    · obtain ⟨out, hok⟩ := id hs
      rw [fate_of_ok hok, fateOk_order s fun hix => hruns (runsBatch_iff.mpr ⟨hix, hs⟩), Nat.sub_self]
    · rw [fate_of_failed hs, Nat.sub_self]

theorem recordedTotal_snoc (s₀ : ProgramState) (txs : List Tx) (tx : Tx) (t : AuctionType) :
    recordedTotal s₀ (txs ++ [tx]) t =
      recordedTotal s₀ txs t +
        if runsBatch (run s₀ txs, tx) then clearingVolume t ((run s₀ txs).queue t).orders else 0 := by
  rw [recordedTotal, batches_snoc, recordedTotal, List.map_append, List.sum_append]
  split_ifs with hruns
  · rw [List.map_singleton, List.sum_singleton, recorded_volume hruns]
  · rfl

end Step

theorem filledTotal_snoc {s₀ : ProgramState} (h : Started s₀) (txs : List Tx) (tx : Tx)
    (t : AuctionType) :
    filledTotal s₀ (txs ++ [tx]) t = filledTotal s₀ txs t + received (run s₀ txs) tx t := by
  have hgrows : ∀ o ∈ resting t (ledger s₀ txs),
      o.filledQuantity.val ≤ (fate (run s₀ txs) tx t o).1.filledQuantity.val :=
    fun o _ => le_fate_filled (run s₀ txs) tx t o
  have hnew : ∀ t' ∈ [AuctionType.bid, .ask], ∀ o ∈ arrivals (run s₀ txs) tx t',
      o.filledQuantity.val = 0 := by
    intro t' _ o ho
    rw [((applyTx_orders _ tx t').2 o ho).2.unfilled]
    rfl
  rw [filledTotal, ledger, book_snoc, record, held_append, held_arrive _ hnew, Nat.add_zero]
  refine (held_advance (fun o : Order => o.filledQuantity.val) hgrows).trans ?_
  rw [resting_ledger h, total_growth_fate, filledTotal]

/-- Over every run the orders of a queue receive no more than the result accounts record,
and less by at most 83 units for each batch. -/
theorem filledTotal_recordedTotal {s₀ : ProgramState} (h : Started s₀) (txs : List Tx)
    (t : AuctionType) :
    filledTotal s₀ txs t ≤ recordedTotal s₀ txs t ∧
      recordedTotal s₀ txs t ≤ filledTotal s₀ txs t + 83 * (batches s₀ txs).length := by
  induction txs using List.reverseRecOn with
  | nil => exact ⟨le_rfl, Nat.zero_le _⟩
  | append_singleton txs tx ih =>
    obtain ⟨hle, hge⟩ := ih
    rw [filledTotal_snoc h, recordedTotal_snoc, batches_snoc, List.length_append]
    unfold received
    by_cases hruns : runsBatch (run s₀ txs, tx)
    · have hq := h.queueOk_run txs t
      have hlength := hq.fits
      rw [hq.capacity, show (85 : U32).val = 85 from rfl] at hlength
      have hfills := growth_taker_le_volume t ((run s₀ txs).queue t).orders
      have hloses := clearingVolume_le_growth t ((run s₀ txs).queue t).orders (n := 83) hlength
      simp only [hruns, if_true, List.length_singleton]
      omega
    · simp only [hruns, Bool.false_eq_true, if_false, List.length_nil]
      omega

theorem filledTotal_sampleTxs :
    recordedTotal sampleStart sampleTxs .bid = 200 ∧
      filledTotal sampleStart sampleTxs .bid ≤ recordedTotal sampleStart sampleTxs .bid ∧
      recordedTotal sampleStart sampleTxs .bid ≤ filledTotal sampleStart sampleTxs .bid + 83 := by
  have hrecorded : recordedTotal sampleStart sampleTxs .bid = 200 := by decide
  have hone : (batches sampleStart sampleTxs).length = 1 := by decide
  obtain ⟨hle, hge⟩ := filledTotal_recordedTotal started_sampleStart sampleTxs .bid
  rw [hone] at hge
  exact ⟨hrecorded, hle, hge⟩

end ToyDfba
