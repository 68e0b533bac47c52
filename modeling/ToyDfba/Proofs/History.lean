import ToyDfba.Proofs.Steps

/-! The history of the batches: their numbers have no gaps, their results never change,
and they keep their distance. -/

namespace ToyDfba

/-- The numbers in the result accounts: each batch up to the counter has one account,
and the accounts that no batch wrote hold zero. -/
structure Numbering (s : ProgramState) : Prop where
  exists_number : ∀ n, 1 ≤ n → n ≤ s.auctionState.batchCounter.val →
    ∃ k r, s.results k = some r ∧ r.batchId.val = n
  number_le : ∀ k r, s.results k = some r → r.batchId.val ≤ s.auctionState.batchCounter.val
  number_inj : ∀ k k' r r', s.results k = some r → s.results k' = some r' → r.batchId ≠ 0 →
    r.batchId = r'.batchId → k = k'

theorem Numbering.of_eq {s s' : ProgramState} (h : Numbering s)
    (hstate : s'.auctionState = s.auctionState) (hresults : s'.results = s.results) :
    Numbering s' := by
  refine ⟨?_, ?_, ?_⟩
  · rw [hstate, hresults]
    exact h.exists_number
  · rw [hstate, hresults]
    exact h.number_le
  · rw [hresults]
    exact h.number_inj

section Update

variable {s : ProgramState} {batchId : U64} {r₀ : AuctionResult}

theorem update_results_cases {k : U64} {r : AuctionResult}
    (h : Function.update s.results batchId (some r₀) k = some r) :
    (k = batchId ∧ r = r₀) ∨ s.results k = some r := by
  by_cases hk : k = batchId
  · subst hk
    rw [Function.update_self] at h
    exact Or.inl ⟨rfl, (Option.some.inj h).symm⟩
  · rw [Function.update_of_ne hk] at h
    exact Or.inr h

theorem update_results_of_some (hfree : s.results batchId = none) {k : U64} {r : AuctionResult}
    (h : s.results k = some r) : Function.update s.results batchId (some r₀) k = some r := by
  rw [Function.update_of_ne]
  · exact h
  · rintro rfl
    rw [hfree] at h
    cases h

end Update

theorem Numbering.step {s s' : ProgramState} {tx : Tx} (h : Numbering s)
    (hstep : AccountStep s s' tx) : Numbering s' := by
  cases hstep with
  | quiet _ hstate hresults => exact h.of_eq hstate hresults
  | reserved batchId _ _ hfree hstate hresults =>
    refine ⟨fun n hn hle => ?_, fun k r hk => ?_, fun k k' r r' hk hk' hne he => ?_⟩
    · rw [hstate] at hle
      obtain ⟨k, r, hk, hr⟩ := h.exists_number n hn hle
      exact ⟨k, r, hresults ▸ update_results_of_some hfree hk, hr⟩
    · rw [hresults] at hk
      rw [hstate]
      rcases update_results_cases hk with ⟨-, rfl⟩ | hk
      · exact Nat.zero_le _
      · exact h.number_le k r hk
    · rw [hresults] at hk hk'
      rcases update_results_cases hk with ⟨-, rfl⟩ | hk
      · exact absurd rfl hne
      · rcases update_results_cases hk' with ⟨-, rfl⟩ | hk'
        · exact absurd he hne
        · exact h.number_inj k k' r r' hk hk' hne he
  | executed batchId _ _ r₀ hr₀ =>
    have hcounter : s'.auctionState.batchCounter.val = s.auctionState.batchCounter.val + 1 := by
      rw [hr₀.auctionState]
      exact hr₀.number
    -- the new number is above those of all accounts so far
    have hnew : ∀ k r, s.results k = some r → r.batchId ≠ r₀.batchId := by
      intro k r hk he
      have hle := h.number_le k r hk
      rw [he, hr₀.number] at hle
      omega
    refine ⟨fun n hn hle => ?_, fun k r hk => ?_, fun k k' r r' hk hk' hne he => ?_⟩
    · rw [hr₀.results]
      rcases Nat.lt_or_ge s.auctionState.batchCounter.val n with hlt | hge
      · exact ⟨batchId, r₀, Function.update_self .., by rw [hr₀.number]; omega⟩
      · obtain ⟨k, r, hk, hr⟩ := h.exists_number n hn hge
        exact ⟨k, r, update_results_of_some hr₀.free hk, hr⟩
    · rw [hr₀.results] at hk
      rw [hcounter]
      rcases update_results_cases hk with ⟨-, rfl⟩ | hk
      · exact hr₀.number.le
      · exact (h.number_le k r hk).trans (Nat.le_succ _)
    · rw [hr₀.results] at hk hk'
      rcases update_results_cases hk with ⟨rfl, rfl⟩ | hold
      · rcases update_results_cases hk' with ⟨rfl, -⟩ | hold'
        · rfl
        · exact absurd he.symm (hnew k' r' hold')
      · rcases update_results_cases hk' with ⟨-, rfl⟩ | hold'
        · exact absurd he (hnew k r hold)
        · exact h.number_inj k k' r r' hold hold' hne he

theorem Started.numbering {s : ProgramState} (h : Started s) : Numbering s := by
  obtain ⟨authority, batchInterval, results, hblank, rfl⟩ := h
  refine ⟨fun n hn hle => ?_, fun k r hk => ?_, fun k k' r r' hk hk' hne _ => ?_⟩
  · have hzero : n ≤ 0 := hle
    omega
  · rw [hblank k r hk]
    exact Nat.zero_le _
  · rw [hblank k r hk] at hne
    exact absurd rfl hne

theorem Started.numbering_run {s : ProgramState} (h : Started s) (txs : List Tx) :
    Numbering (run s txs) :=
  Runs.invariant (P := Numbering) (fun s tx hn => hn.step (applyTx_accounts s tx)) h.numbering txs

theorem results_applyTx {s : ProgramState} (tx : Tx) {k : U64} {r : AuctionResult}
    (h : s.results k = some r) : (applyTx s tx).results k = some r := by
  cases applyTx_accounts s tx with
  | quiet _ _ hresults => rwa [hresults]
  | reserved batchId _ _ hfree _ hresults =>
    rw [hresults]
    exact update_results_of_some hfree h
  | executed batchId _ _ r₀ hr₀ =>
    rw [hr₀.results]
    exact update_results_of_some hr₀.free h

theorem results_persist {s : ProgramState} {pre txs : List Tx} (hpre : pre <+: txs) {k : U64}
    {r : AuctionResult} (h : (run s pre).results k = some r) : (run s txs).results k = some r :=
  Runs.persists (P := fun s : ProgramState => s.results k = some r)
    (fun _ tx hk => results_applyTx tx hk) hpre h

theorem batches_snoc (s : ProgramState) (txs : List Tx) (tx : Tx) :
    batches s (txs ++ [tx]) =
      batches s txs ++ if runsBatch (run s txs, tx) then [(run s txs, tx)] else [] := by
  rw [batches, trace, Runs.trace_snoc, List.filter_append]
  cases hruns : runsBatch (run s txs, tx) <;> simp [batches, hruns]

def Spaced (batchInterval : U64) (a b : ProgramState × Tx) : Prop :=
  a.2.clock.slot.val + batchInterval.val ≤ b.2.clock.slot.val

/-- What the auction state says about the batches of a run. -/
structure Paced (s₀ : ProgramState) (txs : List Tx) : Prop where
  interval : (run s₀ txs).auctionState.batchInterval = s₀.auctionState.batchInterval
  counter : (run s₀ txs).auctionState.batchCounter.val = (batches s₀ txs).length
  spaced : (batches s₀ txs).IsChain (Spaced s₀.auctionState.batchInterval)
  last : ∀ b ∈ (batches s₀ txs).getLast?, (run s₀ txs).auctionState.lastBatchSlot = b.2.clock.slot
  pace : (run s₀ txs).auctionState.batchCounter.val * s₀.auctionState.batchInterval.val ≤
    (run s₀ txs).auctionState.lastBatchSlot.val

theorem Started.paced {s₀ : ProgramState} (h : Started s₀) (txs : List Tx) : Paced s₀ txs := by
  induction txs using List.reverseRecOn with
  | nil =>
    obtain ⟨authority, batchInterval, results, -, rfl⟩ := h
    exact ⟨rfl, rfl, List.isChain_nil, fun b hb => (nomatch hb),
      by simp [initializeHandler]⟩
  | append_singleton txs tx ih =>
    have hkeep : ¬ runsBatch (run s₀ txs, tx) →
        (applyTx (run s₀ txs) tx).auctionState = (run s₀ txs).auctionState →
        Paced s₀ (txs ++ [tx]) := by
      intro hruns hstate
      have hbatches : batches s₀ (txs ++ [tx]) = batches s₀ txs := by
        rw [batches_snoc, if_neg hruns, List.append_nil]
      have hrun : (run s₀ (txs ++ [tx])).auctionState = (run s₀ txs).auctionState := by
        rw [run, Runs.run_snoc]
        exact hstate
      exact ⟨by rw [hrun]; exact ih.interval, by rw [hrun, hbatches]; exact ih.counter,
        by rw [hbatches]; exact ih.spaced, by rw [hrun, hbatches]; exact ih.last,
        by rw [hrun]; exact ih.pace⟩
    cases applyTx_accounts (run s₀ txs) tx with
    | quiet hruns hstate _ => exact hkeep hruns hstate
    | reserved batchId hruns _ _ hstate _ => exact hkeep hruns hstate
    | executed batchId hruns _ r hr =>
      have hbatches : batches s₀ (txs ++ [tx]) = batches s₀ txs ++ [(run s₀ txs, tx)] := by
        rw [batches_snoc, if_pos hruns]
      have hrun : (run s₀ (txs ++ [tx])).auctionState =
          { (run s₀ txs).auctionState with
            lastBatchSlot := tx.clock.slot, batchCounter := r.batchId } := by
        rw [run, Runs.run_snoc]
        exact hr.auctionState
      have hdue := hr.due
      rw [ih.interval] at hdue
      have hpace := ih.pace
      refine ⟨by rw [hrun]; exact ih.interval, ?_, ?_, ?_, ?_⟩
      · rw [hrun, hbatches, List.length_append, ← ih.counter]
        exact hr.number
      · rw [hbatches]
        refine ih.spaced.append (List.isChain_singleton _) fun a ha b hb => ?_
        obtain rfl : (run s₀ txs, tx) = b := by simpa using hb
        rw [Spaced, ← ih.last a ha]
        exact hdue
      · rw [hrun, hbatches]
        intro b hb
        obtain rfl : (run s₀ txs, tx) = b := by simpa using hb
        rfl
      · rw [hrun]
        dsimp only
        rw [hr.number, Nat.succ_mul]
        omega

/-- The counter counts the batches. Each number up to it stands in exactly one result
account and every other account holds zero; an account that exists never changes; and
the batches keep the interval, so that the last slot bounds their number. -/
theorem batch_history {s₀ : ProgramState} (h : Started s₀) (txs : List Tx) :
    (run s₀ txs).auctionState.batchCounter.val = (batches s₀ txs).length ∧
      (∀ n, 1 ≤ n → n ≤ (run s₀ txs).auctionState.batchCounter.val →
        ∃! k, ∃ r, (run s₀ txs).results k = some r ∧ r.batchId.val = n) ∧
      (∀ k r, (run s₀ txs).results k = some r →
        ¬ (1 ≤ r.batchId.val ∧ r.batchId.val ≤ (run s₀ txs).auctionState.batchCounter.val) →
        r.batchId = 0) ∧
      (∀ pre, pre <+: txs → ∀ k r, (run s₀ pre).results k = some r →
        (run s₀ txs).results k = some r) ∧
      (batches s₀ txs).IsChain (Spaced s₀.auctionState.batchInterval) ∧
      (run s₀ txs).auctionState.batchCounter.val * s₀.auctionState.batchInterval.val ≤
        (run s₀ txs).auctionState.lastBatchSlot.val := by
  have hnumbering := h.numbering_run txs
  have hpaced := h.paced txs
  refine ⟨hpaced.counter, fun n hn hle => ?_, fun k r hk hout => ?_,
    fun pre hpre k r => results_persist hpre, hpaced.spaced, hpaced.pace⟩
  · obtain ⟨k, r, hk, hr⟩ := hnumbering.exists_number n hn hle
    refine ⟨k, ⟨r, hk, hr⟩, fun k' ⟨r', hk', hr'⟩ => ?_⟩
    have hne : r'.batchId ≠ 0 := fun hzero => by
      rw [hzero, Fin.val_zero] at hr'
      omega
    exact hnumbering.number_inj k' k r' r hk' hk hne (Fin.ext (hr'.trans hr.symm))
  · have hle := hnumbering.number_le k r hk
    refine Fin.ext ?_
    rw [Fin.val_zero]
    omega

/-- Two more batches, with an early attempt, a blank result and a foreign number among
them. -/
def longTxs : List Tx :=
  sampleTxs ++ [sampleTx 3 (.executeBatch 2), sampleTx 3 (.initializeResult 5),
    sampleTx 4 (.executeBatch 9), sampleTx 7 (.executeBatch 3)]

theorem batch_history_longTxs :
    (batches sampleStart longTxs).length = 3 ∧
      (∃! k, ∃ r, (run sampleStart longTxs).results k = some r ∧ r.batchId.val = 2) ∧
      (∀ r, (run sampleStart longTxs).results 5 = some r → r.batchId = 0) ∧
      (batches sampleStart longTxs).IsChain (Spaced 2) ∧
      3 * 2 ≤ (run sampleStart longTxs).auctionState.lastBatchSlot.val := by
  obtain ⟨hcounter, hnumber, hblank, -, hspaced, hpace⟩ := batch_history started_sampleStart longTxs
  have hthree : (run sampleStart longTxs).auctionState.batchCounter.val = 3 := by decide
  have hfive : (run sampleStart longTxs).results 5 = some {} := by decide
  rw [hthree] at hnumber hblank hpace
  refine ⟨hcounter.symm.trans hthree, hnumber 2 (by decide) (by decide), fun r hr => ?_, hspaced, hpace⟩
  obtain rfl := Option.some.inj (hfive.symm.trans hr)
  exact hblank 5 _ hfive (by decide)

end ToyDfba
