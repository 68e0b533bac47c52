import ToyDfba.Proofs.History

/-! Where the results are filed. The argument of `execute_batch` picks the account, the
counter picks the number in it, and nothing ties one to the other; `initialize_result`
takes the account of any batch to come. -/

namespace ToyDfba

/-- Readers that look up the batches by number find each under its own. -/
def Filed (s : ProgramState) : Prop :=
  ∀ i : U64, 1 ≤ i.val → i.val ≤ s.auctionState.batchCounter.val →
    ∃ r, s.results i = some r ∧ r.batchId = i

def NextFree (s : ProgramState) : Prop :=
  ∀ i : U64, i.val = s.auctionState.batchCounter.val + 1 → s.results i = none

theorem applyTx_of_ready {s : ProgramState} {tx : Tx} {batchId : U64}
    (hix : tx.ix = .executeBatch batchId) (hready : BatchReady tx.clock batchId s) :
    ∃ r, (applyTx s tx).results = Function.update s.results batchId (some r) ∧
      r.batchId.val = s.auctionState.batchCounter.val + 1 ∧
      (applyTx s tx).auctionState.batchCounter = r.batchId := by
  have hruns := (runsBatch_of_ready hix).mpr hready
  cases applyTx_accounts s tx with
  | quiet hnot _ _ => exact absurd hruns hnot
  | reserved _ hnot _ _ _ _ => exact absurd hruns hnot
  | executed batchId' _ hix' r hr =>
    obtain rfl : batchId = batchId' := Instruction.executeBatch.inj (hix.symm.trans hix')
    exact ⟨r, hr.results, hr.number, by rw [hr.auctionState]⟩

theorem applyTx_of_reserved {s : ProgramState} {tx : Tx} {batchId : U64}
    (hix : tx.ix = .initializeResult batchId) (hfree : s.results batchId = none) :
    (applyTx s tx).results batchId = some {} ∧
      (applyTx s tx).auctionState = s.auctionState := by
  have hinit : initResult batchId s =
      .ok { s with results := Function.update s.results batchId (some {}) } := by
    simp [hfree]
  have hprocess : process s tx =
      .ok ({ s with results := Function.update s.results batchId (some {}) }, []) := by
    rw [process, hix]
    exact bind_eq_ok.mpr ⟨_, hinit, rfl⟩
  rw [applyTx, hprocess]
  exact ⟨Function.update_self .., rfl⟩

theorem counter_applyTx_le (s : ProgramState) (tx : Tx) :
    (applyTx s tx).auctionState.batchCounter.val ≤ s.auctionState.batchCounter.val + 1 := by
  cases applyTx_accounts s tx with
  | quiet _ hstate _ => rw [hstate]; omega
  | reserved _ _ _ _ hstate _ => rw [hstate]; omega
  | executed _ _ _ r hr => rw [hr.auctionState]; exact hr.number.le

theorem counter_le_applyTx (s : ProgramState) (tx : Tx) :
    s.auctionState.batchCounter.val ≤ (applyTx s tx).auctionState.batchCounter.val := by
  cases applyTx_accounts s tx with
  | quiet _ hstate _ => rw [hstate]
  | reserved _ _ _ _ hstate _ => rw [hstate]
  | executed _ _ _ r hr => rw [hr.auctionState]; exact (Nat.le_succ _).trans hr.number.ge

theorem counter_mono {s : ProgramState} {pre txs : List Tx} (hpre : pre <+: txs) :
    (run s pre).auctionState.batchCounter.val ≤ (run s txs).auctionState.batchCounter.val :=
  Runs.persists (P := fun s' : ProgramState =>
      (run s pre).auctionState.batchCounter.val ≤ s'.auctionState.batchCounter.val)
    (fun s' tx hle => hle.trans (counter_le_applyTx s' tx)) hpre le_rfl

section Filing

/-- A batch that goes through is called by the number it gets. -/
def CalledByNumber (st : ProgramState × Tx) : Prop :=
  ∀ k, st.2.ix = .executeBatch k → BatchReady st.2.clock k st.1 →
    k.val = st.1.auctionState.batchCounter.val + 1

theorem Filed.step {s : ProgramState} {tx : Tx} (h : Filed s) (hcalled : CalledByNumber (s, tx)) :
    Filed (applyTx s tx) := by
  have hold : ∀ i : U64, 1 ≤ i.val → i.val ≤ s.auctionState.batchCounter.val →
      ∃ r, (applyTx s tx).results i = some r ∧ r.batchId = i := by
    intro i hi hle
    obtain ⟨r, hr, hnumber⟩ := h i hi hle
    exact ⟨r, results_applyTx tx hr, hnumber⟩
  cases applyTx_accounts s tx with
  | quiet _ hstate _ =>
    unfold Filed
    rw [hstate]
    exact hold
  | reserved _ _ _ _ hstate _ =>
    unfold Filed
    rw [hstate]
    exact hold
  | executed batchId hruns hix r hr =>
    intro i hi hle
    rcases Nat.lt_or_ge s.auctionState.batchCounter.val i.val with hlt | hge
    · have hk : batchId.val = s.auctionState.batchCounter.val + 1 :=
        hcalled batchId hix ((runsBatch_of_ready hix).mp hruns)
      rw [hr.auctionState] at hle
      have hnumber := hr.number
      have hi : i = batchId := Fin.ext (by dsimp only at hle; omega)
      refine ⟨r, ?_, Fin.ext ?_⟩
      · rw [hr.results, hi, Function.update_self]
      · rw [hi, hk, hnumber]
    · exact hold i hi hge

/-- Every result of a run stands under its own number exactly when every batch that
goes through was called by it. -/
theorem filed_iff {s₀ : ProgramState} (h : Started s₀) (txs : List Tx) :
    (∀ pre, pre <+: txs → Filed (run s₀ pre)) ↔ ∀ st ∈ trace s₀ txs, CalledByNumber st := by
  refine ⟨?_, ?_⟩
  · intro hfiled st hst k hix hready
    obtain ⟨pre, hpre, hs⟩ := Runs.mem_trace_iff.mp hst
    have hs : st.1 = run s₀ pre := hs
    obtain ⟨r, hresults, hnumber, hcounter⟩ := applyTx_of_ready hix hready
    have hrun : run s₀ (pre ++ [st.2]) = applyTx st.1 st.2 := by
      rw [run, Runs.run_snoc, hs]
    have hafter := hfiled _ hpre
    have hinj := (h.numbering_run (pre ++ [st.2])).number_inj
    rw [hrun] at hafter hinj
    obtain ⟨r', hr', he⟩ := hafter r.batchId (by omega) (by rw [hcounter])
    have hk : (applyTx st.1 st.2).results k = some r := by rw [hresults, Function.update_self]
    have hne : r.batchId ≠ 0 := fun hzero => by
      rw [hzero, Fin.val_zero] at hnumber
      omega
    rw [hinj k r.batchId r r' hk hr' hne he.symm]
    exact hnumber
  · intro hcalled pre hpre
    refine Runs.invariant_of_steps (C := CalledByNumber) (fun s tx hc hf => hf.step hc) ?_
      fun st hst => hcalled st (Runs.trace_subset_of_prefix hpre hst)
    intro i hi hle
    obtain ⟨authority, batchInterval, results, -, rfl⟩ := h
    exact absurd (hi.trans hle) (by simp [initializeHandler])

theorem filed_sampleTxs :
    Filed (run sampleStart (sampleTxs.take 1)) ∧ Filed (run sampleStart sampleTxs) := by
  suffices hcalled : ∀ st ∈ trace sampleStart sampleTxs, CalledByNumber st by
    have hfiled := (filed_iff started_sampleStart sampleTxs).mpr hcalled
    exact ⟨hfiled _ (List.take_prefix 1 _), hfiled _ (List.prefix_refl _)⟩
  intro st hst k hix _
  simp only [sampleTxs, trace, Runs.trace, List.mem_cons, List.not_mem_nil, or_false] at hst
  rcases hst with rfl | rfl
  · cases hix
  · obtain rfl : 1 = k := Instruction.executeBatch.inj hix
    decide

/-- A first batch called 7 leaves the account of batch 1 missing. -/
theorem not_filed_of_foreign_number :
    ¬ ∀ s₀, Started s₀ → ∀ txs pre, pre <+: txs → Filed (run s₀ pre) := by
  intro h
  have hfiled := h sampleStart started_sampleStart [sampleTx 2 (.executeBatch 7)] _
    (List.prefix_refl _) 1 (by decide) (by decide)
  obtain ⟨r, hr, -⟩ := hfiled
  have hnone : (run sampleStart [sampleTx 2 (.executeBatch 7)]).results 1 = none := by decide
  rw [hnone] at hr
  cases hr

end Filing

section Slots

/-- A result account is made when its batch has come, or for a batch that the run of
`n` batches does not come to. -/
def InTurn (come n : ℕ) (k : U64) : Prop := k.val ≤ come ∨ n + 1 < k.val

def MadeInTurn (n : ℕ) (st : ProgramState × Tx) : Prop :=
  ∀ k, (st.2.ix = .initializeResult k → st.1.results k = none →
      InTurn st.1.auctionState.batchCounter.val n k) ∧
    (st.2.ix = .executeBatch k → BatchReady st.2.clock k st.1 →
      InTurn (st.1.auctionState.batchCounter.val + 1) n k)

def AllInTurn (n : ℕ) (s : ProgramState) : Prop :=
  ∀ k r, s.results k = some r → InTurn s.auctionState.batchCounter.val n k

theorem InTurn.later {a b n : ℕ} {k : U64} (h : InTurn a n k) (hle : a ≤ b) : InTurn b n k :=
  h.imp (fun h => h.trans hle) id

theorem AllInTurn.step {n : ℕ} {s : ProgramState} {tx : Tx} (h : AllInTurn n s)
    (hmade : MadeInTurn n (s, tx)) : AllInTurn n (applyTx s tx) := by
  have hold : ∀ k r, s.results k = some r →
      InTurn (applyTx s tx).auctionState.batchCounter.val n k :=
    fun k r hk => (h k r hk).later (counter_le_applyTx s tx)
  cases applyTx_accounts s tx with
  | quiet _ _ hresults =>
    intro k r hk
    rw [hresults] at hk
    exact hold k r hk
  | reserved batchId _ hix hfree hstate hresults =>
    intro k r hk
    rw [hresults] at hk
    rcases update_results_cases hk with ⟨rfl, -⟩ | hk
    · rw [hstate]
      exact (hmade k).1 hix hfree
    · exact hold k r hk
  | executed batchId hruns hix r₀ hr =>
    intro k r hk
    rw [hr.results] at hk
    rcases update_results_cases hk with ⟨rfl, -⟩ | hk
    · have hturn := (hmade k).2 hix ((runsBatch_of_ready hix).mp hruns)
      rw [hr.auctionState]
      dsimp only
      rw [hr.number]
      exact hturn
    · exact hold k r hk

/-- While the next account is always free, no account exists out of turn: the counter
would come to it. -/
theorem allInTurn_of_nextFree {s₀ : ProgramState} {txs : List Tx}
    (hfree : ∀ pre, pre <+: txs → NextFree (run s₀ pre)) {pre : List Tx} (hpre : pre <+: txs) :
    AllInTurn (run s₀ txs).auctionState.batchCounter.val (run s₀ pre) := by
  intro k r hk
  by_contra hnot
  rw [InTurn, not_or, not_le, not_lt] at hnot
  have hhigh : k.val - 1 ≤ (run s₀ txs).auctionState.batchCounter.val := by omega
  obtain ⟨q, hq, hqtxs, he⟩ := Runs.exists_between
    (f := fun s : ProgramState => s.auctionState.batchCounter.val) counter_applyTx_le hpre
    (Nat.le_sub_one_of_lt hnot.1) hhigh
  have he : (run s₀ q).auctionState.batchCounter.val = k.val - 1 := he
  have hnone := hfree q hqtxs k (by omega)
  have hsome := results_persist hq hk
  rw [hsome] at hnone
  cases hnone

/-- The account of the next batch is free in every state of a run exactly when no
account is made ahead of a batch that the run comes to. -/
theorem nextFree_iff {s₀ : ProgramState} (h : Started s₀) (txs : List Tx) :
    (∀ pre, pre <+: txs → NextFree (run s₀ pre)) ↔
      (∀ k r, s₀.results k = some r → InTurn 0 (batches s₀ txs).length k) ∧
        ∀ st ∈ trace s₀ txs, MadeInTurn (batches s₀ txs).length st := by
  have hzero : s₀.auctionState.batchCounter.val = 0 := by
    obtain ⟨authority, batchInterval, results, -, rfl⟩ := h
    rfl
  rw [← (h.paced txs).counter]
  refine ⟨fun hfree => ⟨?_, fun st hst k => ?_⟩, fun ⟨hstart, hmade⟩ pre hpre i hi => ?_⟩
  · have hall := allInTurn_of_nextFree hfree (List.nil_prefix)
    rwa [AllInTurn, run, Runs.run_nil, hzero] at hall
  · obtain ⟨pre, hpre, hs⟩ := Runs.mem_trace_iff.mp hst
    have hs : st.1 = run s₀ pre := hs
    have hall := allInTurn_of_nextFree hfree hpre
    have hrun : run s₀ (pre ++ [st.2]) = applyTx st.1 st.2 := by
      rw [run, Runs.run_snoc, hs]
    rw [hrun] at hall
    refine ⟨?_, ?_⟩
    · intro hix hnone
      obtain ⟨hk, hstate⟩ := applyTx_of_reserved hix hnone
      have hturn := hall k _ hk
      rwa [hstate] at hturn
    · intro hix hready
      obtain ⟨r, hresults, hnumber, hcounter⟩ := applyTx_of_ready hix hready
      have hturn := hall k r (by rw [hresults, Function.update_self])
      rwa [hcounter, hnumber] at hturn
  · have hall : AllInTurn (run s₀ txs).auctionState.batchCounter.val (run s₀ pre) :=
      Runs.invariant_of_steps (C := MadeInTurn (run s₀ txs).auctionState.batchCounter.val)
        (fun s tx hc hs => hs.step hc) (by rwa [AllInTurn, hzero])
        fun st hst => hmade st (Runs.trace_subset_of_prefix hpre hst)
    have hle := counter_mono (s := s₀) hpre
    cases hk : (run s₀ pre).results i with
    | none => rfl
    | some r =>
      have hturn := hall i r hk
      rw [InTurn] at hturn
      omega

theorem nextFree_sampleTxs :
    NextFree (run sampleStart (sampleTxs.take 1)) ∧ NextFree (run sampleStart sampleTxs) := by
  suffices hmade : ∀ st ∈ trace sampleStart sampleTxs,
      MadeInTurn (batches sampleStart sampleTxs).length st by
    have hfree := (nextFree_iff started_sampleStart sampleTxs).mpr
      ⟨fun k r hk => (nomatch hk), hmade⟩
    exact ⟨hfree _ (List.take_prefix 1 _), hfree _ (List.prefix_refl _)⟩
  intro st hst k
  simp only [sampleTxs, trace, Runs.trace, List.mem_cons, List.not_mem_nil, or_false] at hst
  rcases hst with rfl | rfl
  · refine ⟨?_, ?_⟩
    · intro hix
      cases hix
    · intro hix
      cases hix
  · refine ⟨?_, ?_⟩
    · intro hix
      cases hix
    · intro hix _
      obtain rfl : 1 = k := Instruction.executeBatch.inj hix
      exact Or.inl (Nat.le_add_left 1 _)

/-- Anyone may take the account of the first batch before it is run. -/
theorem not_nextFree_of_reserved :
    ¬ ∀ s₀, Started s₀ → ∀ txs pre, pre <+: txs → NextFree (run s₀ pre) := by
  intro h
  have hnone := h sampleStart started_sampleStart [sampleTx 0 (.initializeResult 1)] _
    (List.prefix_refl _) 1 (by decide)
  have hsome : (run sampleStart [sampleTx 0 (.initializeResult 1)]).results 1 = some {} := by
    decide
  rw [hsome] at hnone
  cases hnone

end Slots

end ToyDfba
