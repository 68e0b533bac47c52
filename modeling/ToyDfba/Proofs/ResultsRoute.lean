import ToyDfba.Lib.Loops
import ToyDfba.Proofs.Clients

/-! What a request to `/api/results/:count` tells while the crank runs further batches and
some of its fetches are rejected: results that stand for good, in order, and no row less
than the fetches that were answered account for. -/

namespace ToyDfba

open Loops Processes

section Window

variable {s s' : ProgramState} {a b : ℤ}

theorem resultsBetween_succ (s : ProgramState) (h : a ≤ b) :
    resultsBetween s a (b + 1) = resultsBetween s a b ++ (fetchResult s b).toList := by
  have hlength : (b + 1 - a).toNat = (b - a).toNat + 1 := by omega
  have hlast : a + ((b - a).toNat : ℤ) = b := by omega
  have hone : [(b - a).toNat].filterMap (fun j : ℕ => fetchResult s (a + j)) =
      (fetchResult s b).toList := by
    rw [List.filterMap_cons, hlast]
    cases fetchResult s b <;> rfl
  rw [resultsBetween, resultsBetween, hlength, List.range_succ, List.filterMap_append, hone]

def AllRun (s : ProgramState) (a b : ℤ) : Prop := ∀ n, a ≤ n → n < b → Issued s n

theorem resultsBetween_grown (hs : Sole s) (hgrown : Grown s s') (hrun : AllRun s a b) :
    resultsBetween s' a b = resultsBetween s a b := by
  refine List.filterMap_congr fun j hj => ?_
  have hj := List.mem_range.mp hj
  obtain ⟨r, hr, -⟩ := hs.exists_fetchResult (hrun (a + j) (by omega) (by omega))
  rw [hr, hgrown.fetchResult hr]

theorem map_batchId_resultsBetween (hs : Sole s) (hrun : AllRun s a b) :
    (resultsBetween s a b).map (fun r => (r.batchId.val : ℤ)) =
      (List.range (b - a).toNat).map fun j : ℕ => a + j := by
  rw [resultsBetween, List.map_filterMap, ← List.filterMap_eq_map]
  refine List.filterMap_congr fun j hj => ?_
  have hj := List.mem_range.mp hj
  obtain ⟨r, hr, hid⟩ := hs.exists_fetchResult (hrun (a + j) (by omega) (by omega))
  simp [hr, hid]

theorem mem_resultsBetween (hs : Sole s) (hrun : AllRun s a b) {r : AuctionResult}
    (hr : r ∈ resultsBetween s a b) : s.results r.batchId = some r := by
  obtain ⟨j, hj, hr⟩ := List.mem_filterMap.mp hr
  have hj := List.mem_range.mp hj
  obtain ⟨r', hr', hid⟩ := hs.exists_fetchResult (hrun (a + j) (by omega) (by omega))
  obtain rfl := Option.some.inj (hr.symm.trans hr')
  obtain ⟨k, hk, -, hresult⟩ := fetchResult_eq_some_iff.mp hr
  obtain rfl : r.batchId = k := Fin.ext (by omega)
  exact hresult

theorem allRun_of_le {count currentBatch i : ℤ}
    (hcurrent : currentBatch ≤ s.auctionState.batchCounter.val)
    (hi : i ≤ max (currentBatch + 1) (firstBatch count currentBatch)) :
    AllRun s (firstBatch count currentBatch) i := by
  intro n hn hlt
  have hone : 1 ≤ firstBatch count currentBatch := le_max_left _ _
  exact ⟨by omega, by omega⟩

def rowsBetween (s : ProgramState) (a b : ℤ) : List ResultRow :=
  (resultsBetween s a b).filterMap AuctionResult.row

theorem rowsBetween_succ (s : ProgramState) (h : a ≤ b) :
    rowsBetween s a (b + 1) =
      rowsBetween s a b ++ ((fetchResult s b).bind AuctionResult.row).toList := by
  rw [rowsBetween, resultsBetween_succ s h, List.filterMap_append, ← rowsBetween]
  cases fetchResult s b with
  | none => rfl
  | some r =>
    simp only [Option.toList_some, Option.bind_some, List.filterMap_cons, List.filterMap_nil]
    cases r.row <;> rfl

end Window

section Request

variable {s s' : ProgramState} {low missed missed' : ℕ} {count : Option ℤ}
  {request : ResultsRequest}

/-- What a request has seen that was made when `low` batches had been run, if so many of its
fetches were rejected since. -/
def ResultsRequest.Saw (s : ProgramState) (low missed : ℕ) (count : Option ℤ) :
    ResultsRequest → Prop
  | .called count' => count' = count
  | .reading n currentBatch i rows =>
    n = countOr10 count ∧ low ≤ currentBatch ∧ currentBatch ≤ s.auctionState.batchCounter.val ∧
      firstBatch n currentBatch ≤ i ∧ i ≤ max (currentBatch + 1) (firstBatch n currentBatch) ∧
      AllBut missed rows (rowsBetween s (firstBatch n currentBatch) i)
  | .answered n currentBatch rows =>
    n = countOr10 count ∧ low ≤ currentBatch ∧ currentBatch ≤ s.auctionState.batchCounter.val ∧
      AllBut missed rows (rowsBetween s (firstBatch n currentBatch) (currentBatch + 1))
  | .failed => 0 < missed

theorem ResultsRequest.Saw.grown (h : request.Saw s low missed count) (hs : Sole s)
    (hgrown : Grown s s') (hle : missed ≤ missed') : request.Saw s' low missed' count := by
  have hcounter := hgrown.counter
  cases request with
  | called count' => exact h
  | failed => exact lt_of_lt_of_le h hle
  | reading n currentBatch i rows =>
    obtain ⟨hn, hlow, hcurrent, hfirst, hi, hrows⟩ := h
    refine ⟨hn, hlow, by omega, hfirst, hi, ?_⟩
    rw [rowsBetween, resultsBetween_grown hs hgrown (allRun_of_le hcurrent hi)]
    exact hrows.mono hle
  | answered n currentBatch rows =>
    obtain ⟨hn, hlow, hcurrent, hrows⟩ := h
    refine ⟨hn, hlow, by omega, ?_⟩
    rw [rowsBetween, resultsBetween_grown hs hgrown (allRun_of_le hcurrent (le_max_left _ _))]
    exact hrows.mono hle

theorem ResultsRequest.saw_called (hs : Sole s) (hlow : low ≤ s.auctionState.batchCounter.val)
    (turn : Turn) (count : Option ℤ) :
    ((called count).step s turn).Saw s low (missed + if turn.network ≠ .answers then 1 else 0)
      count := by
  simp only [step]
  by_cases hanswers : turn.network = .answers
  · have hcounter : turn.fetch (toNumber s.auctionState.batchCounter.val) =
        some (s.auctionState.batchCounter.val : ℤ) := by
      have hsmall := hs.small
      exact Turn.fetch_eq_some_iff.mpr ⟨hanswers, toNumber_eq_some_iff.mpr ⟨rfl, by omega⟩⟩
    rw [hcounter]
    refine ⟨rfl, by omega, le_rfl, le_rfl, le_max_right _ _, ?_⟩
    simpa [rowsBetween, resultsBetween] using AllBut.nil
  · have hnone : turn.fetch (toNumber s.auctionState.batchCounter.val) = none := if_neg hanswers
    rw [hnone, if_pos hanswers]
    exact Nat.succ_pos _

theorem ResultsRequest.Saw.read {n currentBatch i : ℤ} {rows : List ResultRow}
    (h : (reading n currentBatch i rows).Saw s low missed count) (turn : Turn) :
    ((reading n currentBatch i rows).step s turn).Saw s low
      (missed + if turn.network ≠ .answers then 1 else 0) count := by
  obtain ⟨hn, hcalled, hcurrent, hfirst, hi, hrows⟩ := h
  simp only [ResultsRequest.step]
  by_cases hle : i ≤ currentBatch
  · rw [if_pos hle]
    have hnext : i + 1 ≤ max (currentBatch + 1) (firstBatch n currentBatch) :=
      (by omega : i + 1 ≤ currentBatch + 1).trans (le_max_left _ _)
    have hmore := rowsBetween_succ s hfirst
    by_cases hanswers : turn.network = .answers
    · have hread : turn.fetch ((fetchResult s i).bind AuctionResult.row) =
          (fetchResult s i).bind AuctionResult.row := if_pos hanswers
      have hkept := hrows.keep ((fetchResult s i).bind AuctionResult.row).toList
      rw [← hmore] at hkept
      rw [hread, if_neg (not_not_intro hanswers), Nat.add_zero]
      cases hrow : (fetchResult s i).bind AuctionResult.row with
      | none =>
        rw [hrow, Option.toList_none, List.append_nil] at hkept
        exact ⟨hn, hcalled, hcurrent, by omega, hnext, hkept⟩
      | some row =>
        rw [hrow] at hkept
        exact ⟨hn, hcalled, hcurrent, by omega, hnext, hkept⟩
    · have hread : turn.fetch ((fetchResult s i).bind AuctionResult.row) = none := if_neg hanswers
      rw [hread, if_pos hanswers]
      refine ⟨hn, hcalled, hcurrent, by omega, hnext, ?_⟩
      rw [hmore]
      exact hrows.miss Option.length_toList_le
  · -- the loop has come to its end, or had nothing to do
    rw [if_neg hle]
    have hend : (i - firstBatch n currentBatch).toNat =
        (currentBatch + 1 - firstBatch n currentBatch).toNat := by omega
    refine ⟨hn, hcalled, hcurrent, ?_⟩
    rw [rowsBetween, resultsBetween, ← hend, ← resultsBetween, ← rowsBetween]
    exact hrows.mono (Nat.le_add_right _ _)

/-- A turn that is not answered may cost the request a row, or its answer. -/
theorem ResultsRequest.Saw.step (h : request.Saw s low missed count) (hs : Sole s)
    (hlow : low ≤ s.auctionState.batchCounter.val) (turn : Turn) :
    (request.step s turn).Saw s low (missed + if turn.network ≠ .answers then 1 else 0) count := by
  cases request with
  | called count' =>
    obtain rfl : count' = count := h
    exact saw_called hs hlow turn count'
  | reading n currentBatch i rows => exact h.read turn
  | answered n currentBatch rows => exact h.grown hs (Grown.refl s) (Nat.le_add_right _ _)
  | failed => exact h.grown hs (Grown.refl s) (Nat.le_add_right _ _)

end Request

section Run

variable {κ : Type} [DecidableEq κ] {crankKey : Pubkey} {sys : System ProgramState κ Client}
  {pre post : List (Move κ Tx Turn)} {c : κ} {count : Option ℤ}

theorem saw_results (h : Launched sys) (hmoves : Allowed Tx.Outside (pre ++ post))
    (hcalled : (runClients crankKey sys pre).locals c = .results (.called count)) :
    ∃ request, (runClients crankKey sys (pre ++ post)).locals c = .results request ∧
      request.Saw (runClients crankKey sys (pre ++ post)).shared
        (runClients crankKey sys pre).shared.auctionState.batchCounter.val (refusals c post)
        count := by
  have hsole : ∀ mid, mid <+: post → Sole (runClients crankKey sys (pre ++ mid)).shared := by
    intro mid hmid
    have hlonger : pre ++ mid <+: pre ++ post := (List.prefix_append_right_inj pre).mpr hmid
    exact sole_runClients h fun w hw => hmoves w (hlonger.subset hw)
  have hgrown : ∀ mid move, Grown (runClients crankKey sys (pre ++ mid)).shared
      (runClients crankKey sys (pre ++ (mid ++ [move]))).shared :=
    fun mid move => grown_runClients ⟨[move], List.append_assoc pre mid [move]⟩
  apply run_history (H := fun mid client => ∃ request, client = Client.results request ∧
    request.Saw (runClients crankKey sys (pre ++ mid)).shared
      (runClients crankKey sys pre).shared.auctionState.batchCounter.val (refusals c mid) count)
  · rintro mid move _ hmid ⟨request, rfl, hrequest⟩
    have hmid := (List.prefix_append mid [move]).trans hmid
    exact ⟨request, rfl, hrequest.grown (hsole mid hmid) (hgrown mid move) (turnsWith_le_snoc ..)⟩
  · rintro mid _ turn hmid ⟨request, rfl, hrequest⟩
    have hmid := (List.prefix_append mid [Move.step c turn]).trans hmid
    have hlow : Grown (runClients crankKey sys pre).shared
        (runClients crankKey sys (pre ++ mid)).shared := grown_runClients (List.prefix_append pre mid)
    have hstep := hrequest.step (hsole mid hmid) hlow.counter turn
    rw [refusals, turnsWith_snoc, ← refusals]
    exact ⟨_, rfl, hstep.grown (hsole mid hmid) (hgrown mid _) le_rfl⟩
  · exact ⟨.called count, hcalled, rfl⟩

/-- A request for the last results, while only the crank runs batches. The answer holds
every batch that had been run when the request was made and fits the count, without gaps
and in order, as it stands now and for good. What JavaScript cannot hold is left out, and
for each fetch that is rejected at most one row more. -/
theorem results_request (h : Launched sys) (hmoves : Allowed Tx.Outside (pre ++ post))
    {n currentBatch : ℤ} {rows : List ResultRow}
    (hcalled : (runClients crankKey sys pre).locals c = .results (.called count))
    (hanswered : (runClients crankKey sys (pre ++ post)).locals c =
      .results (.answered n currentBatch rows)) :
    n = countOr10 count ∧
      (runClients crankKey sys pre).shared.auctionState.batchCounter.val ≤ currentBatch ∧
      currentBatch ≤ (runClients crankKey sys (pre ++ post)).shared.auctionState.batchCounter.val ∧
      ∃ results : List AuctionResult,
        AllBut (refusals c post) rows (results.filterMap AuctionResult.row) ∧
        (∀ r ∈ results, (runClients crankKey sys (pre ++ post)).shared.results r.batchId = some r) ∧
        results.map (fun r => (r.batchId.val : ℤ)) =
          (List.range (currentBatch + 1 - firstBatch n currentBatch).toNat).map
            fun j : ℕ => firstBatch n currentBatch + j := by
  have hsole : Sole (runClients crankKey sys (pre ++ post)).shared := sole_runClients h hmoves
  obtain ⟨request, hclient, hrequest⟩ := saw_results h hmoves hcalled
  obtain rfl := Client.results.inj (hclient.symm.trans hanswered)
  obtain ⟨hn, hlow, hcurrent, hrows⟩ := hrequest
  have hall : AllRun _ (firstBatch n currentBatch) (currentBatch + 1) :=
    allRun_of_le hcurrent (le_max_left _ _)
  exact ⟨hn, hlow, hcurrent, _, hrows, fun r hr => mem_resultsBetween hsole hall hr,
    map_batchId_resultsBetween hsole hall⟩

/-- A request that is made after the second batch. The fetch of the first result is rejected,
and so is the answer to the transaction that made it. -/
def sampleReader : System ProgramState (Fin 3) Client :=
  ⟨sampleStart, fun c => if c = 2 then .results (.called none) else .crank .called⟩

def sampleBefore : List (Move (Fin 3) Tx Turn) :=
  [.step 0 (sampleTurn 0 .answers), .step 0 (sampleTurn 2 .loses),
    .step 1 (sampleTurn 3 .answers), .step 1 (sampleTurn 4 .answers)]

def sampleAfter : List (Move (Fin 3) Tx Turn) :=
  [.step 2 (sampleTurn 4 .answers), .step 2 (sampleTurn 4 .rejects),
    .world (sampleTx 5 (.initializeResult 9)), .step 2 (sampleTurn 5 .answers),
    .step 1 (sampleTurn 5 .answers), .step 2 (sampleTurn 6 .answers)]

theorem launched_sampleReader : Launched sampleReader := by
  constructor
  · exact started_sampleStart
  · intro c
    match c with
    | 0 => rfl
    | 1 => rfl
    | 2 => exact ⟨none, rfl⟩

theorem allowed_sampleReader : Allowed Tx.Outside (sampleBefore ++ sampleAfter) := by
  intro tx htx k
  simp only [sampleBefore, sampleAfter, List.mem_append, List.mem_cons, Move.world.injEq,
    reduceCtorEq, List.not_mem_nil, or_false, false_or] at htx
  subst htx
  simp [sampleTx]

theorem results_request_sampleReader :
    ∃ results : List AuctionResult,
      AllBut 1 [⟨2, 0, 0, 0, 0, 1000⟩] (results.filterMap AuctionResult.row) ∧
        (∀ r ∈ results, (runClients 9 sampleReader (sampleBefore ++ sampleAfter)).shared.results
          r.batchId = some r) ∧ results.map (fun r => (r.batchId.val : ℤ)) = [1, 2] := by
  have hcalled : (runClients 9 sampleReader sampleBefore).locals 2 =
      .results (.called none) := by decide
  have hanswered : (runClients 9 sampleReader (sampleBefore ++ sampleAfter)).locals 2 =
      .results (.answered 10 2 [⟨2, 0, 0, 0, 0, 1000⟩]) := by decide
  have hrefusals : refusals 2 sampleAfter = 1 := by decide
  obtain ⟨-, -, -, results, hrows, hresults, hnumbers⟩ :=
    results_request launched_sampleReader allowed_sampleReader hcalled hanswered
  rw [hrefusals] at hrows
  exact ⟨results, hrows, hresults, hnumbers.trans (by decide)⟩

end Run

end ToyDfba
