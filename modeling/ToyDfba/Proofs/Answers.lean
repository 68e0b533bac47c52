import ToyDfba.Proofs.ResultsRoute

/-! No call or request hangs on the others: each comes to its end within a number of its own
turns, whatever happens between them. -/

namespace ToyDfba

open Processes

def Client.Ended : Client → Prop
  | .crank (.logged _ _) | .crank (.unlogged _) | .crank .failed => True
  | .orders (.answered _ _) | .orders .failed => True
  | .results (.answered _ _ _) | .results .failed => True
  | _ => False

/-- How many turns a client still takes at most, if no more than `b` batches are run. -/
def Client.ahead (b : ℕ) : Client → ℕ
  | .crank .called => 3
  | .crank (.fetched _) => 2
  | .crank (.executed _) => 1
  | .orders .called => 2
  | .orders (.fetched _) => 1
  | .results (.called _) => b + 2
  | .results (.reading _ currentBatch i _) => (currentBatch + 1 - i).toNat + 1
  | _ => 0

section Turn

variable {b : ℕ}

theorem Client.Fresh.ahead_le {client : Client} (h : client.Fresh) : client.ahead b ≤ b + 3 := by
  cases client with
  | crank call =>
    obtain rfl : call = .called := h
    exact Nat.le_add_left 3 b
  | orders request =>
    obtain rfl : request = .called := h
    exact Nat.le_add_left 2 (b + 1)
  | results request =>
    obtain ⟨count, rfl⟩ := h
    exact Nat.le_succ (b + 2)

theorem CrankCall.ahead_step (crankKey : Pubkey) (s : ProgramState) (turn : Turn)
    (call : CrankCall) :
    (Client.crank (call.step crankKey s turn).2).ahead b ≤ (Client.crank call).ahead b - 1 := by
  cases call with
  | called =>
    simp only [step]
    split <;> simp [Client.ahead]
  | fetched n =>
    simp only [step]
    split
    · exact Nat.zero_le _
    · split
      · exact Nat.zero_le _
      · split
        · exact Nat.zero_le _
        · split
          · exact Nat.zero_le _
          · exact le_rfl
  | executed n =>
    simp only [step]
    split <;> exact Nat.zero_le _
  | logged n entry => exact Nat.zero_le _
  | unlogged n => exact Nat.zero_le _
  | failed => exact Nat.zero_le _

theorem OrdersRequest.ahead_step (s : ProgramState) (turn : Turn) (request : OrdersRequest) :
    (Client.orders (request.step s turn)).ahead b ≤ (Client.orders request).ahead b - 1 := by
  cases request with
  | called =>
    simp only [step]
    split
    · exact Nat.zero_le _
    · exact le_rfl
  | fetched bids =>
    simp only [step]
    split
    · exact Nat.zero_le _
    · split <;> exact Nat.zero_le _
  | answered bidOrders askOrders => exact Nat.zero_le _
  | failed => exact Nat.zero_le _

/-- The window is fixed by the batch count that the first turn brings. -/
theorem ResultsRequest.ahead_step {s : ProgramState} (h : s.auctionState.batchCounter.val ≤ b)
    (turn : Turn) (request : ResultsRequest) :
    (Client.results (request.step s turn)).ahead b ≤ (Client.results request).ahead b - 1 := by
  cases request with
  | called count =>
    simp only [step]
    split
    · exact Nat.zero_le _
    · rename_i n hcounter
      obtain ⟨rfl, -⟩ := toNumber_eq_some_iff.mp (Turn.fetch_eq_some_iff.mp hcounter).2
      have hfirst : 1 ≤ firstBatch (countOr10 count) s.auctionState.batchCounter.val :=
        le_max_left _ _
      simp only [Client.ahead]
      omega
  | reading count currentBatch i rows =>
    simp only [step]
    split_ifs with hle
    · have hless : (currentBatch + 1 - (i + 1)).toNat + 1 ≤ (currentBatch + 1 - i).toNat := by
        omega
      split <;> exact hless
    · exact Nat.zero_le _
  | answered count currentBatch rows => exact Nat.zero_le _
  | failed => exact Nat.zero_le _

theorem Client.ahead_step {s : ProgramState} (h : s.auctionState.batchCounter.val ≤ b)
    (crankKey : Pubkey) (client : Client) (turn : Turn) :
    (client.step crankKey s turn).2.ahead b ≤ client.ahead b - 1 := by
  cases client with
  | crank call => exact call.ahead_step crankKey s turn
  | orders request => exact request.ahead_step s turn
  | results request => exact request.ahead_step h turn

theorem Client.ended_of_ahead {client : Client} (h : client.ahead b = 0) : client.Ended := by
  cases client with
  | crank call => cases call <;> trivial
  | orders request => cases request <;> trivial
  | results request =>
    cases request with
    | called count => cases h
    | reading count currentBatch i rows => cases h
    | answered count currentBatch rows => trivial
    | failed => trivial

end Turn

variable {κ : Type} [DecidableEq κ]

theorem fresh_results {crankKey : Pubkey} {sys : System ProgramState κ Client} (h : Launched sys)
    {moves : List (Move κ Tx Turn)} {c : κ} {request : ResultsRequest}
    (hclient : (runClients crankKey sys moves).locals c = .results request) :
    ∃ count, sys.locals c = .results (.called count) := by
  have hkind : (∃ request, (runClients crankKey sys ([] ++ moves)).locals c = .results request) →
      ∃ request, sys.locals c = .results request := by
    apply run_history (H := fun _ client => (∃ request, client = Client.results request) →
      ∃ request, sys.locals c = .results request)
    · exact fun _ _ _ _ hclient => hclient
    · rintro mid client turn - hclient ⟨request, hstep⟩
      cases client with
      | crank call => cases hstep
      | orders request => cases hstep
      | results request => exact hclient ⟨request, rfl⟩
    · exact id
  obtain ⟨request', hstart⟩ := hkind ⟨request, hclient⟩
  have hfresh := h.fresh c
  rw [hstart] at hfresh
  obtain ⟨count, rfl⟩ := hfresh
  exact ⟨count, hstart⟩

/-- While only the crank runs batches, a call or request that takes three turns more than
there are batches comes to its end, and a request for results ends without an answer only if
one of its fetches was rejected. -/
theorem clients_end {crankKey : Pubkey} {sys : System ProgramState κ Client} (h : Launched sys)
    {moves : List (Move κ Tx Turn)} (hmoves : Allowed Tx.Outside moves) {c : κ}
    (hturns : (runClients crankKey sys moves).shared.auctionState.batchCounter.val + 3 ≤
      turns c moves) :
    ((runClients crankKey sys moves).locals c).Ended ∧
      ((runClients crankKey sys moves).locals c = .results .failed → 0 < refusals c moves) := by
  constructor
  · have hnearer : ∀ (pre : List (Move κ Tx Turn)) (client : Client) (turn : Turn), pre <+: moves →
        (client.step crankKey (runClients crankKey sys pre).shared turn).2.ahead
            (runClients crankKey sys moves).shared.auctionState.batchCounter.val ≤
          client.ahead (runClients crankKey sys moves).shared.auctionState.batchCounter.val - 1 :=
      fun pre client turn hpre =>
        Client.ahead_step (grown_runClients hpre).counter crankKey client turn
    have hahead := run_turns hnearer c
    have hfresh : (sys.locals c).ahead
        (runClients crankKey sys moves).shared.auctionState.batchCounter.val ≤
          (runClients crankKey sys moves).shared.auctionState.batchCounter.val + 3 :=
      (h.fresh c).ahead_le
    exact Client.ended_of_ahead (Nat.le_zero.mp (hahead.trans (by omega)))
  · intro hfailed
    obtain ⟨count, hcalled⟩ := fresh_results h hfailed
    obtain ⟨request, hclient, hrequest⟩ := @saw_results _ _ _ _ [] _ _ _ h hmoves hcalled
    obtain rfl := Client.results.inj (hclient.symm.trans hfailed)
    exact hrequest

/-- The request of the sample takes one turn more than it needs, and one that it loses. -/
theorem clients_end_sampleReader :
    ((runClients 9 sampleReader (sampleBefore ++ sampleAfter ++
      [.step 2 (sampleTurn 7 .answers)])).locals 2).Ended ∧
    (runClients 9 sampleReader (sampleBefore ++ sampleAfter ++
      [.step 2 (sampleTurn 7 .answers)])).locals 2 =
        .results (.answered 10 2 [⟨2, 0, 0, 0, 0, 1000⟩]) := by
  have hmoves : Allowed Tx.Outside
      (sampleBefore ++ sampleAfter ++ [.step 2 (sampleTurn 7 .answers)]) := by
    intro tx htx
    exact allowed_sampleReader tx (by simpa using htx)
  exact ⟨(clients_end launched_sampleReader hmoves (by decide)).1, by decide⟩

end ToyDfba
