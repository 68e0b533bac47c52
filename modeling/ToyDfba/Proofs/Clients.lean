import ToyDfba.Proofs.Results
import ToyDfba.Spec.Clients

/-! What the crank can rely on while its calls run into each other and into everybody's
transactions, over a network that fails some of them, as long as nobody else runs batches:
no batch is executed twice, and each call reads back the batch it executed. -/

namespace ToyDfba

section Numbers

theorem toNumber_eq_some_iff {x y : ℤ} : toNumber x = some y ↔ y = x ∧ x.natAbs < 2 ^ 53 := by
  unfold toNumber
  split_ifs with h
  · simp only [Option.some.injEq, h, and_true, eq_comm]
  · simp only [h, and_false]

theorem newBN_eq_some_iff {n : ℤ} {k : U64} : newBN n = some k ↔ n = k.val ∧ n < 2 ^ 53 := by
  unfold newBN
  constructor
  · intro h
    split_ifs at h with hn
    obtain rfl := Option.some.inj h
    have hlt : n.toNat < 2 ^ 64 := by omega
    rw [Fin.val_ofNat, Nat.mod_eq_of_lt hlt]
    omega
  · rintro ⟨rfl, hlt⟩
    rw [if_pos ⟨by omega, hlt⟩, Int.toNat_natCast, Fin.ofNat_val_eq_self]

theorem Turn.fetch_eq_some_iff {α : Type} {turn : Turn} {x : Option α} {y : α} :
    turn.fetch x = some y ↔ turn.network = .answers ∧ x = some y := by
  unfold Turn.fetch
  split_ifs with h <;> simp [h]

theorem fetchResult_eq_some_iff {s : ProgramState} {n : ℤ} {r : AuctionResult} :
    fetchResult s n = some r ↔ ∃ k : U64, n = k.val ∧ n < 2 ^ 53 ∧ s.results k = some r := by
  simp [fetchResult, Option.bind_eq_some_iff, newBN_eq_some_iff, and_assoc]

end Numbers

/-- Each batch is filed under its number, and no other account records one. -/
structure Sole (s : ProgramState) : Prop where
  small : s.auctionState.batchCounter.val < 2 ^ 53
  filed : Filed s
  only : ∀ k r, s.results k = some r →
    r.batchId = 0 ∨ r.batchId = k ∧ k.val ≤ s.auctionState.batchCounter.val

def Issued (s : ProgramState) (n : ℤ) : Prop := 1 ≤ n ∧ n ≤ s.auctionState.batchCounter.val

/-- No batch is ever taken back, and no result changes. -/
structure Grown (s s' : ProgramState) : Prop where
  counter : s.auctionState.batchCounter.val ≤ s'.auctionState.batchCounter.val
  results : ∀ k r, s.results k = some r → s'.results k = some r

section Program

variable {s s' : ProgramState}

theorem grown_applyTx (s : ProgramState) (tx : Tx) : Grown s (applyTx s tx) :=
  ⟨counter_le_applyTx s tx, fun _ _ h => results_applyTx tx h⟩

theorem Grown.refl (s : ProgramState) : Grown s s := ⟨le_rfl, fun _ _ h => h⟩

theorem Grown.trans {a b c : ProgramState} (h : Grown a b) (h' : Grown b c) : Grown a c :=
  ⟨h.counter.trans h'.counter, fun k r hr => h'.results k r (h.results k r hr)⟩

theorem Grown.fetchResult (h : Grown s s') {n : ℤ} {r : AuctionResult}
    (hr : fetchResult s n = some r) : fetchResult s' n = some r := by
  rw [fetchResult_eq_some_iff] at hr ⊢
  obtain ⟨k, hn, hlt, hr⟩ := hr
  exact ⟨k, hn, hlt, h.results k r hr⟩

theorem Grown.issued (h : Grown s s') {n : ℤ} (hn : Issued s n) : Issued s' n := by
  have hcounter := h.counter
  obtain ⟨hone, hle⟩ := hn
  exact ⟨hone, by omega⟩

theorem Sole.exists_fetchResult (h : Sole s) {n : ℤ} (hn : Issued s n) :
    ∃ r, fetchResult s n = some r ∧ (r.batchId.val : ℤ) = n := by
  have hsmall := h.small
  obtain ⟨hone, hle⟩ := hn
  obtain ⟨k, rfl⟩ : ∃ k : U64, n = k.val := ⟨⟨n.toNat, by omega⟩, by dsimp only; omega⟩
  obtain ⟨r, hr, hnumber⟩ := h.filed k (by omega) (by omega)
  exact ⟨r, fetchResult_eq_some_iff.mpr ⟨k, rfl, by omega, hr⟩, by rw [hnumber]⟩

theorem auctionState_of_outside {tx : Tx} (h : tx.Outside) (s : ProgramState) :
    (applyTx s tx).auctionState = s.auctionState := by
  cases applyTx_accounts s tx with
  | quiet _ hstate _ => exact hstate
  | reserved _ _ _ _ hstate _ => exact hstate
  | executed batchId _ hix _ _ => exact absurd hix (h batchId)

theorem Sole.outside (h : Sole s) {tx : Tx} (htx : tx.Outside) : Sole (applyTx s tx) := by
  have hstate := auctionState_of_outside htx s
  constructor
  · rw [hstate]
    exact h.small
  · exact h.filed.step fun k hix _ => absurd hix (htx k)
  · intro k r hk
    rw [hstate]
    cases applyTx_accounts s tx with
    | quiet _ _ hresults =>
      rw [hresults] at hk
      exact h.only k r hk
    | reserved batchId _ _ _ _ hresults =>
      rw [hresults] at hk
      rcases update_results_cases hk with ⟨-, rfl⟩ | hold
      · exact Or.inl rfl
      · exact h.only k r hold
    | executed batchId _ hix _ _ => exact absurd hix (htx batchId)

/-- With the results so, a batch is run for the next number only, and filed under it. -/
theorem Sole.executes (h : Sole s) {clock : Clock} {batchId : U64} {r : AuctionResult}
    (hle : 1 ≤ batchId.val ∧ batchId.val ≤ s.auctionState.batchCounter.val + 1)
    (hsmall : batchId.val < 2 ^ 53) (hr : Executes clock batchId s s' r) :
    batchId.val = s.auctionState.batchCounter.val + 1 ∧ Sole s' := by
  have hnext : batchId.val = s.auctionState.batchCounter.val + 1 := by
    by_contra hne
    obtain ⟨r', hr', -⟩ := h.filed batchId hle.1 (by omega)
    rw [hr.free] at hr'
    cases hr'
  have hnumber : r.batchId = batchId := Fin.ext (hr.number.trans hnext.symm)
  have hcounter : s'.auctionState.batchCounter.val = s.auctionState.batchCounter.val + 1 := by
    rw [hr.auctionState]
    exact hr.number
  refine ⟨hnext, by omega, fun i hone hi => ?_, fun k r' hk => ?_⟩
  · rw [hr.results]
    by_cases hi' : i = batchId
    · exact ⟨r, by rw [hi', Function.update_self], by rw [hi', hnumber]⟩
    · have hne : i.val ≠ batchId.val := fun he => hi' (Fin.ext he)
      obtain ⟨r', hr', hnum⟩ := h.filed i hone (by omega)
      exact ⟨r', by rw [Function.update_of_ne hi', hr'], hnum⟩
  · rw [hr.results] at hk
    rw [hcounter]
    rcases update_results_cases hk with ⟨rfl, rfl⟩ | hold
    · exact Or.inr ⟨hnumber, hnext.le⟩
    · rcases h.only k r' hold with hblank | ⟨hown, hrun⟩
      · exact Or.inl hblank
      · exact Or.inr ⟨hown, hrun.trans (Nat.le_succ _)⟩

end Program

section Crank

def CrankCall.Knows (s : ProgramState) : CrankCall → Prop
  | .called | .failed => True
  | .fetched n => 1 ≤ n ∧ n ≤ s.auctionState.batchCounter.val + 1
  | .executed n | .unlogged n => Issued s n
  | .logged n entry => Issued s n ∧ ∃ r, fetchResult s n = some r ∧ r.log = some entry

theorem CrankCall.Knows.grown {s s' : ProgramState} {call : CrankCall} (h : call.Knows s)
    (hgrown : Grown s s') : call.Knows s' := by
  have hcounter := hgrown.counter
  cases call with
  | called => trivial
  | failed => trivial
  | fetched n =>
    obtain ⟨hone, hle⟩ := h
    exact ⟨hone, by omega⟩
  | executed n => exact hgrown.issued h
  | unlogged n => exact hgrown.issued h
  | logged n entry =>
    obtain ⟨hissued, r, hr, hlog⟩ := h
    exact ⟨hgrown.issued hissued, r, hgrown.fetchResult hr, hlog⟩

/-- What a step of a call does: it leaves the program alone, or it runs the batch that the
call had fetched. -/
inductive CrankCall.Stepped (s : ProgramState) (turn : Turn) (call : CrankCall) :
    ProgramState × CrankCall → Prop
  | quiet (call' : CrankCall) (knows : call'.Knows s) (batch : call'.batch = call.batch) :
    Stepped s turn call (s, call')
  | ran (n : ℤ) (batchId : U64) (s' : ProgramState) (r : AuctionResult) (call' : CrankCall)
    (hcall : call = .fetched n) (hid : newBN n = some batchId) (hsent : turn.network ≠ .rejects)
    (hr : Executes turn.clock batchId s s' r) (hcall' : call' = .executed n ∨ call' = .unlogged n) :
    Stepped s turn call (s', call')

theorem CrankCall.stepped (crankKey : Pubkey) {s : ProgramState} (turn : Turn) {call : CrankCall}
    (h : call.Knows s) : Stepped s turn call (call.step crankKey s turn) := by
  cases call with
  | called =>
    simp only [step]
    split
    · exact .quiet _ trivial rfl
    · rename_i n hcounter
      obtain ⟨rfl, -⟩ := toNumber_eq_some_iff.mp (Turn.fetch_eq_some_iff.mp hcounter).2
      exact .quiet _ ⟨by omega, le_rfl⟩ rfl
  | fetched n =>
    simp only [step]
    split
    · exact .quiet _ trivial rfl
    · rename_i batchId hid
      by_cases hsent : turn.network = .rejects
      · rw [if_pos hsent]
        exact .quiet _ trivial rfl
      · rw [if_neg hsent]
        split
        · exact .quiet _ trivial rfl
        · rename_i s' events hprocess
          obtain ⟨r, hr, -⟩ := executeBatchHandler_executes hprocess
          refine .ran n batchId s' r _ rfl hid hsent hr ?_
          split_ifs
          · exact Or.inr rfl
          · exact Or.inl rfl
  | executed n =>
    simp only [step]
    split
    · exact .quiet _ h rfl
    · rename_i entry hlog
      obtain ⟨r, hr, hlog⟩ := Option.bind_eq_some_iff.mp (Turn.fetch_eq_some_iff.mp hlog).2
      exact .quiet _ ⟨h, r, hr, hlog⟩ rfl
  | logged n entry => exact .quiet _ h rfl
  | unlogged n => exact .quiet _ h rfl
  | failed => exact .quiet _ h rfl

end Crank

section Backend

open Processes

variable {κ : Type}

def Client.Knows (s : ProgramState) : Client → Prop
  | .crank call => call.Knows s
  | .orders _ | .results _ => True

theorem Sole.ran {s s' : ProgramState} (hs : Sole s) {clock : Clock} {n : ℤ} {batchId : U64}
    {r : AuctionResult} (hknows : (CrankCall.fetched n).Knows s) (hid : newBN n = some batchId)
    (hr : Executes clock batchId s s' r) :
    n = s.auctionState.batchCounter.val + 1 ∧
      s'.auctionState.batchCounter.val = s.auctionState.batchCounter.val + 1 ∧
      Issued s' n ∧ Sole s' ∧ Grown s s' := by
  obtain ⟨rfl, hsmall⟩ := newBN_eq_some_iff.mp hid
  obtain ⟨hone, hle⟩ := hknows
  obtain ⟨hnext, hsole⟩ := hs.executes (by omega) (by omega) hr
  have hcounter : s'.auctionState.batchCounter.val = s.auctionState.batchCounter.val + 1 := by
    rw [hr.auctionState]
    exact hr.number
  refine ⟨by omega, hcounter, ⟨hone, by omega⟩, hsole, by omega, fun k r' hk => ?_⟩
  rw [hr.results]
  exact update_results_of_some hr.free hk

theorem client_rules (crankKey : Pubkey) :
    Rules applyTx (Client.step crankKey) Sole Grown (fun (_ : κ) s client => client.Knows s)
      Tx.Outside := by
  constructor
  · exact fun s tx htx hs => ⟨hs.outside htx, grown_applyTx s tx⟩
  · intro _ s client turn hs h
    cases client with
    | orders request => exact ⟨hs, Grown.refl s, trivial⟩
    | results request => exact ⟨hs, Grown.refl s, trivial⟩
    | crank call =>
      have hstepped := CrankCall.stepped crankKey turn h
      simp only [Client.step]
      generalize call.step crankKey s turn = out at hstepped ⊢
      cases hstepped with
      | quiet call' hknows _ => exact ⟨hs, Grown.refl s, hknows⟩
      | ran n batchId s' r call' hcall hid _ hr hcall' =>
        subst hcall
        obtain ⟨-, -, hissued, hsole, hgrown⟩ := hs.ran h hid hr
        rcases hcall' with rfl | rfl
        · exact ⟨hsole, hgrown, hissued⟩
        · exact ⟨hsole, hgrown, hissued⟩
  · intro _ s s' client _ hgrown h
    cases client with
    | crank call => exact CrankCall.Knows.grown h hgrown
    | orders request => trivial
    | results request => trivial

theorem client_draws (crankKey : Pubkey) {s : ProgramState} {client : Client} (turn : Turn)
    (hs : Sole s) (h : client.Knows s) :
    Draws Issued Client.batch s (client.step crankKey s turn).1 client
      (client.step crankKey s turn).2 := by
  cases client with
  | orders request => exact Or.inl ⟨rfl, fun n => Iff.rfl⟩
  | results request => exact Or.inl ⟨rfl, fun n => Iff.rfl⟩
  | crank call =>
    have hstepped := CrankCall.stepped crankKey turn h
    simp only [Client.step]
    generalize call.step crankKey s turn = out at hstepped ⊢
    cases hstepped with
    | quiet call' _ hbatch => exact Or.inl ⟨hbatch, fun n => Iff.rfl⟩
    | ran n batchId s' r call' hcall hid _ hr hcall' =>
      subst hcall
      obtain ⟨hn, hcounter, -, -, -⟩ := hs.ran h hid hr
      have hbatch : (Client.crank call').batch = some n := by
        rcases hcall' with rfl | rfl <;> rfl
      refine Or.inr ⟨n, ?_, rfl, hbatch, fun m => ?_⟩
      · unfold Issued
        omega
      · unfold Issued
        rw [hcounter]
        omega

theorem Launched.sole {sys : System ProgramState κ Client} (h : Launched sys) : Sole sys.shared := by
  obtain ⟨authority, batchInterval, results, hblank, hs⟩ := h.started
  have hcounter : sys.shared.auctionState.batchCounter.val = 0 := by rw [hs]; rfl
  constructor
  · omega
  · intro i hone hi
    omega
  · intro k r hr
    rw [hs] at hr
    exact Or.inl (by rw [hblank k r hr])

theorem Client.Fresh.knows {client : Client} (h : client.Fresh) (s : ProgramState) :
    client.Knows s := by
  cases client with
  | crank call => rw [show call = .called from h]; trivial
  | orders request => trivial
  | results request => trivial

theorem Client.Fresh.batch {client : Client} (h : client.Fresh) : client.batch = none := by
  cases client with
  | crank call => rw [show call = .called from h]; rfl
  | orders request => rfl
  | results request => rfl

theorem Launched.invariant {sys : System ProgramState κ Client} (h : Launched sys) :
    Invariant Sole (fun (_ : κ) s client => client.Knows s) sys :=
  ⟨h.sole, fun c => (h.fresh c).knows _⟩

theorem Launched.oneHolder {sys : System ProgramState κ Client} (h : Launched sys) :
    OneHolder Issued Client.batch sys := by
  obtain ⟨authority, batchInterval, results, -, hs⟩ := h.started
  have hcounter : sys.shared.auctionState.batchCounter.val = 0 := by rw [hs]; rfl
  refine ⟨fun n hn => ?_, fun c n hn => ?_, fun c c' n hn _ => ?_⟩
  · obtain ⟨hone, hle⟩ := hn
    omega
  · rw [(h.fresh c).batch] at hn
    cases hn
  · rw [(h.fresh c).batch] at hn
    cases hn

structure CrankSafe (crankKey : Pubkey) (sys : System ProgramState κ Client) : Prop where
  filed : ∀ k r, sys.shared.results k = some r →
    r.batchId = 0 ∨ r.batchId = k ∧ fetchResult sys.shared k.val = some r
  one : ∀ n : ℤ, 1 ≤ n → n ≤ sys.shared.auctionState.batchCounter.val →
    ∃! c, (sys.locals c).batch = some n
  reads : ∀ c n, (sys.locals c).batch = some n →
    ∃ r, fetchResult sys.shared n = some r ∧ (r.batchId.val : ℤ) = n ∧
      ∀ entry, sys.locals c = .crank (.logged n entry) → r.log = some entry
  runs : ∀ c n turn, sys.locals c = .crank (.fetched n) →
    (((sys.locals c).step crankKey sys.shared turn).2.batch = some n ↔
      turn.network ≠ .rejects ∧ n = sys.shared.auctionState.batchCounter.val + 1 ∧ n < 2 ^ 53 ∧
        fetchResult sys.shared n = none ∧
        sys.shared.auctionState.lastBatchSlot.val + sys.shared.auctionState.batchInterval.val ≤
          turn.clock.slot.val ∧ ∀ t, ¬ Jams t (sys.shared.queue t).orders)

/-- A call runs the batch it fetched when that is still the next one and nobody has taken
its account, the batch is due and both queues can be cleared. -/
theorem fetched_runs_iff (crankKey : Pubkey) {s : ProgramState} (hs : Sole s) {n : ℤ}
    (h : (CrankCall.fetched n).Knows s) (turn : Turn) :
    ((Client.crank (.fetched n)).step crankKey s turn).2.batch = some n ↔
      turn.network ≠ .rejects ∧ n = s.auctionState.batchCounter.val + 1 ∧ n < 2 ^ 53 ∧
        fetchResult s n = none ∧
        s.auctionState.lastBatchSlot.val + s.auctionState.batchInterval.val ≤ turn.clock.slot.val ∧
        ∀ t, ¬ Jams t (s.queue t).orders := by
  have hstepped := CrankCall.stepped crankKey turn h
  constructor
  · intro hbatch
    simp only [Client.step, Client.batch] at hbatch
    generalize (CrankCall.fetched n).step crankKey s turn = out at hstepped hbatch
    cases hstepped with
    | quiet call' _ hsame =>
      rw [hsame] at hbatch
      cases hbatch
    | ran m batchId s' r call' hcall hid hsent hr _ =>
      obtain rfl := CrankCall.fetched.inj hcall
      have hnone : fetchResult s n = none := by simp [fetchResult, hid, hr.free]
      exact ⟨hsent, (hs.ran h hid hr).1, (newBN_eq_some_iff.mp hid).2, hnone, hr.due,
        fun t => (executeAuction_eq_some_iff.mp (hr.clears t)).1⟩
  · rintro ⟨hsent, hn, hlt, hnone, hdue, hclear⟩
    obtain ⟨k, hk⟩ : ∃ k : U64, k.val = s.auctionState.batchCounter.val + 1 :=
      ⟨⟨s.auctionState.batchCounter.val + 1, by omega⟩, rfl⟩
    have hid : newBN n = some k := newBN_eq_some_iff.mpr ⟨by omega, hlt⟩
    have hfree : s.results k = none := by simpa [fetchResult, hid] using hnone
    have hready : BatchReady turn.clock k s := ⟨hfree, hdue, hclear, by omega⟩
    obtain ⟨⟨s', events⟩, hok⟩ := executeBatchHandler_ok_iff.mpr hready
    have hprocess : process s ⟨crankKey, turn.clock, .executeBatch k⟩ = .ok (s', events) := hok
    simp only [Client.step, CrankCall.step, hid, hsent, if_false, hprocess, Client.batch]
    split_ifs
    · rfl
    · rfl

/-- A step of a client leaves the program alone, or it is a transaction of the crank. -/
theorem client_shared (crankKey : Pubkey) (s : ProgramState) (client : Client) (turn : Turn) :
    (client.step crankKey s turn).1 = s ∨ ∃ tx, (client.step crankKey s turn).1 = applyTx s tx := by
  cases client with
  | orders request => exact Or.inl rfl
  | results request => exact Or.inl rfl
  | crank call =>
    cases call with
    | fetched n =>
      simp only [Client.step, CrankCall.step]
      split
      · exact Or.inl rfl
      · rename_i batchId _
        split
        · exact Or.inl rfl
        · split
          · exact Or.inl rfl
          · rename_i hok
            apply Or.inr
            exact ⟨⟨crankKey, turn.clock, .executeBatch batchId⟩, (applyTx_of_ok hok).symm⟩
    | called =>
      simp only [Client.step, CrankCall.step]
      split <;> exact Or.inl rfl
    | executed n =>
      simp only [Client.step, CrankCall.step]
      split <;> exact Or.inl rfl
    | _ => exact Or.inl rfl

variable [DecidableEq κ]

theorem grown_move (crankKey : Pubkey) (sys : System ProgramState κ Client) (move : Move κ Tx Turn) :
    Grown sys.shared (Processes.apply applyTx (Client.step crankKey) sys move).shared := by
  cases move with
  | world tx => exact grown_applyTx sys.shared tx
  | step c turn =>
    simp only [Processes.apply]
    rcases client_shared crankKey sys.shared (sys.locals c) turn with hsame | ⟨tx, htx⟩
    · rw [hsame]
      exact Grown.refl _
    · rw [htx]
      exact grown_applyTx _ tx

theorem grown_runClients {crankKey : Pubkey} {sys : System ProgramState κ Client}
    {pre moves : List (Move κ Tx Turn)} (h : pre <+: moves) :
    Grown (runClients crankKey sys pre).shared (runClients crankKey sys moves).shared := by
  apply Runs.persists (P := fun sys' : System ProgramState κ Client =>
    Grown (runClients crankKey sys pre).shared sys'.shared) _ h (Grown.refl _)
  exact fun sys' move hgrown => hgrown.trans (grown_move crankKey sys' move)

theorem sole_runClients {crankKey : Pubkey} {sys : System ProgramState κ Client} (h : Launched sys)
    {moves : List (Move κ Tx Turn)} (hmoves : Allowed Tx.Outside moves) :
    Sole (runClients crankKey sys moves).shared :=
  ((@client_rules κ crankKey).invariant h.invariant hmoves).shared

/-- While only the crank runs batches, then whatever its calls, the network and everybody
else do, each batch is executed by exactly one call, which reads its own result, and a call
that comes too late with its number does nothing. -/
theorem crank_safe {crankKey : Pubkey} {sys : System ProgramState κ Client} (h : Launched sys)
    {moves : List (Move κ Tx Turn)} (hmoves : Allowed Tx.Outside moves) :
    CrankSafe crankKey (runClients crankKey sys moves) := by
  have hrules := @client_rules κ crankKey
  obtain ⟨hsole, hknows⟩ := hrules.invariant h.invariant hmoves
  obtain ⟨hheld, hissued, hone⟩ := hrules.oneHolder
    (fun s tx htx _ n => by rw [Issued, Issued, auctionState_of_outside htx s])
    (fun c s client turn hs hk => client_draws crankKey turn hs hk) h.invariant h.oneHolder hmoves
  refine ⟨fun k r hr => ?_, fun n hn hle => ?_, fun c n hbatch => ?_, fun c n turn hc => ?_⟩
  · rcases hsole.only k r hr with hblank | ⟨hown, hrun⟩
    · exact Or.inl hblank
    · have hsmall := hsole.small
      exact Or.inr ⟨hown, fetchResult_eq_some_iff.mpr ⟨k, rfl, by omega, hr⟩⟩
  · obtain ⟨c, hc⟩ := hheld n ⟨hn, hle⟩
    exact ⟨c, hc, fun c' hc' => hone c' c n hc' hc⟩
  · obtain ⟨r, hr, hid⟩ := hsole.exists_fetchResult (hissued c n hbatch)
    refine ⟨r, hr, hid, fun entry hlogged => ?_⟩
    have hlog := hknows c
    rw [hlogged] at hlog
    obtain ⟨-, r', hr', hlog⟩ := hlog
    obtain rfl := Option.some.inj (hr.symm.trans hr')
    exact hlog
  · have hfetched := hknows c
    rw [hc] at hfetched ⊢
    exact fetched_runs_iff crankKey hsole hfetched turn

def sampleTurn (slot : U64) (network : Network) : Turn := ⟨⟨slot, 1000⟩, network⟩

/-- Two calls fetch the same number. The transaction of one is lost on the way back, and the
other one comes too late. -/
def sampleBackend : System ProgramState Bool Client := ⟨sampleStart, fun _ => .crank .called⟩

def sampleMoves : List (Move Bool Tx Turn) :=
  [.step true (sampleTurn 0 .answers), .step false (sampleTurn 0 .answers),
    .world (sampleTx 0 (.placeMultipleOrders [⟨.maker, .buy, 105, 300⟩, ⟨.taker, .sell, 100, 200⟩])),
    .world (sampleTx 1 (.initializeResult 9)),
    .step true (sampleTurn 2 .loses), .step false (sampleTurn 5 .answers)]

theorem launched_sampleBackend : Launched sampleBackend := ⟨started_sampleStart, fun _ => rfl⟩

theorem allowed_sampleMoves : Allowed Tx.Outside sampleMoves := by
  intro tx htx k
  simp only [sampleMoves, List.mem_cons, Move.world.injEq, reduceCtorEq, List.not_mem_nil,
    or_false, false_or] at htx
  rcases htx with rfl | rfl
  · simp [sampleTx]
  · simp [sampleTx]

theorem crank_safe_sampleMoves :
    CrankSafe 9 (runClients 9 sampleBackend sampleMoves) ∧
      (runClients 9 sampleBackend sampleMoves).locals true = .crank (.unlogged 1) ∧
      (runClients 9 sampleBackend sampleMoves).locals false = .crank .failed :=
  ⟨crank_safe launched_sampleBackend allowed_sampleMoves, by decide, by decide⟩

end Backend

end ToyDfba
