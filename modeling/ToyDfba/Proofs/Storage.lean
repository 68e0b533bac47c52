import ToyDfba.Proofs.Wire

/-! The program on bytes does what it does on values. The accounts hold the encoded
values with whatever older bytes stand behind them; every context reads the values back,
and what a handler returns always fits where it is written. -/

namespace ToyDfba

open Codec

section Accounts

variable {α : Type} {c : Codec α} {store : Store} {a : Address} {space : ℕ} {x : α}

def Sized (space : ℕ) (store : Store) (a : Address) : Prop :=
  ∃ data, store a.key = some data ∧ data.length = space

def Holds (c : Codec α) (space : ℕ) (store : Store) (a : Address) (x : α) : Prop :=
  ∃ tail, store a.key = some (c.encode x ++ tail) ∧ (c.encode x ++ tail).length = space

theorem Holds.sized (h : Holds c space store a x) : Sized space store a := by
  obtain ⟨tail, hdata, hlength⟩ := h
  exact ⟨_, hdata, hlength⟩

/-- A step that touches no account but those in `touched`. -/
def Keeps (touched : List Address) (store store' : Store) : Prop :=
  ∀ b, b ∉ touched → store' b.key = store b.key

theorem Keeps.trans {as bs : List Address} {store' store'' : Store} (h : Keeps as store store')
    (h' : Keeps bs store' store'') : Keeps (as ++ bs) store store'' := by
  intro b hb
  rw [List.mem_append, not_or] at hb
  rw [h' b hb.2, h b hb.1]

theorem Keeps.holds {touched : List Address} {store' : Store} (h : Keeps touched store store')
    (ha : a ∉ touched) (hx : Holds c space store a x) : Holds c space store' a x := by
  unfold Holds
  rw [h a ha]
  exact hx

theorem Keeps.sized {touched : List Address} {store' : Store} (h : Keeps touched store store')
    (ha : a ∉ touched) (hx : Sized space store a) : Sized space store' a := by
  unfold Sized
  rw [h a ha]
  exact hx

theorem update_key_of_ne {b : Address} (h : b ≠ a) (data : Option (List UInt8)) :
    Function.update store a.key data b.key = store b.key :=
  Function.update_of_ne (fun he => h (Address.key_inj he)) _ _

theorem fetch_of_holds (hx : c.Valid x) (h : Holds c space store a x) :
    store.fetch c a = .ok x := by
  obtain ⟨tail, hdata, -⟩ := h
  simp [Store.fetch, hdata, c.decode_encode hx]

theorem create_of_none (space : ℕ) (h : store a.key = none) :
    ∃ store', store.create space a = .ok store' ∧ Sized space store' a ∧ Keeps [a] store store' := by
  refine ⟨_, by rw [Store.create, h], ?_, ?_⟩
  · exact ⟨_, Function.update_self _ _ _, List.length_replicate⟩
  · intro b hb
    exact update_key_of_ne (List.ne_of_not_mem_cons hb) _

theorem create_of_some (space : ℕ) {data : List UInt8} (h : store a.key = some data) :
    store.create space a = .error (.handler .accountInUse) := by
  rw [Store.create, h]

theorem write_of_sized (h : Sized space store a) (hfits : (c.encode x).length ≤ space) :
    ∃ store', store.write c x a = .ok store' ∧ Holds c space store' a x ∧
      Keeps [a] store store' := by
  obtain ⟨data, hdata, rfl⟩ := h
  refine ⟨_, by rw [Store.write, hdata]; exact if_pos hfits, ?_, ?_⟩
  · refine ⟨data.drop (c.encode x).length, Function.update_self _ _ _, ?_⟩
    rw [List.length_append, List.length_drop]
    omega
  · intro b hb
    exact update_key_of_ne (List.ne_of_not_mem_cons hb) _

end Accounts

section Sizes

theorem codecPubkey_encode_length (k : Pubkey) : (codecPubkey.encode k).length = 32 :=
  bits_encode_length k

theorem codecU64_encode_length (x : U64) : (codecU64.encode x).length = 8 := fin_encode_length x

theorem codecI64_encode_length (x : I64) : (codecI64.encode x).length = 8 :=
  bits_encode_length x

theorem AuctionState.account_length (a : AuctionState) :
    (AuctionState.account.encode a).length = stateSpace := by
  have hbool : (codecBool.encode a.isPaused).length = 1 := rfl
  simp [account, tagged, codec, iso, via, seq, fields, codecPubkey_encode_length,
    codecU64_encode_length, hbool, stateSpace]

theorem AuctionResult.account_length (r : AuctionResult) :
    (AuctionResult.account.encode r).length = resultSpace := by
  simp [account, tagged, codec, iso, via, seq, fields, codecU64_encode_length,
    codecI64_encode_length, resultSpace]

theorem OrderQueue.account_length_le {q : OrderQueue} (h : q.orders.length ≤ 85) :
    (OrderQueue.account.encode q).length ≤ queueSpace := by
  rw [OrderQueue.account_encode, OrderQueue.accountData_length, queueSpace]
  omega

theorem OrderQueue.account_valid {q : OrderQueue} (h : q.orders.length ≤ 85) :
    OrderQueue.account.Valid q :=
  OrderQueue.account_valid_iff.mpr (by omega)

theorem QueueOk.length_le {t : AuctionType} {q : OrderQueue} (h : QueueOk t q) :
    q.orders.length ≤ 85 := by
  have hfits := h.fits
  rwa [h.capacity] at hfits

end Sizes

/-- The accounts of a store hold a state of the program. -/
structure Represents (store : Store) (s : ProgramState) : Prop where
  auctionState : Holds AuctionState.account stateSpace store .auctionState s.auctionState
  bidQueue : Holds OrderQueue.account queueSpace store .bidQueue s.bidQueue
  askQueue : Holds OrderQueue.account queueSpace store .askQueue s.askQueue
  results : ∀ k, store (Address.result k).key = (s.results k).map AuctionResult.account.encode

/-- What a transaction does on bytes is what it does on values. -/
def Simulates : Except RawError (Store × List Event) → Except TxError Outcome → Prop
  | raw, .ok (s', events) => ∃ store', raw = .ok (store', events) ∧ Represents store' s'
  | raw, .error e => raw = .error (.handler e)

def QueuesFit (s : ProgramState) : Prop := ∀ t, (s.queue t).orders.length ≤ 85

section Contexts

variable {store : Store} {s : ProgramState}

def withResults (results : U64 → Option AuctionResult) (s : ProgramState) : ProgramState :=
  { s with results := results }

theorem fetchTrading_eq (h : Represents store s) (hfits : QueuesFit s) :
    store.fetchTrading = .ok (withResults (fun _ => none) s) := by
  have hstate := fetch_of_holds s.auctionState.account_valid h.auctionState
  have hbid : store.fetch OrderQueue.account .bidQueue = .ok s.bidQueue :=
    fetch_of_holds (OrderQueue.account_valid (hfits .bid)) h.bidQueue
  have hask : store.fetch OrderQueue.account .askQueue = .ok s.askQueue :=
    fetch_of_holds (OrderQueue.account_valid (hfits .ask)) h.askQueue
  rw [Store.fetchTrading, hstate, hbid, hask]
  rfl

theorem writeTrading_withResults (results : U64 → Option AuctionResult) :
    store.writeTrading (withResults results s) = store.writeTrading s := rfl

structure WritesQueues (store store' : Store) (s : ProgramState) : Prop where
  bidQueue : Holds OrderQueue.account queueSpace store' .bidQueue s.bidQueue
  askQueue : Holds OrderQueue.account queueSpace store' .askQueue s.askQueue
  keeps : Keeps [.bidQueue, .askQueue] store store'

theorem writeQueues_ok (hbid : Sized queueSpace store .bidQueue)
    (hask : Sized queueSpace store .askQueue) (hfits : QueuesFit s) :
    ∃ store', store.writeQueues s = .ok store' ∧ WritesQueues store store' s := by
  obtain ⟨store₁, h₁, hbid, hkeeps₁⟩ :=
    write_of_sized (x := s.bidQueue) hbid (OrderQueue.account_length_le (hfits .bid))
  obtain ⟨store₂, h₂, hask, hkeeps₂⟩ := write_of_sized (x := s.askQueue)
    (hkeeps₁.sized (by decide) hask) (OrderQueue.account_length_le (hfits .ask))
  refine ⟨store₂, ?_, hkeeps₂.holds (by decide) hbid, hask, hkeeps₁.trans hkeeps₂⟩
  rw [Store.writeQueues, h₁]
  exact h₂

structure WritesTrading (store store' : Store) (s : ProgramState) : Prop where
  auctionState : Holds AuctionState.account stateSpace store' .auctionState s.auctionState
  bidQueue : Holds OrderQueue.account queueSpace store' .bidQueue s.bidQueue
  askQueue : Holds OrderQueue.account queueSpace store' .askQueue s.askQueue
  keeps : ∀ k, store' (Address.result k).key = store (Address.result k).key

theorem writeTrading_ok (hstate : Sized stateSpace store .auctionState)
    (hbid : Sized queueSpace store .bidQueue) (hask : Sized queueSpace store .askQueue)
    (hfits : QueuesFit s) : ∃ store', store.writeTrading s = .ok store' ∧ WritesTrading store store' s := by
  obtain ⟨store₁, h₁, hstate, hkeeps₁⟩ :=
    write_of_sized (x := s.auctionState) hstate (AuctionState.account_length _).le
  obtain ⟨store₂, h₂, hqueues⟩ := writeQueues_ok (hkeeps₁.sized (by decide) hbid)
    (hkeeps₁.sized (by decide) hask) hfits
  refine ⟨store₂, ?_, hqueues.keeps.holds (by decide) hstate, hqueues.bidQueue, hqueues.askQueue,
    fun k => (hkeeps₁.trans hqueues.keeps) _ (by simp)⟩
  rw [Store.writeTrading, h₁]
  exact h₂

theorem Represents.writeTrading (h : Represents store s) {s' : ProgramState} (hfits : QueuesFit s')
    (hresults : s'.results = s.results) :
    ∃ store', store.writeTrading s' = .ok store' ∧ Represents store' s' := by
  obtain ⟨store', hok, hw⟩ := writeTrading_ok h.auctionState.sized h.bidQueue.sized h.askQueue.sized
    hfits
  refine ⟨store', hok, hw.auctionState, hw.bidQueue, hw.askQueue, fun k => ?_⟩
  rw [hw.keeps k, h.results k, hresults]

end Contexts

section Frames

def IgnoresResults (handler : ProgramState → Except TxError Outcome) : Prop :=
  ∀ results s, handler (withResults results s) =
    (handler s).map fun out => (withResults results out.1, out.2)

theorem withResults_results (results : U64 → Option AuctionResult) (s : ProgramState) :
    (withResults results s).results = results := rfl

theorem withResults_auctionState (results : U64 → Option AuctionResult) (s : ProgramState) :
    (withResults results s).auctionState = s.auctionState := rfl

theorem withResults_setOrders (results : U64 → Option AuctionResult) (s : ProgramState)
    (t : AuctionType) (orders : List Order) :
    (withResults results s).setOrders t orders = withResults results (s.setOrders t orders) := by
  cases t <;> rfl

theorem withResults_queue (results : U64 → Option AuctionResult) (s : ProgramState)
    (t : AuctionType) : (withResults results s).queue t = s.queue t := by
  cases t <;> rfl

theorem placeOne_withResults (signer : Pubkey) (clock : Clock) (params : PlaceOrderParams)
    (results : U64 → Option AuctionResult) (s : ProgramState) :
    placeOne signer clock params (withResults results s) =
      (placeOne signer clock params s).map
        (Option.map fun out => (withResults results out.1, out.2)) := by
  simp only [placeOne, withResults_queue, withResults_setOrders]
  cases require (params.price > 0 ∧ params.quantity > 0) .invalidOrderParameters with
  | error e => rfl
  | ok =>
    simp only [bind, Except.bind]
    split_ifs
    · rfl
    · cases orPanic (Checked.add (asU64 clock.unixTimestamp) (Fin.ofNat (2 ^ 64)
        (s.queue (orderQueue params.orderType params.side)).orders.length)) <;> rfl

theorem placeLoop_withResults (signer : Pubkey) (clock : Clock)
    (results : U64 → Option AuctionResult) (orders : List PlaceOrderParams) (s : ProgramState)
    (events : List Event) :
    placeLoop signer clock orders (withResults results s, events) =
      (placeLoop signer clock orders (s, events)).map
        fun out => (withResults results out.1, out.2) := by
  induction orders generalizing s events with
  | nil => rfl
  | cons params orders ih =>
    simp only [placeLoop, placeOne_withResults]
    cases placeOne signer clock params s with
    | error e => rfl
    | ok placed =>
      cases placed with
      | none => rfl
      | some out => exact ih out.1 (events ++ [out.2])

variable (signer : Pubkey) (clock : Clock)

theorem require_bind {c : Prop} [Decidable c] (e : ErrorCode) (x : Except TxError Outcome) :
    (require c e >>= fun _ => x) = if c then x else .error (.program e) := by
  unfold require
  split_ifs <;> rfl

theorem ignoresResults_of_require {body : ProgramState → Except TxError Outcome}
    (h : IgnoresResults body) (e : ErrorCode) :
    IgnoresResults fun s => require (!s.auctionState.isPaused) e >>= fun _ => body s := by
  intro results s
  simp only [require_bind]
  rw [withResults_auctionState]
  split_ifs
  · exact h results s
  · rfl

theorem placeOrderHandler_ignoresResults (params : PlaceOrderParams) :
    IgnoresResults (placeOrderHandler signer clock params) := by
  refine ignoresResults_of_require (fun results s => ?_) _
  simp only [placeOne_withResults]
  cases placeOne signer clock params s with
  | error e => rfl
  | ok placed => cases placed <;> rfl

theorem placeMultipleOrdersHandler_ignoresResults (orders : List PlaceOrderParams) :
    IgnoresResults (placeMultipleOrdersHandler signer clock orders) := by
  refine ignoresResults_of_require (fun results s => ?_) _
  exact placeLoop_withResults signer clock results orders s []

theorem cancelAllAndPostNewOrdersHandler_ignoresResults (orders : List PlaceOrderParams) :
    IgnoresResults (cancelAllAndPostNewOrdersHandler signer clock orders) := by
  refine ignoresResults_of_require (fun results s => ?_) _
  exact placeLoop_withResults signer clock results orders (retainOthers signer s) []

/-- A batch whose account is free meets nothing of the other results. -/
theorem executeBatchHandler_withResults {batchId : U64} {s : ProgramState}
    (hfree : s.results batchId = none) :
    executeBatchHandler clock batchId (withResults (fun _ => none) s) =
      (executeBatchHandler clock batchId s).map fun out =>
        (withResults (Function.update (fun _ => none) batchId (out.1.results batchId)) out.1,
          out.2) := by
  simp only [executeBatchHandler, initResult, withResults, hfree]
  simp only [bind, Except.bind]
  cases orPanic (Checked.add s.auctionState.lastBatchSlot s.auctionState.batchInterval) with
  | error e => rfl
  | ok due =>
    dsimp only
    cases require (clock.slot ≥ due) .tooEarlyToExecute with
    | error e => rfl
    | ok =>
      dsimp only
      cases orPanic (executeAuction s.bidQueue.orders .bid) with
      | error e => rfl
      | ok bid =>
        dsimp only
        cases orPanic (executeAuction s.askQueue.orders .ask) with
        | error e => rfl
        | ok ask =>
          dsimp only
          cases orPanic (Checked.add s.auctionState.batchCounter 1) with
          | error e => rfl
          | ok batchCounter => simp [Except.map, Function.update_idem]

end Frames

section Simulation

variable {store : Store} {s : ProgramState} (signer : Pubkey) (clock : Clock)

theorem queuesFit_of_process {tx : Tx} {s' : ProgramState} {events : List Event}
    (hqueues : ∀ t, QueueOk t (s.queue t)) (h : process s tx = .ok (s', events)) :
    QueuesFit s' := by
  intro t
  obtain ⟨new, hstep⟩ := process_queue h t
  exact ((hqueues t).step hstep).length_le

/-- A placement: read the three accounts, run the handler, write them back. -/
theorem simulates_trading {handler : ProgramState → Except TxError Outcome}
    (hrep : Represents store s) (hfits : QueuesFit s) (hignores : IgnoresResults handler)
    (hok : ∀ s' events, handler s = .ok (s', events) →
      s'.results = s.results ∧ QueuesFit s') :
    Simulates (do
      let s ← store.fetchTrading
      let (s, events) ← runHandler (handler s)
      .ok (← store.writeTrading s, events)) (handler s) := by
  rw [fetchTrading_eq hrep hfits]
  simp only [bind, Except.bind]
  rw [hignores]
  cases hrun : handler s with
  | error e => rfl
  | ok out =>
    obtain ⟨s', events⟩ := out
    obtain ⟨hresults, hfits'⟩ := hok s' events hrun
    obtain ⟨store', hwrite, hrep'⟩ := hrep.writeTrading hfits' hresults
    refine ⟨store', ?_, hrep'⟩
    simp only [Except.map, runHandler, writeTrading_withResults, hwrite]

theorem simulates_cancel (hrep : Represents store s) (hfits : QueuesFit s) :
    Simulates (rawProcess signer clock store .cancelAllOrders) (cancelOrdersHandler signer s) := by
  have hbid : store.fetch OrderQueue.account .bidQueue = .ok s.bidQueue :=
    fetch_of_holds (OrderQueue.account_valid (hfits .bid)) hrep.bidQueue
  have hask : store.fetch OrderQueue.account .askQueue = .ok s.askQueue :=
    fetch_of_holds (OrderQueue.account_valid (hfits .ask)) hrep.askQueue
  have hfits' : QueuesFit (retainOthers signer s) := by
    intro t
    rw [retainOthers_queue]
    exact (List.length_filter_le _ _).trans (hfits t)
  obtain ⟨store', hwrite, hw⟩ := writeQueues_ok hrep.bidQueue.sized hrep.askQueue.sized hfits'
  refine ⟨store', ?_, ?_⟩
  · have hwrite : store.writeQueues (retainOthers signer
        { unlisted with bidQueue := s.bidQueue, askQueue := s.askQueue }) = .ok store' := hwrite
    simp only [rawProcess, hbid, hask, bind, Except.bind, cancelOrdersHandler, runHandler, hwrite]
  · refine ⟨hw.keeps.holds (by decide) hrep.auctionState, hw.bidQueue, hw.askQueue, fun k => ?_⟩
    rw [hw.keeps _ (by simp), hrep.results k]
    rfl

theorem writeResult_ok {batchId : U64} {r : AuctionResult}
    (hsized : Sized resultSpace store (.result batchId)) (hr : s.results batchId = some r) :
    ∃ store', store.writeResult s batchId = .ok store' ∧
      store' (Address.result batchId).key = some (AuctionResult.account.encode r) ∧
      Keeps [.result batchId] store store' := by
  obtain ⟨store', hok, hholds, hkeeps⟩ :=
    write_of_sized (x := r) hsized (AuctionResult.account_length r).le
  obtain ⟨tail, hdata, hlength⟩ := hholds
  rw [List.length_append, AuctionResult.account_length] at hlength
  obtain rfl : tail = [] := List.length_eq_zero_iff.mp (by omega)
  refine ⟨store', ?_, by rw [hdata, List.append_nil], hkeeps⟩
  rw [Store.writeResult, hr]
  exact hok

theorem results_of_keeps {store' : Store} {batchId : U64} {r : AuctionResult}
    {results results' : U64 → Option AuctionResult}
    (h : ∀ k, store (Address.result k).key = (results k).map AuctionResult.account.encode)
    (hnew : store' (Address.result batchId).key = some (AuctionResult.account.encode r))
    (hkeeps : ∀ k, k ≠ batchId → store' (Address.result k).key = store (Address.result k).key)
    (hresults : results' = Function.update results batchId (some r)) (k : U64) :
    store' (Address.result k).key = (results' k).map AuctionResult.account.encode := by
  subst hresults
  by_cases hk : k = batchId
  · subst hk
    rw [Function.update_self, hnew]
    rfl
  · rw [Function.update_of_ne hk, hkeeps k hk, h k]

theorem result_ne {batchId k : U64} (hk : k ≠ batchId) :
    Address.result k ∉ [Address.result batchId] := by
  simpa using hk

theorem simulates_initializeResult (hrep : Represents store s) (batchId : U64) :
    Simulates (rawProcess signer clock store (.initializeResult batchId))
      (initializeResultHandler batchId s) := by
  have hkey := hrep.results batchId
  cases hresult : s.results batchId with
  | some r =>
    rw [hresult] at hkey
    have hcreate := create_of_some resultSpace hkey
    have hinit : initResult batchId s = .error .accountInUse := by rw [initResult, hresult]
    simp only [rawProcess, hcreate, initializeResultHandler, hinit]
    rfl
  | none =>
    rw [hresult] at hkey
    obtain ⟨store₁, hcreate, hsized, hkeeps₁⟩ := create_of_none resultSpace hkey
    have hmade : (withResults (Function.update (fun _ => none) batchId (some {})) unlisted).results
        batchId = some {} := by rw [withResults_results, Function.update_self]
    obtain ⟨store₂, hwrite, hnew, hkeeps₂⟩ := writeResult_ok hsized hmade
    have hinit : initResult batchId s = .ok
        { s with results := Function.update s.results batchId (some {}) } := by
      rw [initResult, hresult]
    have hsees : initResult batchId unlisted =
        .ok (withResults (Function.update (fun _ => none) batchId (some {})) unlisted) := rfl
    have hkeeps := hkeeps₁.trans hkeeps₂
    simp only [initializeResultHandler, hinit]
    refine ⟨store₂, ?_, hkeeps.holds (by simp) hrep.auctionState,
      hkeeps.holds (by simp) hrep.bidQueue, hkeeps.holds (by simp) hrep.askQueue, ?_⟩
    · simp only [rawProcess, hcreate, initializeResultHandler, hsees, bind, Except.bind, runHandler,
        hwrite]
    · exact results_of_keeps hrep.results hnew (fun k hk => hkeeps _ (by simpa using hk)) rfl

theorem simulates_executeBatch (hrep : Represents store s) (hqueues : ∀ t, QueueOk t (s.queue t))
    (batchId : U64) :
    Simulates (rawProcess signer clock store (.executeBatch batchId))
      (executeBatchHandler clock batchId s) := by
  have hfetch := fetchTrading_eq hrep fun t => (hqueues t).length_le
  have hkey := hrep.results batchId
  cases hresult : s.results batchId with
  | some r =>
    rw [hresult] at hkey
    have hcreate := create_of_some resultSpace hkey
    have hinit : initResult batchId s = .error .accountInUse := by rw [initResult, hresult]
    simp only [rawProcess, hfetch, bind, Except.bind, hcreate, executeBatchHandler, hinit]
    rfl
  | none =>
    rw [hresult] at hkey
    obtain ⟨store₁, hcreate, hsized, hkeeps₁⟩ := create_of_none resultSpace hkey
    have hsees := executeBatchHandler_withResults clock hresult
    cases hrun : executeBatchHandler clock batchId s with
    | error e =>
      rw [hrun] at hsees
      simp only [rawProcess, hfetch, bind, Except.bind, hcreate, hsees]
      rfl
    | ok out =>
      obtain ⟨s', events⟩ := out
      obtain ⟨r, hr, -⟩ := executeBatchHandler_executes hrun
      have hprocess : process s ⟨signer, clock, .executeBatch batchId⟩ = .ok (s', events) := hrun
      have hfits := queuesFit_of_process hqueues hprocess
      have hnew : s'.results batchId = some r := by rw [hr.results, Function.update_self]
      obtain ⟨store₂, hwrite₂, hw⟩ := writeTrading_ok
        (hkeeps₁.sized (by simp) hrep.auctionState.sized) (hkeeps₁.sized (by simp) hrep.bidQueue.sized)
        (hkeeps₁.sized (by simp) hrep.askQueue.sized) hfits
      have hsized₂ : Sized resultSpace store₂ (.result batchId) := by
        rw [Sized, hw.keeps batchId]
        exact hsized
      have hmade : (withResults (Function.update (fun _ => none) batchId (some r)) s').results
          batchId = some r := by rw [withResults_results, Function.update_self]
      obtain ⟨store₃, hwrite₃, hdata, hkeeps₃⟩ := writeResult_ok hsized₂ hmade
      rw [hrun, Except.map, hnew] at hsees
      refine ⟨store₃, ?_, hkeeps₃.holds (by simp) hw.auctionState,
        hkeeps₃.holds (by simp) hw.bidQueue, hkeeps₃.holds (by simp) hw.askQueue, ?_⟩
      · simp only [rawProcess, hfetch, bind, Except.bind, hcreate, hsees, runHandler,
          writeTrading_withResults, hwrite₂, hwrite₃]
      · refine results_of_keeps hrep.results hdata (fun k hk => ?_) hr.results
        rw [hkeeps₃ _ (result_ne hk), hw.keeps k, hkeeps₁ _ (result_ne hk)]

theorem rawProcess_simulates (hrep : Represents store s) (hqueues : ∀ t, QueueOk t (s.queue t))
    (ix : Instruction) :
    Simulates (rawProcess signer clock store ix) (process s ⟨signer, clock, ix⟩) := by
  have hfits : QueuesFit s := fun t => (hqueues t).length_le
  have hok : ∀ s' events, process s ⟨signer, clock, ix⟩ = .ok (s', events) → QueuesFit s' :=
    fun s' events h => queuesFit_of_process hqueues h
  cases ix with
  | initializeAuction batchInterval =>
    obtain ⟨tail, hdata, -⟩ := hrep.auctionState
    simp only [rawProcess, create_of_some stateSpace hdata]
    rfl
  | placeOrder params =>
    refine simulates_trading hrep hfits (placeOrderHandler_ignoresResults signer clock params)
      fun s' events h => ⟨(placeOrderHandler_appends h).results, hok s' events h⟩
  | placeMultipleOrders orders =>
    refine simulates_trading hrep hfits
      (placeMultipleOrdersHandler_ignoresResults signer clock orders)
      fun s' events h => ⟨(placeMultipleOrdersHandler_appends h).results, hok s' events h⟩
  | cancelAllOrders => exact simulates_cancel signer clock hrep hfits
  | cancelAllAndPostNewOrders orders =>
    refine simulates_trading hrep hfits
      (cancelAllAndPostNewOrdersHandler_ignoresResults signer clock orders)
      fun s' events h => ⟨(cancelAllAndPostNewOrdersHandler_appends h).results, hok s' events h⟩
  | initializeResult batchId => exact simulates_initializeResult signer clock hrep batchId
  | executeBatch batchId => exact simulates_executeBatch signer clock hrep hqueues batchId

end Simulation

section Deployment

/-- The accounts before `initialize`: nothing but blank results. -/
structure Unstarted (store : Store) (made : U64 → Option AuctionResult) : Prop where
  auctionState : store Address.auctionState.key = none
  bidQueue : store Address.bidQueue.key = none
  askQueue : store Address.askQueue.key = none
  results : ∀ k, store (Address.result k).key = (made k).map AuctionResult.account.encode
  blank : ∀ k r, made k = some r → r = {}

def RawTx.Initializes (raw : RawTx) : Prop :=
  ∃ tx batchInterval, raw.tx = some tx ∧ tx.ix = .initializeAuction batchInterval

variable {libs : Libraries} {store : Store} {results : U64 → Option AuctionResult} {raw : RawTx}

theorem fetch_of_none {α : Type} {c : Codec α} {a : Address} (h : store a.key = none) :
    store.fetch c a = .error .accountNotInitialized := by
  rw [Store.fetch, h]

theorem applyRaw_of_ok {tx : Tx} {store' : Store} {events : List Event} (htx : raw.tx = some tx)
    (h : rawProcess tx.signer tx.clock store tx.ix = .ok (store', events)) :
    applyRaw libs store raw = store' := by
  rw [applyRaw, processRaw_of_tx htx, h]

theorem applyRaw_of_error {tx : Tx} {e : RawError} (htx : raw.tx = some tx)
    (h : rawProcess tx.signer tx.clock store tx.ix = .error e) :
    applyRaw libs store raw = store := by
  rw [applyRaw, processRaw_of_tx htx, h]

theorem applyRaw_of_no_tx (hnot : ¬ raw.foreign) (htx : raw.tx = none) :
    applyRaw libs store raw = store := by
  obtain ⟨e, he⟩ := @processRaw_of_no_tx libs store raw hnot htx
  rw [applyRaw, he]

theorem Unstarted.reserve (h : Unstarted store results) (signer : Pubkey) (clock : Clock)
    (batchId : U64) :
    (∃ e, rawProcess signer clock store (.initializeResult batchId) = .error e) ∨
      ∃ store' results', rawProcess signer clock store (.initializeResult batchId) =
        .ok (store', []) ∧ Unstarted store' results' := by
  have hkey := h.results batchId
  cases hresult : results batchId with
  | some r =>
    rw [hresult] at hkey
    have hcreate := create_of_some resultSpace hkey
    refine Or.inl ⟨.handler .accountInUse, ?_⟩
    simp only [rawProcess, hcreate]
    rfl
  | none =>
    rw [hresult] at hkey
    obtain ⟨store₁, hcreate, hsized, hkeeps₁⟩ := create_of_none resultSpace hkey
    have hmade : (withResults (Function.update (fun _ => none) batchId (some {})) unlisted).results
        batchId = some {} := by rw [withResults_results, Function.update_self]
    obtain ⟨store₂, hwrite, hnew, hkeeps₂⟩ := writeResult_ok hsized hmade
    have hkeeps := hkeeps₁.trans hkeeps₂
    have hsees : initResult batchId unlisted =
        .ok (withResults (Function.update (fun _ => none) batchId (some {})) unlisted) := rfl
    refine Or.inr ⟨store₂, Function.update results batchId (some {}), ?_, ?_, ?_, ?_, ?_, ?_⟩
    · simp only [rawProcess, hcreate, initializeResultHandler, hsees, bind, Except.bind, runHandler,
        hwrite]
    · rw [hkeeps _ (by simp), h.auctionState]
    · rw [hkeeps _ (by simp), h.bidQueue]
    · rw [hkeeps _ (by simp), h.askQueue]
    · exact results_of_keeps h.results hnew (fun k hk => hkeeps _ (by simpa using hk)) rfl
    · intro k r hk
      by_cases hbatch : k = batchId
      · subst hbatch
        rw [Function.update_self] at hk
        exact (Option.some.inj hk).symm
      · rw [Function.update_of_ne hbatch] at hk
        exact h.blank k r hk

/-- Until `initialize` is called, all that works is to make blank results. -/
theorem Unstarted.step (h : Unstarted store results) (hnot : ¬ raw.Initializes)
    (hforeign : ¬ raw.foreign) : ∃ results', Unstarted (applyRaw libs store raw) results' := by
  cases htx : raw.tx with
  | none =>
    rw [applyRaw_of_no_tx hforeign htx]
    exact ⟨results, h⟩
  | some tx =>
    have hstate := fetch_of_none (c := AuctionState.account) h.auctionState
    have hbid := fetch_of_none (c := OrderQueue.account) h.bidQueue
    have htrading : store.fetchTrading = .error .accountNotInitialized := by
      rw [Store.fetchTrading, hstate]
      rfl
    have hkeeps : ∀ e, rawProcess tx.signer tx.clock store tx.ix = .error e →
        ∃ results', Unstarted (applyRaw libs store raw) results' := fun e he =>
      ⟨results, by rwa [applyRaw_of_error htx he]⟩
    cases hix : tx.ix with
    | initializeAuction batchInterval => exact absurd ⟨tx, batchInterval, htx, hix⟩ hnot
    | placeOrder params =>
      exact hkeeps .accountNotInitialized (by rw [hix, rawProcess, htrading]; rfl)
    | placeMultipleOrders orders =>
      exact hkeeps .accountNotInitialized (by rw [hix, rawProcess, htrading]; rfl)
    | cancelAllOrders =>
      exact hkeeps .accountNotInitialized (by rw [hix, rawProcess, hbid]; rfl)
    | cancelAllAndPostNewOrders orders =>
      exact hkeeps .accountNotInitialized (by rw [hix, rawProcess, htrading]; rfl)
    | executeBatch batchId =>
      exact hkeeps .accountNotInitialized (by rw [hix, rawProcess, htrading]; rfl)
    | initializeResult batchId =>
      rcases h.reserve tx.signer tx.clock batchId with ⟨e, he⟩ | ⟨store', results', hok, hafter⟩
      · exact hkeeps e (by rw [hix, he])
      · rw [← hix] at hok
        exact ⟨results', by rwa [applyRaw_of_ok htx hok]⟩

theorem Unstarted.start (h : Unstarted store results) {signer : Pubkey} {clock : Clock}
    {batchInterval : U64} (htx : raw.tx = some ⟨signer, clock, .initializeAuction batchInterval⟩) :
    Represents (applyRaw libs store raw) (initializeHandler signer batchInterval results) := by
  obtain ⟨store₁, hcreate₁, hsized₁, hkeeps₁⟩ := create_of_none stateSpace h.auctionState
  obtain ⟨store₂, hcreate₂, hsized₂, hkeeps₂⟩ := create_of_none queueSpace
    ((hkeeps₁ _ (by decide)).trans h.bidQueue)
  obtain ⟨store₃, hcreate₃, hsized₃, hkeeps₃⟩ := create_of_none queueSpace
    ((hkeeps₂ _ (by decide)).trans ((hkeeps₁ _ (by decide)).trans h.askQueue))
  have hfits : QueuesFit (initializeHandler signer batchInterval fun _ => none) := by
    intro t
    cases t <;> exact Nat.zero_le _
  obtain ⟨store₄, hwrite, hw⟩ := writeTrading_ok
    (hkeeps₃.sized (by decide) (hkeeps₂.sized (by decide) hsized₁)) (hkeeps₃.sized (by decide) hsized₂)
    hsized₃ hfits
  have happly : applyRaw libs store raw = store₄ := by
    apply applyRaw_of_ok htx
    simp only [rawProcess, hcreate₁, hcreate₂, hcreate₃, bind, Except.bind, hwrite]
    rfl
  rw [happly]
  refine ⟨hw.auctionState, hw.bidQueue, hw.askQueue, fun k => ?_⟩
  rw [hw.keeps k, hkeeps₃ _ (by simp), hkeeps₂ _ (by simp), hkeeps₁ _ (by simp)]
  exact h.results k

theorem unstarted_run {pre : List RawTx}
    (hpre : ∀ raw ∈ pre, ¬ raw.Initializes ∧ ¬ raw.foreign) :
    ∃ results, Unstarted (runRaw libs pre) results := by
  induction pre using List.reverseRecOn with
  | nil => exact ⟨fun _ => none, rfl, rfl, rfl, fun _ => rfl, fun _ _ h => by cases h⟩
  | append_singleton pre raw ih =>
    rw [List.forall_mem_append] at hpre
    obtain ⟨results, h⟩ := ih hpre.1
    obtain ⟨hnot, hforeign⟩ := hpre.2 raw (List.mem_singleton_self _)
    rw [runRaw, Runs.run_snoc]
    exact h.step hnot hforeign

theorem Represents.applyRaw {s : ProgramState} (h : Represents store s)
    (hqueues : ∀ t, QueueOk t (s.queue t)) (hforeign : ¬ raw.foreign) :
    Represents (applyRaw libs store raw) (run s raw.tx.toList) := by
  cases htx : raw.tx with
  | none =>
    rw [applyRaw_of_no_tx hforeign htx]
    exact h
  | some tx =>
    have hsim := rawProcess_simulates tx.signer tx.clock h hqueues tx.ix
    have hrun : run s (some tx).toList = applyTx s tx := rfl
    rw [hrun, applyTx]
    cases hprocess : process s tx with
    | error e =>
      rw [hprocess] at hsim
      rw [applyRaw_of_error htx hsim]
      exact h
    | ok out =>
      rw [hprocess] at hsim
      obtain ⟨store', hok, hrep⟩ := hsim
      rw [applyRaw_of_ok htx hok]
      exact hrep

/-- However it is to go on, the accounts stay with the values. -/
theorem represents_run {s₀ : ProgramState} (h : Represents store s₀) (hs₀ : Started s₀)
    {post : List RawTx} (hpost : ∀ raw ∈ post, ¬ raw.foreign) :
    Represents (Runs.run (applyRaw libs) store post)
      (run s₀ (post.filterMap RawTx.tx)) := by
  induction post using List.reverseRecOn with
  | nil => exact h
  | append_singleton post raw ih =>
    rw [List.forall_mem_append] at hpost
    have hlast := ih hpost.1
    have htxs : (post ++ [raw]).filterMap RawTx.tx = post.filterMap RawTx.tx ++ raw.tx.toList := by
      rw [List.filterMap_append]
      cases h : raw.tx <;> simp [h]
    rw [Runs.run_snoc, htxs, run, Runs.run_append]
    exact hlast.applyRaw (hs₀.queueOk_run _) (hpost.2 raw (List.mem_singleton_self _))

/-- From the first `initialize` on, while nothing goes to other code, the accounts hold in
every run what the handlers make of the values. A transaction with the accounts that belong
to it has the outcome and the events it has on the values, and any other one fails. -/
theorem runRaw_simulates {pre : List RawTx} {first : RawTx} {signer : Pubkey} {clock : Clock}
    {batchInterval : U64} (hpre : ∀ raw ∈ pre, ¬ raw.Initializes ∧ ¬ raw.foreign)
    (hfirst : first.tx = some ⟨signer, clock, .initializeAuction batchInterval⟩) :
    ∃ made s₀, Started s₀ ∧ s₀ = initializeHandler signer batchInterval made ∧
      ∀ post, (∀ raw ∈ post, ¬ raw.foreign) →
        Represents (runRaw libs (pre ++ first :: post)) (run s₀ (post.filterMap RawTx.tx)) ∧
          (∀ raw tx, raw.tx = some tx →
            Simulates (processRaw libs (runRaw libs (pre ++ first :: post)) raw)
              (process (run s₀ (post.filterMap RawTx.tx)) tx)) ∧
          ∀ raw, ¬ raw.foreign → raw.tx = none →
            ∃ e, processRaw libs (runRaw libs (pre ++ first :: post)) raw = .error e := by
  obtain ⟨results, hunstarted⟩ := @unstarted_run libs pre hpre
  have hinit := @Unstarted.start libs _ results first hunstarted _ _ _ hfirst
  obtain ⟨s₀, hs⟩ : ∃ s₀, s₀ = initializeHandler signer batchInterval results := ⟨_, rfl⟩
  have hs₀ : Started s₀ := ⟨_, _, _, hunstarted.blank, hs⟩
  rw [← hs] at hinit
  refine ⟨results, s₀, hs₀, hs, fun post hpost => ?_⟩
  have hrep : Represents (runRaw libs (pre ++ first :: post))
      (run s₀ (post.filterMap RawTx.tx)) := by
    rw [runRaw, Runs.run_append]
    exact represents_run hinit hs₀ hpost
  refine ⟨hrep, fun raw tx htx => ?_, fun raw hforeign htx => processRaw_of_no_tx hforeign htx⟩
  rw [processRaw_of_tx htx]
  exact rawProcess_simulates tx.signer tx.clock hrep (hs₀.queueOk_run _) tx.ix

/-- The transactions of the sample, before them the batch without its accounts. -/
def sampleRaws : List RawTx :=
  { (sampleTx 2 (.executeBatch 1)).raw with accounts := [] } :: sampleTxs.map Tx.raw

def sampleLibs : Libraries := fun store _ => .ok (store, [])

theorem runRaw_simulates_sampleTxs :
    ∃ s₀, Started s₀ ∧ s₀.auctionState.batchInterval = 2 ∧
      Represents (runRaw sampleLibs ([] ++ (sampleTx 0 (.initializeAuction 2)).raw :: sampleRaws))
        (run s₀ sampleTxs) := by
  have hfirst : (sampleTx 0 (.initializeAuction 2)).raw.tx =
      some (sampleTx 0 (.initializeAuction 2)) := Tx.raw_tx (by decide)
  have hbare : RawTx.ix { (sampleTx 2 (.executeBatch 1)).raw with accounts := [] } =
      some (.executeBatch 1) := @Tx.raw_ix (sampleTx 2 (.executeBatch 1)) (by decide)
  have hnone : RawTx.tx { (sampleTx 2 (.executeBatch 1)).raw with accounts := [] } = none := by
    rw [RawTx.tx, hbare]
    rfl
  have hshort : ∀ tx ∈ sampleTxs, tx.ix.orders.length < 2 ^ 32 := by decide
  have htxs : sampleRaws.filterMap RawTx.tx = sampleTxs := by
    rw [sampleRaws, List.filterMap_cons, hnone, List.filterMap_map]
    exact (List.filterMap_congr fun tx htx => Tx.raw_tx (hshort tx htx)).trans List.filterMap_some
  have hforeign : ∀ raw ∈ sampleRaws, ¬ raw.foreign := by
    intro raw hraw
    rcases List.mem_cons.mp hraw with rfl | hraw
    · exact RawTx.not_foreign hbare
    · obtain ⟨tx, htx, rfl⟩ := List.mem_map.mp hraw
      exact RawTx.not_foreign (Tx.raw_ix (hshort tx htx))
  obtain ⟨made, s₀, hs₀, rfl, hrun⟩ :=
    @runRaw_simulates sampleLibs [] _ _ _ _ (List.forall_mem_nil _) hfirst
  have hrep := (hrun sampleRaws hforeign).1
  rw [htxs] at hrep
  exact ⟨_, hs₀, rfl, hrep⟩

end Deployment

end ToyDfba
