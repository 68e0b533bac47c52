import Mathlib.Algebra.Order.Group.Multiset
import ToyDfba.Lib.Views
import ToyDfba.Proofs.Pool

/-! Between two batches the order of different traders' transactions decides nothing but
places, ids and timestamps, and what a trader takes back before the batch was never there for
anybody else. -/

namespace ToyDfba

/-- What a transaction of a signer that is no batch does to the pools. -/
structure Effect (signer : Pubkey) where
  drops : Bool
  new : AuctionType → Multiset Order
  owned : ∀ t, ∀ o ∈ new t, o.owner = signer
  reserves : Option U64

namespace Effect

variable {signer signer' : Pubkey}

def kept (e : Effect signer) (orders : Multiset Order) : Multiset Order :=
  if e.drops then orders.filter fun o => o.owner ≠ signer else orders

def reserved (e : Effect signer) (results : U64 → Option AuctionResult) (batchId : U64) :
    Option AuctionResult :=
  if e.reserves = some batchId then (results batchId).or (some {}) else results batchId

def apply (e : Effect signer) (pool : Pool) : Pool where
  auctionState := pool.auctionState
  orders t := e.kept (pool.orders t) + e.new t
  results := e.reserved pool.results

theorem kept_add (e : Effect signer) (a b : Multiset Order) : e.kept (a + b) = e.kept a + e.kept b := by
  unfold kept
  split_ifs
  · exact Multiset.filter_add ..
  · rfl

theorem kept_comm (e : Effect signer) (e' : Effect signer') (orders : Multiset Order) :
    e'.kept (e.kept orders) = e.kept (e'.kept orders) := by
  unfold kept
  split_ifs
  · exact Multiset.filter_comm ..
  all_goals rfl

theorem kept_new (e : Effect signer) (e' : Effect signer') (hne : signer ≠ signer')
    (t : AuctionType) : e'.kept (e.new t) = e.new t := by
  unfold kept
  split_ifs
  · refine Multiset.filter_eq_self.mpr fun o ho => ?_
    rw [e.owned t o ho]
    exact hne
  · rfl

theorem apply_comm (e : Effect signer) (e' : Effect signer') (hne : signer ≠ signer') (pool : Pool) :
    e'.apply (e.apply pool) = e.apply (e'.apply pool) := by
  refine congrArg₂ (Pool.mk _) (funext fun t => ?_) (funext fun batchId => ?_)
  · simp only [apply, kept_add, kept_new e e' hne, kept_new e' e hne.symm, kept_comm e e']
    exact add_right_comm ..
  · simp only [apply, reserved]
    split_ifs <;> simp

def withdrawal (signer : Pubkey) : Effect signer where
  drops := true
  new _ := 0
  owned _ o ho := absurd ho (Multiset.notMem_zero o)
  reserves := none

theorem withdrawal_apply (pool : Pool) : (withdrawal signer).apply pool = pool.withdraw signer := by
  refine congrArg₂ (Pool.mk _) (funext fun t => ?_) (funext fun batchId => ?_)
  · simp [kept, withdrawal]
  · simp [reserved, withdrawal]

theorem withdraw_apply (e : Effect signer) (hreserves : e.reserves = none) (pool : Pool) :
    (e.apply pool).withdraw signer = pool.withdraw signer := by
  refine congrArg₂ (Pool.mk _) (funext fun t => ?_) (funext fun batchId => ?_)
  · have hgone : (e.new t).filter (fun o => o.owner ≠ signer) = 0 :=
      Multiset.filter_eq_nil.mpr fun o ho => not_not.mpr (e.owned t o ho)
    simp only [apply, Multiset.filter_add, hgone, Multiset.add_zero]
    unfold kept
    split_ifs
    · rw [Multiset.filter_filter]
      simp
    · rfl
  · simp [apply, reserved, hreserves]

theorem apply_withdraw (e : Effect signer) (hne : signer ≠ signer') (pool : Pool) :
    (e.apply pool).withdraw signer' = e.apply (pool.withdraw signer') := by
  rw [← withdrawal_apply, apply_comm e _ hne, withdrawal_apply]

def placement (signer : Pubkey) (drops : Bool) (ps : List PlaceOrderParams) : Effect signer where
  drops := drops
  new t := ↑((ps.filter fun p => p.queue = t).map (PlaceOrderParams.order signer))
  owned t o ho := by
    obtain ⟨p, -, rfl⟩ := List.mem_map.mp ho
    rfl
  reserves := none

def nothing (signer : Pubkey) : Effect signer := placement signer false []

theorem placement_apply (signer : Pubkey) (ps : List PlaceOrderParams) (pool : Pool) :
    (placement signer false ps).apply pool = pool.post signer ps ∧
      (placement signer true ps).apply pool = (pool.withdraw signer).post signer ps := by
  constructor
  · refine congrArg₂ (Pool.mk _) (funext fun t => ?_) (funext fun batchId => ?_)
    · simp [kept, placement]
    · simp [reserved, placement]
  · refine congrArg₂ (Pool.mk _) (funext fun t => ?_) (funext fun batchId => ?_)
    · simp [kept, placement, Pool.withdraw]
    · simp [reserved, placement, Pool.withdraw]

theorem nothing_apply (pool : Pool) : (nothing signer).apply pool = pool :=
  ((placement_apply signer [] pool).1).trans (Pool.post_nil pool)

def reservation (signer : Pubkey) (batchId : U64) : Effect signer :=
  { nothing signer with reserves := some batchId }

theorem reservation_apply (signer : Pubkey) (batchId : U64) (pool : Pool) :
    (reservation signer batchId).apply pool = pool.reserve batchId := by
  refine congrArg₂ (Pool.mk _) (funext fun t => ?_) (funext fun batchId' => ?_)
  · simp [kept, reservation, nothing, placement]
  · simp only [reserved, reservation, Option.some.injEq, Function.update_apply, eq_comm]
    split_ifs with he
    · rw [he]
    · rfl

end Effect

/-- Every transaction that is no batch has such an effect, whatever the pools. -/
theorem exists_effect {tx : Tx} (hix : ¬ tx.ix.executes) :
    ∃ e : Effect tx.signer, (∀ pool, pool.act tx = e.apply pool) ∧
      ((∀ batchId, tx.ix ≠ .initializeResult batchId) → e.reserves = none) := by
  obtain ⟨signer, clock, ix⟩ := tx
  have hnothing : ∃ e : Effect signer, (∀ pool : Pool, pool = e.apply pool) ∧ e.reserves = none :=
    ⟨Effect.nothing signer, fun pool => (Effect.nothing_apply pool).symm, rfl⟩
  cases ix with
  | initializeAuction batchInterval =>
    obtain ⟨e, he, hreserves⟩ := hnothing
    exact ⟨e, he, fun _ => hreserves⟩
  | placeOrder params =>
    simp only [Pool.act]
    split_ifs
    · exact ⟨.placement signer false [params],
        fun pool => (Effect.placement_apply ..).1.symm, fun _ => rfl⟩
    · obtain ⟨e, he, hreserves⟩ := hnothing
      exact ⟨e, he, fun _ => hreserves⟩
  | placeMultipleOrders orders =>
    simp only [Pool.act]
    split_ifs
    · exact ⟨.placement signer false orders,
        fun pool => (Effect.placement_apply ..).1.symm, fun _ => rfl⟩
    · obtain ⟨e, he, hreserves⟩ := hnothing
      exact ⟨e, he, fun _ => hreserves⟩
  | cancelAllOrders =>
    exact ⟨.withdrawal signer, fun pool => (Effect.withdrawal_apply pool).symm, fun _ => rfl⟩
  | cancelAllAndPostNewOrders orders =>
    simp only [Pool.act]
    split_ifs
    · exact ⟨.placement signer true orders,
        fun pool => (Effect.placement_apply ..).2.symm, fun _ => rfl⟩
    · obtain ⟨e, he, hreserves⟩ := hnothing
      exact ⟨e, he, fun _ => hreserves⟩
  | initializeResult batchId =>
    exact ⟨.reservation signer batchId, fun pool => (Effect.reservation_apply ..).symm,
      fun hnot => absurd rfl (hnot batchId)⟩
  | executeBatch batchId => exact absurd rfl hix

theorem act_comm (pool : Pool) {tx tx' : Tx} (hix : ¬ tx.ix.executes) (hix' : ¬ tx'.ix.executes)
    (hne : tx.signer ≠ tx'.signer) : (pool.act tx).act tx' = (pool.act tx').act tx := by
  obtain ⟨e, he, -⟩ := exists_effect hix
  obtain ⟨e', he', -⟩ := exists_effect hix'
  rw [he, he', he', he, e.apply_comm e' hne]

/-- Accounts that differ in the places, the ids and the timestamps of orders only. -/
structure Agree (s s' : ProgramState) : Prop where
  auctionState : s.auctionState = s'.auctionState
  results : s.results = s'.results
  orders : ∀ t, ((s.queue t).orders.map Order.anonymous).Perm
    ((s'.queue t).orders.map Order.anonymous)

theorem agree_of_pool {s s' : ProgramState} (h : s.pool = s'.pool) : Agree s s' :=
  ⟨congrArg Pool.auctionState h, congrArg Pool.results h,
    fun t => Multiset.coe_eq_coe.mp (congrFun (congrArg Pool.orders h) t)⟩

def AllRoom (s : ProgramState) (txs : List Tx) : Prop := ∀ st ∈ trace s txs, ∀ t, Room t st

instance (s : ProgramState) (txs : List Tx) : Decidable (AllRoom s txs) :=
  decidable_of_iff (∀ st ∈ trace s txs, Room .bid st ∧ Room .ask st)
    ⟨fun h st hst t => by cases t; exacts [(h st hst).1, (h st hst).2],
      fun h st hst => ⟨h st hst .bid, h st hst .ask⟩⟩

/-- What a trader sees of a run: its own transactions, whenever they arrive, and the batches
with their clocks. -/
def seenBy (trader : Pubkey) (txs : List Tx) : List Tx :=
  Views.view Tx.signer (fun tx => tx.ix.executes) trader (txs.map Tx.timeless)

section Runs

variable {s : ProgramState}

/-- As long as there is room a run on the accounts is a run on the pools. -/
theorem run_pool (h : Reachable s) {txs : List Tx} (hroom : AllRoom s txs) :
    (run s txs).pool = (txs.map Tx.timeless).foldl Pool.act s.pool := by
  obtain ⟨s₀, pre, hs₀, rfl⟩ := h
  induction txs using List.reverseRecOn with
  | nil => rfl
  | append_singleton txs tx ih =>
    unfold AllRoom at hroom
    rw [trace, Runs.trace_snoc, List.forall_mem_append] at hroom
    have hrunning := hs₀.isPaused_run (pre ++ txs)
    rw [run, Runs.run_append] at hrunning
    rw [run, Runs.run_snoc, List.map_append, List.foldl_append, ← ih hroom.1, List.map_singleton,
      List.foldl_cons, List.foldl_nil, Pool.act_timeless]
    exact applyTx_pool hrunning (hroom.2 _ (List.mem_singleton_self _))

theorem foldl_timeless (txs : List Tx) (pool : Pool) :
    (txs.map Tx.timeless).foldl Pool.act pool = txs.foldl Pool.act pool := by
  rw [List.foldl_map]
  simp only [Pool.act_timeless]

/-- The order in which the transactions of different traders arrive between two batches
does not matter, nor does the time: when every trader sees its own transactions and the
batches in the same order, all the results are the same, and so are the orders left in the
queues. -/
theorem interleavings_agree (h : Reachable s) {txs txs' : List Tx}
    (hseen : ∀ trader, seenBy trader txs = seenBy trader txs') (hroom : AllRoom s txs)
    (hroom' : AllRoom s txs') : Agree (run s txs) (run s txs') := by
  apply agree_of_pool
  rw [run_pool h hroom, run_pool h hroom']
  exact Views.foldl_eq_of_views (fun pool tx tx' hix hix' hne => act_comm pool hix hix' hne) hseen _

/-- What a trader places between two batches and cancels before the second one leaves no
trace: everything after is as if the trader had sent only the cancellation, whenever the
others' transactions arrive. -/
theorem withdrawn_leaves_no_trace (h : Reachable s) {pre post txs : List Tx} {tx : Tx}
    (hcancels : tx.ix = .cancelAllOrders) (hwindow : ∀ x ∈ pre, ¬ x.ix.executes)
    (hreserves : ∀ x ∈ pre, x.signer = tx.signer → ∀ batchId, x.ix ≠ .initializeResult batchId)
    (hwithout : txs.map Tx.timeless =
      (pre.filter (fun x => x.signer ≠ tx.signer) ++ tx :: post).map Tx.timeless)
    (hroom : AllRoom s (pre ++ tx :: post)) (hroom' : AllRoom s txs) :
    Agree (run s (pre ++ tx :: post)) (run s txs) := by
  apply agree_of_pool
  rw [run_pool h hroom, run_pool h hroom', hwithout, foldl_timeless, foldl_timeless,
    List.foldl_append, List.foldl_append, List.foldl_cons, List.foldl_cons]
  have hact : ∀ pool : Pool, pool.act tx = pool.withdraw tx.signer := fun pool => by
    rw [Pool.act, hcancels]
  have hhide : ∀ xs ⊆ pre, (xs.foldl Pool.act s.pool).withdraw tx.signer =
      (xs.filter fun x => !decide (x.signer = tx.signer)).foldl Pool.act
        (s.pool.withdraw tx.signer) := by
    intro xs hxs
    refine Views.hide_foldl (fun x hx hown pool => ?_) (fun x hx hother pool => ?_) s.pool
    · obtain ⟨e, he, hnone⟩ := exists_effect (hwindow x (hxs hx))
      have howner := of_decide_eq_true hown
      rw [he, ← howner]
      exact e.withdraw_apply (hnone (hreserves x (hxs hx) howner)) pool
    · obtain ⟨e, he, -⟩ := exists_effect (hwindow x (hxs hx))
      rw [he, he]
      exact e.apply_withdraw (by simpa using hother) pool
  rw [hact, hact, hhide pre (List.Subset.refl _), hhide _ (List.filter_subset_self pre), List.filter_filter]
  simp

/-- The bid of trader 1, the offer of trader 2, and the batch that crosses them. -/
def bidTx (clock : Clock) : Tx := ⟨1, clock, .placeOrder ⟨.maker, .buy, 105, 300⟩⟩

def offerTx (clock : Clock) : Tx := ⟨2, clock, .placeOrder ⟨.taker, .sell, 100, 200⟩⟩

/-- The clock goes on in both runs. -/
theorem interleavings_agree_sample :
    Agree (run sampleStart [bidTx ⟨0, 1000⟩, offerTx ⟨1, 1001⟩, sampleTx 2 (.executeBatch 1)])
      (run sampleStart [offerTx ⟨0, 1000⟩, bidTx ⟨1, 1001⟩, sampleTx 2 (.executeBatch 1)]) := by
  apply interleavings_agree ⟨_, [], started_sampleStart, rfl⟩ _ (by decide) (by decide)
  intro trader
  change Views.view Tx.signer (fun tx => tx.ix.executes) trader
      [bidTx ⟨0, 0⟩, offerTx ⟨0, 0⟩, sampleTx 2 (.executeBatch 1)] =
    Views.view Tx.signer (fun tx => tx.ix.executes) trader
      [offerTx ⟨0, 0⟩, bidTx ⟨0, 0⟩, sampleTx 2 (.executeBatch 1)]
  by_cases hbid : (bidTx ⟨0, 0⟩).signer = trader
  · subst hbid
    decide
  · have hskip : ∀ tx : Tx, ¬ tx.signer = trader → tx.ix.executes = false → ∀ xs,
        Views.view Tx.signer (fun tx => tx.ix.executes) trader (tx :: xs) =
          Views.view Tx.signer (fun tx => tx.ix.executes) trader xs :=
      fun tx hother hix xs => Views.view_cons_of_not (by simp [hother, hix]) xs
    by_cases hoffer : (offerTx ⟨0, 0⟩).signer = trader
    · subst hoffer
      decide
    · rw [hskip (bidTx ⟨0, 0⟩) hbid rfl, hskip (offerTx ⟨0, 0⟩) hoffer rfl,
        hskip (offerTx ⟨0, 0⟩) hoffer rfl, hskip (bidTx ⟨0, 0⟩) hbid rfl]

/-- Without the bid the others' transactions come sooner. -/
theorem withdrawn_leaves_no_trace_sample :
    Agree
      (run sampleStart [bidTx ⟨0, 1000⟩, offerTx ⟨1, 1001⟩, sampleTx 1 .cancelAllOrders,
        sampleTx 2 (.executeBatch 1)])
      (run sampleStart [offerTx ⟨0, 1000⟩, sampleTx 1 .cancelAllOrders,
        sampleTx 2 (.executeBatch 1)]) := by
  have hroom : AllRoom sampleStart ([bidTx ⟨0, 1000⟩, offerTx ⟨1, 1001⟩] ++
      sampleTx 1 .cancelAllOrders :: [sampleTx 2 (.executeBatch 1)]) := by decide
  have hroom' : AllRoom sampleStart [offerTx ⟨0, 1000⟩, sampleTx 1 .cancelAllOrders,
      sampleTx 2 (.executeBatch 1)] := by decide
  have hreserves : ∀ x ∈ [bidTx ⟨0, 1000⟩, offerTx ⟨1, 1001⟩], ∀ batchId,
      x.ix ≠ .initializeResult batchId := by
    intro x hx batchId
    rcases List.mem_cons.mp hx with rfl | hx
    · exact Instruction.noConfusion
    · obtain rfl := List.mem_singleton.mp hx
      exact Instruction.noConfusion
  exact withdrawn_leaves_no_trace ⟨_, [], started_sampleStart, rfl⟩ rfl (by decide)
    (fun x hx _ => hreserves x hx) (by rfl) hroom hroom'

end Runs

end ToyDfba
