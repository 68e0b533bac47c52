import ToyDfba.Proofs.Errors
import ToyDfba.Proofs.Makers
import ToyDfba.Spec.Services

/-! The auction with no clients but the services of the backend. Their quantities are small
and the maker replaces its quotes, so no batch of theirs ever overflows. -/

namespace ToyDfba

open Ledger Totals

/-- What the services leave in a queue. -/
structure Quoted (makerKeypair : Pubkey) (t : AuctionType) (orders : List Order) : Prop where
  small : ∀ o ∈ orders, o.quantity.val < 3000
  owned : ∀ o ∈ orders, o.orderType = .maker → o.owner = makerKeypair
  makers : orders.countP (fun o => o.orderType = .maker) ≤ 5

section Draws

variable {n : ℕ} {orderType : OrderType} {side : Side} {least : ℕ}

theorem quantity_draw (d : Draw n) (h : least + n ≤ 3000) :
    (d.order orderType side least).quantity.val < 3000 := by
  have hlt := d.extra.isLt
  exact lt_of_le_of_lt (Nat.mod_le _ _) (by omega)

theorem makerOrders_fields (buys sells : Fin 5 → Draw 2000) :
    ∀ p ∈ makerOrders buys sells, p.orderType = .maker ∧ p.quantity.val < 3000 := by
  intro p hp
  rcases List.mem_append.mp hp with hp | hp
  · obtain ⟨i, rfl⟩ := List.mem_ofFn.mp hp
    exact ⟨rfl, quantity_draw _ (by decide)⟩
  · obtain ⟨i, rfl⟩ := List.mem_ofFn.mp hp
    exact ⟨rfl, quantity_draw _ (by decide)⟩

theorem takerOrders_fields (buys sells : Fin 3 → Draw 1500) :
    ∀ p ∈ takerOrders buys sells, p.orderType = .taker ∧ p.quantity.val < 3000 := by
  intro p hp
  rcases List.mem_append.mp hp with hp | hp
  · obtain ⟨i, rfl⟩ := List.mem_ofFn.mp hp
    exact ⟨rfl, quantity_draw _ (by decide)⟩
  · obtain ⟨i, rfl⟩ := List.mem_ofFn.mp hp
    exact ⟨rfl, quantity_draw _ (by decide)⟩

theorem requests_makerOrders (buys sells : Fin 5 → Draw 2000) (t : AuctionType) :
    requests t (makerOrders buys sells) ≤ 5 := by
  have hbuys : ∀ p ∈ List.ofFn fun i => (buys i).order .maker .buy 1000, p.queue = .bid := by
    intro p hp
    obtain ⟨i, rfl⟩ := List.mem_ofFn.mp hp
    rfl
  have hsells : ∀ p ∈ List.ofFn fun i => (sells i).order .maker .sell 1000, p.queue = .ask := by
    intro p hp
    obtain ⟨i, rfl⟩ := List.mem_ofFn.mp hp
    rfl
  rw [makerOrders, requests_append]
  cases t with
  | bid =>
    have hnone : requests .bid (List.ofFn fun i => (sells i).order .maker .sell 1000) = 0 :=
      List.countP_eq_zero.mpr fun p hp => by simp [hsells p hp]
    rw [hnone, Nat.add_zero]
    exact List.countP_le_length.trans (List.length_ofFn ..).le
  | ask =>
    have hnone : requests .ask (List.ofFn fun i => (buys i).order .maker .buy 1000) = 0 :=
      List.countP_eq_zero.mpr fun p hp => by simp [hbuys p hp]
    rw [hnone, Nat.zero_add]
    exact List.countP_le_length.trans (List.length_ofFn ..).le

end Draws

section Step

variable {s : ProgramState} {tx : Tx} {t : AuctionType} {makerKeypair : Pubkey}

theorem Quoted.survivors (h : Quoted makerKeypair t (s.queue t).orders) :
    Quoted makerKeypair t ((s.queue t).orders.filterMap (survivor (fate s tx t))) := by
  have hfrom : ∀ o ∈ (s.queue t).orders.filterMap (survivor (fate s tx t)),
      ∃ old ∈ (s.queue t).orders,
        o = { old with filledQuantity := (fate s tx t old).1.filledQuantity } := by
    intro o ho
    obtain ⟨old, hold, hsurvives⟩ := List.mem_filterMap.mp ho
    obtain ⟨-, rfl⟩ := survivor_eq_some.mp hsurvives
    exact ⟨old, hold, fate_fields s tx t old⟩
  refine ⟨fun o ho => ?_, fun o ho hmaker => ?_, ?_⟩
  · obtain ⟨old, hold, rfl⟩ := hfrom o ho
    exact h.small old hold
  · obtain ⟨old, hold, rfl⟩ := hfrom o ho
    exact h.owned old hold hmaker
  · rw [List.countP_filterMap]
    refine (List.countP_mono_left fun o _ hcount => ?_).trans h.makers
    cases hsurvives : survivor (fate s tx t) o with
    | none => simp [hsurvives] at hcount
    | some o' =>
      obtain ⟨-, rfl⟩ := survivor_eq_some.mp hsurvives
      rw [hsurvives] at hcount
      simpa [fate_orderType] using hcount

theorem Quoted.append {orders new : List Order} (h : Quoted makerKeypair t orders)
    (hsmall : ∀ o ∈ new, o.quantity.val < 3000)
    (htakers : ∀ o ∈ new, o.orderType = .taker) : Quoted makerKeypair t (orders ++ new) := by
  refine ⟨fun o ho => ?_, fun o ho hmaker => ?_, ?_⟩
  · rcases List.mem_append.mp ho with ho | ho
    · exact h.small o ho
    · exact hsmall o ho
  · rcases List.mem_append.mp ho with ho | ho
    · exact h.owned o ho hmaker
    · cases hmaker.symm.trans (htakers o ho)
  · have hnone : new.countP (fun o => o.orderType = .maker) = 0 :=
      List.countP_eq_zero.mpr fun o ho => by simp [htakers o ho]
    rw [List.countP_append, hnone]
    exact h.makers

/-- A turn of the maker service replaces all the makers by the ones that it places. -/
theorem Quoted.applyTx_maker (hrunning : s.auctionState.isPaused = false)
    (h : Quoted makerKeypair t (s.queue t).orders) (clock : Clock) (buys sells : Fin 5 → Draw 2000) :
    Quoted makerKeypair t ((applyTx s
      ⟨makerKeypair, clock, .cancelAllAndPostNewOrders (makerOrders buys sells)⟩).queue t).orders := by
  rcases applyTx_cases s ⟨makerKeypair, clock, .cancelAllAndPostNewOrders (makerOrders buys sells)⟩
    with ⟨events, hok⟩ | ⟨-, hsame⟩
  · generalize applyTx s
      ⟨makerKeypair, clock, .cancelAllAndPostNewOrders (makerOrders buys sells)⟩ = s' at hok
    rw [process_placement hrunning (Or.inr (Or.inr ⟨_, rfl⟩))] at hok
    obtain ⟨taken, htakes, hputs⟩ := placeLoop_takes hok
    obtain ⟨new, hqueue, hids⟩ := hputs.queue t
    obtain ⟨new', hfresh, hqueue'⟩ := (placeLoop_appends hok).queue t
    obtain rfl : new = new' :=
      List.append_cancel_left (congrArg OrderQueue.orders (hqueue.symm.trans hqueue'))
    have hretained : ((afterCancel s ⟨makerKeypair, clock,
        .cancelAllAndPostNewOrders (makerOrders buys sells)⟩).queue t).orders =
          (s.queue t).orders.filter fun o => o.owner ≠ makerKeypair :=
      congrArg OrderQueue.orders (retainOthers_queue makerKeypair s t)
    have hlength : new.length ≤ 5 := by
      have hids := congrArg List.length hids
      rw [List.length_map, List.length_range'] at hids
      rw [hids]
      have hmost := requests_makerOrders buys sells t
      rcases htakes.stop with he | ⟨p, rest, he, -⟩
      · have he : makerOrders buys sells = taken := he
        rwa [he] at hmost
      · have he : makerOrders buys sells = taken ++ p :: rest := he
        rw [he, requests_append] at hmost
        exact (Nat.le_add_right _ _).trans hmost
    rw [hqueue, hretained]
    dsimp only
    refine ⟨fun o ho => ?_, fun o ho hmaker => ?_, ?_⟩
    · rcases List.mem_append.mp ho with ho | ho
      · exact h.small o (List.mem_filter.mp ho).1
      · exact (makerOrders_fields buys sells _ (hfresh o ho).requested).2
    · rcases List.mem_append.mp ho with ho | ho
      · exact h.owned o (List.mem_filter.mp ho).1 hmaker
      · exact (hfresh o ho).owner
    · have hnone : ((s.queue t).orders.filter fun o => o.owner ≠ makerKeypair).countP
          (fun o => o.orderType = .maker) = 0 := by
        refine List.countP_eq_zero.mpr fun o ho hmaker => ?_
        obtain ⟨ho, hother⟩ := List.mem_filter.mp ho
        exact of_decide_eq_true hother (h.owned o ho (of_decide_eq_true hmaker))
      rw [List.countP_append, hnone, Nat.zero_add]
      exact List.countP_le_length.trans hlength
  · rwa [hsame]

theorem Quoted.applyTx {takerKeypair crankKeypair : Pubkey}
    (hrunning : s.auctionState.isPaused = false) (h : Quoted makerKeypair t (s.queue t).orders)
    (htx : FromService makerKeypair takerKeypair crankKeypair tx) :
    Quoted makerKeypair t ((ToyDfba.applyTx s tx).queue t).orders := by
  cases htx with
  | maker clock buys sells => exact h.applyTx_maker hrunning clock buys sells
  | taker clock buys sells =>
    obtain ⟨horders, hnew⟩ := applyTx_orders s
      ⟨takerKeypair, clock, .placeMultipleOrders (takerOrders buys sells)⟩ t
    rw [horders]
    refine h.survivors.append (fun o ho => ?_) fun o ho => ?_
    · exact (takerOrders_fields buys sells _ (hnew o ho).2.requested).2
    · exact (takerOrders_fields buys sells _ (hnew o ho).2.requested).1
  | crank clock batchId =>
    obtain ⟨horders, hnew⟩ := applyTx_orders s ⟨crankKeypair, clock, .executeBatch batchId⟩ t
    rw [horders]
    refine h.survivors.append (fun o ho => ?_) fun o ho => ?_
    · exact absurd (hnew o ho).2.requested List.not_mem_nil
    · exact absurd (hnew o ho).2.requested List.not_mem_nil

/-- Books of eighty-five small orders are far from an overflow. -/
theorem Quoted.not_jams {orders : List Order} (h : Quoted makerKeypair t orders)
    (hlength : orders.length ≤ 85) : ¬ Jams t orders := by
  have hremaining : ∀ o ∈ orders, o.remaining ≤ 3000 := fun o ho =>
    (Nat.sub_le _ _).trans (h.small o ho).le
  have htotal : ∀ (c : Order → Bool) (part : List Order), part.Sublist orders →
      total Order.remaining c part ≤ 85 * 3000 := by
    intro c part hpart
    refine (total_le_mul _ fun o ho => hremaining o (hpart.subset ho)).trans ?_
    exact Nat.mul_le_mul_right _ (hpart.length_le.trans hlength)
  rintro ⟨-, -, hover⟩
  rcases hover with hover | hover | ⟨o, ho, hover⟩
  · have hle := htotal (fun _ => true) (liveMakers orders) List.filter_sublist
    omega
  · have hle := htotal (fun _ => true) (liveTakers orders) List.filter_sublist
    omega
  · have hfill : levelFill t orders o.price ≤ 85 * 3000 :=
      (min_le_left _ _).trans (htotal _ _ List.filter_sublist)
    have hprod := Nat.mul_le_mul (hremaining o (List.filter_subset_self _ ho)) hfill
    omega

end Step

/-- With no clients but the services, at most five makers stand in a queue, all of them the
maker service's, no batch overflows, and the crank's call for a batch goes through as soon
as the interval is over, unless somebody has taken the result account or the counter ends. -/
theorem services_never_jam {s₀ : ProgramState} (h : Started s₀)
    {makerKeypair takerKeypair crankKeypair : Pubkey} {txs : List Tx}
    (htxs : ∀ tx ∈ txs, FromService makerKeypair takerKeypair crankKeypair tx) :
    (∀ t, ¬ Jams t ((run s₀ txs).queue t).orders ∧
      (∀ o ∈ ((run s₀ txs).queue t).orders, o.orderType = .maker → o.owner = makerKeypair) ∧
      ((run s₀ txs).queue t).orders.countP (fun o => o.orderType = .maker) ≤ 5) ∧
    ∀ clock batchId, Succeeds (run s₀ txs) ⟨crankKeypair, clock, .executeBatch batchId⟩ ↔
      (run s₀ txs).results batchId = none ∧
      (run s₀ txs).auctionState.lastBatchSlot.val + (run s₀ txs).auctionState.batchInterval.val ≤
        clock.slot.val ∧
      (run s₀ txs).auctionState.batchCounter.val + 1 < 2 ^ 64 := by
  have hquoted : ∀ t, Quoted makerKeypair t ((run s₀ txs).queue t).orders := by
    intro t
    induction txs using List.reverseRecOn with
    | nil =>
      obtain ⟨authority, batchInterval, results, -, rfl⟩ := h
      have hempty : Quoted makerKeypair t [] :=
        ⟨fun _ ho => absurd ho List.not_mem_nil, fun _ ho => absurd ho List.not_mem_nil,
          Nat.zero_le _⟩
      cases t <;> exact hempty
    | append_singleton txs tx ih =>
      rw [List.forall_mem_append] at htxs
      rw [run, Runs.run_snoc]
      exact (ih htxs.1).applyTx (h.isPaused_run txs) (htxs.2 tx (List.mem_singleton_self tx))
  have hnojam : ∀ t, ¬ Jams t ((run s₀ txs).queue t).orders := by
    intro t
    have hq := h.queueOk_run txs t
    have hlength := hq.fits
    rw [hq.capacity] at hlength
    exact (hquoted t).not_jams hlength
  refine ⟨fun t => ⟨hnojam t, (hquoted t).owned, (hquoted t).makers⟩, fun clock batchId => ?_⟩
  have hready : Succeeds (run s₀ txs) ⟨crankKeypair, clock, .executeBatch batchId⟩ ↔
      BatchReady clock batchId (run s₀ txs) := succeeds_iff_ready rfl
  rw [hready]
  constructor
  · intro hready
    exact ⟨hready.free, hready.due, hready.countable⟩
  · rintro ⟨hfree, hdue, hcountable⟩
    exact ⟨hfree, hdue, hnojam, hcountable⟩

/-- One turn of the maker and one of the taker, with keypairs 5 and 6. -/
def sampleServices : List Tx :=
  [⟨5, ⟨0, 1000⟩, .cancelAllAndPostNewOrders
      (makerOrders (fun _ => ⟨99990000, 7⟩) fun _ => ⟨100010000, 9⟩)⟩,
    ⟨6, ⟨0, 1000⟩, .placeMultipleOrders
      (takerOrders (fun _ => ⟨100020000, 3⟩) fun _ => ⟨99980000, 4⟩)⟩]

theorem services_never_jam_sampleServices :
    Succeeds (run sampleStart sampleServices) ⟨9, ⟨2, 1000⟩, .executeBatch 1⟩ := by
  have htxs : ∀ tx ∈ sampleServices, FromService 5 6 9 tx := by
    rw [sampleServices, List.forall_mem_cons, List.forall_mem_singleton]
    exact ⟨.maker _ _ _, .taker _ _ _⟩
  exact ((services_never_jam started_sampleStart htxs).2 ⟨2, 1000⟩ 1).mpr
    ⟨rfl, by decide +kernel, by decide +kernel⟩

end ToyDfba
