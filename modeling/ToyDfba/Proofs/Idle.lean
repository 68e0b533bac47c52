import ToyDfba.Lib.Iterates
import ToyDfba.Proofs.Improvements
import ToyDfba.Proofs.Makers

/-! Batches with nothing between them. Each takes from the takers what it fills and never
adds any, so a queue settles after a number of batches that its takers bound, while the
batches after that keep reporting the same trade. -/

namespace ToyDfba

open Totals

def cleared (t : AuctionType) (orders : List Order) : List Order :=
  (orders.map (settle t orders)).filter stillOpen

def AllRest (t : AuctionType) (orders : List Order) : Prop := ∀ o ∈ orders, Rests t o

section Cleared

variable {t : AuctionType} {orders : List Order}

theorem settle_rests {o : Order} (h : Rests t o) (hopen : stillOpen (settle t orders o)) :
    Rests t (settle t orders o) := by
  have hunfilled := (stillOpen_iff.mp hopen).2
  rw [settle_fields] at hunfilled ⊢
  exact ⟨h.routed, h.active, h.price, h.quantity, hunfilled⟩

theorem AllRest.cleared (h : AllRest t orders) : AllRest t (cleared t orders) := by
  intro o ho
  obtain ⟨ho, hopen⟩ := List.mem_filter.mp ho
  obtain ⟨old, hold, rfl⟩ := List.mem_map.mp ho
  exact settle_rests (h old hold) hopen

theorem settle_remaining {o : Order} (htaker : o.liveTaker) :
    (settle t orders o).remaining = o.remaining - takerFill t orders o := by
  have hfilled := @settle_filled t orders o
  rw [if_pos htaker] at hfilled
  rw [Order.remaining, hfilled, settle_fields, Order.remaining]
  dsimp only
  omega

theorem settle_price (o : Order) : (settle t orders o).price = o.price := by
  rw [settle_fields]

theorem settle_orderType (o : Order) : (settle t orders o).orderType = o.orderType := by
  rw [settle_fields]

theorem stillOpen_eq_live (o : Order) : stillOpen o = o.live := rfl

theorem remaining_of_closed {o : Order} (h : Rests t o) (hclosed : (settle t orders o).live = false) :
    (settle t orders o).remaining = 0 := by
  have hactive : (settle t orders o).isActive = true := by
    rw [settle_fields]
    exact h.active
  rw [Order.live, hactive, Bool.true_and, decide_eq_false_iff_not, not_lt] at hclosed
  exact Nat.sub_eq_zero_of_le hclosed

theorem total_takers_cleared (h : AllRest t orders) (c : U64 → Bool) :
    total Order.remaining (fun o => c o.price) (liveTakers (cleared t orders)) =
      total (fun o => o.remaining - takerFill t orders o) (fun o => c o.price)
        (liveTakers orders) := by
  rw [liveTakers, cleared, total_filter, total_filter, total_map, liveTakers, total_filter]
  refine total_congr_terms _ fun o ho => ?_
  simp only [settle_price, stillOpen_eq_live, Order.liveTaker, settle_orderType]
  by_cases htaker : o.orderType = .taker
  · have hlive : o.liveTaker := by
      rw [Order.liveTaker, (h o ho).live, htaker]
      rfl
    have hremaining := @settle_remaining t orders _ hlive
    cases hopen : (settle t orders o).live
    · -- a taker that is filled wants nothing any more
      have hnone := remaining_of_closed (h o ho) hopen
      simp [← hremaining, hnone]
    · simp [htaker, hremaining, (h o ho).live]
  · simp [htaker]

theorem total_makers_cleared (h : AllRest t orders) (c : U64 → Bool) :
    total Order.remaining (fun o => c o.price) (liveMakers (cleared t orders)) =
      total Order.remaining (fun o => c o.price) (liveMakers orders) := by
  rw [liveMakers, cleared, total_filter, total_filter, total_map, liveMakers, total_filter]
  refine total_congr_terms _ fun o ho => ?_
  simp only [settle_price, stillOpen_eq_live, Order.liveMaker, settle_orderType]
  by_cases hmaker : o.orderType = .maker
  · have hsame : settle t orders o = o := settle_maker t orders hmaker
    simp [hmaker, hsame, (h o ho).live]
  · simp [hmaker]

theorem matchedVolume_cleared_le (h : AllRest t orders) (p : U64) :
    matchedVolume t (cleared t orders) p ≤ matchedVolume t orders p := by
  have htakers : ∀ c : U64 → Bool,
      total Order.remaining (fun o => c o.price) (liveTakers (cleared t orders)) ≤
        total Order.remaining (fun o => c o.price) (liveTakers orders) := by
    intro c
    rw [total_takers_cleared h]
    exact total_mono_weight _ fun o _ => Nat.sub_le _ _
  cases t with
  | bid => exact min_le_min (total_makers_cleared h fun q => p ≤ q).le (htakers fun q => q ≤ p)
  | ask => exact min_le_min (htakers fun q => p ≤ q) (total_makers_cleared h fun q => q ≤ p).le

theorem clearingVolume_cleared_le (h : AllRest t orders) :
    clearingVolume t (cleared t orders) ≤ clearingVolume t orders :=
  clearingVolume_mono fun p => matchedVolume_cleared_le h p

theorem cleared_of_no_fills (h : AllRest t orders)
    (hnone : ∀ o ∈ liveTakers orders, takerFill t orders o = 0) : cleared t orders = orders := by
  have hsettle : ∀ o ∈ orders, settle t orders o = o := by
    intro o ho
    unfold settle
    split_ifs with htaker
    · rw [hnone o (List.mem_filter.mpr ⟨ho, htaker⟩), Order.fillBy_zero]
    · rfl
  rw [cleared, List.map_congr_left hsettle, List.map_id'' fun _ => rfl]
  exact List.filter_eq_self.mpr fun o ho => (h o ho).live

theorem takerTotal_cleared_lt (h : AllRest t orders) (hchanges : cleared t orders ≠ orders) :
    takerTotal (cleared t orders) < takerTotal orders := by
  have hgrew : ¬ ∀ o ∈ liveTakers orders, takerFill t orders o = 0 := fun hnone =>
    hchanges (cleared_of_no_fills h hnone)
  push Not at hgrew
  obtain ⟨o, ho, hfill⟩ := hgrew
  have hfillLe := @takerFill_le t orders o
  rw [takerTotal, total_takers_cleared h fun _ => true]
  refine List.sum_lt_sum _ _ (fun a _ => Nat.sub_le _ _) ⟨o, ?_, by omega⟩
  exact List.mem_filter.mpr ⟨ho, rfl⟩

end Cleared

section Run

variable {s : ProgramState} {t : AuctionType} {txs : List Tx}

/-- Without other instructions the queues hold what the batches so far have left. -/
theorem run_idle (t : AuctionType) (hidle : ∀ tx ∈ txs, tx.ix.executes) :
    ((run s txs).queue t).orders = (cleared t)^[(batches s txs).length] (s.queue t).orders ∧
      ∀ i b, (batches s txs)[i]? = some b →
        runsBatch b ∧ (b.1.queue t).orders = (cleared t)^[i] (s.queue t).orders := by
  induction txs using List.reverseRecOn with
  | nil => exact ⟨rfl, fun i b hb => by simp [batches, trace, Runs.trace] at hb⟩
  | append_singleton txs tx ih =>
    obtain ⟨hqueue, hbatches⟩ := ih fun tx' htx' => hidle tx' (List.mem_append_left _ htx')
    have hix := hidle tx (List.mem_append_right _ (List.mem_singleton_self tx))
    rw [run, Runs.run_snoc, batches_snoc]
    split_ifs with hruns
    · rw [(runsBatch_recorded hruns t).2, List.length_append, List.length_singleton,
        Function.iterate_succ_apply', ← hqueue]
      refine ⟨rfl, fun i b hb => ?_⟩
      rcases Nat.lt_or_ge i (batches s txs).length with hi | hi
      · rw [List.getElem?_append_left hi] at hb
        exact hbatches i b hb
      · rw [List.getElem?_append_right hi, List.getElem?_singleton] at hb
        split_ifs at hb with hlast
        obtain rfl := Option.some.inj hb
        obtain rfl : i = (batches s txs).length := by omega
        exact ⟨hruns, hqueue⟩
    · rw [List.append_nil]
      refine ⟨?_, hbatches⟩
      rcases applyTx_cases (run s txs) tx with ⟨events, hok⟩ | ⟨-, hsame⟩
      · exact absurd (runsBatch_iff.mpr ⟨hix, _, hok⟩) hruns
      · rw [hsame, hqueue]

end Run

/-- With nothing between the batches, a queue changes in the first few of them, no more
than its takers want units, and in none after those. The volumes that they report never
grow, and from then on all report the same price and volume, whether that is zero or not. -/
theorem idle_batches_settle {s : ProgramState} (h : Reachable s) (t : AuctionType) :
    ∃ n ≤ takerTotal (s.queue t).orders, ∀ txs, (∀ tx ∈ txs, tx.ix.executes) →
      (∀ i b, (batches s txs)[i]? = some b →
        ((applyTx b.1 b.2).queue t = b.1.queue t ↔ n ≤ i)) ∧
      (∀ i j b b', (batches s txs)[i]? = some b → (batches s txs)[j]? = some b' → i ≤ j →
        (recorded b' t).2 ≤ (recorded b t).2 ∧ (n ≤ i → recorded b' t = recorded b t)) := by
  have hrests : AllRest t (s.queue t).orders := fun o ho => (h.queueOk t).orders o ho
  obtain ⟨n, hn, hsettles⟩ := Iterates.exists_settles (f := cleared t) (P := AllRest t)
    (fun _ hr => hr.cleared) (fun _ hr => takerTotal_cleared_lt hr) hrests
  refine ⟨n, hn, fun txs hidle => ?_⟩
  have hmeets := (run_idle (s := s) t hidle).2
  refine ⟨fun i b hb => ?_, fun i j b b' hb hb' hij => ⟨?_, fun hi => ?_⟩⟩
  · obtain ⟨hruns, hqueue⟩ := hmeets i b hb
    rw [← hsettles i, Function.iterate_succ_apply', ← hqueue, (runsBatch_recorded hruns t).2]
    refine ⟨fun he => congrArg OrderQueue.orders he, fun he => ?_⟩
    change cleared t (b.1.queue t).orders = _ at he
    exact congrArg (fun orders => { b.1.queue t with orders := orders }) he
  · obtain ⟨hruns, hqueue⟩ := hmeets i b hb
    obtain ⟨hruns', hqueue'⟩ := hmeets j b' hb'
    have hvolume := @recorded_volume b.1 b.2 hruns t
    have hvolume' := @recorded_volume b'.1 b'.2 hruns' t
    rw [hqueue] at hvolume
    rw [hqueue'] at hvolume'
    rw [Fin.le_def, hvolume, hvolume']
    exact Iterates.iterate_antitone (fun _ hr => hr.cleared)
      (fun _ hr => clearingVolume_cleared_le hr) hrests hij
  · obtain ⟨hruns, hqueue⟩ := hmeets i b hb
    obtain ⟨hruns', hqueue'⟩ := hmeets j b' hb'
    have hsame : (b'.1.queue t).orders = (b.1.queue t).orders := by
      rw [hqueue, hqueue', Iterates.iterate_of_settled ((hsettles n).mpr le_rfl) hi,
        Iterates.iterate_of_settled ((hsettles n).mpr le_rfl) (hi.trans hij)]
    have hclears := @recorded_clears b.1 b.2 hruns t
    have hclears' := @recorded_clears b'.1 b'.2 hruns' t
    rw [hsame] at hclears'
    obtain ⟨hprice, hvolume⟩ := hclears'.unique hclears
    exact Prod.ext hprice (Fin.ext hvolume)

def thinTx : Tx :=
  sampleTx 0 (.placeMultipleOrders
    [⟨.maker, .buy, 100, 1⟩, ⟨.taker, .sell, 100, 1⟩, ⟨.taker, .sell, 100, 1⟩])

/-- Its batches report a trade of one unit each, and the queue stays as it is. -/
theorem idle_batches_settle_thinTx :
    (batches (run sampleStart [thinTx]) [sampleTx 2 (.executeBatch 1), sampleTx 4 (.executeBatch 2)]).map
        (fun b => recorded b .bid) = [(100, 1), (100, 1)] ∧
      ∃ n ≤ takerTotal ((run sampleStart [thinTx]).queue .bid).orders,
        ∀ i b, (batches (run sampleStart [thinTx])
          [sampleTx 2 (.executeBatch 1), sampleTx 4 (.executeBatch 2)])[i]? = some b →
            ((applyTx b.1 b.2).queue .bid = b.1.queue .bid ↔ n ≤ i) := by
  have hreachable : Reachable (run sampleStart [thinTx]) := ⟨_, _, started_sampleStart, rfl⟩
  obtain ⟨n, hn, hsettles⟩ := idle_batches_settle hreachable .bid
  refine ⟨by decide +kernel, n, hn, (hsettles _ fun tx htx => ?_).1⟩
  rcases List.mem_cons.mp htx with rfl | htx
  · rfl
  · obtain rfl := List.mem_singleton.mp htx
    rfl

end ToyDfba
