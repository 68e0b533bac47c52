import ToyDfba.Proofs.Levels

/-! The loop that fills the takers level by level. After any number of levels the
volume left over is what the levels ahead have not used up, so each level receives
its part of the clearing volume whatever the loop did before. -/

namespace ToyDfba

open Totals

theorem Order.fillBy_filled {o : Order} {n : ℕ} (h : n ≤ o.remaining) :
    (o.fillBy n).filledQuantity.val = o.filledQuantity.val + n := by
  have hq := o.quantity.isLt
  have hf := o.filledQuantity.isLt
  simp only [Order.remaining] at h
  exact Nat.mod_eq_of_lt (by omega)

@[simp] theorem Order.fillBy_zero (o : Order) : o.fillBy 0 = o := by
  cases o
  simp [Order.fillBy]

theorem fillOrder_eq_some {volume outOf : U64} (hle : volume ≤ outOf) (hpos : 0 < outOf.val)
    {r r' : OrderRef} (hr : r.order.live) :
    fillOrder volume outOf r = some r' ↔
      r.order.remaining * volume.val < 2 ^ 64 ∧
        r' = r.update fun o => o.fillBy (ProRata.share o.remaining volume.val outOf.val) := by
  have hlt := Order.filled_lt_of_live hr
  have hshare := ProRata.share_le r.order.remaining (Fin.le_def.mp hle)
  have hfilled := Order.fillBy_filled hshare
  simp only [fillOrder, Option.bind_eq_bind, Option.bind_eq_some_iff, Checked.sub_eq_some,
    Checked.mul_eq_some, Checked.div_eq_some, Checked.add_eq_some, Option.some.injEq]
  refine ⟨?_, ?_⟩
  · intro hsome
    obtain ⟨a, ha, product, hproduct, n, ⟨-, hn⟩, filled, hf, he⟩ := hsome
    have hrem : r.order.remaining = a.val := by simp only [Order.remaining]; omega
    rw [hrem, hproduct]
    refine ⟨product.isLt, he ▸ ?_⟩
    have heq : (r.order.fillBy (ProRata.share r.order.remaining volume.val outOf.val)).filledQuantity
        = filled := by
      rw [Fin.ext_iff, hfilled, ← hf, ← hn, ← hproduct, ← hrem, ProRata.share]
    simp only [OrderRef.update, ← heq, Order.fillBy]
  · intro hspec
    obtain ⟨hfit, he⟩ := hspec
    have hrem : r.order.remaining < 2 ^ 64 := by
      have := r.order.quantity.isLt
      simp only [Order.remaining]; omega
    refine ⟨⟨_, hrem⟩, ?_, ⟨_, hfit⟩, rfl, ⟨_, ?_⟩, ⟨hpos.ne', rfl⟩, _, hfilled.symm, he.symm⟩
    · simp only [Order.remaining]; omega
    · exact lt_of_le_of_lt hshare hrem

theorem levelFill_of_used {auctionType : AuctionType} {orders : List Order} {q : U64}
    (h : clearingVolume auctionType orders ≤ aheadVolume auctionType orders q) :
    levelFill auctionType orders q = 0 := by
  rw [levelFill, Nat.sub_eq_zero_of_le h, Nat.min_zero]

section Levels

variable {auctionType : AuctionType} {orders : List Order} {makerOrders takerOrders : List OrderRef}
  {price : U64} {ds qs rest : List U64} {q : U64}

/-- What the takers at some prices want together. -/
def processed (orders : List Order) (ds : List U64) : ℕ := (ds.map (levelVolume orders)).sum

/-- A taker once the levels at the prices `ds` are filled. -/
def after (auctionType : AuctionType) (orders : List Order) (ds : List U64) (r : OrderRef) :
    OrderRef :=
  if r.order.price ∈ ds then r.update (settle auctionType orders) else r

theorem nodup_of_ahead (h : ds.Pairwise fun p q => ahead auctionType p q) : ds.Nodup :=
  h.imp fun hpq => ne_of_ahead hpq

theorem processed_eq (h : Sides orders makerOrders takerOrders)
    (hds : ds.Pairwise fun p q => ahead auctionType p q) :
    processed orders ds =
      total (fun r => r.order.remaining) (fun r => r.order.price ∈ ds) takerOrders := by
  have hclasses := total_classes (fun r => r.order.remaining) (fun r : OrderRef => r.order.price)
    (nodup_of_ahead hds) takerOrders
  refine Eq.trans ?_ hclasses.symm
  simp only [processed]
  exact congrArg List.sum (List.map_congr_left fun q _ => (h.total_takers _).symm)

theorem processed_le_aheadVolume (h : Sides orders makerOrders takerOrders)
    (hds : ds.Pairwise fun p q => ahead auctionType p q)
    (hq : ∀ d ∈ ds, ahead auctionType d q) :
    processed orders ds ≤ aheadVolume auctionType orders q := by
  rw [processed_eq h hds, aheadVolume, ← h.total_takers]
  exact total_le _ fun r _ hr => hq _ (by simpa using hr)

theorem aheadVolume_eq_processed (h : Sides orders makerOrders takerOrders)
    (hlv : LevelPrices auctionType price takerOrders (ds ++ q :: rest)) :
    aheadVolume auctionType orders q = processed orders ds := by
  obtain ⟨hds, hqr, hcross⟩ := List.pairwise_append.mp hlv.sorted
  rw [processed_eq h hds, aheadVolume, ← h.total_takers]
  refine total_congr _ fun r hr => ?_
  rw [Bool.eq_iff_iff, decide_eq_true_eq]
  refine ⟨fun hahead => ?_, fun hmem => hcross _ hmem q (by simp)⟩
  obtain ⟨a, -, hcan, haq⟩ := (hlv.mem q).mp (by simp)
  have hmem : r.order.price ∈ ds ++ q :: rest :=
    (hlv.mem _).mpr ⟨r, hr, canFill_of_ahead hcan (haq ▸ hahead), rfl⟩
  rcases List.mem_append.mp hmem with hmem | hmem
  · exact hmem
  · rcases List.mem_cons.mp hmem with he | hmem
    · exact absurd he (ne_of_ahead hahead)
    · exact absurd hahead (ahead_asymm ((List.pairwise_cons.mp hqr).1 _ hmem))

theorem levelVolume_pos (h : Sides orders makerOrders takerOrders) {r : OrderRef}
    (hr : r ∈ takerOrders) : 0 < levelVolume orders r.order.price := by
  rw [levelVolume, ← h.total_takers]
  exact (total_pos_iff _).mpr ⟨r, hr, by simp, Order.remaining_pos (h.taker_live r hr)⟩

theorem levelVolume_le_total (orders : List Order) (q : U64) :
    levelVolume orders q ≤ takerTotal orders :=
  total_le _ fun _ _ _ => rfl

/-- A level that is not filled yet still reads as it did at the start. -/
theorem after_getElem? (hq : q ∉ ds) {i : ℕ} (hi : i ∈ levelIdxs takerOrders q) :
    (takerOrders.map (after auctionType orders ds))[i]? = takerOrders[i]? := by
  obtain ⟨r, hr, hrq⟩ := mem_levelIdxs.mp hi
  rw [List.getElem?_map, hr, Option.map_some, after, if_neg (by rwa [hrq])]

theorem levelSum_eq_some (h : Sides orders makerOrders takerOrders) (hq : q ∉ ds) {v : U64} :
    ((levelIdxs takerOrders q).foldlM (fun v idx => do
        let r ← (takerOrders.map (after auctionType orders ds))[idx]?
        addRemaining v r) 0 = some v) ↔ levelVolume orders q = v.val := by
  simp only [Option.bind_eq_bind]
  rw [Loops.foldlM_reads addRemaining _ _ _ (by simpa using levelIdxs_lt),
    List.filterMap_congr fun i hi => after_getElem? hq hi, levelIdxs,
    Loops.filterMap_indicesWhere]
  have hlive : ∀ r ∈ takerOrders.filter (fun r => r.order.price = q), r.order.live :=
    fun r hr => h.taker_live r (List.mem_filter.mp hr).1
  have hsum := foldlM_addRemaining_eq_some hlive (fun _ => True) v
  simp only [if_true, decide_true, total_filter, Bool.true_and] at hsum
  rw [hsum, h.total_takers fun o => o.price = q, levelVolume]

theorem levelFill_eq_some (h : Sides orders makerOrders takerOrders) (hq : q ∉ ds)
    (hne : 0 < levelVolume orders q) {volume outOf : U64}
    (hvol : volume.val = levelFill auctionType orders q) (hout : outOf.val = levelVolume orders q)
    {filled : List OrderRef} :
    (levelIdxs takerOrders q).foldlM (Loops.updateAt (fillOrder volume outOf))
        (takerOrders.map (after auctionType orders ds)) = some filled ↔
      (∀ r ∈ takerOrders, r.order.price = q →
        r.order.remaining * levelFill auctionType orders q < 2 ^ 64) ∧
        filled = takerOrders.map (after auctionType orders (ds ++ [q])) := by
  have hle : volume ≤ outOf := by
    rw [Fin.le_def, hvol, hout]
    exact min_le_left _ _
  have hread : ∀ i ∈ levelIdxs takerOrders q, ∀ r,
      (takerOrders.map (after auctionType orders ds))[i]? = some r →
        r ∈ takerOrders ∧ r.order.price = q := by
    intro i hi r hr
    rw [after_getElem? hq hi] at hr
    obtain ⟨r', hr', hrq⟩ := mem_levelIdxs.mp hi
    rw [hr, Option.some.injEq] at hr'
    exact ⟨List.mem_of_getElem? hr, hr' ▸ hrq⟩
  have hone : ∀ i ∈ levelIdxs takerOrders q, ∀ r,
      (takerOrders.map (after auctionType orders ds))[i]? = some r → ∀ r',
        fillOrder volume outOf r = some r' ↔
          r.order.remaining * levelFill auctionType orders q < 2 ^ 64 ∧
            r' = r.update (settle auctionType orders) := by
    intro i hi r hr r'
    obtain ⟨hmem, hrq⟩ := hread i hi r hr
    rw [fillOrder_eq_some hle (by omega) (h.taker_live r hmem), hvol, hout]
    simp [OrderRef.update, settle, (h.mem_takers hmem).2, takerFill, hrq]
  rw [Loops.foldlM_updateAt_eq_some (levelIdxs_nodup _ _)
    (by simpa using levelIdxs_lt) hone]
  refine and_congr ⟨fun hall r hr hrq => ?_, fun hall i hi r hr => ?_⟩ ?_
  · obtain ⟨i, hi⟩ := List.mem_iff_getElem?.mp hr
    have hmem : i ∈ levelIdxs takerOrders q := mem_levelIdxs.mpr ⟨r, hi, hrq⟩
    exact hall i hmem r (by rw [after_getElem? hq hmem, hi])
  · obtain ⟨hmem, hrq⟩ := hread i hi r hr
    exact hall r hmem hrq
  · suffices hmap : (takerOrders.map (after auctionType orders ds)).mapIdx (fun i r =>
        if i ∈ levelIdxs takerOrders q then r.update (settle auctionType orders) else r) =
        takerOrders.map (after auctionType orders (ds ++ [q])) by rw [hmap]
    apply List.ext_getElem?
    intro i
    rw [List.getElem?_mapIdx, List.getElem?_map, List.getElem?_map]
    cases hi : takerOrders[i]? with
    | none => rfl
    | some r =>
      have hmem : i ∈ levelIdxs takerOrders q ↔ r.order.price = q := by simp [mem_levelIdxs, hi]
      by_cases hrq : r.order.price = q
      · simp [hmem.mpr hrq, after, hrq, hq]
      · simp [mt hmem.mp hrq, after, hrq]

theorem after_append_of_idle (h : Sides orders makerOrders takerOrders)
    (hidle : ∀ q ∈ qs, levelFill auctionType orders q = 0) :
    takerOrders.map (after auctionType orders (ds ++ qs)) =
      takerOrders.map (after auctionType orders ds) := by
  refine List.map_congr_left fun r hr => ?_
  by_cases hds : r.order.price ∈ ds
  · simp [after, hds]
  · by_cases hqs : r.order.price ∈ qs
    · simp [after, hds, hqs, OrderRef.update, settle, (h.mem_takers hr).2, takerFill, hidle _ hqs]
    · simp [after, hds, hqs]

theorem processed_append (orders : List Order) (ds qs : List U64) :
    processed orders (ds ++ qs) = processed orders ds + processed orders qs := by
  simp [processed]

theorem processed_singleton (orders : List Order) (q : U64) :
    processed orders [q] = levelVolume orders q := by
  simp [processed]

theorem levelFill_eq_zero (h : Sides orders makerOrders takerOrders)
    (hlv : LevelPrices auctionType price takerOrders (ds ++ qs))
    (hused : clearingVolume auctionType orders ≤ processed orders ds) :
    ∀ q ∈ qs, levelFill auctionType orders q = 0 := by
  intro q hq
  obtain ⟨hds, -, hcross⟩ := List.pairwise_append.mp hlv.sorted
  exact levelFill_of_used (hused.trans (processed_le_aheadVolume h hds fun d hd => hcross d hd q hq))

/-- The loop over the levels, from any point on: the levels already filled are `ds`,
those still to come are `qs`. -/
theorem fillLevels_eq_some (h : Sides orders makerOrders takerOrders)
    (htotal : takerTotal orders < 2 ^ 64)
    (hlv : LevelPrices auctionType price takerOrders (ds ++ qs)) {remaining left : U64}
    (hrem : remaining.val = clearingVolume auctionType orders - processed orders ds)
    {filled : List OrderRef} :
    fillLevels (qs.map (levelIdxs takerOrders))
        (takerOrders.map (after auctionType orders ds), remaining) = some (filled, left) ↔
      (∀ r ∈ takerOrders, r.order.price ∈ qs →
        r.order.remaining * levelFill auctionType orders r.order.price < 2 ^ 64) ∧
      filled = takerOrders.map (after auctionType orders (ds ++ qs)) ∧
      left.val = clearingVolume auctionType orders - processed orders (ds ++ qs) := by
  induction qs generalizing ds remaining with
  | nil =>
    simp only [List.map_nil, fillLevels, Option.some.injEq, Prod.mk.injEq, List.append_nil,
      List.not_mem_nil, false_implies, implies_true, true_and, ← hrem, ← Fin.ext_iff]
    exact and_congr eq_comm eq_comm
  | cons q qs ih =>
    have happ : ds ++ q :: qs = ds ++ [q] ++ qs := by simp
    by_cases hz : remaining = 0
    · -- the loop stops here, and none of the levels left has anything to receive
      have hused : clearingVolume auctionType orders ≤ processed orders ds := by
        rw [hz, Fin.val_zero] at hrem; omega
      have hidle := levelFill_eq_zero h hlv hused
      have hleft : clearingVolume auctionType orders - processed orders (ds ++ q :: qs) =
          remaining.val := by
        rw [hrem, processed_append]; omega
      simp only [List.map_cons, fillLevels, if_pos hz, Option.some.injEq, Prod.mk.injEq,
        after_append_of_idle h hidle, hleft, ← Fin.ext_iff]
      have hok : ∀ r ∈ takerOrders, r.order.price ∈ q :: qs →
          r.order.remaining * levelFill auctionType orders r.order.price < 2 ^ 64 := by
        intro r _ hr
        rw [hidle _ hr, Nat.mul_zero]
        exact Nat.two_pow_pos 64
      rw [and_iff_right hok]
      exact and_congr eq_comm eq_comm
    · have hq : q ∉ ds := fun hmem =>
        ne_of_ahead ((List.pairwise_append.mp hlv.sorted).2.2 q hmem q (by simp)) rfl
      have hahead := aheadVolume_eq_processed h hlv
      obtain ⟨a, ha, -, haq⟩ := (hlv.mem q).mp (by simp)
      have hpos : 0 < levelVolume orders q := haq ▸ levelVolume_pos h ha
      have hfit : levelVolume orders q < 2 ^ 64 :=
        lt_of_le_of_lt (levelVolume_le_total orders q) htotal
      have hmin : ∀ v : U64, levelVolume orders q = v.val →
          (min v remaining).val = levelFill auctionType orders q := by
        intro v hv
        rw [Fin.val_strictMono.monotone.map_min, ← hv, hrem, levelFill, hahead]
      have hnext : ∀ next : U64,
          remaining.val = levelFill auctionType orders q + next.val ↔
            next.val = clearingVolume auctionType orders - processed orders (ds ++ [q]) := by
        intro next
        rw [hrem, levelFill, hahead, processed_append, processed_singleton]
        omega
      rw [happ] at hlv ⊢
      simp only [List.map_cons, fillLevels, if_neg hz, Option.bind_eq_bind,
        Option.bind_eq_some_iff, Checked.sub_eq_some]
      refine ⟨?_, ?_⟩
      · intro hsome
        obtain ⟨v, hv, filled₁, hf, next, hsub, hgo⟩ := hsome
        have hv := (levelSum_eq_some h hq).mp hv
        obtain ⟨hok, rfl⟩ := (levelFill_eq_some h hq hpos (hmin v hv) hv.symm).mp hf
        rw [hmin v hv] at hsub
        obtain ⟨hok', hf', hl'⟩ := (ih hlv ((hnext next).mp hsub)).mp hgo
        refine ⟨fun r hr hrq => ?_, hf', hl'⟩
        rcases List.mem_cons.mp hrq with he | hrq
        · exact he ▸ hok r hr he
        · exact hok' r hr hrq
      · intro hspec
        obtain ⟨hok, hf, hl⟩ := hspec
        have hlt : clearingVolume auctionType orders - processed orders (ds ++ [q]) < 2 ^ 64 := by
          have := remaining.isLt
          rw [processed_append]; omega
        refine ⟨⟨_, hfit⟩, (levelSum_eq_some h hq).mpr rfl, _,
          (levelFill_eq_some h hq hpos (hmin _ rfl) rfl).mpr ⟨fun r hr he => ?_, rfl⟩,
          ⟨_, hlt⟩, ?_, (ih hlv rfl).mpr ⟨fun r hr hrq => ?_, hf, hl⟩⟩
        · have := hok r hr (by simp [he])
          rwa [he] at this
        · rw [hmin _ rfl]
          exact (hnext ⟨_, hlt⟩).mpr rfl
        · exact hok r hr (List.mem_cons_of_mem q hrq)

end Levels

end ToyDfba
