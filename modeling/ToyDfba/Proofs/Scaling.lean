import ToyDfba.Proofs.DoubleEntry

/-! The unit of the quantities. On a book counted in units that are `k` times as small the
price is the same and the volume is `k` times as large, and what the fills differ by is
less than one of the old units, which rounding had kept back. -/

namespace ToyDfba

open Totals

def Order.scale (k : ℕ) (o : Order) : Order :=
  { o with quantity := Fin.ofNat (2 ^ 64) (k * o.quantity.val),
           filledQuantity := Fin.ofNat (2 ^ 64) (k * o.filledQuantity.val) }

/-- The scaled quantities of an order are words. -/
structure Order.Scales (k : ℕ) (o : Order) : Prop where
  quantity : k * o.quantity.val < 2 ^ 64
  filled : k * o.filledQuantity.val < 2 ^ 64

section Order

variable {k : ℕ} {o : Order}

theorem scale_quantity (h : o.Scales k) : (o.scale k).quantity.val = k * o.quantity.val :=
  Nat.mod_eq_of_lt h.quantity

theorem scale_filled (h : o.Scales k) : (o.scale k).filledQuantity.val = k * o.filledQuantity.val :=
  Nat.mod_eq_of_lt h.filled

theorem scale_remaining (h : o.Scales k) : (o.scale k).remaining = k * o.remaining := by
  rw [Order.remaining, scale_quantity h, scale_filled h, Order.remaining, Nat.mul_sub]

theorem scale_live (hk : 0 < k) (h : o.Scales k) : (o.scale k).live = o.live := by
  have hlt : (o.scale k).filledQuantity < (o.scale k).quantity ↔ o.filledQuantity < o.quantity := by
    rw [Fin.lt_def, Fin.lt_def, scale_quantity h, scale_filled h, Nat.mul_lt_mul_left hk]
  exact congrArg (o.isActive && ·) (decide_eq_decide.mpr hlt)

end Order

section Book

variable {k : ℕ} {t : AuctionType} {orders : List Order} (hk : 0 < k)
  (hscales : ∀ o ∈ orders, o.Scales k)

include hk hscales

theorem liveMakers_scale : liveMakers (orders.map (Order.scale k)) =
    (liveMakers orders).map (Order.scale k) := by
  rw [liveMakers, liveMakers, List.filter_map]
  refine congrArg (List.map _) (List.filter_congr fun o ho => ?_)
  exact congrArg (· && decide (o.orderType = .maker)) (scale_live hk (hscales o ho))

theorem liveTakers_scale : liveTakers (orders.map (Order.scale k)) =
    (liveTakers orders).map (Order.scale k) := by
  rw [liveTakers, liveTakers, List.filter_map]
  refine congrArg (List.map _) (List.filter_congr fun o ho => ?_)
  exact congrArg (· && decide (o.orderType = .taker)) (scale_live hk (hscales o ho))

omit hk

theorem total_scale {part : List Order} (hpart : part ⊆ orders) (c : U64 → Bool) :
    total Order.remaining (fun o => c o.price) (part.map (Order.scale k)) =
      k * total Order.remaining (fun o => c o.price) part := by
  rw [total_map, ← total_mul]
  exact total_congr_weight _ fun o ho _ => scale_remaining (hscales o (hpart ho))

include hk

theorem total_makers_scale (c : U64 → Bool) :
    total Order.remaining (fun o => c o.price) (liveMakers (orders.map (Order.scale k))) =
      k * total Order.remaining (fun o => c o.price) (liveMakers orders) := by
  rw [liveMakers_scale hk hscales]
  exact total_scale hscales (List.filter_subset_self _) c

theorem total_takers_scale (c : U64 → Bool) :
    total Order.remaining (fun o => c o.price) (liveTakers (orders.map (Order.scale k))) =
      k * total Order.remaining (fun o => c o.price) (liveTakers orders) := by
  rw [liveTakers_scale hk hscales]
  exact total_scale hscales (List.filter_subset_self _) c

theorem matchedVolume_scale (p : U64) :
    matchedVolume t (orders.map (Order.scale k)) p = k * matchedVolume t orders p := by
  cases t with
  | bid =>
    have hmakers := total_makers_scale hk hscales fun q => p ≤ q
    have htakers := total_takers_scale hk hscales fun q => q ≤ p
    exact (congrArg₂ min hmakers htakers).trans (Nat.mul_min_mul_left ..)
  | ask =>
    have htakers := total_takers_scale hk hscales fun q => p ≤ q
    have hmakers := total_makers_scale hk hscales fun q => q ≤ p
    exact (congrArg₂ min htakers hmakers).trans (Nat.mul_min_mul_left ..)

theorem clears_scale {price : U64} {volume : ℕ} (h : Clears t orders price volume) :
    Clears t (orders.map (Order.scale k)) price (k * volume) := by
  have heq : ∀ p, matchedVolume t (orders.map (Order.scale k)) p = k * volume ↔
      matchedVolume t orders p = volume := fun p => by
    rw [matchedVolume_scale hk hscales, Nat.mul_right_inj hk.ne']
  refine ⟨⟨?_, ?_⟩, fun hpos => ?_, fun hzero => ?_⟩
  · obtain ⟨p, hp⟩ := h.greatest.1
    exact ⟨p, (heq p).mpr hp⟩
  · rintro _ ⟨p, rfl⟩
    rw [matchedVolume_scale hk hscales]
    exact Nat.mul_le_mul_left k (h.greatest.2 ⟨p, rfl⟩)
  · have hleast := h.least (Nat.pos_of_mul_pos_left hpos)
    exact ⟨(heq price).mpr hleast.1, fun p hp => hleast.2 ((heq p).mp hp)⟩
  · exact h.idle ((Nat.mul_eq_zero.mp hzero).resolve_left hk.ne')

theorem clearingVolume_scale :
    clearingVolume t (orders.map (Order.scale k)) = k * clearingVolume t orders := by
  obtain ⟨price, volume, hclears⟩ := exists_clears t orders
  rw [← (clears_scale hk hscales hclears).volume_eq, hclears.volume_eq]

theorem levelFill_scale (p : U64) :
    levelFill t (orders.map (Order.scale k)) p = k * levelFill t orders p := by
  have hlevel : levelVolume (orders.map (Order.scale k)) p = k * levelVolume orders p :=
    total_takers_scale hk hscales fun q => q = p
  have hahead : aheadVolume t (orders.map (Order.scale k)) p = k * aheadVolume t orders p :=
    total_takers_scale hk hscales fun q => ahead t q p
  rw [levelFill, hlevel, hahead, clearingVolume_scale hk hscales, ← Nat.mul_sub,
    Nat.mul_min_mul_left, levelFill]

theorem takerFill_scale {o : Order} (ho : o ∈ orders) :
    k * takerFill t orders o ≤ takerFill t (orders.map (Order.scale k)) (o.scale k) ∧
      takerFill t (orders.map (Order.scale k)) (o.scale k) < k * takerFill t orders o + k := by
  have hlevel : levelVolume (orders.map (Order.scale k)) o.price = k * levelVolume orders o.price :=
    total_takers_scale hk hscales fun q => q = o.price
  have hfill : levelFill t (orders.map (Order.scale k)) o.price = k * levelFill t orders o.price :=
    levelFill_scale hk hscales o.price
  have hprice : (o.scale k).price = o.price := rfl
  rw [takerFill, takerFill, hprice, scale_remaining (hscales o ho), hlevel, hfill]
  exact ProRata.share_scale hk _ _ _

theorem jams_scale (h : Jams t orders) : Jams t (orders.map (Order.scale k)) := by
  have hmakers := total_makers_scale hk hscales fun _ => true
  have htakers := total_takers_scale hk hscales fun _ => true
  obtain ⟨hm, ht, hover⟩ := h
  refine ⟨?_, ?_, ?_⟩
  · rwa [liveMakers_scale hk hscales, ne_eq, List.map_eq_nil_iff]
  · rwa [liveTakers_scale hk hscales, ne_eq, List.map_eq_nil_iff]
  · rcases hover with hover | hover | ⟨o, ho, hover⟩
    · exact Or.inl (hover.trans (hmakers ▸ Nat.le_mul_of_pos_left _ hk))
    · exact Or.inr (Or.inl (hover.trans (htakers ▸ Nat.le_mul_of_pos_left _ hk)))
    · refine Or.inr (Or.inr ⟨o.scale k, ?_, hover.trans ?_⟩)
      · rw [liveTakers_scale hk hscales]
        exact List.mem_map_of_mem ho
      · have hfill : levelFill t (orders.map (Order.scale k)) (o.scale k).price =
            k * levelFill t orders o.price := levelFill_scale hk hscales o.price
        rw [scale_remaining (hscales o (List.filter_subset_self _ ho)), hfill]
        exact Nat.mul_le_mul (Nat.le_mul_of_pos_left _ hk) (Nat.le_mul_of_pos_left _ hk)

/-- The auction on the book in smaller units: it goes through only if the one on the book
does, at the same price, for a volume and for fills that are the same amounts but for
less than one of the old units, which rounding had kept back from an order. -/
theorem executeAuction_scale {price volume : U64} {out : List Order}
    (hrun : executeAuction (orders.map (Order.scale k)) t = some ((price, volume), out)) :
    ∃ (volume₀ : U64) (out₀ : List Order),
      executeAuction orders t = some ((price, volume₀), out₀) ∧ volume.val = k * volume₀.val ∧
      ∀ (i : ℕ) (o₀ o : Order), out₀[i]? = some o₀ → out[i]? = some o →
        k * o₀.filledQuantity.val ≤ o.filledQuantity.val ∧
          o.filledQuantity.val < k * o₀.filledQuantity.val + k := by
  obtain ⟨hnojam, hclears, rfl⟩ := executeAuction_eq_some_iff.mp hrun
  obtain ⟨price₀, v, hclears₀⟩ := exists_clears t orders
  obtain ⟨rfl, hv⟩ := (clears_scale hk hscales hclears₀).unique hclears
  have hlt : v < 2 ^ 64 := lt_of_le_of_lt (Nat.le_mul_of_pos_left v hk) (hv ▸ volume.isLt)
  refine ⟨⟨v, hlt⟩, _, executeAuction_eq_some_iff.mpr
    ⟨mt (jams_scale hk hscales) hnojam, hclears₀, rfl⟩, hv.symm, fun i o₀ o ho₀ ho => ?_⟩
  rw [List.getElem?_map, Option.map_eq_some_iff] at ho₀
  obtain ⟨a, ha, rfl⟩ := ho₀
  rw [List.getElem?_map, List.getElem?_map, ha, Option.map_some, Option.map_some] at ho
  obtain rfl := Option.some.inj ho
  have hmem := List.mem_of_getElem? ha
  have htaker : (a.scale k).liveTaker = a.liveTaker :=
    congrArg (· && decide (a.orderType = .taker)) (scale_live hk (hscales a hmem))
  rw [settle_filled, settle_filled, scale_filled (hscales a hmem), htaker]
  split_ifs
  · obtain ⟨hle, hltFill⟩ := takerFill_scale (t := t) hk hscales hmem
    rw [Nat.mul_add]
    omega
  · rw [Nat.add_zero, Nat.add_zero]
    omega

end Book

/-- In units of a tenth both takers of the thin book receive the half unit that they lost. -/
theorem executeAuction_scale_thinBook :
    (executeAuction thinBook .bid).map Prod.fst = some (100, 1) ∧
      ∃ out, executeAuction (thinBook.map (Order.scale 10)) .bid = some ((100, 10), out) ∧
        ∀ (i : ℕ) (o₀ o : Order), thinBook[i]? = some o₀ → out[i]? = some o →
          o.filledQuantity.val < 10 * o₀.filledQuantity.val + 10 := by
  have hthin : executeAuction thinBook .bid = some ((100, 1), thinBook) := by decide
  have hscales : ∀ o ∈ thinBook, o.Scales 10 := fun o ho => by
    constructor <;> revert o <;> decide
  obtain ⟨out, hrun⟩ : ∃ out, executeAuction (thinBook.map (Order.scale 10)) .bid =
      some ((100, 10), out) := exists_run_of_best (by decide)
  obtain ⟨volume₀, out₀, hrun₀, -, hfills⟩ := executeAuction_scale (by decide) hscales hrun
  obtain ⟨-, rfl⟩ := Prod.mk.inj (Option.some.inj (hthin.symm.trans hrun₀))
  exact ⟨by rw [hthin]; rfl, out, hrun, fun i o₀ o ho₀ ho => (hfills i o₀ o ho₀ ho).2⟩

end ToyDfba
