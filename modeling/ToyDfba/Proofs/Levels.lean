import Mathlib.Tactic.Order
import ToyDfba.Proofs.Volume

/-! The loop that groups the takers. On takers sorted by aggressiveness its groups are
the price levels that may trade, the most aggressive first, and each group holds the
positions of all the takers at its price. -/

namespace ToyDfba

section Ahead

variable {auctionType : AuctionType} {p q s : U64}

@[simp] theorem ahead_irrefl : ahead auctionType p p = false := by
  cases auctionType <;> simp [ahead]

theorem ahead_trans (hpq : ahead auctionType p q) (hqs : ahead auctionType q s) :
    ahead auctionType p s := by
  cases auctionType <;> simp only [ahead, decide_eq_true_eq] at * <;> order

theorem ahead_of_not (hqp : ¬ ahead auctionType q p) (hne : p ≠ q) : ahead auctionType p q := by
  cases auctionType <;> simp only [ahead, decide_eq_true_eq] at * <;> order

theorem ahead_asymm (hpq : ahead auctionType p q) : ¬ ahead auctionType q p := by
  cases auctionType <;> simp only [ahead, decide_eq_true_eq] at * <;> order

theorem ne_of_ahead (hpq : ahead auctionType p q) : p ≠ q := by
  rintro rfl
  simp at hpq

/-- Whether an order may trade rests on its price alone, and holds for every price
ahead of one for which it holds. -/
theorem canFill_congr {a b : Order} (h : a.price = b.price) :
    canFill auctionType p a = canFill auctionType p b := by
  cases auctionType <;> simp [canFill, h]

theorem canFill_of_ahead {a b : Order} (hb : canFill auctionType p b)
    (h : ahead auctionType a.price b.price) : canFill auctionType p a := by
  cases auctionType <;> simp only [canFill, ahead, decide_eq_true_eq] at * <;> order

theorem ahead_of_canFill {a b : Order} (ha : canFill auctionType p a)
    (hb : canFill auctionType p b = false) : ahead auctionType a.price b.price := by
  cases auctionType <;>
    simp only [canFill, ahead, decide_eq_true_eq, decide_eq_false_iff_not] at * <;> order

end Ahead

def levelIdxs (takerOrders : List OrderRef) (q : U64) : List ℕ :=
  Loops.indicesWhere (fun r => r.order.price = q) takerOrders

theorem mem_levelIdxs {takerOrders : List OrderRef} {q : U64} {i : ℕ} :
    i ∈ levelIdxs takerOrders q ↔ ∃ r, takerOrders[i]? = some r ∧ r.order.price = q := by
  simp [levelIdxs, Loops.mem_indicesWhere]

theorem levelIdxs_lt {takerOrders : List OrderRef} {q : U64} :
    ∀ i ∈ levelIdxs takerOrders q, i < takerOrders.length :=
  Loops.indicesWhere_lt

theorem levelIdxs_nodup (takerOrders : List OrderRef) (q : U64) : (levelIdxs takerOrders q).Nodup :=
  Loops.indicesWhere_nodup _ _

theorem levelIdxs_snoc_of_ne {takerOrders : List OrderRef} {r : OrderRef} {q : U64}
    (h : r.order.price ≠ q) : levelIdxs (takerOrders ++ [r]) q = levelIdxs takerOrders q := by
  simp [levelIdxs, Loops.indicesWhere_snoc, h]

theorem levelIdxs_snoc_self (takerOrders : List OrderRef) (r : OrderRef) :
    levelIdxs (takerOrders ++ [r]) r.order.price =
      levelIdxs takerOrders r.order.price ++ [takerOrders.length] := by
  simp [levelIdxs, Loops.indicesWhere_snoc]

theorem levelIdxs_eq_nil {takerOrders : List OrderRef} {q : U64}
    (h : ∀ r ∈ takerOrders, r.order.price ≠ q) : levelIdxs takerOrders q = [] := by
  refine List.eq_nil_iff_forall_not_mem.mpr fun i hi => ?_
  obtain ⟨r, hr, hq⟩ := mem_levelIdxs.mp hi
  exact h r (List.mem_of_getElem? hr) hq

theorem levelIdxs_ne_nil {takerOrders : List OrderRef} {r : OrderRef} (hr : r ∈ takerOrders) :
    levelIdxs takerOrders r.order.price ≠ [] := by
  obtain ⟨i, hi⟩ := List.mem_iff_getElem?.mp hr
  exact List.ne_nil_of_mem (mem_levelIdxs.mpr ⟨r, hi, rfl⟩)

def SortedTakers (auctionType : AuctionType) (takerOrders : List OrderRef) : Prop :=
  takerOrders.Pairwise fun a b => ¬ ahead auctionType b.order.price a.order.price

/-- The price levels that may trade at `price`, the most aggressive first. -/
structure LevelPrices (auctionType : AuctionType) (price : U64) (takerOrders : List OrderRef)
    (qs : List U64) : Prop where
  sorted : qs.Pairwise fun p q => ahead auctionType p q
  mem : ∀ q, q ∈ qs ↔ ∃ r ∈ takerOrders, canFill auctionType price r.order ∧ r.order.price = q

/-- The loop's variables once it has seen `takerOrders`: the groups of all levels but
the last are pushed, the last one is being filled. -/
def Grouped (takerOrders : List OrderRef) (qs : List U64) (g : Grouping) : Prop :=
  (qs = [] ∧ g = {}) ∨
    ∃ ps q, qs = ps ++ [q] ∧
      g = ⟨ps.map (levelIdxs takerOrders), levelIdxs takerOrders q, some q⟩

theorem zipIdx_foldl_snoc (auctionType : AuctionType) (price : U64) (takerOrders : List OrderRef)
    (r : OrderRef) :
    (takerOrders ++ [r]).zipIdx.foldl (groupStep auctionType price) {} =
      groupStep auctionType price (takerOrders.zipIdx.foldl (groupStep auctionType price) {})
        (r, takerOrders.length) := by
  simp [List.zipIdx_append, List.foldl_append]

section Step

variable {auctionType : AuctionType} {price : U64} {takerOrders : List OrderRef} {r : OrderRef}
  {qs : List U64} {g : Grouping}

theorem grouped_skip (hqs : LevelPrices auctionType price takerOrders qs)
    (hg : Grouped takerOrders qs g) (hr : canFill auctionType price r.order = false) :
    LevelPrices auctionType price (takerOrders ++ [r]) qs ∧
      Grouped (takerOrders ++ [r]) qs (groupStep auctionType price g (r, takerOrders.length)) := by
  have hne : ∀ q ∈ qs, r.order.price ≠ q := by
    intro q hq he
    obtain ⟨a, -, ha, haq⟩ := (hqs.mem q).mp hq
    rw [canFill_congr (haq.trans he.symm), hr] at ha
    cases ha
  refine ⟨⟨hqs.sorted, fun q => ?_⟩, ?_⟩
  · simp [hqs.mem q, hr]
  · simp only [groupStep, hr, Bool.not_false, if_true]
    rcases hg with ⟨rfl, rfl⟩ | ⟨ps, q, rfl, rfl⟩
    · exact Or.inl ⟨rfl, rfl⟩
    · refine Or.inr ⟨ps, q, rfl, ?_⟩
      rw [levelIdxs_snoc_of_ne (hne q (by simp)), List.map_congr_left fun p hp =>
        levelIdxs_snoc_of_ne (hne p (List.mem_append_left _ hp))]

theorem grouped_join {ps : List U64}
    (hqs : LevelPrices auctionType price takerOrders (ps ++ [r.order.price]))
    (hg : Grouped takerOrders (ps ++ [r.order.price]) g) (hr : canFill auctionType price r.order) :
    LevelPrices auctionType price (takerOrders ++ [r]) (ps ++ [r.order.price]) ∧
      Grouped (takerOrders ++ [r]) (ps ++ [r.order.price])
        (groupStep auctionType price g (r, takerOrders.length)) := by
  have hne : ∀ p ∈ ps, r.order.price ≠ p := fun p hp =>
    (ne_of_ahead ((List.pairwise_append.mp hqs.sorted).2.2 p hp _ (by simp))).symm
  refine ⟨⟨hqs.sorted, fun q => ?_⟩, Or.inr ⟨ps, r.order.price, rfl, ?_⟩⟩
  · rw [hqs.mem q]
    simp only [List.mem_append, List.mem_singleton]
    refine ⟨fun ⟨a, ha, hq⟩ => ⟨a, Or.inl ha, hq⟩, fun ⟨a, ha, hcan, hq⟩ => ?_⟩
    rcases ha with ha | rfl
    · exact ⟨a, ha, hcan, hq⟩
    · exact hq ▸ (hqs.mem a.order.price).mp (by simp)
  · rcases hg with ⟨hnil, -⟩ | ⟨ps', q, heq, rfl⟩
    · simp at hnil
    · obtain ⟨rfl, hq⟩ := List.append_inj' heq rfl
      obtain rfl : r.order.price = q := by simpa using hq
      simp only [groupStep, hr, Bool.not_true, Bool.false_eq_true, if_false, ne_eq,
        not_true_eq_false, levelIdxs_snoc_self]
      rw [List.map_congr_left fun p hp => levelIdxs_snoc_of_ne (hne p hp)]

theorem grouped_open (hqs : LevelPrices auctionType price takerOrders qs)
    (hg : Grouped takerOrders qs g) (hr : canFill auctionType price r.order)
    (hbehind : ∀ q ∈ qs, ahead auctionType q r.order.price) :
    LevelPrices auctionType price (takerOrders ++ [r]) (qs ++ [r.order.price]) ∧
      Grouped (takerOrders ++ [r]) (qs ++ [r.order.price])
        (groupStep auctionType price g (r, takerOrders.length)) := by
  have hne : ∀ q ∈ qs, r.order.price ≠ q := fun q hq => (ne_of_ahead (hbehind q hq)).symm
  have hfresh : levelIdxs takerOrders r.order.price = [] := by
    refine levelIdxs_eq_nil fun a ha he => ?_
    have hmem := (hqs.mem a.order.price).mpr ⟨a, ha, (canFill_congr he).trans hr, rfl⟩
    exact hne _ hmem he.symm
  have hself : levelIdxs (takerOrders ++ [r]) r.order.price = [takerOrders.length] := by
    rw [levelIdxs_snoc_self, hfresh, List.nil_append]
  refine ⟨⟨?_, fun q => ?_⟩, Or.inr ⟨qs, r.order.price, rfl, ?_⟩⟩
  · exact List.pairwise_append.mpr ⟨hqs.sorted, List.pairwise_singleton _ _,
      fun q hq s hs => by rw [List.mem_singleton.mp hs]; exact hbehind q hq⟩
  · simp only [List.mem_append, hqs.mem q, List.mem_singleton, or_and_right, exists_or,
      exists_eq_left, hr, true_and, eq_comm (a := q)]
  · rw [hself, List.map_congr_left fun q hq => levelIdxs_snoc_of_ne (hne q hq)]
    rcases hg with ⟨rfl, rfl⟩ | ⟨ps, q, rfl, rfl⟩
    · simp [groupStep, hr]
    · -- the last group is not empty, so it is pushed
      obtain ⟨a, ha, -, haq⟩ := (hqs.mem q).mp (by simp)
      have hcur : levelIdxs takerOrders q ≠ [] := haq ▸ levelIdxs_ne_nil ha
      simp [groupStep, hr, hne q (by simp), Grouping.flush, hcur]

end Step

/-- The invariant of the loop. -/
theorem grouped (auctionType : AuctionType) (price : U64) {takerOrders : List OrderRef}
    (h : SortedTakers auctionType takerOrders) :
    ∃ qs, LevelPrices auctionType price takerOrders qs ∧
      Grouped takerOrders qs (takerOrders.zipIdx.foldl (groupStep auctionType price) {}) := by
  induction takerOrders using List.reverseRecOn with
  | nil => exact ⟨[], ⟨List.Pairwise.nil, by simp⟩, Or.inl ⟨rfl, rfl⟩⟩
  | append_singleton takerOrders r ih =>
    rw [SortedTakers, List.pairwise_append] at h
    obtain ⟨hsorted, -, hlast⟩ := h
    obtain ⟨qs, hqs, hg⟩ := ih hsorted
    rw [zipIdx_foldl_snoc]
    cases hr : canFill auctionType price r.order with
    | false => exact ⟨qs, grouped_skip hqs hg hr⟩
    | true =>
      have hnot : ∀ q ∈ qs, ¬ ahead auctionType r.order.price q := by
        intro q hq
        obtain ⟨a, ha, -, rfl⟩ := (hqs.mem q).mp hq
        exact hlast a ha r (by simp)
      rcases List.eq_nil_or_concat' qs with rfl | ⟨ps, q, rfl⟩
      · exact ⟨_, grouped_open hqs hg hr (by simp)⟩
      · by_cases hq : r.order.price = q
        · subst hq
          exact ⟨_, grouped_join hqs hg hr⟩
        · -- `q` is ahead of the new price, and so are the levels ahead of `q`
          have hqr : ahead auctionType q r.order.price :=
            ahead_of_not (hnot q (by simp)) (Ne.symm hq)
          refine ⟨_, grouped_open hqs hg hr fun p hp => ?_⟩
          rcases List.mem_append.mp hp with hp | hp
          · exact ahead_trans ((List.pairwise_append.mp hqs.sorted).2.2 p hp q (by simp)) hqr
          · rw [List.mem_singleton.mp hp]; exact hqr

theorem priceGroups_eq (auctionType : AuctionType) (price : U64) {takerOrders : List OrderRef}
    (h : SortedTakers auctionType takerOrders) :
    ∃ qs, LevelPrices auctionType price takerOrders qs ∧
      priceGroups takerOrders price auctionType = qs.map (levelIdxs takerOrders) := by
  obtain ⟨qs, hqs, hg⟩ := grouped auctionType price h
  refine ⟨qs, hqs, ?_⟩
  unfold priceGroups
  rcases hg with ⟨rfl, hg⟩ | ⟨ps, q, rfl, hg⟩
  · rw [hg]; rfl
  · obtain ⟨a, ha, -, haq⟩ := (hqs.mem q).mp (by simp)
    have hcur : levelIdxs takerOrders q ≠ [] := haq ▸ levelIdxs_ne_nil ha
    rw [hg]
    simp [Grouping.flush, hcur]

theorem priceGroups_positions (auctionType : AuctionType) (price : U64) {takerOrders : List OrderRef}
    (h : SortedTakers auctionType takerOrders) :
    (priceGroups takerOrders price auctionType).flatten.Nodup ∧
      (∀ group ∈ priceGroups takerOrders price auctionType, group ≠ []) ∧
      ∀ i ∈ (priceGroups takerOrders price auctionType).flatten, i < takerOrders.length := by
  obtain ⟨qs, hqs, hgroups⟩ := priceGroups_eq auctionType price h
  rw [hgroups]
  refine ⟨List.nodup_flatten.mpr ⟨?_, ?_⟩, ?_, ?_⟩
  · intro group hgroup
    obtain ⟨q, -, rfl⟩ := List.mem_map.mp hgroup
    exact levelIdxs_nodup takerOrders q
  · refine List.pairwise_map.mpr (hqs.sorted.imp fun {p q} hahead i hp hq => ne_of_ahead hahead ?_)
    obtain ⟨r, hr, rfl⟩ := mem_levelIdxs.mp hp
    obtain ⟨r', hr', rfl⟩ := mem_levelIdxs.mp hq
    rw [Option.some.inj (hr.symm.trans hr')]
  · intro group hgroup
    obtain ⟨q, hq, rfl⟩ := List.mem_map.mp hgroup
    obtain ⟨r, hr, -, rfl⟩ := (hqs.mem q).mp hq
    exact levelIdxs_ne_nil hr
  · intro i hi
    obtain ⟨group, hgroup, hi⟩ := List.mem_flatten.mp hi
    obtain ⟨q, -, rfl⟩ := List.mem_map.mp hgroup
    exact levelIdxs_lt i hi

end ToyDfba
