import Mathlib.Data.List.MinMax
import Mathlib.Order.Bounds.Basic
import ToyDfba.Lib.Totals

/-! A market of limit prices on any linear order. The demand at a price is the
amount of the bids that go at least that high, the supply the amount of the asks
that go at most that high, and what can be matched there is the smaller of the
two. Both curves are step functions, so the prices of the asks decide which price
matches the most. -/

namespace Crossing

open Totals

variable {ι α : Type*} [LinearOrder α] (price : ι → α) (amount : ι → ℕ)

def demand (bids : List ι) (p : α) : ℕ := total amount (fun x => p ≤ price x) bids

def supply (asks : List ι) (p : α) : ℕ := total amount (fun x => price x ≤ p) asks

def matched (bids asks : List ι) (p : α) : ℕ :=
  min (demand price amount bids p) (supply price amount asks p)

theorem demand_anti {p q : α} (h : p ≤ q) (bids : List ι) :
    demand price amount bids q ≤ demand price amount bids p :=
  total_le _ fun _ _ hq => by simpa using h.trans (by simpa using hq)

theorem exists_lowest {xs : List ι} (h : xs ≠ []) : ∃ a ∈ xs, ∀ x ∈ xs, price a ≤ price x := by
  have hsome : xs.argmin price ≠ none := fun he => h (List.argmin_eq_none.mp he)
  obtain ⟨a, ha⟩ := Option.ne_none_iff_exists'.mp hsome
  exact ⟨a, List.argmin_mem ha, fun x hx => List.le_of_mem_argmin hx ha⟩

theorem exists_highest {xs : List ι} (h : xs ≠ []) : ∃ a ∈ xs, ∀ x ∈ xs, price x ≤ price a := by
  have hsome : xs.argmax price ≠ none := fun he => h (List.argmax_eq_none.mp he)
  obtain ⟨a, ha⟩ := Option.ne_none_iff_exists'.mp hsome
  exact ⟨a, List.argmax_mem ha, fun x hx => List.le_of_mem_argmax hx ha⟩

/-- The lowest bid sees the whole demand. -/
theorem exists_demand_eq_total {bids : List ι} (h : bids ≠ []) :
    ∃ b ∈ bids, demand price amount bids (price b) = total amount (fun _ => true) bids := by
  obtain ⟨b, hb, hlow⟩ := exists_lowest price h
  exact ⟨b, hb, total_congr _ fun x hx => by simpa using hlow x hx⟩

/-- The highest ask sees the whole supply. -/
theorem exists_supply_eq_total {asks : List ι} (h : asks ≠ []) :
    ∃ a ∈ asks, supply price amount asks (price a) = total amount (fun _ => true) asks := by
  obtain ⟨a, ha, hhigh⟩ := exists_highest price h
  exact ⟨a, ha, total_congr _ fun x hx => by simpa using hhigh x hx⟩

/-- Going down to the next ask price loses no supply. -/
theorem exists_ask_supply_eq {asks : List ι} {p : α} (h : 0 < supply price amount asks p) :
    ∃ a ∈ asks, price a ≤ p ∧ supply price amount asks (price a) = supply price amount asks p := by
  obtain ⟨x, hx, hxp, -⟩ := (total_pos_iff _).mp h
  have hne : asks.filter (fun x => price x ≤ p) ≠ [] :=
    List.ne_nil_of_mem (List.mem_filter.mpr ⟨hx, hxp⟩)
  obtain ⟨a, ha, hhigh⟩ := exists_highest price hne
  obtain ⟨hmem, hap⟩ := List.mem_filter.mp ha
  have hap : price a ≤ p := by simpa using hap
  refine ⟨a, hmem, hap, total_congr _ fun y hy => ?_⟩
  simp only [decide_eq_decide]
  refine ⟨fun hya => hya.trans hap, fun hyp => ?_⟩
  exact hhigh y (List.mem_filter.mpr ⟨hy, by simpa using hyp⟩)

/-- Whatever can be matched at some price can be matched at an ask price no higher. -/
theorem exists_ask_matched_le {bids asks : List ι} {p : α}
    (h : 0 < matched price amount bids asks p) :
    ∃ a ∈ asks, price a ≤ p ∧
      matched price amount bids asks p ≤ matched price amount bids asks (price a) := by
  obtain ⟨a, ha, hap, hsupply⟩ :=
    exists_ask_supply_eq price amount (lt_of_lt_of_le h (min_le_right _ _))
  refine ⟨a, ha, hap, ?_⟩
  have hdemand := demand_anti price amount hap bids
  unfold matched
  rw [hsupply]
  exact min_le_min_right _ hdemand

/-- Keep the best price seen so far, and move only for strictly more. -/
def better (volume : α → ℕ) (best : α × ℕ) (p : α) : α × ℕ :=
  if best.2 < volume p then (p, volume p) else best

/-- After trying some prices in increasing order the running best is the first of
the largest, or the start when none of them matched anything. -/
theorem foldl_better (volume : α → ℕ) (start : α) {ps : List α} (hps : ps.Pairwise (· < ·)) :
    (∀ p ∈ ps, volume p ≤ (ps.foldl (better volume) (start, 0)).2) ∧
      (ps.foldl (better volume) (start, 0) = (start, 0) ∨
        (0 < (ps.foldl (better volume) (start, 0)).2 ∧
          (ps.foldl (better volume) (start, 0)).1 ∈ ps ∧
          volume (ps.foldl (better volume) (start, 0)).1 =
            (ps.foldl (better volume) (start, 0)).2 ∧
          ∀ p ∈ ps, volume p = (ps.foldl (better volume) (start, 0)).2 →
            (ps.foldl (better volume) (start, 0)).1 ≤ p)) := by
  induction ps using List.reverseRecOn with
  | nil => simp
  | append_singleton ps q ih =>
    rw [List.pairwise_append] at hps
    obtain ⟨hps, -, hlt⟩ := hps
    obtain ⟨hmax, hbest⟩ := ih hps
    rw [List.foldl_append]
    set best := ps.foldl (better volume) (start, 0)
    have hq : [q].foldl (better volume) best = better volume best q := rfl
    rw [hq, better]
    split_ifs with hmore
    · -- `q` is strictly better than everything before it
      refine ⟨fun p hp => ?_, Or.inr ⟨by simp only; omega, by simp, rfl, fun p hp he => ?_⟩⟩
      · rcases List.mem_append.mp hp with hp | hp
        · exact (hmax p hp).trans hmore.le
        · rw [List.mem_singleton.mp hp]
      · rcases List.mem_append.mp hp with hp | hp
        · exact absurd he (ne_of_lt (lt_of_le_of_lt (hmax p hp) hmore))
        · rw [List.mem_singleton.mp hp]
    · refine ⟨fun p hp => ?_, hbest.imp_right fun ⟨hpos, hmem, hvol, hfirst⟩ => ?_⟩
      · rcases List.mem_append.mp hp with hp | hp
        · exact hmax p hp
        · rw [List.mem_singleton.mp hp]; omega
      · refine ⟨hpos, List.mem_append_left _ hmem, hvol, fun p hp he => ?_⟩
        rcases List.mem_append.mp hp with hp | hp
        · exact hfirst p hp he
        · rw [List.mem_singleton.mp hp]
          exact (hlt _ hmem q (by simp)).le

/-- Trying prices in increasing order, the ask prices among them, finds the most
that any price at all can match, and the lowest price that matches it. -/
theorem search_optimal (bids asks : List ι) (start : α) {ps : List α}
    (hps : ps.Pairwise (· < ·)) (hasks : ∀ a ∈ asks, price a ∈ ps) :
    let best := ps.foldl (better (matched price amount bids asks)) (start, 0)
    IsGreatest (Set.range (matched price amount bids asks)) best.2 ∧
      (0 < best.2 → IsLeast {p | matched price amount bids asks p = best.2} best.1) ∧
      (best.2 = 0 → best.1 = start) := by
  intro best
  obtain ⟨hmax, hbest⟩ := foldl_better (matched price amount bids asks) start hps
  have hall : ∀ p, matched price amount bids asks p ≤ best.2 := by
    intro p
    rcases Nat.eq_zero_or_pos (matched price amount bids asks p) with h0 | hpos
    · omega
    · obtain ⟨a, ha, -, hle⟩ := exists_ask_matched_le price amount hpos
      exact hle.trans (hmax _ (hasks a ha))
  have hattained : 0 < best.2 → best.1 ∈ ps ∧ matched price amount bids asks best.1 = best.2 ∧
      ∀ p ∈ ps, matched price amount bids asks p = best.2 → best.1 ≤ p := by
    intro hpos
    rcases hbest with hstart | hfound
    · have : best.2 = 0 := congrArg Prod.snd hstart
      omega
    · exact hfound.2
  refine ⟨⟨?_, by rintro _ ⟨p, rfl⟩; exact hall p⟩, fun hpos => ?_, fun hzero => ?_⟩
  · rcases Nat.eq_zero_or_pos best.2 with h0 | hpos
    · exact ⟨start, by have := hall start; omega⟩
    · exact ⟨best.1, (hattained hpos).2.1⟩
  · obtain ⟨-, hvol, hfirst⟩ := hattained hpos
    refine ⟨hvol, fun p hp => ?_⟩
    have hp : matched price amount bids asks p = best.2 := hp
    -- some ask price at or below `p` matches as much, and it was tried
    obtain ⟨a, ha, hap, hle⟩ := exists_ask_matched_le price amount (hp ▸ hpos)
    have := hall (price a)
    exact (hfirst _ (hasks a ha) (by omega)).trans hap
  · rcases hbest with hstart | ⟨hpos, -⟩
    · exact congrArg Prod.fst hstart
    · exact absurd hzero hpos.ne'

end Crossing
