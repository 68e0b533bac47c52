import ToyDfba.Lib.Runs
import ToyDfba.Lib.Totals

/-! Items that arrive at one of several places, stay there in the order of their
arrival while the steps of a machine change them, and leave for a reason. The ledger
keeps them all: no entry is ever dropped or moved, and the items at a place are those
of its entries that have not left. -/

namespace Ledger

structure Entry (κ α ρ : Type*) where
  place : κ
  item : α
  removed : Option ρ

section Entries

variable {κ α ρ : Type*}

/-- What a step makes of an entry, when `fate` says what it makes of the items at a
place: the item they become, and why they leave if they do. -/
def Entry.advance (fate : κ → α → α × Option ρ) (e : Entry κ α ρ) : Entry κ α ρ :=
  if e.removed.isSome then e else ⟨e.place, (fate e.place e.item).1, (fate e.place e.item).2⟩

/-- What a step leaves of an item at its place. -/
def survivor (fate : α → α × Option ρ) (a : α) : Option α :=
  if (fate a).2.isNone then some (fate a).1 else none

/-- A step leaves the items of some kind as they are when it neither changes nor removes
them, and makes none of any other. -/
theorem filter_filterMap_survivor {fate : α → α × Option ρ} {c : α → Bool} {as : List α}
    (hkeeps : ∀ a ∈ as, c a → fate a = (a, none)) (hkind : ∀ a ∈ as, c (fate a).1 → c a) :
    (as.filterMap (survivor fate)).filter c = as.filter c := by
  rw [← List.filterMap_eq_filter, List.filterMap_filterMap]
  refine List.filterMap_congr fun a ha => ?_
  by_cases hc : c a
  · simp [survivor, hkeeps a ha hc]
  · have hnot : ¬ c (fate a).1 := fun h => hc (hkind a ha h)
    by_cases hgone : (fate a).2.isNone <;> simp [survivor, Option.guard, hgone, hc, hnot]

def arrive (places : List κ) (new : κ → List α) : List (Entry κ α ρ) :=
  places.flatMap fun k => (new k).map fun a => ⟨k, a, none⟩

variable [DecidableEq κ]

def Entry.resting (k : κ) (e : Entry κ α ρ) : Option α :=
  if e.place = k ∧ e.removed.isNone then some e.item else none

/-- The items at a place, in the order of their arrival. -/
def resting (k : κ) (ledger : List (Entry κ α ρ)) : List α := ledger.filterMap (Entry.resting k)

theorem mem_resting {k : κ} {ledger : List (Entry κ α ρ)} {e : Entry κ α ρ} (he : e ∈ ledger)
    (hk : e.place = k) (hlive : e.removed = none) : e.item ∈ resting k ledger :=
  List.mem_filterMap.mpr ⟨e, he, by simp [Entry.resting, hk, hlive]⟩

theorem resting_append (k : κ) (xs ys : List (Entry κ α ρ)) :
    resting k (xs ++ ys) = resting k xs ++ resting k ys :=
  List.filterMap_append

theorem resting_advance (fate : κ → α → α × Option ρ) (k : κ) (ledger : List (Entry κ α ρ)) :
    resting k (ledger.map (Entry.advance fate)) =
      (resting k ledger).filterMap (survivor (fate k)) := by
  simp only [resting, List.filterMap_map, List.filterMap_filterMap]
  refine List.filterMap_congr fun e _ => ?_
  by_cases hk : e.place = k
  · subst hk
    cases hgone : e.removed <;> simp [Entry.advance, Entry.resting, survivor, hgone]
  · cases hgone : e.removed <;> simp [Entry.advance, Entry.resting, hgone, hk]

theorem resting_arrivals (k k' : κ) (items : List α) :
    resting k (items.map fun a => (⟨k', a, none⟩ : Entry κ α ρ)) = if k' = k then items else [] := by
  rw [resting, List.filterMap_map]
  split_ifs with hk
  · simp [Entry.resting, hk]
  · simp [Function.comp_def, Entry.resting, hk]

theorem resting_arrive {places : List κ} (hnd : places.Nodup) {k : κ} (hk : k ∈ places)
    (new : κ → List α) : resting k (arrive places new : List (Entry κ α ρ)) = new k := by
  induction places with
  | nil => cases hk
  | cons k' places ih =>
    obtain ⟨hnot, hnd⟩ := List.nodup_cons.mp hnd
    rw [arrive, List.flatMap_cons, resting_append, resting_arrivals]
    rcases List.mem_cons.mp hk with rfl | hk
    · have hrest : resting k (arrive places new : List (Entry κ α ρ)) = [] := by
        refine List.filterMap_eq_nil_iff.mpr fun e he => ?_
        obtain ⟨k', hk', he⟩ := List.mem_flatMap.mp he
        obtain ⟨a, -, rfl⟩ := List.mem_map.mp he
        simp only [Entry.resting, show k' ≠ k from fun h => hnot (h ▸ hk'), false_and, if_false]
      rw [if_pos rfl]
      exact (congrArg (new k ++ ·) hrest).trans (List.append_nil _)
    · rw [if_neg (by rintro rfl; exact hnot hk), List.nil_append]
      exact ih hnd hk

/-- What the items at a place have become, one by one. -/
def became (k : κ) (ledger ledger' : List (Entry κ α ρ)) : List α :=
  (ledger.zip ledger').filterMap fun e => (e.1.resting k).map fun _ => e.2.item

theorem became_advance (fate : κ → α → α × Option ρ) (k : κ) (ledger : List (Entry κ α ρ)) :
    became k ledger (ledger.map (Entry.advance fate)) =
      (resting k ledger).map fun a => (fate k a).1 := by
  have hone : ∀ e : Entry κ α ρ, (e.resting k).map (fun _ => (e.advance fate).item) =
      (e.resting k).map fun a => (fate k a).1 := by
    rintro ⟨k', a, removed⟩
    by_cases hk : k' = k
    · subst hk
      cases removed <;> simp [Entry.resting, Entry.advance]
    · simp [Entry.resting, hk]
  induction ledger with
  | nil => rfl
  | cons e ledger ih =>
    unfold became resting at ih ⊢
    rw [List.map_filterMap] at ih ⊢
    rw [List.map_cons, List.zip_cons_cons, List.filterMap_cons, List.filterMap_cons, hone, ih]

end Entries

section Held

open Totals

variable {κ α ρ : Type*} [DecidableEq κ] (w : α → ℕ)

/-- What all the items that ever arrived at a place weigh by now. -/
def held (k : κ) (ledger : List (Entry κ α ρ)) : ℕ :=
  total (fun e => w e.item) (fun e => e.place = k) ledger

theorem held_append (k : κ) (xs ys : List (Entry κ α ρ)) :
    held w k (xs ++ ys) = held w k xs + held w k ys :=
  total_append _ _ xs ys

/-- Items that arrive without any weight add none. -/
theorem held_arrive {k : κ} {places : List κ} {new : κ → List α}
    (h : ∀ k ∈ places, ∀ a ∈ new k, w a = 0) :
    held w k (arrive places new : List (Entry κ α ρ)) = 0 := by
  refine (total_eq_zero_iff _).mpr fun e he _ => ?_
  obtain ⟨k', hk', he⟩ := List.mem_flatMap.mp he
  obtain ⟨a, ha, rfl⟩ := List.mem_map.mp he
  exact h k' hk' a ha

/-- A step adds what it makes the items at the place grow by. -/
theorem held_advance {fate : κ → α → α × Option ρ} {k : κ} {ledger : List (Entry κ α ρ)}
    (hgrows : ∀ a ∈ resting k ledger, w a ≤ w (fate k a).1) :
    held w k (ledger.map (Entry.advance fate)) =
      held w k ledger + total (fun a => w (fate k a).1 - w a) (fun _ => true) (resting k ledger) := by
  induction ledger with
  | nil => rfl
  | cons e ledger ih =>
    obtain ⟨k', a, removed⟩ := e
    have hstep : resting k (⟨k', a, removed⟩ :: ledger) =
        resting k [⟨k', a, removed⟩] ++ resting k ledger := resting_append k [_] ledger
    rw [hstep] at hgrows ⊢
    have ih := ih fun b hb => hgrows b (List.mem_append_right _ hb)
    have hhead := fun b hb => hgrows b (List.mem_append_left _ hb)
    simp only [held, List.map_cons, total_cons, total_append] at ih ⊢
    rw [ih]
    by_cases hk : k' = k
    · subst hk
      cases removed with
      | some r => simp [Entry.advance, resting, Entry.resting, Nat.add_assoc]
      | none =>
        have hle := hhead a (by simp [resting, Entry.resting])
        simp only [Entry.advance, resting, Entry.resting, List.filterMap_cons, List.filterMap_nil,
          Option.isSome_none, Option.isNone_none, Bool.false_eq_true, if_false, if_true, and_true,
          decide_true, total_cons, total_nil]
        omega
    · cases removed <;> simp [Entry.advance, resting, Entry.resting, hk]

end Held

section Machine

variable {σ τ κ α ρ : Type*} (apply : σ → τ → σ)
  (fate : σ → τ → κ → α → α × Option ρ) (new : σ → τ → κ → List α) (places : List κ)

/-- A step changes the entries in place and adds those of the items that arrive. -/
def record (ledger : List (Entry κ α ρ)) (st : σ × τ) : List (Entry κ α ρ) :=
  ledger.map (Entry.advance (fate st.1 st.2)) ++ arrive places (new st.1 st.2)

def book (s : σ) (xs : List τ) : List (Entry κ α ρ) :=
  (Runs.trace apply s xs).foldl (record fate new places) []

theorem book_snoc (s : σ) (xs : List τ) (x : τ) :
    book apply fate new places s (xs ++ [x]) =
      record fate new places (book apply fate new places s xs) (Runs.run apply s xs, x) := by
  rw [book, Runs.trace_snoc, List.foldl_append]
  rfl

variable {apply fate new places}

/-- When every step leaves at a place the survivors in their order, followed by the
items that arrive, a place holds after every run what the ledger says. -/
theorem resting_book [DecidableEq κ] (items : σ → κ → List α) (hnd : places.Nodup)
    (hall : ∀ k, k ∈ places)
    (hstep : ∀ s x k, items (apply s x) k =
      (items s k).filterMap (survivor (fate s x k)) ++ new s x k)
    {s : σ} (hs : ∀ k, items s k = []) (xs : List τ) (k : κ) :
    resting k (book apply fate new places s xs) = items (Runs.run apply s xs) k := by
  induction xs using List.reverseRecOn with
  | nil => exact (hs k).symm
  | append_singleton xs x ih =>
    rw [book_snoc, record, resting_append, resting_advance, resting_arrive hnd (hall k), ih,
      Runs.run_snoc, hstep]

end Machine

end Ledger
