import Mathlib.Data.List.Basic
import Mathlib.Data.List.Destutter
import Mathlib.Data.List.Nodup
import Mathlib.Data.List.Perm.Basic
import Mathlib.Order.Lattice
import Mathlib.Tactic.Common

/-! Loops that may fail, as folds in `Option`, loops that write to a list in place
through indices, and the removal of adjacent repetitions. -/

namespace Loops

variable {α σ τ : Type*}

/-- A fold whose step fails for reasons of the item alone, and whose successes
follow a pure step `g` under the reading `φ` of the accumulator. -/
theorem foldlM_eq_some_iff {f : σ → α → Option σ} {φ : σ → τ} (hφ : φ.Injective)
    {ok : α → Prop} {g : τ → α → τ} {items : List α}
    (hok : ∀ a, ∀ x ∈ items, (∃ b, f a x = some b) ↔ ok x)
    (hval : ∀ a, ∀ x ∈ items, ∀ b, f a x = some b → φ b = g (φ a) x) {a b : σ} :
    items.foldlM f a = some b ↔ (∀ x ∈ items, ok x) ∧ φ b = items.foldl g (φ a) := by
  induction items generalizing a with
  | nil =>
    simp only [List.foldlM_nil, Option.pure_def, Option.some.injEq, List.not_mem_nil,
      false_implies, implies_true, true_and, List.foldl_nil]
    exact ⟨fun h => by rw [h], fun h => (hφ h).symm⟩
  | cons x items ih =>
    have ih := fun a => ih (a := a) (fun a y hy => hok a y (List.mem_cons_of_mem x hy))
      (fun a y hy => hval a y (List.mem_cons_of_mem x hy))
    simp only [List.foldlM_cons, Option.bind_eq_bind, Option.bind_eq_some_iff,
      List.forall_mem_cons, List.foldl_cons]
    refine ⟨?_, ?_⟩
    · intro hsome
      obtain ⟨c, hc, hb⟩ := hsome
      obtain ⟨hall, he⟩ := (ih c).mp hb
      rw [hval a x (by simp) c hc] at he
      exact ⟨⟨(hok a x (by simp)).mp ⟨c, hc⟩, hall⟩, he⟩
    · intro hspec
      obtain ⟨⟨hx, hall⟩, he⟩ := hspec
      obtain ⟨c, hc⟩ := (hok a x (by simp)).mpr hx
      refine ⟨c, hc, (ih c).mpr ⟨hall, ?_⟩⟩
      rw [he, hval a x (by simp) c hc]

/-- A fold that reads its items through indices is the fold over what they read. -/
theorem foldlM_reads (f : σ → α → Option σ) (xs : List α) (idxs : List ℕ) (a : σ)
    (h : ∀ i ∈ idxs, i < xs.length) :
    idxs.foldlM (fun a i => xs[i]?.bind (f a)) a = (idxs.filterMap fun i => xs[i]?).foldlM f a := by
  induction idxs generalizing a with
  | nil => rfl
  | cons i idxs ih =>
    have hlt := h i (by simp)
    have hi : xs[i]? = some xs[i] := List.getElem?_eq_getElem hlt
    simp only [List.foldlM_cons, List.filterMap_cons, hi, Option.bind_eq_bind,
      Option.bind_some]
    congr 1
    funext b
    exact ih b (fun j hj => h j (List.mem_cons_of_mem i hj))

theorem mapM_eq_self {f : α → Option α} {xs : List α} (h : ∀ x ∈ xs, f x = some x) :
    xs.mapM f = some xs := by
  induction xs with
  | nil => rfl
  | cons x xs ih =>
    rw [List.mapM_cons, h x (by simp), ih fun y hy => h y (List.mem_cons_of_mem x hy)]
    rfl

theorem mapM_eq_some_iff {f : α → Option τ} {xs : List α} {ys : List τ} :
    xs.mapM f = some ys ↔ xs.map f = ys.map some := by
  induction xs generalizing ys with
  | nil => cases ys <;> simp
  | cons x xs ih =>
    rw [List.mapM_cons]
    constructor
    · intro h
      obtain ⟨y, hy, h⟩ := Option.bind_eq_some_iff.mp h
      obtain ⟨ys', hys, h⟩ := Option.bind_eq_some_iff.mp h
      obtain rfl := Option.some.inj h
      rw [List.map_cons, List.map_cons, hy, ih.mp hys]
    · intro h
      cases ys with
      | nil => cases h
      | cons y ys =>
        obtain ⟨hy, hys⟩ := List.cons.inj h
        rw [hy, ih.mpr hys]
        rfl

theorem exists_of_mapM_eq_none {f : α → Option τ} {xs : List α} (h : xs.mapM f = none) :
    ∃ x ∈ xs, f x = none := by
  induction xs with
  | nil => cases h
  | cons x xs ih =>
    rw [List.mapM_cons] at h
    cases hx : f x with
    | none => exact ⟨x, List.mem_cons_self, hx⟩
    | some y =>
      cases hxs : xs.mapM f with
      | none =>
        obtain ⟨x', hmem, hnone⟩ := ih hxs
        exact ⟨x', List.mem_cons_of_mem x hmem, hnone⟩
      | some ys =>
        rw [hx, hxs] at h
        cases h

/-- `xs[i] := f(xs[i])`, where both the index and `f` may be out of range. -/
def updateAt (f : α → Option α) (xs : List α) (i : ℕ) : Option (List α) := do
  let x ← xs[i]?
  let y ← f x
  some (xs.set i y)

theorem updateAt_eq_some {f : α → Option α} {xs ys : List α} {i : ℕ} (hi : i < xs.length) :
    updateAt f xs i = some ys ↔ ∃ y, f xs[i] = some y ∧ ys = xs.set i y := by
  simp only [updateAt, List.getElem?_eq_getElem hi, Option.bind_eq_bind, Option.bind_some,
    Option.bind_eq_some_iff, Option.some.injEq, eq_comm (a := ys)]

/-- Writing each of a set of slots once: the slots all get `g`, the others keep
their value, and the loop succeeds exactly when every one of the writes does. The
slots are distinct, so a write still finds the value the loop started from. -/
theorem foldlM_updateAt_eq_some {f : α → Option α} {ok : α → Prop} {g : α → α}
    {idxs : List ℕ} (hnd : idxs.Nodup) {xs ys : List α}
    (hlt : ∀ i ∈ idxs, i < xs.length)
    (hf : ∀ i ∈ idxs, ∀ x, xs[i]? = some x → ∀ y, f x = some y ↔ ok x ∧ y = g x) :
    idxs.foldlM (updateAt f) xs = some ys ↔
      (∀ i ∈ idxs, ∀ x, xs[i]? = some x → ok x) ∧
        ys = xs.mapIdx fun i x => if i ∈ idxs then g x else x := by
  induction idxs generalizing xs with
  | nil =>
    have hid : (xs.mapIdx fun i x => if i ∈ ([] : List ℕ) then g x else x) = xs := by
      apply List.ext_getElem <;> simp
    rw [hid]
    simp [eq_comm]
  | cons i idxs ih =>
    obtain ⟨hni, hnd⟩ := List.nodup_cons.mp hnd
    have hi := hlt i (by simp)
    have hget := List.getElem?_eq_getElem hi
    -- a slot still to be written is not the one just written
    have hkeep : ∀ y, ∀ j ∈ idxs, (xs.set i y)[j]? = xs[j]? := by
      intro y j hj
      exact List.getElem?_set_ne (by rintro rfl; exact hni hj)
    have ih := fun y => @ih hnd (xs.set i y)
      (fun j hj => by simpa using hlt j (List.mem_cons_of_mem i hj))
      (fun j hj x hx => hf j (List.mem_cons_of_mem i hj) x (by rw [← hkeep y j hj]; exact hx))
    have hmap : (xs.set i (g xs[i])).mapIdx (fun j x => if j ∈ idxs then g x else x) =
        xs.mapIdx fun j x => if j ∈ i :: idxs then g x else x := by
      apply List.ext_getElem (by simp)
      intro j h₁ h₂
      simp only [List.getElem_mapIdx, List.getElem_set, List.mem_cons]
      by_cases hj : i = j
      · subst hj; simp [hni]
      · simp [hj, Ne.symm hj]
    simp only [List.foldlM_cons, Option.bind_eq_bind, Option.bind_eq_some_iff,
      updateAt_eq_some hi, List.forall_mem_cons]
    refine ⟨?_, ?_⟩
    · intro hsome
      obtain ⟨zs, ⟨y, hy, rfl⟩, hys⟩ := hsome
      obtain ⟨hoki, rfl⟩ := (hf i (by simp) _ hget y).mp hy
      obtain ⟨hall, rfl⟩ := (ih _).mp hys
      refine ⟨⟨fun x hx => ?_, fun j hj x hx => hall j hj x (by rw [hkeep _ j hj]; exact hx)⟩, hmap⟩
      rw [hget, Option.some.injEq] at hx
      exact hx ▸ hoki
    · intro hspec
      obtain ⟨⟨hoki, hall⟩, rfl⟩ := hspec
      refine ⟨_, ⟨g xs[i], (hf i (by simp) _ hget _).mpr ⟨hoki _ hget, rfl⟩, rfl⟩, ?_⟩
      exact (ih _).mpr ⟨fun j hj x hx => hall j hj x (by rw [← hkeep _ j hj]; exact hx), hmap.symm⟩

/-- The positions of the items that satisfy `c`, in increasing order. -/
def indicesWhere (c : α → Bool) (xs : List α) : List ℕ :=
  (xs.zipIdx.filter fun x => c x.1).map Prod.snd

theorem indicesWhere_snoc (c : α → Bool) (xs : List α) (x : α) :
    indicesWhere c (xs ++ [x]) = indicesWhere c xs ++ if c x then [xs.length] else [] := by
  cases h : c x <;> simp [indicesWhere, List.zipIdx_append, h]

theorem mem_indicesWhere {c : α → Bool} {xs : List α} {i : ℕ} :
    i ∈ indicesWhere c xs ↔ ∃ x, xs[i]? = some x ∧ c x := by
  simp only [indicesWhere, List.mem_map, List.mem_filter, Prod.exists]
  refine ⟨fun ⟨x, j, ⟨hmem, hc⟩, he⟩ => ?_, fun ⟨x, hx, hc⟩ => ⟨x, i, ⟨?_, hc⟩, rfl⟩⟩
  · exact ⟨x, he ▸ List.mem_zipIdx_iff_getElem?.mp hmem, hc⟩
  · exact List.mem_zipIdx_iff_getElem?.mpr hx

theorem indicesWhere_lt {c : α → Bool} {xs : List α} : ∀ i ∈ indicesWhere c xs, i < xs.length := by
  intro i hi
  obtain ⟨x, hx, -⟩ := mem_indicesWhere.mp hi
  exact (List.getElem?_eq_some_iff.mp hx).1

theorem indicesWhere_nodup (c : α → Bool) (xs : List α) : (indicesWhere c xs).Nodup := by
  have hsub := (List.filter_sublist (p := fun x : α × ℕ => c x.1) (l := xs.zipIdx)).map Prod.snd
  have hall : (xs.zipIdx.map Prod.snd).Nodup := by
    rw [List.zipIdx_map_snd]
    exact List.nodup_range'
  exact hsub.nodup hall

/-- Reading the list at those positions gives the items themselves. -/
theorem filterMap_indicesWhere (c : α → Bool) (xs : List α) :
    (indicesWhere c xs).filterMap (fun i => xs[i]?) = xs.filter c := by
  have hread : ∀ x ∈ xs.zipIdx.filter (fun x => c x.1), xs[x.2]? = some x.1 := by
    intro x hx
    exact List.mem_zipIdx_iff_getElem?.mp (List.mem_filter.mp hx).1
  rw [indicesWhere, List.filterMap_map]
  calc (xs.zipIdx.filter fun x => c x.1).filterMap ((fun i => xs[i]?) ∘ Prod.snd)
      = (xs.zipIdx.filter fun x => c x.1).filterMap (fun x => some x.1) :=
        List.filterMap_congr hread
    _ = (xs.zipIdx.filter fun x => c x.1).map Prod.fst :=
        congrFun List.filterMap_eq_map _
    _ = xs.filter c := by
        conv_rhs => rw [← List.zipIdx_map_fst 0 xs, List.filter_map]
        rfl

/-- The list after the writes `(slot, value)`, one after the other. -/
def writeAll (xs : List α) (writes : List (ℕ × α)) : List α :=
  writes.foldl (fun xs w => xs.set w.1 w.2) xs

@[simp] theorem writeAll_length (xs : List α) (writes : List (ℕ × α)) :
    (writeAll xs writes).length = xs.length := by
  induction writes generalizing xs with
  | nil => rfl
  | cons w writes ih => exact (ih _).trans (by simp)

theorem writeAll_map {β : Type*} (f : α → β) (xs : List α) (writes : List (ℕ × α)) :
    writeAll (xs.map f) (writes.map (Prod.map id f)) = (writeAll xs writes).map f := by
  induction writes generalizing xs with
  | nil => rfl
  | cons w writes ih =>
    have hset : (xs.map f).set w.1 (f w.2) = (xs.set w.1 w.2).map f := List.map_set.symm
    exact (congrArg (writeAll · _) hset).trans (ih _)

theorem writeAll_getElem?_of_notMem {xs : List α} {writes : List (ℕ × α)} {i : ℕ}
    (h : ∀ w ∈ writes, w.1 ≠ i) : (writeAll xs writes)[i]? = xs[i]? := by
  induction writes generalizing xs with
  | nil => rfl
  | cons w writes ih =>
    have hw := h w (by simp)
    exact (ih (fun v hv => h v (List.mem_cons_of_mem w hv))).trans (List.getElem?_set_ne hw)

theorem writeAll_getElem?_of_mem {xs : List α} {writes : List (ℕ × α)} {w : ℕ × α}
    (hnd : (writes.map Prod.fst).Nodup) (hw : w ∈ writes) (hi : w.1 < xs.length) :
    (writeAll xs writes)[w.1]? = some w.2 := by
  induction writes generalizing xs with
  | nil => cases hw
  | cons v writes ih =>
    obtain ⟨hv, hnd⟩ := List.nodup_cons.mp hnd
    rcases List.mem_cons.mp hw with rfl | hw
    · have hne : ∀ u ∈ writes, u.1 ≠ w.1 :=
        fun u hu he => hv (he ▸ List.mem_map_of_mem hu)
      exact (writeAll_getElem?_of_notMem hne).trans (by simp [hi])
    · exact ih hnd hw (by simpa using hi)

/-- What a pass has kept of a list, in order, all but so many of its items. -/
structure AllBut (missed : ℕ) (xs ys : List α) : Prop where
  sublist : xs.Sublist ys
  length : ys.length ≤ xs.length + missed

section AllBut

variable {missed missed' : ℕ} {xs ys : List α}

theorem AllBut.nil : AllBut missed ([] : List α) [] := ⟨List.Sublist.refl _, Nat.zero_le _⟩

theorem AllBut.mono (h : AllBut missed xs ys) (hle : missed ≤ missed') : AllBut missed' xs ys :=
  ⟨h.sublist, h.length.trans (Nat.add_le_add_left hle _)⟩

theorem AllBut.keep (h : AllBut missed xs ys) (zs : List α) :
    AllBut missed (xs ++ zs) (ys ++ zs) := by
  constructor
  · exact h.sublist.append_right zs
  · have hlength := h.length
    rw [List.length_append, List.length_append]
    omega

theorem AllBut.miss (h : AllBut missed xs ys) {zs : List α} (hone : zs.length ≤ 1) :
    AllBut (missed + 1) xs (ys ++ zs) := by
  constructor
  · exact h.sublist.trans (List.sublist_append_left _ _)
  · have hlength := h.length
    rw [List.length_append]
    omega

end AllBut

theorem mem_destutter'_ne [DecidableEq α] {l : List α} {a x : α} :
    x ∈ l.destutter' (· ≠ ·) a ↔ x = a ∨ x ∈ l := by
  induction l generalizing a with
  | nil => simp
  | cons b l ih =>
    by_cases hab : a = b
    · subst hab
      simp [ih]
    · simp [hab, ih]

/-- Removing adjacent repetitions loses no element. -/
theorem mem_destutter_ne [DecidableEq α] {l : List α} {x : α} : x ∈ l.destutter (· ≠ ·) ↔ x ∈ l := by
  cases l with
  | nil => rfl
  | cons a l => simp [List.destutter_cons', mem_destutter'_ne]

theorem isChain_lt_of_ne [LinearOrder α] {l : List α} (hne : l.IsChain (· ≠ ·))
    (hle : l.Pairwise (· ≤ ·)) : l.IsChain (· < ·) := by
  induction hne with
  | nil => exact .nil
  | singleton a => exact .singleton a
  | cons_cons hab _ ih =>
    rw [List.pairwise_cons] at hle
    exact .cons_cons (lt_of_le_of_ne (hle.1 _ (by simp)) hab) (ih hle.2)

/-- On a sorted list it leaves a strictly sorted one. -/
theorem destutter_ne_pairwise_lt [LinearOrder α] {l : List α} (h : l.Pairwise (· ≤ ·)) :
    (l.destutter (· ≠ ·)).Pairwise (· < ·) :=
  (isChain_lt_of_ne (List.isChain_destutter _ l) (h.sublist (List.destutter_sublist _ l))).pairwise

end Loops
