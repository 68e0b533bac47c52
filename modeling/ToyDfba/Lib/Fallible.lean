import ToyDfba.Lib.Checked
import ToyDfba.Lib.Loops

/-! Arithmetic on exact numbers in which every operation names the fault it can meet. A
test says which sums and products the machine can hold. If it holds all of them this is
the arithmetic of the natural numbers, and if it holds those below a bound it fails
where the checked words of that bound do.

A computation over it is reasoned about in two ways. `Ends` says what it comes to when it
meets no fault but the allowed ones, and `Follows` that it keeps to a computation over words. -/

namespace Fallible

inductive Fault where
  | addOverflow
  | subUnderflow
  | mulOverflow
  | divByZero
  | indexOutOfRange
  deriving DecidableEq, Repr

variable {α β σ τ : Type}

def add (fits : ℕ → Bool) (a b : ℕ) : Except Fault ℕ :=
  if fits (a + b) then .ok (a + b) else .error .addOverflow

def sub (a b : ℕ) : Except Fault ℕ := if b ≤ a then .ok (a - b) else .error .subUnderflow

def mul (fits : ℕ → Bool) (a b : ℕ) : Except Fault ℕ :=
  if fits (a * b) then .ok (a * b) else .error .mulOverflow

def div (a b : ℕ) : Except Fault ℕ := if b = 0 then .error .divByZero else .ok (a / b)

def get (xs : List α) (i : ℕ) : Except Fault α :=
  match xs[i]? with
  | some x => .ok x
  | none => .error .indexOutOfRange

/-- `xs[i] := f(xs[i])` -/
def updateAt (f : α → Except Fault α) (xs : List α) (i : ℕ) : Except Fault (List α) := do
  let x ← get xs i
  let y ← f x
  .ok (xs.set i y)

section Ends

/-- The computation comes to a result that satisfies `Q`, or to one of the faults `E`. -/
def Ends (E : Fault → Prop) (Q : α → Prop) : Except Fault α → Prop
  | .ok a => Q a
  | .error e => E e

/-- The faults of a machine that cannot hold every number. -/
def Overflow (fits : ℕ → Bool) : Fault → Prop
  | .addOverflow | .mulOverflow => ∃ n, fits n = false
  | _ => False

variable {E : Fault → Prop} {fits : ℕ → Bool}

theorem Ends.mono {Q Q' : α → Prop} {x : Except Fault α} (h : Ends E Q x) (hQ : ∀ a, Q a → Q' a) :
    Ends E Q' x := by
  cases x with
  | ok a => exact hQ a h
  | error e => exact h

theorem Ends.bind {Q : α → Prop} {P : β → Prop} {x : Except Fault α} {f : α → Except Fault β}
    (h : Ends E Q x) (hf : ∀ a, Q a → Ends E P (f a)) : Ends E P (x >>= f) := by
  cases x with
  | ok a => exact hf a h
  | error e => exact h

theorem Ends.ite {Q : α → Prop} {c : Prop} [Decidable c] {x y : Except Fault α}
    (h : c → Ends E Q x) (h' : ¬ c → Ends E Q y) : Ends E Q (if c then x else y) := by
  split_ifs with hc
  · exact h hc
  · exact h' hc

/-- A loop whose step keeps an invariant. -/
theorem Ends.foldlM {I : σ → Prop} {f : σ → α → Except Fault σ} {xs : List α} {s : σ} (hs : I s)
    (hstep : ∀ s, I s → ∀ x ∈ xs, Ends E I (f s x)) : Ends E I (xs.foldlM f s) := by
  induction xs generalizing s with
  | nil => exact hs
  | cons x xs ih =>
    rw [List.foldlM_cons]
    refine (hstep s hs x (by simp)).bind fun s' hs' => ih hs' fun s hs y hy => ?_
    exact hstep s hs y (List.mem_cons_of_mem x hy)

theorem Ends.mapM {f : α → Except Fault β} {xs : List α}
    (h : ∀ x ∈ xs, Ends E (fun _ => True) (f x)) : Ends E (fun _ => True) (xs.mapM f) := by
  induction xs with
  | nil => trivial
  | cons x xs ih =>
    rw [List.mapM_cons]
    refine (h x (by simp)).bind fun y _ => ?_
    exact (ih fun x hx => h x (List.mem_cons_of_mem _ hx)).bind fun ys _ => trivial

theorem ends_add (fits : ℕ → Bool) (a b : ℕ) :
    Ends (Overflow fits) (fun c => c = a + b) (add fits a b) := by
  unfold add
  split_ifs with h
  · rfl
  · exact ⟨_, Bool.eq_false_iff.mpr h⟩

theorem ends_mul (fits : ℕ → Bool) (a b : ℕ) :
    Ends (Overflow fits) (fun c => c = a * b) (mul fits a b) := by
  unfold mul
  split_ifs with h
  · rfl
  · exact ⟨_, Bool.eq_false_iff.mpr h⟩

theorem ends_sub {a b : ℕ} (h : b ≤ a) : Ends E (fun c => c = a - b) (sub a b) := by
  rw [sub, if_pos h]
  rfl

theorem ends_div {a b : ℕ} (h : 0 < b) : Ends E (fun c => c = a / b) (div a b) := by
  rw [div, if_neg h.ne']
  rfl

theorem ends_get {xs : List α} {i : ℕ} {x : α} (h : xs[i]? = some x) :
    Ends E (fun y => y = x) (get xs i) := by
  rw [get, h]
  rfl

theorem Ends.updateAt {f : α → Except Fault α} {xs : List α} {i : ℕ} {x : α} (hi : xs[i]? = some x)
    (hx : Ends E (fun _ => True) (f x)) :
    Ends E (fun ys => ∀ j, j ≠ i → ys[j]? = xs[j]?) (updateAt f xs i) := by
  refine (ends_get hi).bind fun x' hx' => ?_
  subst hx'
  exact hx.bind fun y _ j hj => List.getElem?_set_ne (Ne.symm hj)

/-- A machine that holds every number meets no fault at all. -/
theorem Ends.exists_ok {Q : α → Prop} {x : Except Fault α}
    (h : Ends (Overflow fun _ => true) Q x) : ∃ a, x = .ok a ∧ Q a := by
  cases x with
  | ok a => exact ⟨a, rfl, h⟩
  | error e => cases e <;> simp [Ends, Overflow] at h

theorem Ends.overflow {Q : α → Prop} {e : Fault} {x : Except Fault α}
    (h : Ends (Overflow fits) Q x) (he : x = .error e) : e = .addOverflow ∨ e = .mulOverflow := by
  subst he
  cases e <;> simp [Ends, Overflow] at h ⊢

end Ends

section Follows

/-- A machine that holds the words below `m`. -/
def Holds (m : ℕ) (fits : ℕ → Bool) : Prop := ∀ n, n < m → fits n

/-- A machine that holds nothing else. -/
def HoldsOnly (m : ℕ) (fits : ℕ → Bool) : Prop := ∀ n, fits n → n < m

/-- `y` keeps to `x`, whose results are read by `φ`: it succeeds where `x` does, with the
same result, and under the condition `C` it fails where `x` does. -/
structure Follows (C : Prop) (φ : α → β) (x : Option α) (y : Except Fault β) : Prop where
  ok : ∀ a, x = some a → y = .ok (φ a)
  fails : C → x = none → ∃ e, y = .error e

variable {C : Prop} {φ : α → β} {ψ : σ → τ}

theorem follows_some (C : Prop) (φ : α → β) (a : α) : Follows C φ (some a) (.ok (φ a)) :=
  ⟨fun _ h => (by rw [Option.some.inj h]), fun _ h => (by cases h)⟩

theorem follows_none (C : Prop) (φ : α → β) (e : Fault) : Follows C φ none (.error e) :=
  ⟨fun _ h => (by cases h), fun _ _ => ⟨e, rfl⟩⟩

theorem Follows.bind {x : Option α} {y : Except Fault β} {f : α → Option σ} {g : β → Except Fault τ}
    (h : Follows C φ x y) (hf : ∀ a, x = some a → Follows C ψ (f a) (g (φ a))) :
    Follows C ψ (x >>= f) (y >>= g) := by
  cases x with
  | some a =>
    rw [h.ok a rfl]
    exact hf a rfl
  | none =>
    refine ⟨fun _ h => (by cases h), fun hC _ => ?_⟩
    obtain ⟨e, he⟩ := h.fails hC rfl
    exact ⟨e, by rw [he]; rfl⟩

/-- Both take the same branch. -/
theorem Follows.ite {c c' : Prop} [Decidable c] [Decidable c'] (hc : c ↔ c') {x x' : Option α}
    {y y' : Except Fault β} (h : c → Follows C φ x y) (h' : ¬ c → Follows C φ x' y') :
    Follows C φ (if c then x else x') (if c' then y else y') := by
  by_cases hx : c
  · rw [if_pos hx, if_pos (hc.mp hx)]
    exact h hx
  · rw [if_neg hx, if_neg (mt hc.mpr hx)]
    exact h' hx

theorem Follows.foldlM {f : σ → α → Option σ} {g : τ → α → Except Fault τ} {xs : List α}
    (h : ∀ s, ∀ x ∈ xs, Follows C ψ (f s x) (g (ψ s) x)) (s : σ) :
    Follows C ψ (xs.foldlM f s) (xs.foldlM g (ψ s)) := by
  induction xs generalizing s with
  | nil => exact follows_some C ψ s
  | cons x xs ih =>
    rw [List.foldlM_cons, List.foldlM_cons]
    refine (h s x (by simp)).bind fun s' _ => ih (fun s y hy => ?_) s'
    exact h s y (List.mem_cons_of_mem x hy)

theorem Follows.mapM {f : σ → Option α} {g : σ → Except Fault β} {xs : List σ}
    (h : ∀ x ∈ xs, Follows C φ (f x) (g x)) :
    Follows C (List.map φ) (xs.mapM f) (xs.mapM g) := by
  induction xs with
  | nil => exact follows_some C (List.map φ) []
  | cons x xs ih =>
    rw [List.mapM_cons, List.mapM_cons]
    refine (h x (by simp)).bind fun y _ => ?_
    refine (ih fun x hx => h x (List.mem_cons_of_mem _ hx)).bind fun ys _ => ?_
    exact follows_some C (List.map φ) (y :: ys)

variable {m : ℕ} {fits : ℕ → Bool}

theorem follows_ofNat? (hfits : Holds m fits) (n : ℕ) (e : Fault) :
    Follows (HoldsOnly m fits) Fin.val (Checked.ofNat? m n)
      (if fits n then .ok n else .error e) := by
  refine ⟨fun c hc => ?_, fun honly hnone => ⟨e, if_neg fun hn => ?_⟩⟩
  · obtain rfl := Checked.ofNat?_eq_some.mp hc
    exact if_pos (hfits _ c.isLt)
  · rw [Checked.ofNat?, dif_pos (honly n hn)] at hnone
    cases hnone

theorem follows_add (hfits : Holds m fits) (a b : Fin m) :
    Follows (HoldsOnly m fits) Fin.val (Checked.add a b) (add fits a.val b.val) :=
  follows_ofNat? hfits _ _

theorem follows_mul (hfits : Holds m fits) (a b : Fin m) :
    Follows (HoldsOnly m fits) Fin.val (Checked.mul a b) (mul fits a.val b.val) :=
  follows_ofNat? hfits _ _

theorem follows_sub (C : Prop) (a b : Fin m) :
    Follows C Fin.val (Checked.sub a b) (sub a.val b.val) := by
  unfold Checked.sub sub Checked.ofNat?
  split_ifs with hle hlt
  · exact follows_some C Fin.val ⟨_, hlt⟩
  · exact absurd (lt_of_le_of_lt (Nat.sub_le _ _) a.isLt) hlt
  · exact follows_none C Fin.val _

theorem follows_div (C : Prop) (a b : Fin m) :
    Follows C Fin.val (Checked.div a b) (div a.val b.val) := by
  unfold Checked.div div Checked.ofNat?
  split_ifs with hzero hlt
  · exact follows_none C Fin.val _
  · exact follows_some C Fin.val ⟨_, hlt⟩
  · exact absurd (lt_of_le_of_lt (Nat.div_le_self _ _) a.isLt) hlt

theorem follows_get (C : Prop) (φ : α → β) (xs : List α) (i : ℕ) :
    Follows C φ xs[i]? (get (xs.map φ) i) := by
  rw [get, List.getElem?_map]
  cases xs[i]? with
  | none => exact follows_none C φ _
  | some x => exact follows_some C φ x

theorem Follows.updateAt {f : α → Option α} {g : β → Except Fault β}
    (h : ∀ x, Follows C φ (f x) (g (φ x))) (xs : List α) (i : ℕ) :
    Follows C (List.map φ) (Loops.updateAt f xs i) (updateAt g (xs.map φ) i) := by
  refine (follows_get C φ xs i).bind fun x _ => (h x).bind fun y _ => ?_
  rw [← List.map_set]
  exact follows_some C (List.map φ) (xs.set i y)

end Follows

end Fallible
