import Mathlib.Data.List.Basic
import Mathlib.Data.List.Infix
import Mathlib.Tactic.Common

/-! Runs of a machine that takes one input after another, with the history of the
states its inputs met, and the rules that carry a fact about one step to all of them. -/

namespace Runs

variable {σ τ : Type*} (apply : σ → τ → σ)

def run (s : σ) (xs : List τ) : σ := xs.foldl apply s

/-- The steps of a run: each input with the state it met. -/
def trace (s : σ) : List τ → List (σ × τ)
  | [] => []
  | x :: xs => (s, x) :: trace (apply s x) xs

@[simp] theorem run_nil (s : σ) : run apply s [] = s := rfl

theorem run_append (s : σ) (xs ys : List τ) :
    run apply s (xs ++ ys) = run apply (run apply s xs) ys :=
  List.foldl_append

theorem run_snoc (s : σ) (xs : List τ) (x : τ) :
    run apply s (xs ++ [x]) = apply (run apply s xs) x :=
  run_append apply s xs [x]

theorem trace_snoc (s : σ) (xs : List τ) (x : τ) :
    trace apply s (xs ++ [x]) = trace apply s xs ++ [(run apply s xs, x)] := by
  induction xs generalizing s with
  | nil => rfl
  | cons y xs ih => exact congrArg ((s, y) :: ·) (ih (apply s y))

variable {apply}

/-- What holds at the start and is kept by every step holds at the end of every run. -/
theorem invariant {P : σ → Prop} (hstep : ∀ s x, P s → P (apply s x)) {s : σ} (h : P s)
    (xs : List τ) : P (run apply s xs) := by
  induction xs using List.reverseRecOn with
  | nil => exact h
  | append_singleton xs x ih =>
    rw [run_snoc]
    exact hstep _ x ih

/-- The same for what only the steps that satisfy `C` keep. -/
theorem invariant_of_steps {P : σ → Prop} {C : σ × τ → Prop}
    (hstep : ∀ s x, C (s, x) → P s → P (apply s x)) {s : σ} (h : P s) {xs : List τ}
    (hsteps : ∀ st ∈ trace apply s xs, C st) : P (run apply s xs) := by
  induction xs using List.reverseRecOn with
  | nil => exact h
  | append_singleton xs x ih =>
    rw [trace_snoc, List.forall_mem_append] at hsteps
    rw [run_snoc]
    exact hstep _ x (hsteps.2 _ (List.mem_singleton_self _)) (ih hsteps.1)

/-- A step of a run meets the state that the inputs before it lead to. -/
theorem mem_trace_iff {s : σ} {xs : List τ} {st : σ × τ} :
    st ∈ trace apply s xs ↔
      ∃ pre, pre ++ [st.2] <+: xs ∧ st.1 = run apply s pre := by
  induction xs using List.reverseRecOn with
  | nil => simp [trace]
  | append_singleton xs x ih =>
    rw [trace_snoc, List.mem_append, ih, List.mem_singleton]
    simp only [List.prefix_concat_iff]
    refine ⟨?_, fun ⟨pre, hpre, hst⟩ => ?_⟩
    · rintro (⟨pre, hpre, hst⟩ | rfl)
      · exact ⟨pre, Or.inr hpre, hst⟩
      · exact ⟨xs, Or.inl rfl, rfl⟩
    · rcases hpre with he | hpre
      · obtain ⟨rfl, hx⟩ := List.append_inj' he rfl
        exact Or.inr (Prod.ext hst (by simpa using hx))
      · exact Or.inl ⟨pre, hpre, hst⟩

theorem trace_subset_of_prefix {s : σ} {pre xs : List τ} (hpre : pre <+: xs) :
    trace apply s pre ⊆ trace apply s xs := fun _ hst => by
  obtain ⟨p, hp, he⟩ := mem_trace_iff.mp hst
  exact mem_trace_iff.mpr ⟨p, hp.trans hpre, he⟩

/-- A number that no step raises by more than one takes every value on its way. -/
theorem exists_between {f : σ → ℕ} (hstep : ∀ s x, f (apply s x) ≤ f s + 1) {s : σ}
    {pre xs : List τ} (hpre : pre <+: xs) {n : ℕ} (hlow : f (run apply s pre) ≤ n)
    (hhigh : n ≤ f (run apply s xs)) :
    ∃ q, pre <+: q ∧ q <+: xs ∧ f (run apply s q) = n := by
  induction xs using List.reverseRecOn with
  | nil =>
    obtain rfl := List.prefix_nil.mp hpre
    exact ⟨[], List.prefix_refl _, List.prefix_refl _, le_antisymm hlow hhigh⟩
  | append_singleton xs x ih =>
    rcases List.prefix_concat_iff.mp hpre with rfl | hpre
    · exact ⟨_, List.prefix_refl _, List.prefix_refl _, le_antisymm hlow hhigh⟩
    · rcases Nat.lt_or_ge (f (run apply s xs)) n with hlt | hge
      · refine ⟨xs ++ [x], hpre.trans (List.prefix_append _ _), List.prefix_refl _, ?_⟩
        have hle := hstep (run apply s xs) x
        rw [run_snoc] at hhigh ⊢
        omega
      · obtain ⟨q, hq, hqxs, he⟩ := ih hpre hge
        exact ⟨q, hq, hqxs.trans (List.prefix_append _ _), he⟩

/-- What every step keeps, a state keeps along any continuation of the run. -/
theorem persists {P : σ → Prop} (hstep : ∀ s x, P s → P (apply s x)) {s : σ} {pre xs : List τ}
    (hpre : pre <+: xs) (h : P (run apply s pre)) : P (run apply s xs) := by
  obtain ⟨post, rfl⟩ := hpre
  rw [run_append]
  exact invariant hstep h post

end Runs
