import Mathlib.Logic.Function.Basic
import ToyDfba.Lib.Runs

/-! Processes around one shared state. Each takes its own steps, in any order and between
any steps of the others and of the world outside. What any step may do to the shared state
is said once, as a relation; what a process knows need only survive that relation. -/

namespace Processes

structure System (σ κ α : Type*) where
  shared : σ
  locals : κ → α

/-- One step of a run: something the world does, or the next step of a process, with what
the world gives it on the way. -/
inductive Move (κ ω ε : Type*) where
  | world (w : ω)
  | step (c : κ) (e : ε)

variable {σ κ α ω ε : Type*} [DecidableEq κ] (world : σ → ω → σ) (act : σ → α → ε → σ × α)

def apply (sys : System σ κ α) : Move κ ω ε → System σ κ α
  | .world w => ⟨world sys.shared w, sys.locals⟩
  | .step c e =>
    ⟨(act sys.shared (sys.locals c) e).1,
      Function.update sys.locals c (act sys.shared (sys.locals c) e).2⟩

abbrev run (sys : System σ κ α) (moves : List (Move κ ω ε)) : System σ κ α :=
  Runs.run (apply world act) sys moves

def Allowed (C : ω → Prop) (moves : List (Move κ ω ε)) : Prop :=
  ∀ w, Move.world w ∈ moves → C w

variable {world act}

/-- What holds at the start and is kept by every allowed move holds at the end. -/
theorem run_invariant {P : System σ κ α → Prop} {C : ω → Prop} {sys : System σ κ α}
    (hworld : ∀ sys w, C w → P sys → P (apply world act sys (.world w)))
    (hstep : ∀ sys c e, P sys → P (apply world act sys (.step c e))) (h : P sys)
    {moves : List (Move κ ω ε)} (hmoves : Allowed C moves) : P (run world act sys moves) := by
  induction moves using List.reverseRecOn with
  | nil => exact h
  | append_singleton moves move ih =>
    have hlast := ih fun w hw => hmoves w (List.mem_append_left _ hw)
    rw [run, Runs.run_snoc]
    cases move with
    | world w => exact hworld _ w (hmoves w (by simp)) hlast
    | step c e => exact hstep _ c e hlast

/-- What a process remembers of the moves since `pre`: the others only add to them, and its
own step meets the state that the run has come to. -/
theorem run_history {H : List (Move κ ω ε) → α → Prop} {sys : System σ κ α} {c : κ}
    {pre post : List (Move κ ω ε)}
    (hkeep : ∀ mid move a, mid ++ [move] <+: post → H mid a → H (mid ++ [move]) a)
    (hstep : ∀ mid a e, mid ++ [.step c e] <+: post → H mid a →
      H (mid ++ [.step c e]) (act (run world act sys (pre ++ mid)).shared a e).2)
    (h : H [] ((run world act sys pre).locals c)) :
    H post ((run world act sys (pre ++ post)).locals c) := by
  induction post using List.reverseRecOn with
  | nil => rwa [List.append_nil]
  | append_singleton post move ih =>
    have hlonger : post <+: post ++ [move] := List.prefix_append _ _
    have hlast := ih (fun mid move a hmid => hkeep mid move a (hmid.trans hlonger))
      (fun mid a e hmid => hstep mid a e (hmid.trans hlonger))
    rw [← List.append_assoc, run, Runs.run_snoc]
    cases move with
    | world w => exact hkeep _ _ _ (List.prefix_refl _) hlast
    | step c' e =>
      simp only [apply]
      by_cases hc : c = c'
      · subst hc
        rw [Function.update_self]
        exact hstep _ _ e (List.prefix_refl _) hlast
      · rw [Function.update_of_ne hc]
        exact hkeep _ _ _ (List.prefix_refl _) hlast

section Turns

variable (p : ε → Prop) [DecidablePred p]

/-- How often a process takes its turn and is given something of a kind. -/
def turnsWith (c : κ) (moves : List (Move κ ω ε)) : ℕ :=
  moves.countP fun
    | .step c' e => c' = c ∧ p e
    | .world _ => false

abbrev turns (c : κ) (moves : List (Move κ ω ε)) : ℕ := turnsWith (fun _ => True) c moves

variable {p}

theorem turnsWith_le_snoc (c : κ) (moves : List (Move κ ω ε)) (move : Move κ ω ε) :
    turnsWith p c moves ≤ turnsWith p c (moves ++ [move]) := by
  rw [turnsWith, turnsWith, List.countP_append]
  exact Nat.le_add_right _ _

theorem turnsWith_snoc (c : κ) (moves : List (Move κ ω ε)) (e : ε) :
    turnsWith p c (moves ++ [.step c e]) = turnsWith p c moves + if p e then 1 else 0 := by
  rw [turnsWith, List.countP_append, ← turnsWith, List.countP_singleton]
  simp

end Turns

/-- A process that each of its own steps brings nearer to its end comes to it in so many
turns, however the others fill the time in between. -/
theorem run_turns {m : α → ℕ} {sys : System σ κ α} {moves : List (Move κ ω ε)}
    (hstep : ∀ pre a e, pre <+: moves → m (act (run world act sys pre).shared a e).2 ≤ m a - 1)
    (c : κ) : m ((run world act sys moves).locals c) ≤ m (sys.locals c) - turns c moves := by
  induction moves using List.reverseRecOn with
  | nil => exact le_rfl
  | append_singleton moves move ih =>
    have hlonger : moves <+: moves ++ [move] := List.prefix_append _ _
    have hlast := ih fun pre a e hpre => hstep pre a e (hpre.trans hlonger)
    unfold turns at hlast ⊢
    rw [run, Runs.run_snoc]
    cases move with
    | world w =>
      rw [turnsWith, List.countP_append]
      exact hlast
    | step c' e =>
      simp only [apply]
      by_cases hc : c' = c
      · subst hc
        have hone := hstep moves ((run world act sys moves).locals c') e hlonger
        rw [Function.update_self, turnsWith_snoc, if_pos trivial]
        exact hone.trans (by omega)
      · rw [Function.update_of_ne (Ne.symm hc), turnsWith, List.countP_append,
          List.countP_singleton, if_neg (by simpa using hc)]
        exact hlast

section RelyGuarantee

variable {I : σ → Prop} {R : σ → σ → Prop} {L : κ → σ → α → Prop} {C : ω → Prop}

/-- What the steps keep of the shared state, and what each process knows about it and
about itself. -/
structure Invariant (I : σ → Prop) (L : κ → σ → α → Prop) (sys : System σ κ α) : Prop where
  shared : I sys.shared
  locals : ∀ c, L c sys.shared (sys.locals c)

/-- Every step keeps the invariant and stays within the relation, and no process forgets
what it knows when the others stay within it. -/
structure Rules (world : σ → ω → σ) (act : σ → α → ε → σ × α) (I : σ → Prop) (R : σ → σ → Prop)
    (L : κ → σ → α → Prop) (C : ω → Prop) : Prop where
  world : ∀ s w, C w → I s → I (world s w) ∧ R s (world s w)
  act : ∀ c s a e, I s → L c s a →
    I (act s a e).1 ∧ R s (act s a e).1 ∧ L c (act s a e).1 (act s a e).2
  stable : ∀ c s s' a, I s → R s s' → L c s a → L c s' a

theorem Rules.world_invariant (h : Rules world act I R L C) {sys : System σ κ α}
    (hsys : Invariant I L sys) {w : ω} (hw : C w) :
    Invariant I L (apply world act sys (.world w)) := by
  obtain ⟨hI, hR⟩ := h.world sys.shared w hw hsys.shared
  exact ⟨hI, fun c => h.stable c _ _ _ hsys.shared hR (hsys.locals c)⟩

theorem Rules.step_invariant (h : Rules world act I R L C) {sys : System σ κ α}
    (hsys : Invariant I L sys) (c : κ) (e : ε) :
    Invariant I L (apply world act sys (.step c e)) := by
  obtain ⟨hI, hR, hL⟩ := h.act c sys.shared (sys.locals c) e hsys.shared (hsys.locals c)
  refine ⟨hI, fun c' => ?_⟩
  by_cases hc : c' = c
  · subst hc
    simp only [apply, Function.update_self]
    exact hL
  · simp only [apply, Function.update_of_ne hc]
    exact h.stable c' _ _ _ hsys.shared hR (hsys.locals c')

theorem Rules.invariant (h : Rules world act I R L C) {sys : System σ κ α}
    (hsys : Invariant I L sys) {moves : List (Move κ ω ε)} (hmoves : Allowed C moves) :
    Invariant I L (run world act sys moves) :=
  run_invariant (P := Invariant I L) (fun _ _ hw hsys => h.world_invariant hsys hw)
    (fun _ c e hsys => h.step_invariant hsys c e) hsys hmoves

end RelyGuarantee

section Tickets

variable {ν : Type*} {I : σ → Prop} {L : κ → σ → α → Prop} {C : ω → Prop} {issued : σ → ν → Prop}
  {ticket : α → Option ν}

/-- A step gives out nothing, or the process that takes it draws one ticket that nobody
had. -/
def Draws (issued : σ → ν → Prop) (ticket : α → Option ν) (s s' : σ) (a a' : α) : Prop :=
  (ticket a' = ticket a ∧ ∀ n, issued s' n ↔ issued s n) ∨
    ∃ n, ¬ issued s n ∧ ticket a = none ∧ ticket a' = some n ∧
      ∀ m, issued s' m ↔ issued s m ∨ m = n

/-- Each ticket given out is in the hands of exactly one process. -/
def OneHolder (issued : σ → ν → Prop) (ticket : α → Option ν) (sys : System σ κ α) : Prop :=
  (∀ n, issued sys.shared n → ∃ c, ticket (sys.locals c) = some n) ∧
    (∀ c n, ticket (sys.locals c) = some n → issued sys.shared n) ∧
    ∀ c c' n, ticket (sys.locals c) = some n → ticket (sys.locals c') = some n → c = c'

theorem OneHolder.step {sys : System σ κ α} (h : OneHolder issued ticket sys) {c : κ} {e : ε}
    (hdraws : Draws issued ticket sys.shared (act sys.shared (sys.locals c) e).1 (sys.locals c)
      (act sys.shared (sys.locals c) e).2) :
    OneHolder issued ticket (apply world act sys (.step c e)) := by
  obtain ⟨hheld, hissued, hone⟩ := h
  have hafter : ∀ c', (apply world act sys (.step c e)).locals c' =
      if c' = c then (act sys.shared (sys.locals c) e).2 else sys.locals c' :=
    fun c' => Function.update_apply ..
  rcases hdraws with ⟨hsame, hissues⟩ | ⟨n, hnew, hnone, hdrawn, hissues⟩
  · have htickets : ∀ c', ticket ((apply world act sys (.step c e)).locals c') =
        ticket (sys.locals c') := by
      intro c'
      rw [hafter]
      split_ifs with hc
      · rw [hsame, hc]
      · rfl
    refine ⟨fun n hn => ?_, fun c' n hn => ?_, fun c' c'' n hn hn' => ?_⟩
    · obtain ⟨c', hc'⟩ := hheld n ((hissues n).mp hn)
      exact ⟨c', (htickets c').trans hc'⟩
    · exact (hissues n).mpr (hissued c' n ((htickets c').symm.trans hn))
    · exact hone c' c'' n ((htickets c').symm.trans hn) ((htickets c'').symm.trans hn')
  · -- the drawn ticket was nobody's, and all others are where they were
    have htickets : ∀ c' m, ticket ((apply world act sys (.step c e)).locals c') = some m ↔
        (c' = c ∧ m = n) ∨ ticket (sys.locals c') = some m := by
      intro c' m
      rw [hafter]
      split_ifs with hc
      · subst hc
        rw [hdrawn, hnone]
        simp [eq_comm]
      · simp [hc]
    refine ⟨fun m hm => ?_, fun c' m hm => ?_, fun c' c'' m hm hm' => ?_⟩
    · rcases (hissues m).mp hm with hold | rfl
      · obtain ⟨c', hc'⟩ := hheld m hold
        exact ⟨c', (htickets c' m).mpr (Or.inr hc')⟩
      · exact ⟨c, (htickets c m).mpr (Or.inl ⟨rfl, rfl⟩)⟩
    · rcases (htickets c' m).mp hm with ⟨-, rfl⟩ | hold
      · exact (hissues m).mpr (Or.inr rfl)
      · exact (hissues m).mpr (Or.inl (hissued c' m hold))
    · rcases (htickets c' m).mp hm with ⟨rfl, rfl⟩ | hold
      · rcases (htickets c'' m).mp hm' with ⟨rfl, -⟩ | hold'
        · rfl
        · exact absurd (hissued c'' m hold') hnew
      · rcases (htickets c'' m).mp hm' with ⟨-, rfl⟩ | hold'
        · exact absurd (hissued c' m hold) hnew
        · exact hone c' c'' m hold hold'

/-- Tickets that only the steps of processes give out, one at a time, never have two
holders. -/
theorem Rules.oneHolder {R : σ → σ → Prop} (h : Rules world act I R L C)
    (hworld : ∀ s w, C w → I s → ∀ n, issued (world s w) n ↔ issued s n)
    (hdraws : ∀ c s a e, I s → L c s a →
      Draws issued ticket s (act s a e).1 a (act s a e).2)
    {sys : System σ κ α} (hsys : Invariant I L sys) (hone : OneHolder issued ticket sys)
    {moves : List (Move κ ω ε)} (hmoves : Allowed C moves) :
    OneHolder issued ticket (run world act sys moves) := by
  have hboth : Invariant I L (run world act sys moves) ∧
      OneHolder issued ticket (run world act sys moves) := by
    refine run_invariant (P := fun sys => Invariant I L sys ∧ OneHolder issued ticket sys) ?_ ?_
      ⟨hsys, hone⟩ hmoves
    · rintro sys w hw ⟨hinv, hheld, hissued, hone⟩
      have hsame := hworld sys.shared w hw hinv.shared
      exact ⟨h.world_invariant hinv hw, fun n hn => hheld n ((hsame n).mp hn),
        fun c n hn => (hsame n).mpr (hissued c n hn), hone⟩
    · rintro sys c e ⟨hinv, hone⟩
      exact ⟨h.step_invariant hinv c e,
        hone.step (hdraws c sys.shared (sys.locals c) e hinv.shared (hinv.locals c))⟩
  exact hboth.2

end Tickets

end Processes
