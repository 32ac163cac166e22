import Mathlib.Data.Nat.Init
import Mathlib.Logic.Relation
import Mathlib.Order.Basic
import Mathlib.Tactic.Common

/-!
# Runs of a step function

A step function that may exit, its runs of a given length, and the states it comes to: what holds of
all of these, and when a run ends.
-/
namespace ExtHttp.Steps

variable {σ ε : Type}

/-- `n` steps -/
def run (step : σ → Except ε σ) : ℕ → σ → Except ε σ
  | 0, s => .ok s
  | n + 1, s => step s >>= run step n

/-- The states that are reached from a state -/
abbrev Reaches (step : σ → Except ε σ) : σ → σ → Prop :=
  Relation.ReflTransGen fun s t => step s = .ok t

variable {step : σ → Except ε σ}

theorem run_succ_of_ok {s t : σ} (h : step s = .ok t) (n : ℕ) :
    run step (n + 1) s = run step n t := by
  rw [run, h]
  rfl

theorem reaches_of_run {n : ℕ} {s t : σ} (h : run step n s = .ok t) : Reaches step s t := by
  induction n generalizing s with
  | zero =>
    cases h
    exact .refl
  | succ n ih =>
    cases hstep : step s with
    | error e =>
      rw [run, hstep] at h
      cases h
    | ok u =>
      rw [run_succ_of_ok hstep] at h
      exact .head hstep (ih h)

/-- What every step keeps up holds of all that is reached. -/
theorem Reaches.invariant {I : σ → Prop} (hstep : ∀ s t, I s → step s = .ok t → I t) {s t : σ}
    (h : Reaches step s t) (hs : I s) : I t := by
  induction h with
  | refl => exact hs
  | tail _ hlast ih => exact hstep _ _ ih hlast

/-- Where every step comes nearer to the end, a run that is long enough ends. -/
theorem run_ends (I ended : σ → Prop) (measure : σ → ℕ)
    (hstep : ∀ s, I s → ¬ ended s → ∃ t, step s = .ok t ∧ I t ∧ measure t < measure s)
    (hend : ∀ s, I s → ended s → step s = .ok s) {n : ℕ} {s : σ} (hs : I s) (hn : measure s ≤ n) :
    ∃ t, run step n s = .ok t ∧ I t ∧ ended t := by
  induction n generalizing s with
  | zero =>
    have hended : ended s := by
      by_contra hmore
      obtain ⟨t, -, -, hlt⟩ := hstep s hs hmore
      omega
    exact ⟨s, rfl, hs, hended⟩
  | succ n ih =>
    by_cases hended : ended s
    · have hstay : ∀ m, run step m s = .ok s := by
        intro m
        induction m with
        | zero => rfl
        | succ m ih => rw [run_succ_of_ok (hend s hs hended), ih]
      exact ⟨s, hstay _, hs, hended⟩
    · obtain ⟨t, ht, hI, hlt⟩ := hstep s hs hended
      rw [run_succ_of_ok ht]
      exact ih hI (by omega)

section Final
variable {β : Type} {final : σ → Except ε β}

/-- What is computed from a state is computed from all that it comes to. -/
theorem Reaches.final_eq (hfinal : ∀ s, final s = step s >>= final) {s t : σ}
    (h : Reaches step s t) :
    final s = final t := by
  induction h with
  | refl => rfl
  | @tail t u _ hstep ih =>
    rw [ih, hfinal t, hstep]
    rfl

/-- A state from which there is a result comes to one that has ended with it. -/
theorem reaches_of_final (hfinal : ∀ s, final s = step s >>= final) (ended : σ → Prop)
    (measure : σ → ℕ) (hless : ∀ s t, step s = .ok t → ¬ ended s → measure t < measure s) {s : σ}
    {b : β} (h : final s = .ok b) :
    ∃ t, Reaches step s t ∧ ended t ∧ final t = .ok b := by
  induction hm : measure s using Nat.strong_induction_on generalizing s with
  | _ m ih =>
    by_cases hended : ended s
    · exact ⟨s, .refl, hended, h⟩
    · cases hstep : step s with
      | error e =>
        rw [hfinal, hstep] at h
        cases h
      | ok t =>
        have ht : final t = .ok b := by
          rw [hfinal, hstep] at h
          exact h
        obtain ⟨u, hreach, hu, hfin⟩ := ih _ (hm ▸ hless s t hstep hended) ht rfl
        exact ⟨u, .head hstep hreach, hu, hfin⟩

/-- A computation exits where the steps come to one that does. -/
theorem final_error_iff (hfinal : ∀ s, final s = step s >>= final) (ended : σ → Prop)
    (measure : σ → ℕ) (hless : ∀ s t, step s = .ok t → ¬ ended s → measure t < measure s)
    (hend : ∀ s, ended s → ∃ b, final s = .ok b) {s : σ} {e : ε} :
    final s = .error e ↔ ∃ t, Reaches step s t ∧ step t = .error e := by
  constructor
  · intro h
    induction hm : measure s using Nat.strong_induction_on generalizing s with
    | _ m ih =>
      cases hstep : step s with
      | error e' =>
        rw [hfinal, hstep] at h
        cases h
        exact ⟨s, .refl, hstep⟩
      | ok t =>
        have hmore : ¬ ended s := by
          intro hended
          obtain ⟨b, hb⟩ := hend s hended
          rw [hb] at h
          cases h
        have ht : final t = .error e := by
          rw [hfinal, hstep] at h
          exact h
        obtain ⟨u, hreach, hu⟩ := ih _ (hm ▸ hless s t hstep hmore) ht rfl
        exact ⟨u, .head hstep hreach, hu⟩
  · rintro ⟨t, hreach, ht⟩
    rw [hreach.final_eq hfinal, hfinal, ht]
    rfl

end Final

end ExtHttp.Steps
