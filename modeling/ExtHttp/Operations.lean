import Mathlib.Data.List.Basic
import Mathlib.Logic.Relation

/-!
# Objects that are operated

An object is moved by operations, each of which tells whether it has succeeded. What somebody does
to it is a sequence of operations, which may be recorded; what he may do is a property of them.
-/
namespace Operations
variable {σ α : Type*} {step : σ → α → Bool × σ} {P : α → Prop} {s t u : σ}
    {log log' : List (α × Bool)}

/-- The second state comes from the first one by these operations, with what each of them has
told. -/
inductive Runs (step : σ → α → Bool × σ) : σ → List (α × Bool) → σ → Prop
  | refl (s : σ) : Runs step s [] s
  | next {s t : σ} {log : List (α × Bool)} (op : α) : Runs step (step s op).2 log t →
      Runs step s ((op, (step s op).1) :: log) t

namespace Runs

theorem op (s : σ) (op : α) : Runs step s [(op, (step s op).1)] (step s op).2 := .next op (.refl _)

theorem trans (h : Runs step s log t) (h' : Runs step t log' u) : Runs step s (log ++ log') u := by
  induction h with
  | refl _ => exact h'
  | next op _ ih => exact .next op (ih h')

end Runs

/-- What has been told, and what is made of it: if that is a success then nothing has failed but
what may, and if it is not then the last operation has, unless there is another reason. -/
structure Outcome (H : α → Prop) (X : Prop) (log : List (α × Bool)) (ok : Bool) : Prop where
  good : ok = true → ∀ e ∈ log, e.2 = false → H e.1
  bad : ok = false → X ∨ ∃ op, log.getLast? = some (op, false)

/-- Operations with a property lead from the first state to the second one, and come to a success or
not. -/
def Goes (step : σ → α → Bool × σ) (P H : α → Prop) (X : Prop) (s : σ) (ok : Bool) (t : σ) : Prop :=
  ∃ log, Runs step s log t ∧ (∀ e ∈ log, P e.1) ∧ Outcome H X log ok

namespace Goes
variable {H : α → Prop} {X : Prop} {ok : Bool}

theorem refl (s : σ) : Goes step P H X s true s := ⟨[], .refl s, by simp, by simp, by simp⟩

theorem fail (hX : X) (s : σ) : Goes step P H X s false s :=
  ⟨[], .refl s, by simp, by simp, fun _ => .inl hX⟩

theorem op {op : α} (hop : P op) : Goes step P H X s (step s op).1 (step s op).2 := by
  refine ⟨_, .op s op, by simpa using hop, ?_, fun hbad => .inr ⟨op, ?_⟩⟩
  · simp +contextual
  · simp [hbad]

/-- An operation that may fail. -/
theorem pass {op : α} (hop : P op) (hH : H op) : Goes step P H X s true (step s op).2 := by
  refine ⟨_, .op s op, by simpa using hop, ?_, by simp⟩
  simpa using fun _ => hH

theorem trans (h : Goes step P H X s true t) (h' : Goes step P H X t ok u) :
    Goes step P H X s ok u := by
  obtain ⟨log, hruns, hP, hlog⟩ := h
  obtain ⟨log', hruns', hP', hlog'⟩ := h'
  refine ⟨log ++ log', hruns.trans hruns', List.forall_mem_append.mpr ⟨hP, hP'⟩, fun hgood => ?_,
    fun hbad => ?_⟩
  · exact List.forall_mem_append.mpr ⟨hlog.good rfl, hlog'.good hgood⟩
  · refine (hlog'.bad hbad).imp_right fun ⟨op, hop⟩ => ⟨op, ?_⟩
    rw [List.getLast?_append, hop]
    rfl

/-- Nobody asks whether operations have succeeded that may all fail. -/
theorem ignore (h : Goes step P H X s ok t) (hPH : ∀ op, P op → H op) :
    Goes step P H X s true t := by
  obtain ⟨log, hruns, hP, -⟩ := h
  exact ⟨log, hruns, hP, fun _ e he _ => hPH e.1 (hP e he), by simp⟩

end Goes

/-- The second state comes from the first one by operations with a property. -/
def Moves (step : σ → α → Bool × σ) (P : α → Prop) : σ → σ → Prop :=
  Relation.ReflTransGen fun s t => ∃ op, P op ∧ t = (step s op).2

namespace Moves

theorem refl (s : σ) : Moves step P s s := Relation.ReflTransGen.refl

theorem op {op : α} (hop : P op) : Moves step P s (step s op).2 := .single ⟨op, hop, rfl⟩

theorem trans (h : Moves step P s t) (h' : Moves step P t u) : Moves step P s u :=
  Relation.ReflTransGen.trans h h'

end Moves

/-- An object with a record of what it has been asked for. -/
def record (step : σ → α → Bool × σ) (s : σ × List (α × Bool)) (op : α) :
    Bool × σ × List (α × Bool) :=
  ((step s.1 op).1, (step s.1 op).2, s.2 ++ [(op, (step s.1 op).1)])

/-- The record of a run is the run. -/
theorem Runs.recorded {s t : σ × List (α × Bool)} (h : Runs (record step) s log t) :
    t.2 = s.2 ++ log := by
  induction h with
  | refl s => simp
  | next op _ ih =>
    rw [ih]
    simp [record]

theorem Goes.recorded {H : α → Prop} {X : Prop} {ok : Bool} {s t : σ × List (α × Bool)}
    (h : Goes (record step) P H X s ok t) :
    ∃ log, t.2 = s.2 ++ log ∧ (∀ e ∈ log, P e.1) ∧ Outcome H X log ok := by
  obtain ⟨log, hruns, hP, hlog⟩ := h
  exact ⟨log, hruns.recorded, hP, hlog⟩

end Operations
