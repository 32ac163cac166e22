import Mathlib

/-!
# Loops over a buffer that is filled piece by piece

A `Machine` is the body of a loop over a control state and a buffer. Every turn either goes round
again with a smaller weight or leaves the loop with a result. `feed` puts pieces behind what the
buffer still holds and runs the loop after each of them. The main result, `view_feed`, says when
that comes to the same as one run over everything: when each turn resumes, with the bytes still to
come behind the buffer, as it went without them.
-/
namespace ExtHttp.BufferLoop

/-- What one turn of a loop does: go round again, or leave with a result. -/
inductive Turn (σ α ρ : Type*)
  | next (s : σ) (b : List α)
  | ret (r : ρ) (s : σ) (b : List α)
  deriving DecidableEq

/-- The state a turn leads to, whether the loop goes on there or not. -/
def Turn.state {σ α ρ : Type*} : Turn σ α ρ → σ
  | .next s _ => s
  | .ret _ s _ => s

/-- What is in the buffer behind a turn. -/
def Turn.buffer {σ α ρ : Type*} : Turn σ α ρ → List α
  | .next _ b => b
  | .ret _ _ b => b

/-- The same turn on translated states, with what it leaves behind in the buffer translated, too. -/
def Turn.map {σ τ α ρ : Type*} (f : σ → τ) (g : ρ → List α → List α) : Turn σ α ρ → Turn τ α ρ
  | .next s b => .next (f s) b
  | .ret r s b => .ret r (f s) (g r b)

@[simp] theorem Turn.map_next {σ τ α ρ : Type*} (f : σ → τ) (g : ρ → List α → List α) (s : σ)
    (b : List α) : (Turn.next s b : Turn σ α ρ).map f g = .next (f s) b := rfl

@[simp] theorem Turn.map_ret {σ τ α ρ : Type*} (f : σ → τ) (g : ρ → List α → List α) (r : ρ) (s : σ)
    (b : List α) : (Turn.ret r s b).map f g = .ret r (f s) (g r b) := rfl

/-- A loop body together with the measure that makes its loop end. -/
structure Machine (σ α ρ : Type*) where
  turn : σ → List α → Turn σ α ρ
  weight : σ → List α → ℕ
  weight_lt : ∀ {s b s' b'}, turn s b = .next s' b' → weight s' b' < weight s b

variable {σ α ρ ω κ : Type*}

namespace Machine

/-- The loop: take turns until one of them leaves. -/
def run (M : Machine σ α ρ) (s : σ) (b : List α) : ρ × σ × List α :=
  match _h : M.turn s b with
  | .ret r s' b' => (r, s', b')
  | .next s' b' => M.run s' b'
termination_by M.weight s b
decreasing_by exact M.weight_lt _h

variable {M N : Machine σ α ρ}

theorem run_ret {s s' : σ} {b b' : List α} {r : ρ} (h : M.turn s b = .ret r s' b') :
    M.run s b = (r, s', b') := by
  rw [run]
  split
  · next he => rw [h] at he; cases he; rfl
  · next he => rw [h] at he; cases he

theorem run_next {s s' : σ} {b b' : List α} (h : M.turn s b = .next s' b') :
    M.run s b = M.run s' b' := by
  rw [run]
  split
  · next he => rw [h] at he; cases he
  · next he => rw [h] at he; cases he; rfl

/-- One turn from configuration `c` goes round again and leads to `d`. -/
def Next (M : Machine σ α ρ) (c d : σ × List α) : Prop := M.turn c.1 c.2 = .next d.1 d.2

/-- The loop started at `c` takes a turn at `d`. -/
def Visits (M : Machine σ α ρ) : σ × List α → σ × List α → Prop := Relation.ReflTransGen M.Next

theorem Visits.refl (c : σ × List α) : M.Visits c c := Relation.ReflTransGen.refl

theorem Visits.trans {c d e : σ × List α} (h : M.Visits c d) (g : M.Visits d e) : M.Visits c e :=
  Relation.ReflTransGen.trans h g

theorem Visits.head {s s' : σ} {b b' : List α} {d : σ × List α} (h : M.turn s b = .next s' b')
    (g : M.Visits (s', b') d) : M.Visits (s, b) d :=
  Relation.ReflTransGen.head (show M.Next (s, b) (s', b') from h) g

/-- A property kept by every turn that goes round again holds wherever the loop comes. -/
theorem Visits.invariant {I : σ → List α → Prop}
    (hnext : ∀ {s b s' b'}, I s b → M.turn s b = .next s' b' → I s' b')
    {c d : σ × List α} (h : M.Visits c d) (hc : I c.1 c.2) : I d.1 d.2 := by
  induction h with
  | refl => exact hc
  | tail _ hs ih => exact hnext ih hs

/-- What every turn keeps of the state alone, whatever is in the buffer, holds wherever it comes. -/
theorem Visits.state_invariant {I : σ → Prop} (hturn : ∀ {s} b, I s → I (M.turn s b).state)
    {c d : σ × List α} (h : M.Visits c d) (hc : I c.1) : I d.1 :=
  h.invariant (I := fun s _ => I s)
    (fun {s b _ _} hs ht => by simpa [ht, Turn.state] using hturn b hs) hc

/-- An invariant that is kept as long as a turn is not bad holds wherever the loop comes by turns
that are not. -/
theorem Visits.guarded {I B : σ → List α → Prop}
    (hnext : ∀ {s b s' b'}, I s b → ¬ B s b → M.turn s b = .next s' b' → I s' b')
    {c d : σ × List α} (h : M.Visits c d) (hc : I c.1 c.2)
    (hB : ∀ e, M.Visits c e → ¬ B e.1 e.2) : I d.1 d.2 := by
  induction h with
  | refl => exact hc
  | tail hv hs ih => exact hnext ih (hB _ hv) hs

/-- Where bad turns lead to a violation of `P` at once and others keep the invariant that implies
it, `P` holds everywhere if and only if no turn is bad. -/
theorem visits_iff {I P B : σ → List α → Prop} (hP : ∀ {s b}, I s b → P s b)
    (hnext : ∀ {s b s' b'}, I s b → ¬ B s b → M.turn s b = .next s' b' → I s' b')
    (hbad : ∀ {s b}, I s b → B s b → ∃ s' b', M.turn s b = .next s' b' ∧ ¬ P s' b')
    {c : σ × List α} (hc : I c.1 c.2) :
    (∀ d, M.Visits c d → P d.1 d.2) ↔ ∀ d, M.Visits c d → ¬ B d.1 d.2 := by
  constructor
  · intro h d hd
    have hI : I d.1 d.2 ∧ ¬ B d.1 d.2 := by
      have hgood : ∀ e, M.Visits c e → I e.1 e.2 → ¬ B e.1 e.2 := fun e he hi hB => by
        obtain ⟨s', b', ht, hn⟩ := hbad hi hB
        exact hn (h (s', b') (he.tail ht))
      induction hd with
      | refl => exact ⟨hc, hgood _ (Visits.refl c) hc⟩
      | tail hv hs ih =>
        have hi := hnext ih.1 ih.2 hs
        exact ⟨hi, hgood _ (Relation.ReflTransGen.tail hv hs) hi⟩
    exact hI.2
  · intro h d hd
    exact hP (hd.guarded hnext hc h)

theorem forall_visits_next {P : σ → List α → Prop} {s s' : σ} {b b' : List α}
    (h : M.turn s b = .next s' b') : (∀ d, M.Visits (s, b) d → P d.1 d.2) ↔
      P s b ∧ ∀ d, M.Visits (s', b') d → P d.1 d.2 := by
  constructor
  · exact fun hall => ⟨hall _ (Visits.refl _), fun d hd => hall d (hd.head h)⟩
  · rintro ⟨hs, hall⟩ d hd
    rcases Relation.ReflTransGen.cases_head hd with rfl | ⟨e, hn, hd'⟩
    · exact hs
    · have hn : M.turn s b = .next e.1 e.2 := hn
      rw [h] at hn
      cases hn
      exact hall d hd'

theorem forall_visits_ret {P : σ → List α → Prop} {r : ρ} {s s' : σ} {b b' : List α}
    (h : M.turn s b = .ret r s' b') : (∀ d, M.Visits (s, b) d → P d.1 d.2) ↔ P s b := by
  refine ⟨fun hall => hall _ (Visits.refl _), fun hs d hd => ?_⟩
  rcases Relation.ReflTransGen.cases_head hd with rfl | ⟨e, hn, -⟩
  · exact hs
  · have hn : M.turn s b = .next e.1 e.2 := hn
    rw [h] at hn
    cases hn

theorem run_visits {c d : σ × List α} (h : M.Visits c d) : M.run c.1 c.2 = M.run d.1 d.2 := by
  induction h with
  | refl => rfl
  | tail _ hs ih => exact ih.trans (run_next hs)

/-- Every run ends with a turn that leaves the loop. -/
theorem exists_last_turn (M : Machine σ α ρ) (s : σ) (b : List α) :
    ∃ d, M.Visits (s, b) d ∧
      M.turn d.1 d.2 = .ret (M.run s b).1 (M.run s b).2.1 (M.run s b).2.2 := by
  induction hw : M.weight s b using Nat.strongRecOn generalizing s b with
  | _ n ih =>
    cases h : M.turn s b with
    | ret r s' b' =>
      refine ⟨(s, b), Visits.refl _, ?_⟩
      rw [run_ret h]
      exact h
    | next s' b' =>
      obtain ⟨d, hd, ht⟩ := ih _ (hw ▸ M.weight_lt h) s' b' rfl
      refine ⟨d, hd.head h, ?_⟩
      rw [run_next h]
      exact ht

/-- The loop for `n` turns at most; none if it is still going on then. -/
def runWithin (M : Machine σ α ρ) : ℕ → σ → List α → Option (ρ × σ × List α)
  | 0, _, _ => none
  | n + 1, s, b => match M.turn s b with
    | .ret r s' b' => some (r, s', b')
    | .next s' b' => M.runWithin n s' b'

/-- The loop has come to its end after as many turns as its weight says, and one more. -/
theorem runWithin_weight (M : Machine σ α ρ) {n : ℕ} {s : σ} {b : List α} (h : M.weight s b < n) :
    M.runWithin n s b = some (M.run s b) := by
  induction n generalizing s b with
  | zero => exact absurd h (Nat.not_lt_zero _)
  | succ n ih =>
    rw [runWithin]
    cases ht : M.turn s b with
    | ret r s' b' => exact congrArg some (run_ret ht).symm
    | next s' b' =>
      have hlt := M.weight_lt ht
      dsimp only
      rw [ih (by omega), run_next ht]

/-- `p` holds at every turn of the loop. -/
def all (M : Machine σ α ρ) (p : σ → List α → Bool) (s : σ) (b : List α) : Bool :=
  p s b && match _h : M.turn s b with
    | .ret _ _ _ => true
    | .next s' b' => M.all p s' b'
termination_by M.weight s b
decreasing_by exact M.weight_lt _h

theorem all_iff (M : Machine σ α ρ) (p : σ → List α → Bool) (s : σ) (b : List α) :
    M.all p s b = true ↔ ∀ d, M.Visits (s, b) d → p d.1 d.2 = true := by
  induction hw : M.weight s b using Nat.strongRecOn generalizing s b with
  | _ n ih =>
    rw [all, Bool.and_eq_true]
    constructor
    · rintro ⟨hp, hr⟩ d hd
      rcases Relation.ReflTransGen.cases_head hd with rfl | ⟨⟨s', b'⟩, hn, hd'⟩
      · exact hp
      · have hn : M.turn s b = .next s' b' := hn
        split at hr
        · next he => rw [hn] at he; cases he
        · next he =>
          rw [hn] at he
          cases he
          exact (ih _ (hw ▸ M.weight_lt hn) s' b' rfl).mp hr d hd'
    · intro h
      refine ⟨h _ (Visits.refl _), ?_⟩
      split
      · rfl
      · next s' b' hn =>
        exact (ih _ (hw ▸ M.weight_lt hn) s' b' rfl).mpr fun d hd => h d (hd.head hn)

instance decidableVisits (M : Machine σ α ρ) (P : σ → List α → Prop) [∀ s b, Decidable (P s b)]
    (c : σ × List α) : Decidable (∀ d, M.Visits c d → P d.1 d.2) :=
  decidable_of_iff (M.all (fun s b => decide (P s b)) c.1 c.2 = true) (by simp [all_iff])

/-- Rule for the result of a run: an invariant of the turns that go round again, and what the
leaving turn makes of it. -/
theorem run_rule {I : σ → List α → Prop} {Q : ρ → σ → List α → Prop}
    (hnext : ∀ {s b s' b'}, I s b → M.turn s b = .next s' b' → I s' b')
    (hret : ∀ {s b r s' b'}, I s b → M.turn s b = .ret r s' b' → Q r s' b')
    {s : σ} {b : List α} (h : I s b) :
    Q (M.run s b).1 (M.run s b).2.1 (M.run s b).2.2 := by
  obtain ⟨d, hd, ht⟩ := exists_last_turn M s b
  exact hret (hd.invariant hnext h) ht

theorem run_state_invariant {I : σ → Prop} (hturn : ∀ {s} b, I s → I (M.turn s b).state) {s : σ}
    (b : List α) (h : I s) : I (M.run s b).2.1 := by
  obtain ⟨d, hd, ht⟩ := exists_last_turn M s b
  simpa [ht, Turn.state] using hturn d.2 (hd.state_invariant hturn h)

/-- Loops that take the same turns wherever the first one comes have the same runs. -/
theorem run_congr {c : σ × List α} (h : ∀ d, M.Visits c d → N.turn d.1 d.2 = M.turn d.1 d.2) :
    N.run c.1 c.2 = M.run c.1 c.2 := by
  obtain ⟨d, hd, ht⟩ := exists_last_turn M c.1 c.2
  have hv : N.run c.1 c.2 = N.run d.1 d.2 := by
    clear ht
    induction hd with
    | refl => rfl
    | tail hv hs ih => exact ih.trans (run_next ((h _ hv).trans hs))
  rw [hv, run_ret ((h d hd).trans ht)]

/-- A translation under which the turns agree translates the runs. -/
theorem run_map {τ : Type*} {M : Machine σ α ρ} {N : Machine τ α ρ} (f : σ → τ)
    (g : ρ → List α → List α) (h : ∀ s b, N.turn (f s) b = (M.turn s b).map f g) (s : σ)
    (b : List α) :
    N.run (f s) b = ((M.run s b).1, f (M.run s b).2.1, g (M.run s b).1 (M.run s b).2.2) := by
  obtain ⟨d, hd, ht⟩ := exists_last_turn M s b
  have hnext : ∀ c e, M.Next c e → N.Next (f c.1, c.2) (f e.1, e.2) := by
    intro c e hn
    have hn : M.turn c.1 c.2 = .next e.1 e.2 := hn
    simp [Next, h, hn]
  have hv : N.Visits (f s, b) (f d.1, d.2) :=
    Relation.ReflTransGen.lift (fun c : σ × List α => (f c.1, c.2)) hnext (s, b) d hd
  rw [run_visits hv]
  exact run_ret (by rw [h, ht]; rfl)

/-- Turns that go the same way and leave related states. -/
inductive Related {τ : Type*} (R : σ → τ → Prop) : Turn σ α ρ → Turn τ α ρ → Prop
  | next {s : σ} {t : τ} {b : List α} : R s t → Related R (.next s b) (.next t b)
  | ret {r : ρ} {s : σ} {t : τ} {b : List α} : R s t → Related R (.ret r s b) (.ret r t b)

/-- A simulation: related turns make related runs. -/
theorem run_related {τ : Type*} {M : Machine σ α ρ} {N : Machine τ α ρ} {R : σ → τ → Prop}
    (h : ∀ {s t} b, R s t → Related R (M.turn s b) (N.turn t b)) {s : σ} {t : τ} (b : List α)
    (hst : R s t) :
    (N.run t b).1 = (M.run s b).1 ∧ R (M.run s b).2.1 (N.run t b).2.1 ∧
      (N.run t b).2.2 = (M.run s b).2.2 := by
  induction hw : M.weight s b using Nat.strongRecOn generalizing s t b with
  | _ n ih =>
    have hturn := h b hst
    cases hM : M.turn s b with
    | ret r s' b' =>
      rw [hM] at hturn
      cases hN : N.turn t b with
      | ret r₂ t' b₂ =>
        rw [hN] at hturn
        cases hturn with
        | ret hR =>
          rw [run_ret hM, run_ret hN]
          exact ⟨rfl, hR, rfl⟩
      | next t' b₂ =>
        rw [hN] at hturn
        cases hturn
    | next s' b' =>
      rw [hM] at hturn
      cases hN : N.turn t b with
      | ret r₂ t' b₂ =>
        rw [hN] at hturn
        cases hturn
      | next t' b₂ =>
        rw [hN] at hturn
        cases hturn with
        | next hR =>
          rw [run_next hM, run_next hN]
          exact ih _ (hw ▸ M.weight_lt hM) b' hR rfl

/-- What a turn of `M` at `(s, b)` must have in common with `N` when `u` is still to come: `N` comes
to where `M` went, or goes on where `M` waited, or shows the same final outcome. -/
structure Resumes (M N : Machine σ α ρ) (final : ρ → Prop) (view : ρ × σ × List α → ω)
    (u : List α) (s : σ) (b : List α) : Prop where
  next : ∀ {s' b'}, M.turn s b = .next s' b' → N.run s (b ++ u) = N.run s' (b' ++ u)
  wait : ∀ {r s' b'}, M.turn s b = .ret r s' b' → ¬ final r →
    N.run s (b ++ u) = N.run s' (b' ++ u)
  done : ∀ {r s' b'}, M.turn s b = .ret r s' b' → final r →
    view (N.run s (b ++ u)) = view (r, s', b' ++ u)

variable {final : ρ → Prop} {view : ρ × σ × List α → ω} {u : List α}

theorem Resumes.of_next {s s' : σ} {b b' : List α} (h : M.turn s b = .next s' b')
    (hN : N.run s (b ++ u) = N.run s' (b' ++ u)) : Resumes M N final view u s b := by
  constructor <;> intros <;> simp_all

theorem Resumes.of_wait {r : ρ} {s s' : σ} {b b' : List α} (h : M.turn s b = .ret r s' b')
    (hf : ¬ final r) (hN : N.run s (b ++ u) = N.run s' (b' ++ u)) :
    Resumes M N final view u s b := by
  constructor <;> intros <;> simp_all

theorem Resumes.of_done {r : ρ} {s s' : σ} {b b' : List α} (h : M.turn s b = .ret r s' b')
    (hf : final r) (hN : view (N.run s (b ++ u)) = view (r, s', b' ++ u)) :
    Resumes M N final view u s b := by
  constructor <;> intros <;> simp_all

/-- As long as the turns resume, the run over the longer buffer comes by the same states. -/
theorem run_append_of_visits {c d : σ × List α} (h : M.Visits c d)
    (hr : ∀ e, M.Visits c e → Resumes M N final view u e.1 e.2) :
    N.run c.1 (c.2 ++ u) = N.run d.1 (d.2 ++ u) := by
  induction h with
  | refl => rfl
  | tail hv hs ih => exact ih.trans ((hr _ hv).next hs)

theorem run_append_wait {s : σ} {b : List α}
    (hr : ∀ e, M.Visits (s, b) e → Resumes M N final view u e.1 e.2)
    (hf : ¬ final (M.run s b).1) :
    N.run s (b ++ u) = N.run (M.run s b).2.1 ((M.run s b).2.2 ++ u) := by
  obtain ⟨d, hd, ht⟩ := exists_last_turn M s b
  exact (run_append_of_visits hd hr).trans ((hr d hd).wait ht hf)

theorem run_append_done {s : σ} {b : List α}
    (hr : ∀ e, M.Visits (s, b) e → Resumes M N final view u e.1 e.2)
    (hf : final (M.run s b).1) :
    view (N.run s (b ++ u)) = view ((M.run s b).1, (M.run s b).2.1, (M.run s b).2.2 ++ u) := by
  obtain ⟨d, hd, ht⟩ := exists_last_turn M s b
  exact (congrArg view (run_append_of_visits hd hr)).trans ((hr d hd).done ht hf)

end Machine

/-- The elements of the pieces that are still to come. -/
def later (ps : List (κ × List α)) : List α := (ps.map Prod.snd).flatten

@[simp] theorem later_nil : later ([] : List (κ × List α)) = [] := rfl

@[simp] theorem later_cons (k : κ) (p : List α) (ps : List (κ × List α)) :
    later ((k, p) :: ps) = p ++ later ps := rfl

section Feeding

variable (M : κ → Machine σ α ρ) (final : ρ → Prop)

/-- Feed the pieces one by one, each with the parameter of its call, until a run has a final result.
Pieces that are not fed stay behind what is left in the buffer. -/
def feed [DecidablePred final] (r : ρ) (s : σ) (b : List α) : List (κ × List α) → ρ × σ × List α
  | [] => (r, s, b)
  | (k, p) :: ps =>
      let o := (M k).run s (b ++ p)
      if final o.1 then (o.1, o.2.1, o.2.2 ++ later ps) else feed o.1 o.2.1 o.2.2 ps

/-- What the calls come to, one after the other, up to the first final result. -/
def outcomes [DecidablePred final] (s : σ) (b : List α) :
    List (κ × List α) → List (ρ × σ × List α)
  | [] => []
  | (k, p) :: ps =>
      let o := (M k).run s (b ++ p)
      o :: if final o.1 then [] else outcomes o.2.1 o.2.2 ps

/-- At every turn of every call that is made, `C` holds of the bytes still to come, the state and
the buffer. -/
def Throughout (C : κ → List α → σ → List α → Prop) (s : σ) (b : List α) :
    List (κ × List α) → Prop
  | [] => True
  | (k, p) :: ps =>
      (∀ d, (M k).Visits (s, b ++ p) d → C k (later ps) d.1 d.2) ∧
        (¬ final ((M k).run s (b ++ p)).1 →
          Throughout C ((M k).run s (b ++ p)).2.1 ((M k).run s (b ++ p)).2.2 ps)

instance decidableThroughout [DecidablePred final] (C : κ → List α → σ → List α → Prop)
    [∀ k u s b, Decidable (C k u s b)] (s : σ) (b : List α) :
    (ps : List (κ × List α)) → Decidable (Throughout M final C s b ps)
  | [] => .isTrue trivial
  | (k, p) :: ps =>
      have := decidableThroughout C ((M k).run s (b ++ p)).2.1 ((M k).run s (b ++ p)).2.2 ps
      have := (M k).decidableVisits (C k (later ps)) (s, b ++ p)
      inferInstanceAs (Decidable (_ ∧ _))

variable {M final}

theorem Throughout.mono {C D : κ → List α → σ → List α → Prop} {s : σ} {b : List α}
    {ps : List (κ × List α)} (h : Throughout M final C s b ps)
    (hCD : ∀ {k u s b}, C k u s b → D k u s b) : Throughout M final D s b ps := by
  induction ps generalizing s b with
  | nil => trivial
  | cons kp ps ih => exact ⟨fun d hd => hCD (h.1 d hd), fun hf => ih (h.2 hf)⟩

theorem Throughout.and {C D : κ → List α → σ → List α → Prop} {s : σ} {b : List α}
    {ps : List (κ × List α)} (hC : Throughout M final C s b ps) (hD : Throughout M final D s b ps) :
    Throughout M final (fun k u s b => C k u s b ∧ D k u s b) s b ps := by
  induction ps generalizing s b with
  | nil => trivial
  | cons kp ps ih =>
    exact ⟨fun d hd => ⟨hC.1 d hd, hD.1 d hd⟩, fun hf => ih (hC.2 hf) (hD.2 hf)⟩

/-- What every turn keeps of the state and all the bytes from the buffer's first on holds
throughout. -/
theorem Throughout.of_invariant {I : σ → List α → Prop} {s : σ} {b : List α}
    {ps : List (κ × List α)} (h : I s (b ++ later ps))
    (hnext : ∀ {k s b s' b' u}, I s (b ++ u) → (M k).turn s b = .next s' b' → I s' (b' ++ u))
    (hret : ∀ {k s b r s' b' u}, I s (b ++ u) → (M k).turn s b = .ret r s' b' → ¬ final r →
      I s' (b' ++ u)) :
    Throughout M final (fun _ u s b => I s (b ++ u)) s b ps := by
  induction ps generalizing s b with
  | nil => trivial
  | cons kp ps ih =>
    obtain ⟨k, p⟩ := kp
    rw [later_cons, ← List.append_assoc] at h
    have hvisits : ∀ d, (M k).Visits (s, b ++ p) d → I d.1 (d.2 ++ later ps) := fun d hd =>
      hd.invariant (I := fun s b => I s (b ++ later ps)) hnext h
    refine ⟨hvisits, fun hf => ih ?_⟩
    obtain ⟨d, hd, ht⟩ := (M k).exists_last_turn s (b ++ p)
    exact hret (hvisits d hd) ht hf

/-- Feeding piece by piece shows the same outcome as one run of `N` over all the pieces. Where no
piece brought a final result, the run of `N` over what is left in the buffer decides. -/
theorem view_feed [DecidablePred final] {N : Machine σ α ρ} (view : ρ × σ × List α → ω)
    {s : σ} {b : List α} (ps : List (κ × List α)) (r : ρ) (hr : ¬ final r)
    (h : Throughout M final (fun k u s b => (M k).Resumes N final view u s b) s b ps) :
    view (N.run s (b ++ later ps)) =
      if final (feed M final r s b ps).1 then view (feed M final r s b ps)
      else view (N.run (feed M final r s b ps).2.1 (feed M final r s b ps).2.2) := by
  induction ps generalizing s b r with
  | nil => simp [feed, hr]
  | cons kp ps ih =>
    obtain ⟨k, p⟩ := kp
    obtain ⟨hturns, hrest⟩ := h
    rw [later_cons, ← List.append_assoc]
    by_cases hf : final ((M k).run s (b ++ p)).1
    · simp only [feed, hf, if_true]
      exact Machine.run_append_done hturns hf
    · simp only [feed, hf, if_false]
      rw [Machine.run_append_wait hturns hf]
      exact ih _ hf (hrest hf)

/-- Where waiting runs have used up their buffer as far as they can, so has a series of them. -/
theorem feed_rerun [DecidablePred final] {N : Machine σ α ρ} {s : σ} {b : List α}
    (ps : List (κ × List α)) {r : ρ}
    (hrun : ∀ k s b, ¬ final ((M k).run s b).1 →
      N.run ((M k).run s b).2.1 ((M k).run s b).2.2 = (M k).run s b)
    (h : N.run s b = (r, s, b)) (hf : ¬ final (feed M final r s b ps).1) :
    N.run (feed M final r s b ps).2.1 (feed M final r s b ps).2.2 = feed M final r s b ps := by
  induction ps generalizing s b r with
  | nil => exact h
  | cons kp ps ih =>
    obtain ⟨k, p⟩ := kp
    by_cases hp : final ((M k).run s (b ++ p)).1
    · simp only [feed, hp, if_true, not_true] at hf
    · simp only [feed, hp, if_false] at hf ⊢
      exact ih (hrun k s (b ++ p) hp) hf

/-- From a state that every call keeps, every call has the outcome that it has there. -/
theorem outcomes_of_absorbing [DecidablePred final] {I : σ → Prop} {Q : ρ × σ × List α → Prop}
    (hrun : ∀ k {s} b, I s → I ((M k).run s b).2.1 ∧ Q ((M k).run s b)) {s : σ} {b : List α}
    (h : I s) (ps : List (κ × List α)) : ∀ o ∈ outcomes M final s b ps, Q o := by
  induction ps generalizing s b with
  | nil => simp [outcomes]
  | cons kp ps ih =>
    obtain ⟨k, p⟩ := kp
    obtain ⟨hI, hQ⟩ := hrun k (b ++ p) h
    refine List.forall_mem_cons.mpr ⟨hQ, ?_⟩
    split_ifs
    · simp
    · exact ih hI

end Feeding

section Calls

variable (M : κ → Machine σ α ρ)

/-- The states and buffers between the calls, each of which first appends a piece to the buffer. -/
inductive Between (s₀ : σ) (b₀ : List α) : σ → List α → Prop
  | init : Between s₀ b₀ s₀ b₀
  | call {s : σ} {b : List α} (k : κ) (p : List α) : Between s₀ b₀ s b →
      Between s₀ b₀ ((M k).run s (b ++ p)).2.1 ((M k).run s (b ++ p)).2.2

/-- A call with parameter `k` takes a turn at `d`. -/
def During (s₀ : σ) (b₀ : List α) (k : κ) (d : σ × List α) : Prop :=
  ∃ s b p, Between M s₀ b₀ s b ∧ (M k).Visits (s, b ++ p) d

variable {M} {I : σ → List α → Prop} {s₀ : σ} {b₀ : List α}

/-- What every turn keeps, and every appended piece, holds between the calls. -/
theorem Between.invariant (h₀ : I s₀ b₀) (hfeed : ∀ {s b} p, I s b → I s (b ++ p))
    (hnext : ∀ {k s b s' b'}, I s b → (M k).turn s b = .next s' b' → I s' b')
    (hret : ∀ {k s b r s' b'}, I s b → (M k).turn s b = .ret r s' b' → I s' b')
    {s : σ} {b : List α} (h : Between M s₀ b₀ s b) : I s b := by
  induction h with
  | init => exact h₀
  | call k p _ ih => exact Machine.run_rule (Q := fun _ s b => I s b) hnext hret (hfeed p ih)

theorem During.invariant (h₀ : I s₀ b₀) (hfeed : ∀ {s b} p, I s b → I s (b ++ p))
    (hnext : ∀ {k s b s' b'}, I s b → (M k).turn s b = .next s' b' → I s' b')
    (hret : ∀ {k s b r s' b'}, I s b → (M k).turn s b = .ret r s' b' → I s' b')
    {k : κ} {d : σ × List α} (h : During M s₀ b₀ k d) : I d.1 d.2 := by
  obtain ⟨s, b, p, hb, hv⟩ := h
  exact hv.invariant hnext (hfeed p (hb.invariant h₀ hfeed hnext hret))

/-- An invariant of the states alone, whatever is in the buffer. -/
theorem Between.state_invariant {I : σ → Prop} (h₀ : I s₀)
    (hturn : ∀ {k s} b, I s → I ((M k).turn s b).state) {s : σ} {b : List α}
    (h : Between M s₀ b₀ s b) : I s :=
  h.invariant (I := fun s _ => I s) h₀ (fun _ h => h)
    (fun {k s b} _ _ hs ht => by simpa [ht, Turn.state] using hturn (k := k) b hs)
    (fun {k s b} _ _ _ hs ht => by simpa [ht, Turn.state] using hturn (k := k) b hs)

theorem During.state_invariant {I : σ → Prop} (h₀ : I s₀)
    (hturn : ∀ {k s} b, I s → I ((M k).turn s b).state) {k : κ} {d : σ × List α}
    (h : During M s₀ b₀ k d) : I d.1 :=
  h.invariant (I := fun s _ => I s) h₀ (fun _ h => h)
    (fun {k s b} _ _ hs ht => by simpa [ht, Turn.state] using hturn (k := k) b hs)
    (fun {k s b} _ _ _ hs ht => by simpa [ht, Turn.state] using hturn (k := k) b hs)

end Calls

end ExtHttp.BufferLoop
