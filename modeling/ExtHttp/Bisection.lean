import Mathlib

/-!
# Bisection with a moving cursor

A loop that keeps a cursor between two bounds, moves it by half of the way to one of them, and stops
when it does not move any more. The bounds themselves are never looked at.
-/
namespace ExtHttp.Bisection

/-- How an entry lies to what is looked for. -/
inductive Probe where
  | hit
  | above
  | below
  | apart
  deriving DecidableEq, Repr

/-- What comes of the loop: `beyond` if it reads where there is no entry, `running` if it has not
come to its end. -/
inductive Outcome where
  | found
  | missing
  | beyond
  | running
  deriving DecidableEq, Repr

variable (probe : ℕ → Option Probe)

def bisect : ℕ → ℕ → ℕ → ℕ → Outcome
  | 0, _, _, _ => .running
  | fuel + 1, cur, lo, hi =>
      match probe cur with
      | none => .beyond
      | some .hit => .found
      | some .above =>
          let next := cur - (cur - lo) / 2
          if next = cur then .missing else bisect fuel next lo cur
      | some .below =>
          let next := cur + (hi - cur) / 2
          if next = cur then .missing else bisect fuel next cur hi
      | some .apart => .missing

/-- The loop from the start. -/
def search (fuel hi : ℕ) : Outcome := bisect probe fuel (hi / 2) 0 hi

/-- The entries a search comes to, if they are ordered. -/
def Reached (hi i : ℕ) : Prop := if 2 ≤ hi then 0 < i ∧ i < hi else i = 0

instance (hi i : ℕ) : Decidable (Reached hi i) := by unfold Reached; infer_instance

/-- Entries are ordered up to a bound: what is behind an entry above is above, and what is before an
entry below is below. -/
structure Ordered (size : ℕ) : Prop where
  isSome : ∀ i < size, (probe i).isSome
  above : ∀ i < size, probe i = some .above → ∀ j < size, i ≤ j → probe j ≠ some .hit
  below : ∀ i < size, probe i = some .below → ∀ j ≤ i, probe j ≠ some .hit
  apart : ∀ i < size, probe i = some .apart → ∀ j < size, probe j ≠ some .hit

variable {probe} {size : ℕ}

theorem Reached.le {hi i : ℕ} (h : Reached hi i) : i ≤ hi := by
  unfold Reached at h
  split_ifs at h with hhi
  · exact h.2.le
  · omega

/-- Between the bounds the loop comes to its end, and finds what there is. -/
theorem bisect_spec (hord : Ordered probe size) {fuel cur lo hi : ℕ} (hlo : lo < cur)
    (hhi : cur < hi) (hsize : hi ≤ size) (hfuel : hi - lo ≤ fuel) :
    bisect probe fuel cur lo hi = if ∃ i < hi, lo < i ∧ probe i = some .hit then .found
      else .missing := by
  induction fuel generalizing cur lo hi with
  | zero => omega
  | succ fuel ih =>
    unfold bisect
    have hsome := hord.isSome cur (hhi.trans_le hsize)
    cases hprobe : probe cur with
    | none => simp [hprobe] at hsome
    | some p =>
      cases p with
      | hit => exact (if_pos ⟨cur, hhi, hlo, hprobe⟩).symm
      | above =>
        have habove := hord.above cur (hhi.trans_le hsize) hprobe
        -- nothing from the cursor on is a hit, so the bound comes down to the cursor
        have hwindow : (∃ i < hi, lo < i ∧ probe i = some .hit) ↔
            ∃ i < cur, lo < i ∧ probe i = some .hit := by
          constructor
          · rintro ⟨i, hi', hlo', hhit⟩
            exact ⟨i, not_le.mp fun hle => habove i (hi'.trans_le hsize) hle hhit, hlo', hhit⟩
          · rintro ⟨i, hi', hlo', hhit⟩
            exact ⟨i, hi'.trans hhi, hlo', hhit⟩
        rw [if_congr hwindow rfl rfl]
        dsimp only
        split_ifs with hnext hex hex
        · obtain ⟨i, hi', hlo', -⟩ := hex
          omega
        · rfl
        · rw [ih (by omega) (by omega) (by omega) (by omega), if_pos hex]
        · rw [ih (by omega) (by omega) (by omega) (by omega), if_neg hex]
      | below =>
        have hbelow := hord.below cur (hhi.trans_le hsize) hprobe
        have hwindow : (∃ i < hi, lo < i ∧ probe i = some .hit) ↔
            ∃ i < hi, cur < i ∧ probe i = some .hit := by
          constructor
          · rintro ⟨i, hi', -, hhit⟩
            exact ⟨i, hi', not_le.mp fun hle => hbelow i hle hhit, hhit⟩
          · rintro ⟨i, hi', hlo', hhit⟩
            exact ⟨i, hi', hlo.trans hlo', hhit⟩
        rw [if_congr hwindow rfl rfl]
        dsimp only
        split_ifs with hnext hex hex
        · obtain ⟨i, hi', hlo', -⟩ := hex
          omega
        · rfl
        · rw [ih (by omega) (by omega) (by omega) (by omega), if_pos hex]
        · rw [ih (by omega) (by omega) (by omega) (by omega), if_neg hex]
      | apart =>
        have hapart := hord.apart cur (hhi.trans_le hsize) hprobe
        refine (if_neg ?_).symm
        rintro ⟨i, hi', -, hhit⟩
        exact hapart i (hi'.trans_le hsize) hhit

/-- Where the bounds leave nothing between them the search looks at the first entry only. -/
theorem search_single {fuel hi : ℕ} (hfuel : 0 < fuel) (hhi : hi < 2) (hsome : (probe 0).isSome) :
    search probe fuel hi = if probe 0 = some .hit then .found else .missing := by
  obtain ⟨fuel, rfl⟩ := Nat.exists_eq_succ_of_ne_zero hfuel.ne'
  have hcur : hi / 2 = 0 := by omega
  unfold search bisect
  rw [hcur]
  cases hprobe : probe 0 with
  | none => simp [hprobe] at hsome
  | some p => cases p <;> simp [hcur]

/-- A search comes to its end, reads entries only, and finds what there is among the entries it
comes to. -/
theorem search_spec (hord : Ordered probe size) {fuel hi : ℕ} (hsize : hi ≤ size) (hpos : 0 < size)
    (hfuel : hi < fuel) :
    search probe fuel hi = if ∃ i < hi + 1, Reached hi i ∧ probe i = some .hit then .found
      else .missing := by
  by_cases hhi : 2 ≤ hi
  · unfold search
    rw [bisect_spec hord (by omega) (by omega) hsize (by omega)]
    refine if_congr ⟨?_, ?_⟩ rfl rfl
    · rintro ⟨i, hi', hlo, hhit⟩
      exact ⟨i,
        hi'.le.trans_lt (Nat.lt_succ_self hi), by rw [Reached, if_pos hhi]; exact ⟨hlo, hi'⟩, hhit⟩
    · rintro ⟨i, -, hreach, hhit⟩
      rw [Reached, if_pos hhi] at hreach
      exact ⟨i, hreach.2, hreach.1, hhit⟩
  · rw [search_single (by omega) (by omega) (hord.isSome 0 hpos)]
    refine if_congr ⟨?_, ?_⟩ rfl rfl
    · intro hhit
      exact ⟨0, Nat.succ_pos hi, by rw [Reached, if_neg hhi], hhit⟩
    · rintro ⟨i, -, hreach, hhit⟩
      rw [Reached, if_neg hhi] at hreach
      exact hreach ▸ hhit

end ExtHttp.Bisection
