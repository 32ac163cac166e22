import Mathlib

/-!
# Scanners

A loop over characters that takes one or more of them at a time, and writes some. It may stop in
front of a character, or fail, or take more characters than there are.
-/
namespace ExtHttp.Scan

variable {α β σ : Type}

/-- What a word of the input is written as, how many characters it takes, and the state then. A word
can be looked at from its first character on, with what is behind the input. -/
abbrev Word (α β σ : Type) := σ → List α → List α → Option (List β × ℕ × σ)

/-- The outcome of a loop: what has been written, its state, what is left of the input, and how far
it has gone behind the end. -/
structure Outcome (α β σ : Type) where
  written : List β
  state : σ
  rest : List α
  excess : ℕ
  deriving DecidableEq, Repr

def Outcome.behind (o : Outcome α β σ) (w : List β) : Outcome α β σ :=
  { o with written := w ++ o.written }

/-- The loop; the first `skip` characters belong to a word that has been taken. -/
def scan (stop : α → Bool) (word : Word α β σ) (after : List α) :
    σ → ℕ → List α → Option (Outcome α β σ)
  | s, skip, [] => some ⟨[], s, [], skip⟩
  | s, skip + 1, _ :: b => scan stop word after s skip b
  | s, 0, c :: b =>
      if stop c then some ⟨[], s, c :: b, 0⟩
      else match word s (c :: b) after with
        | none => none
        | some (w, n, s') => (scan stop word after s' (n - 1) b).map fun o => o.behind w

/-- A loop that tests for the end of its input after its first turn only. -/
def scanDo (stop : α → Bool) (word : Word α β σ) (after : List α) (s : σ) (b : List α) :
    Option (Outcome α β σ) :=
  match b, after with
  | [], c :: _ =>
      if stop c then some ⟨[], s, [], 0⟩
      else (word s [] after).map fun o => ⟨o.1, o.2.2, [], o.2.1⟩
  | b, _ => scan stop word after s 0 b

variable {stop : α → Bool} {word : Word α β σ} {after : List α}

@[simp] theorem scan_nil (s : σ) (skip : ℕ) :
    scan stop word after s skip [] = some ⟨[], s, [], skip⟩ := by cases skip <;> rfl

theorem scan_congr {word' : Word α β σ} (h : ∀ s b, word s b after = word' s b after) (s : σ)
    (skip : ℕ) (b : List α) : scan stop word after s skip b = scan stop word' after s skip b := by
  induction b generalizing s skip with
  | nil => rw [scan_nil, scan_nil]
  | cons c b ih =>
    cases skip with
    | succ skip => exact ih s skip
    | zero =>
      rw [scan, scan, h]
      simp only [ih]

theorem scan_drop (s : σ) {n : ℕ} {b : List α} (h : n ≤ b.length) :
    scan stop word after s n b = scan stop word after s 0 (b.drop n) := by
  induction b generalizing n with
  | nil => rw [Nat.le_zero.mp h, List.drop_zero]
  | cons c b ih =>
    cases n with
    | zero => rfl
    | succ n => exact ih (Nat.le_of_succ_le_succ h)

theorem scan_stop {c : α} (h : stop c = true) (s : σ) (b : List α) :
    scan stop word after s 0 (c :: b) = some ⟨[], s, c :: b, 0⟩ := if_pos h

theorem scan_word {c : α} (hc : stop c = false) {s s' : σ} {b : List α} {w : List β} {n : ℕ}
    (h : word s (c :: b) after = some (w, n, s')) :
    scan stop word after s 0 (c :: b) =
      (scan stop word after s' (n - 1) b).map fun o => o.behind w := by
  rw [scan, if_neg (by simp [hc]), h]

theorem scan_none {c : α} (hc : stop c = false) {s : σ} {b : List α}
    (h : word s (c :: b) after = none) : scan stop word after s 0 (c :: b) = none := by
  rw [scan, if_neg (by simp [hc]), h]

/-- What can happen at the first character. -/
theorem scan_cases {s : σ} {b : List α} {o : Outcome α β σ}
    (h : scan stop word after s 0 b = some o) :
    (b = [] ∨ ∃ c ∈ b.head?, stop c = true) ∧ o = ⟨[], s, b, 0⟩ ∨
      ∃ c rest w n s' o', b = c :: rest ∧ stop c = false ∧ word s b after = some (w, n, s') ∧
        scan stop word after s' (n - 1) rest = some o' ∧ o = o'.behind w := by
  cases b with
  | nil => exact .inl ⟨.inl rfl, by simpa using h.symm⟩
  | cons c rest =>
    cases hc : stop c with
    | true =>
      rw [scan_stop hc] at h
      exact .inl ⟨.inr ⟨c, rfl, hc⟩, (Option.some.inj h).symm⟩
    | false =>
      cases hw : word s (c :: rest) after with
      | none =>
        rw [scan_none hc hw] at h
        cases h
      | some t =>
        obtain ⟨w, n, s'⟩ := t
        rw [scan_word hc hw] at h
        obtain ⟨o', ho, rfl⟩ := Option.map_eq_some_iff.mp h
        exact .inr ⟨c, rest, w, n, s', o', rfl, hc, rfl, ho, rfl⟩

/-- A property of outcomes holds if it does where the loop stops, and where a word is the last, and
passes over a word. -/
theorem scan_induction {motive : σ → List α → Outcome α β σ → Prop}
    (hstop : ∀ s b, (b = [] ∨ ∃ c ∈ b.head?, stop c = true) → motive s b ⟨[], s, b, 0⟩)
    (hlast : ∀ s c rest w n s', stop c = false → word s (c :: rest) after = some (w, n, s') →
      rest.length < n - 1 → motive s (c :: rest) ⟨w, s', [], n - 1 - rest.length⟩)
    (hword : ∀ s c rest w n s' o, stop c = false → word s (c :: rest) after = some (w, n, s') →
      n - 1 ≤ rest.length → motive s' (rest.drop (n - 1)) o → motive s (c :: rest) (o.behind w))
    {s : σ} {b : List α} {o : Outcome α β σ} (h : scan stop word after s 0 b = some o) :
    motive s b o := by
  induction hlen : b.length using Nat.strong_induction_on generalizing s b o with
  | _ len ih =>
    rcases scan_cases h with ⟨hend, rfl⟩ | ⟨c, rest, w, n, s', o', rfl, hc, hw, ho, rfl⟩
    · exact hstop s b hend
    · by_cases hn : n - 1 ≤ rest.length
      · rw [scan_drop s' hn] at ho
        refine hword s c rest w n s' o' hc hw hn (ih _ ?_ ho rfl)
        rw [← hlen, List.length_drop, List.length_cons]
        omega
      · have hover : ∀ (s' : σ) (m : ℕ) (rest : List α), rest.length ≤ m →
            scan stop word after s' m rest = some ⟨[], s', [], m - rest.length⟩ := by
          intro s' m rest
          induction rest generalizing m with
          | nil => simp
          | cons c rest ih =>
            intro hm
            obtain ⟨m, rfl⟩ := Nat.exists_eq_succ_of_ne_zero (by
              rw [List.length_cons] at hm
              omega : m ≠ 0)
            rw [scan, ih m (Nat.le_of_succ_le_succ hm), List.length_cons, Nat.succ_sub_succ]
        rw [hover s' (n - 1) rest (by omega)] at ho
        obtain rfl := Option.some.inj ho
        have := hlast s c rest w n s' hc hw (by omega)
        simpa [Outcome.behind] using this

theorem rest_suffix {s : σ} {b : List α} {o : Outcome α β σ}
    (h : scan stop word after s 0 b = some o) : o.rest <:+ b := by
  refine scan_induction (motive := fun _ b o => o.rest <:+ b) (fun s b _ => List.suffix_refl b)
    (fun s c rest w n s' _ _ _ => List.nil_suffix) (fun s c rest w n s' o _ _ _ ih => ?_) h
  exact ih.trans ((List.drop_suffix _ _).trans (List.suffix_cons c rest))

theorem rest_head {s : σ} {b : List α} {o : Outcome α β σ}
    (h : scan stop word after s 0 b = some o) : ∀ c ∈ o.rest.head?, stop c = true := by
  refine scan_induction (motive := fun _ _ o => ∀ c ∈ o.rest.head?, stop c = true)
    (fun s b hend => ?_)
    (fun s c rest w n s' _ _ _ => by simp) (fun s c rest w n s' o _ _ _ ih => ih) h
  rcases hend with rfl | ⟨c, hc, hstop⟩
  · simp
  · intro d hd
    rwa [Option.mem_unique hd hc]

theorem rest_nil {s : σ} {b : List α} {o : Outcome α β σ}
    (h : scan stop word after s 0 b = some o) (hexcess : 0 < o.excess) : o.rest = [] := by
  revert hexcess
  exact scan_induction (motive := fun _ _ o => 0 < o.excess → o.rest = [])
    (fun s b _ h => absurd h (Nat.lt_irrefl 0)) (fun s c rest w n s' _ _ _ _ => rfl)
    (fun s c rest w n s' o _ _ _ ih => ih) h

theorem forall_written {P : β → Prop}
    (hword : ∀ s c b w n s', stop c = false → word s (c :: b) after = some (w, n, s') →
      ∀ d ∈ w, P d)
    {s : σ} {b : List α} {o : Outcome α β σ} (h : scan stop word after s 0 b = some o) :
    ∀ d ∈ o.written, P d := by
  refine scan_induction (motive := fun _ _ o => ∀ d ∈ o.written, P d)
    (fun s b _ d hd => by cases hd) (fun s c rest w n s' hc hw _ => hword s c rest w n s' hc hw)
    (fun s c rest w n s' o hc hw _ ih d hd => ?_) h
  rcases List.mem_append.mp hd with hd | hd
  · exact hword s c rest w n s' hc hw d hd
  · exact ih d hd

/-- If every word writes something, a loop that has written nothing has stopped at once. -/
theorem of_written_nil
    (hword : ∀ s c b w n s', stop c = false → word s (c :: b) after = some (w, n, s') → w ≠ [])
    {s : σ} {b : List α} {o : Outcome α β σ} (h : scan stop word after s 0 b = some o)
    (hnil : o.written = []) : (b = [] ∨ ∃ c ∈ b.head?, stop c = true) ∧ o = ⟨[], s, b, 0⟩ := by
  rcases scan_cases h with hend | ⟨c, rest, w, n, s', o', rfl, hc, hw, -, rfl⟩
  · exact hend
  · exact absurd (List.append_eq_nil_iff.mp hnil).1 (hword s c rest w n s' hc hw)

/-! ### Text that is copied -/

/-- Whatever follows `w`, it is taken and written as it stands, and leads from `s` to `s'`. -/
def Copied (stop : α → Bool) (word : Word α α σ) (s : σ) (w : List α) (s' : σ) : Prop :=
  ∀ b after, scan stop word after s 0 (w ++ b) =
    (scan stop word after s' 0 b).map fun o => o.behind w

section Copied
variable {word : Word α α σ}

theorem Copied.nil (s : σ) : Copied stop word s [] s := fun b after => by
  rw [List.nil_append]
  cases scan stop word after s 0 b <;> simp [Outcome.behind]

theorem Copied.append {s s' s'' : σ} {v w : List α} (hv : Copied stop word s v s')
    (hw : Copied stop word s' w s'') : Copied stop word s (v ++ w) s'' := fun b after => by
  rw [List.append_assoc, hv, hw]
  cases scan stop word after s'' 0 b <;> simp [Outcome.behind]

theorem Copied.one {s s' : σ} {c : α} {w : List α} (hc : stop c = false)
    (h : ∀ b after, word s (c :: w ++ b) after = some (c :: w, w.length + 1, s')) :
    Copied stop word s (c :: w) s' := fun b after => by
  have hw : word s (c :: (w ++ b)) after = some (c :: w, w.length + 1, s') := h b after
  rw [List.cons_append, scan_word hc hw, Nat.add_sub_cancel, scan_drop _ (by simp), List.drop_left]

/-- A text that is copied to its end. -/
theorem Copied.scan {s s' : σ} {w : List α} (h : Copied stop word s w s') (after : List α) :
    Scan.scan stop word after s 0 w = some ⟨w, s', [], 0⟩ := by
  have := h [] after
  rwa [List.append_nil, scan_nil, Option.map_some, Outcome.behind, List.append_nil] at this

theorem Copied.scan_stop {s s' : σ} {w : List α} (h : Copied stop word s w s') {c : α}
    (hc : stop c = true) (b after : List α) :
    Scan.scan stop word after s 0 (w ++ c :: b) = some ⟨w, s', c :: b, 0⟩ := by
  rw [h, Scan.scan_stop hc, Option.map_some, Outcome.behind, List.append_nil]

/-- The end of the text, or one of the characters that end it. -/
theorem Copied.scan_end {s s' : σ} {w b : List α} (h : Copied stop word s w s') (after : List α)
    (hb : ∀ c ∈ b.head?, stop c = true) :
    Scan.scan stop word after s 0 (w ++ b) = some ⟨w, s', b, 0⟩ := by
  cases b with
  | nil => rw [List.append_nil, h.scan]
  | cons c b => exact h.scan_stop (hb c rfl) b after

/-- What is written is copied if every word writes such text. -/
theorem copied_written {s : σ} {b : List α} {o : Outcome α α σ}
    (hword : ∀ s c b w n s', stop c = false → word s (c :: b) after = some (w, n, s') →
      Copied stop word s w s')
    (h : Scan.scan stop word after s 0 b = some o) : Copied stop word s o.written o.state := by
  refine scan_induction (motive := fun s _ o => Copied stop word s o.written o.state)
    (fun s b _ => .nil s) (fun s c rest w n s' hc hw _ => hword s c rest w n s' hc hw)
    (fun s c rest w n s' o hc hw _ ih => (hword s c rest w n s' hc hw).append ih) h

end Copied

/-! ### Loops with exits -/

/-- A word that may end its loop with an exit. -/
abbrev WordE (ε α β σ : Type) := σ → List α → List α → Except ε (List β × ℕ × σ)

/-- The loop of such words. -/
def scanE {ε : Type} (stop : α → Bool) (word : WordE ε α β σ) (after : List α) :
    σ → ℕ → List α → Except ε (Outcome α β σ)
  | s, skip, [] => .ok ⟨[], s, [], skip⟩
  | s, skip + 1, _ :: b => scanE stop word after s skip b
  | s, 0, c :: b =>
      if stop c then .ok ⟨[], s, c :: b, 0⟩
      else match word s (c :: b) after with
        | .error e => .error e
        | .ok (w, n, s') => (scanE stop word after s' (n - 1) b).map fun o => o.behind w

/-- Where a loop comes to look at a character: its state, and what is left of the input then. -/
inductive Comes {ε : Type} (stop : α → Bool) (word : WordE ε α β σ) (after : List α) :
    σ → List α → σ → List α → Prop
  | here (s : σ) (b : List α) : Comes stop word after s b s b
  | next {s s' t : σ} {c : α} {b d : List α} {w : List β} {n : ℕ} (hc : stop c = false)
      (hw : word s (c :: b) after = .ok (w, n, s')) (hn : n - 1 ≤ b.length)
      (h : Comes stop word after s' (b.drop (n - 1)) t d) : Comes stop word after s (c :: b) t d

section Exits
variable {ε : Type} {word : WordE ε α β σ}

theorem scanE_toOption (s : σ) (skip : ℕ) (b : List α) :
    (scanE stop word after s skip b).toOption =
      scan stop (fun s b after => (word s b after).toOption) after s skip b := by
  induction b generalizing s skip with
  | nil => cases skip <;> rfl
  | cons c b ih =>
    cases skip with
    | succ skip => exact ih s skip
    | zero =>
      rw [scanE, scan]
      split_ifs
      · rfl
      · cases word s (c :: b) after with
        | error e => rfl
        | ok t =>
          obtain ⟨w, n, s'⟩ := t
          change ((scanE stop word after s' (n - 1) b).map fun o => o.behind w).toOption =
            (scan stop (fun s b after => (word s b after).toOption) after s' (n - 1) b).map _
          rw [← ih s' (n - 1)]
          cases scanE stop word after s' (n - 1) b <;> rfl

theorem scanE_ok {s : σ} {skip : ℕ} {b : List α} {o : Outcome α β σ}
    (h : scanE stop word after s skip b = .ok o) :
    scan stop (fun s b after => (word s b after).toOption) after s skip b = some o := by
  rw [← scanE_toOption, h]
  rfl

theorem scanE_drop (s : σ) {n : ℕ} {b : List α} (h : n ≤ b.length) :
    scanE stop word after s n b = scanE stop word after s 0 (b.drop n) := by
  induction b generalizing n with
  | nil => rw [Nat.le_zero.mp h, List.drop_zero]
  | cons c b ih =>
    cases n with
    | zero => rfl
    | succ n => exact ih (Nat.le_of_succ_le_succ h)

theorem scanE_over (s : σ) {n : ℕ} {b : List α} (h : b.length ≤ n) :
    scanE stop word after s n b = .ok ⟨[], s, [], n - b.length⟩ := by
  induction b generalizing n with
  | nil => cases n <;> rfl
  | cons c b ih =>
    cases n with
    | zero => cases h
    | succ n =>
      rw [scanE, ih (Nat.le_of_succ_le_succ h), List.length_cons, Nat.succ_sub_succ]

theorem scanE_stop {c : α} (h : stop c = true) (s : σ) (b : List α) :
    scanE stop word after s 0 (c :: b) = .ok ⟨[], s, c :: b, 0⟩ := if_pos h

theorem scanE_word {c : α} (hc : stop c = false) {s s' : σ} {b : List α} {w : List β} {n : ℕ}
    (h : word s (c :: b) after = .ok (w, n, s')) :
    scanE stop word after s 0 (c :: b) =
      (scanE stop word after s' (n - 1) b).map fun o => o.behind w := by
  rw [scanE, if_neg (by simp [hc]), h]

theorem scanE_error {c : α} (hc : stop c = false) {s : σ} {b : List α} {e : ε}
    (h : word s (c :: b) after = .error e) : scanE stop word after s 0 (c :: b) = .error e := by
  rw [scanE, if_neg (by simp [hc]), h]

/-- Wherever a loop comes, it ends as it does from there. -/
theorem Comes.scanE {s t : σ} {b d : List α} (h : Comes stop word after s b t d) :
    ∃ w, Scan.scanE stop word after s 0 b = (Scan.scanE stop word after t 0 d).map fun o =>
      o.behind w := by
  induction h with
  | here s b =>
    refine ⟨[], ?_⟩
    cases Scan.scanE stop word after s 0 b <;> rfl
  | @next s s' t c b d v n hc hw hn _ ih =>
    obtain ⟨w, ih⟩ := ih
    refine ⟨v ++ w, ?_⟩
    rw [scanE_word hc hw, scanE_drop _ hn, ih]
    cases Scan.scanE stop word after t 0 d with
    | error e => rfl
    | ok o => simp [Except.map, Outcome.behind]

/-- A loop exits where it comes to a word that does. -/
theorem scanE_error_iff {s : σ} {b : List α} {e : ε} : scanE stop word after s 0 b = .error e ↔
    ∃ t c d, Comes stop word after s b t (c :: d) ∧ stop c = false ∧
      word t (c :: d) after = .error e := by
  constructor
  · intro h
    induction hlen : b.length using Nat.strong_induction_on generalizing s b with
    | _ len ih =>
      cases b with
      | nil => cases h
      | cons c b =>
        cases hc : stop c with
        | true =>
          rw [scanE_stop hc] at h
          cases h
        | false =>
          cases hw : word s (c :: b) after with
          | error e' =>
            rw [scanE_error hc hw] at h
            cases h
            exact ⟨s, c, b, .here _ _, hc, hw⟩
          | ok o =>
            obtain ⟨w, n, s'⟩ := o
            rw [scanE_word hc hw] at h
            by_cases hn : n - 1 ≤ b.length
            · rw [scanE_drop _ hn] at h
              have hrest : scanE stop word after s' 0 (b.drop (n - 1)) = .error e := by
                cases hr : scanE stop word after s' 0 (b.drop (n - 1)) with
                | error e' =>
                  rw [hr] at h
                  exact h
                | ok o =>
                  rw [hr] at h
                  cases h
              obtain ⟨t, c', d, hcomes, hstop, hword⟩ := ih _ (by
                rw [← hlen, List.length_drop, List.length_cons]
                omega) hrest rfl
              exact ⟨t, c', d, .next hc hw hn hcomes, hstop, hword⟩
            · rw [scanE_over _ (by omega)] at h
              cases h
  · rintro ⟨t, c, d, hcomes, hstop, hword⟩
    obtain ⟨w, hw⟩ := hcomes.scanE
    rw [hw, scanE_error hstop hword]
    rfl

/-- Where a loop stops in front of a character, it has come to that. -/
theorem comes_rest {s : σ} {b : List α} {o : Outcome α β σ}
    (h : scanE stop word after s 0 b = .ok o) (hrest : o.rest ≠ []) :
    Comes stop word after s b o.state o.rest := by
  induction hlen : b.length using Nat.strong_induction_on generalizing s b o with
  | _ len ih =>
    cases b with
    | nil =>
      cases h
      exact absurd rfl hrest
    | cons c b =>
      cases hc : stop c with
      | true =>
        rw [scanE_stop hc] at h
        cases h
        exact .here s (c :: b)
      | false =>
        cases hw : word s (c :: b) after with
        | error e =>
          rw [scanE_error hc hw] at h
          cases h
        | ok t =>
          obtain ⟨w, n, s'⟩ := t
          rw [scanE_word hc hw] at h
          by_cases hn : n - 1 ≤ b.length
          · rw [scanE_drop _ hn] at h
            cases hr : scanE stop word after s' 0 (b.drop (n - 1)) with
            | error e =>
              rw [hr] at h
              cases h
            | ok r =>
              rw [hr] at h
              cases h
              have hless : (b.drop (n - 1)).length < len := by
                rw [← hlen, List.length_drop, List.length_cons]
                omega
              have hcomes := ih _ hless hr hrest rfl
              exact .next hc hw hn hcomes
          · rw [scanE_over _ (by omega)] at h
            cases h
            exact absurd rfl hrest

/-- A loop stops in front of each character that ends it and that it comes to. -/
theorem scanE_stopped {s t : σ} {b d : List α} {c : α} (h : Comes stop word after s b t (c :: d))
    (hc : stop c = true) :
    ∃ o, scanE stop word after s 0 b = .ok o ∧ o.state = t ∧ o.rest = c :: d := by
  obtain ⟨w, hw⟩ := h.scanE
  rw [scanE_stop hc] at hw
  exact ⟨_, hw, rfl, rfl⟩

/-- A loop goes behind the end where it comes to a word that does. -/
theorem scanE_excess_iff {s : σ} {b : List α} :
    (∃ o, scanE stop word after s 0 b = .ok o ∧ 0 < o.excess) ↔ ∃ t c d w n t',
      Comes stop word after s b t (c :: d) ∧ stop c = false ∧
        word t (c :: d) after = .ok (w, n, t') ∧
        d.length < n - 1 := by
  constructor
  · rintro ⟨o, h, hexcess⟩
    induction hlen : b.length using Nat.strong_induction_on generalizing s b o with
    | _ len ih =>
      cases b with
      | nil =>
        cases h
        cases hexcess
      | cons c b =>
        cases hc : stop c with
        | true =>
          rw [scanE_stop hc] at h
          cases h
          cases hexcess
        | false =>
          cases hw : word s (c :: b) after with
          | error e' =>
            rw [scanE_error hc hw] at h
            cases h
          | ok o =>
            obtain ⟨w, n, s'⟩ := o
            rw [scanE_word hc hw] at h
            by_cases hn : n - 1 ≤ b.length
            · rw [scanE_drop _ hn] at h
              cases hr : scanE stop word after s' 0 (b.drop (n - 1)) with
              | error e' =>
                rw [hr] at h
                cases h
              | ok o' =>
                rw [hr] at h
                cases h
                obtain ⟨t, c', d, w', n', t', hcomes, hrest⟩ := ih _ (by
                  rw [← hlen, List.length_drop, List.length_cons]
                  omega) o' hr hexcess rfl
                exact ⟨t, c', d, w', n', t', .next hc hw hn hcomes, hrest⟩
            · exact ⟨s, c, b, w, n, s', .here _ _, hc, hw, by omega⟩
  · rintro ⟨t, c, d, w, n, t', hcomes, hstop, hword, hn⟩
    obtain ⟨v, hv⟩ := hcomes.scanE
    rw [hv, scanE_word hstop hword, scanE_over _ hn.le]
    refine ⟨_, rfl, ?_⟩
    simp only [Outcome.behind]
    omega

end Exits

end ExtHttp.Scan
