import ExtHttp.UrlRoom

/-!
# Turns at any cursor

A loop that tests for the end behind its first turn only looks at what is behind the text as if it
were text. What such a turn writes: three bytes at most for a character that its component knows,
and otherwise what `parse_mb` does.
-/
namespace ExtHttp
open Scan

variable {S : UrlSystem} {flags : UrlFlags} {σ : Type}

theorem length_triple {cur : UrlCursor} {w : Bytes} (h : triple cur = .ok (some w)) :
    w.length = 3 := by
  obtain ⟨x, -, h⟩ := ok_eq_bind h
  split_ifs at h
  · cases h
  · obtain ⟨y, -, h⟩ := ok_eq_bind h
    split_ifs at h
    · cases h
    · cases h
      rfl

/-- A turn that copies a character, or encodes one byte. -/
def Short (x : Except UrlExit (Bytes × ℕ × σ)) : Prop :=
  x ≠ .error .runaway ∧ ∀ o, x = .ok o → o.1.length ≤ 3

theorem Short.refused : Short (.error .refused : Except UrlExit (Bytes × ℕ × σ)) := ⟨nofun, nofun⟩

theorem Short.ok {o : Bytes × ℕ × σ} (h : o.1.length ≤ 3) : Short (.ok o) := by
  refine ⟨nofun, ?_⟩
  intro o' ho
  cases ho
  exact h

theorem Short.orElse {o : Bytes × ℕ × σ} (h : o.1.length ≤ 3) : Short (ExtHttp.orElse flags o) := by
  unfold ExtHttp.orElse
  split_ifs
  · exact .ok h
  · exact .refused

theorem Short.triple {cur : UrlCursor} {s : σ} {ignored : Bytes × ℕ × σ}
    (h : ignored.1.length ≤ 3) :
    Short (triple cur >>= fun o => match o with
      | some w => .ok (w, 3, s)
      | none => ExtHttp.orElse flags ignored) := by
  constructor
  · intro hrun
    rcases error_eq_bind.mp hrun with hrun | ⟨o, -, hrun⟩
    · exact triple_whole hrun
    · cases o with
      | none => exact orElse_whole hrun
      | some w => cases hrun
  · intro o ho
    obtain ⟨v, hv, ho⟩ := ok_eq_bind ho
    cases v with
    | none => exact (Short.orElse h).2 o ho
    | some w =>
      cases ho
      exact (length_triple hv).le

/-- What a turn does at a character that the component knows, and at any other. -/
structure TurnKinds (S : UrlSystem) (flags : UrlFlags) (what : UrlPart) (word : UrlWord σ) (s : σ) :
    Prop where
  plain : ∀ cur c, cur.read 0 = .ok c → isPlain what c = true → Short (word s cur)
  other : ∀ cur c, cur.read 0 = .ok c → isPlain what c = false → ∃ s',
  word s cur = mbWord S flags what s' cur

/-- With nothing left of the text no more than three bytes are written. -/
theorem TurnKinds.short {what : UrlPart} {word : UrlWord σ} {s : σ}
    (h : TurnKinds S flags what word s) {cur : UrlCursor} {c : Byte} (hc : cur.read 0 = .ok c)
    (hleft : cur.left = 0) {o : Bytes × ℕ × σ} (hok : word s cur = .ok o) :
    o.1.length ≤ 3 := by
  cases hplain : isPlain what c with
  | true => exact (h.plain cur c hc hplain).2 o hok
  | false =>
    obtain ⟨s', hmb⟩ := h.other cur c hc hplain
    have hother : Short (ExtHttp.orElse flags ([c], 1, s')) := .orElse (Nat.le_add_left 1 2)
    rw [hmb, mbWord_eq hc] at hok
    obtain ⟨mb, hfound, hok⟩ := ok_eq_bind hok
    cases mb with
    | invalid => exact hother.2 o hok
    | incomplete wc =>
      dsimp only at hok
      split_ifs at hok
      exact hother.2 o hok
    | char wc tail => exact absurd hfound (mbAt_end hleft wc tail)

namespace UrlScanner

theorem schemeWord_kinds : TurnKinds S flags .scheme (schemeWord S flags) true where
  plain cur c hc hplain := by
    unfold schemeWord
    rw [hc]
    dsimp only [bind, Except.bind]
    split_ifs with hchar hlater
    · exact .ok (Nat.le_add_left 1 2)
    · exact .refused
    · simp only [isPlain, Bool.or_assoc] at hplain
      simp_all
  other cur c hc hplain := by
    refine ⟨false, ?_⟩
    unfold schemeWord
    rw [hc]
    simp only [isPlain, Bool.or_eq_false_iff] at hplain
    simp only [bind, Except.bind, hplain]
    rfl

theorem pathWord_kinds : TurnKinds S flags .path (pathWord S flags) () where
  plain cur c hc hplain := by
    unfold pathWord
    rw [hc]
    dsimp only [bind, Except.bind]
    split_ifs with hpercent hchar
    · exact .triple (Nat.le_add_left 1 2)
    · exact .ok (Nat.le_add_left 1 2)
    · simp only [isPlain, Bool.or_assoc] at hplain
      simp_all
  other cur c hc hplain := by
    refine ⟨(), ?_⟩
    unfold pathWord
    rw [hc]
    simp only [isPlain, Bool.or_eq_false_iff, decide_eq_false_iff_not] at hplain
    simp only [bind, Except.bind, hplain]
    rfl

theorem fragmentWord_kinds : TurnKinds S flags .fragment (fragmentWord S flags) () where
  plain cur c hc hplain := by
    unfold fragmentWord textWord
    rw [hc]
    dsimp only [bind, Except.bind]
    split_ifs with hhash hpercent hrfc hchar
    · exact .orElse (Nat.le_add_left 1 2)
    · exact .triple (length_unsafeChar c)
    · exact .ok (length_unsafeChar c)
    · exact .ok (Nat.le_add_left 1 2)
    · simp only [isPlain, Bool.or_assoc] at hplain
      simp_all
  other cur c hc hplain := by
    refine ⟨(), ?_⟩
    unfold fragmentWord textWord
    rw [hc]
    simp only [isPlain, Bool.or_eq_false_iff, decide_eq_false_iff_not] at hplain
    simp only [bind, Except.bind, hplain]
    rfl

end UrlScanner
end ExtHttp
