import ExtHttp.HeaderSafety

/-!
# Progress of the header parser

The loop ends from any state. With `PHP_HTTP_HEADER_PARSER_CLEANUP` a call fails, or comes to the
end of the headers with fewer bytes than before, or uses the buffer up, so that a caller who calls
again until one of these comes to an end.
-/
namespace ExtHttp
open BufferLoop

variable {Url S : Type} (P : UrlParsers Url) (sink : HeaderSink Url S)

/-- With `CLEANUP` a turn ends the loop with a failure, at the end of the headers, or with an empty
buffer. -/
theorem headerTurn_cleanup {call : HeaderCall} (hcleanup : call.cleanup = true)
    {c d : HeaderConfig S} {r : HeaderState} {b b' : Bytes}
    (h : headerTurn P sink call c b = .ret r d b') : r = .failure ∨ r = .done ∨ b' = [] := by
  unfold headerTurn at h
  split at h
  · cases h
    exact .inl rfl
  · split_ifs at h with hb
    cases h
    exact .inr (.inr hb)
  · split_ifs at h with hb
    · cases h
      exact .inr (.inr hb)
    · unfold keyTurn at h
      split at h
      · cases h
      · split at h
        · cases h
        · split at h
          · split_ifs at h
            cases h
            exact .inl rfl
          · rw [if_pos (.inr hcleanup)] at h
            cases h
            exact .inl rfl
  · split_ifs at h with hb
    · cases h
      exact .inr (.inr hb)
    · unfold valueTurn at h
      rw [if_pos hcleanup] at h
      split at h <;> cases h
  · unfold valueExTurn at h
    split_ifs at h with _ hmore
    exact absurd (.inr hcleanup) hmore
  · unfold headerDoneTurn at h
    split at h
    · split_ifs at h
      cases h
      exact .inl rfl
    · cases h
  · cases h
    exact .inr (.inl rfl)

/-- What a call with `CLEANUP` comes to: its result, and how long the buffer was and what is left of
it. -/
inductive HeaderProgress (b : Bytes) : HeaderState → Bytes → Prop
  | failed (b' : Bytes) : HeaderProgress b .failure b'
  | ended {b' : Bytes} (h : b'.length < b.length) : HeaderProgress b .done b'
  | used (r : HeaderState) : HeaderProgress b r []

theorem headerLoop_progress {call : HeaderCall} (hcleanup : call.cleanup = true)
    {c : HeaderConfig S} (hc : c.1.state ≠ .done) (b : Bytes) :
    HeaderProgress b ((headerLoop P sink call).run c b).1
      ((headerLoop P sink call).run c b).2.2 := by
  obtain ⟨-, -, hless⟩ := headerLoop_length P sink call c b
  obtain ⟨d, -, hturn⟩ := (headerLoop P sink call).exists_last_turn c b
  rcases headerTurn_cleanup P sink hcleanup hturn with hfailure | hdone | hused
  · rw [hfailure]
    exact .failed _
  · rw [hdone]
    exact .ended (hless hdone hc)
  · rw [hused]
    exact .used _

/-- A caller who calls with `CLEANUP` until the parser fails or the buffer is used up, `n` times at
most. -/
def headerDrain (call : HeaderCall) : ℕ → HeaderConfig S → Bytes →
    Option (HeaderState × HeaderConfig S × Bytes)
  | 0, _, _ => none
  | n + 1, c, b =>
      let o := (headerLoop P sink call).run c b
      if o.1 = .failure ∨ o.2.2 = [] then some o else headerDrain call n o.2.1 o.2.2

theorem headerDrain_ends {call : HeaderCall} (hcleanup : call.cleanup = true) {c : HeaderConfig S}
    (hc : c.1.state ≠ .done) {b : Bytes} {n : ℕ} (hn : b.length < n) :
    headerDrain P sink call n c b ≠ none := by
  induction n generalizing c b with
  | zero => exact absurd hn (Nat.not_lt_zero _)
  | succ n ih =>
    have hnext := (headerLoop_length P sink call c b).2.1
    have hprogress := headerLoop_progress P sink hcleanup hc b
    rw [headerDrain]
    generalize (headerLoop P sink call).run c b = o at hnext hprogress ⊢
    obtain ⟨r, d, b'⟩ := o
    by_cases hend : r = .failure ∨ b' = []
    · rw [if_pos hend]
      exact Option.some_ne_none _
    · rw [if_neg hend]
      cases hprogress with
      | failed => exact absurd (.inl rfl) hend
      | ended hless => exact ih hnext (by omega)
      | used => exact absurd (.inr rfl) hend

/-- The loop ends from every state and leaves no parser in `DONE`. From every other state a call
with `CLEANUP` makes progress, and as many calls as there are bytes, and one more, use the buffer up
or fail. -/
theorem headerParser_progress (call : HeaderCall) (c : HeaderConfig S) (b : Bytes) :
    (∃ n, (headerLoop P sink call).runWithin n c b = some ((headerLoop P sink call).run c b)) ∧
      ((headerLoop P sink call).run c b).2.1.1.state ≠ .done ∧
      (call.cleanup = true → c.1.state ≠ .done →
        HeaderProgress b ((headerLoop P sink call).run c b).1
          ((headerLoop P sink call).run c b).2.2 ∧
          headerDrain P sink call (b.length + 1) c b ≠ none) := by
  refine ⟨⟨_, (headerLoop P sink call).runWithin_weight (Nat.lt_succ_self _)⟩,
    (headerLoop_length P sink call c b).2.1, fun hcleanup hc => ⟨?_, ?_⟩⟩
  · exact headerLoop_progress P sink hcleanup hc b
  · exact headerDrain_ends P sink hcleanup hc (Nat.lt_succ_self _)

theorem headerParser_progress_line :
    HeaderProgress (ascii "A: b\n\nc") ((headerLoop rawUrls headerLog ⟨true, fun _ => []⟩).run
        (headerParserInit, (⟨[], []⟩ : HeaderLog Bytes)) (ascii "A: b\n\nc")).1
      ((headerLoop rawUrls headerLog ⟨true, fun _ => []⟩).run
        (headerParserInit, (⟨[], []⟩ : HeaderLog Bytes)) (ascii "A: b\n\nc")).2.2 :=
  ((headerParser_progress rawUrls headerLog ⟨true, fun _ => []⟩ (headerParserInit, ⟨[], []⟩)
    (ascii "A: b\n\nc")).2.2 rfl (by decide)).1

end ExtHttp
