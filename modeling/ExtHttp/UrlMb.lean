import ExtHttp.UrlLooks

/-!
# Multibyte characters

What `parse_mb` does at any cursor, inside of the text or behind it.
-/
namespace ExtHttp
open Scan

variable {S : UrlSystem} {flags : UrlFlags} {σ : Type}

theorem mbFound_nil (wc tail : ℕ) : mbFound S flags [] ≠ .char wc tail := by
  unfold mbFound
  split_ifs
  · simp [utf8ToWc]
  · exact fun h => absurd (S.mbrtowc_le [] wc tail h) (Nat.not_lt_zero _)
  · simp

theorem read_overread {cur : UrlCursor} {i : ℕ} {e : UrlExit} (h : cur.read i = .error e) :
    e = .overread := by
  unfold UrlCursor.read at h
  split at h
  · cases h
  · exact (Except.error.inj h).symm

theorem read_ok_iff {cur : UrlCursor} {c : Byte} :
    cur.read 0 = .ok c ↔ cur.text.head? = some c := by
  rw [UrlCursor.read, ← List.head?_eq_getElem?]
  cases cur.text.head? with
  | none => simp
  | some d => simp

theorem mbAt_overread {cur : UrlCursor} {e : UrlExit} (h : mbAt S flags cur = .error e) :
    e = .overread := by
  unfold mbAt at h
  split_ifs at h
  rcases error_eq_bind.mp h with h | ⟨c, -, h⟩
  · exact read_overread h
  · dsimp only at h
    split_ifs at h
    · exact (Except.error.inj h).symm
    · split at h <;> cases h

theorem mbAt_le {cur : UrlCursor} {wc tail : ℕ} (h : mbAt S flags cur = .ok (.char wc tail)) :
    tail + 1 ≤ cur.text.length := by
  unfold mbAt at h
  split_ifs at h with hutf8 hloc
  · obtain ⟨c, hc, h⟩ := ok_eq_bind h
    dsimp only at h
    split_ifs at h
    · cases h
    split at h
    · next wc' n hwc =>
      cases h
      have hfound : mbFound S flags cur.text = .char wc (n - 1) := by
        rw [mbFound, if_pos hutf8, hwc]
        rfl
      cases htext : cur.text with
      | nil =>
        rw [htext] at hfound
        exact absurd hfound (mbFound_nil wc _)
      | cons d text =>
        rw [htext] at hfound
        rw [List.length_cons]
        exact Nat.succ_le_succ (mbFound_le hfound)
    · cases h
  · have hle := S.mbrtowc_le _ _ _ (Except.ok.inj h)
    rw [List.length_take] at hle
    omega
  · cases h

/-- No character is taken whole where nothing is left of the text. -/
theorem mbAt_end {cur : UrlCursor} (hleft : cur.left = 0) (wc tail : ℕ) :
    mbAt S flags cur ≠ .ok (.char wc tail) := by
  have hsize : cur.size = 0 := by rw [UrlCursor.size, hleft]; rfl
  intro h
  unfold mbAt at h
  split_ifs at h
  · obtain ⟨c, -, h⟩ := ok_eq_bind h
    have hlen : 0 < utf8MbLen c := by
      unfold utf8MbLen
      split_ifs <;> decide
    dsimp only at h
    rw [if_pos (.inl (hsize ▸ hlen))] at h
    cases h
  · have hle := S.mbrtowc_le _ _ _ (Except.ok.inj h)
    rw [hsize] at hle
    exact absurd hle (Nat.not_lt_zero _)
  · cases h

/-- `parse_mb` where a character can be read. -/
theorem mbWord_eq {what : UrlPart} {s : σ} {cur : UrlCursor} {c : Byte} (hc : cur.read 0 = .ok c) :
    mbWord S flags what s cur = mbAt S flags cur >>= fun mb => match mb with
      | .invalid => ExtHttp.orElse flags ([c], 1, s)
      | .incomplete wc => if mbCopied S flags what wc = some false then ExtHttp.orElse flags
        ([c], 1, s)
          else .error .runaway
      | .char wc tail => if mbCopied S flags what wc = some false then ExtHttp.orElse flags
        ([c], 1, s)
          else .ok (if mbCopied S flags what wc = some true then cur.text.take (tail + 1)
            else pctEncode (cur.text.take (tail + 1)), tail + 1, s) := by
  have hunexpected : ((if flags.ignoreErrors then .ok (some ([c], 1))
      else .ok none : Except UrlExit _) >>= fun o =>
      match o with
      | some (w, n) => .ok (w, n, s)
      | none => .error .refused) = ExtHttp.orElse flags ([c], 1, s) := by
    unfold ExtHttp.orElse
    split_ifs <;> rfl
  unfold mbWord parseMb
  rw [hc]
  cases hmb : mbAt S flags cur with
  | error e => rfl
  | ok mb =>
    cases mb with
    | invalid => exact hunexpected
    | incomplete wc =>
      dsimp only [bind, Except.bind]
      by_cases hrefused : mbCopied S flags what wc = some false
      · rw [if_pos hrefused, if_pos hrefused]
        exact hunexpected
      · rw [if_neg hrefused, if_neg hrefused]
    | char wc tail =>
      dsimp only [bind, Except.bind]
      by_cases hrefused : mbCopied S flags what wc = some false
      · rw [if_pos hrefused, if_pos hrefused]
        exact hunexpected
      · rw [if_neg hrefused, if_neg hrefused, UrlCursor.readChars, if_pos (mbAt_le hmb)]

theorem mbWord_takes {what : UrlPart} {s s' : σ} {cur : UrlCursor} {c : Byte} {w : Bytes} {n : ℕ}
    (hc : cur.read 0 = .ok c) (h : mbWord S flags what s cur = .ok (w, n, s')) : n ≠ 0 := by
  have hother : ExtHttp.orElse flags ([c], 1, s) = .ok (w, n, s') → n ≠ 0 := by
    intro h
    unfold ExtHttp.orElse at h
    split_ifs at h
    cases h
    exact Nat.one_ne_zero
  rw [mbWord_eq hc] at h
  obtain ⟨mb, -, h⟩ := ok_eq_bind h
  cases mb with
  | invalid => exact hother h
  | incomplete wc =>
    dsimp only at h
    split_ifs at h
    exact hother h
  | char wc tail =>
    dsimp only at h
    by_cases hrefused : mbCopied S flags what wc = some false
    · rw [if_pos hrefused] at h
      exact hother h
    · rw [if_neg hrefused] at h
      cases h
      exact Nat.succ_ne_zero tail

end ExtHttp
