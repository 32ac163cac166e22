import ExtHttp.UrlMb
import ExtHttp.UrlSlice
import ExtHttp.UrlStages

/-!
# Where the stages of the URL parser look

From a cursor inside of the text a stage reads behind the memory only if there is nothing behind the
text, and then exactly where it looks at what ends its component.
-/
namespace ExtHttp
open Scan

namespace UrlScanner
variable {S : UrlSystem} {flags : UrlFlags} {σ : Type} {st : UrlState}

/-! ### Components in front of a character -/

section
variable {after : Bytes} (hafter : Closed after)
include hafter

theorem whileLoop_there {stop : Byte → Bool} {word : UrlWord σ} {ignored : σ → Bytes × ℕ × σ}
    (hword : Looks flags word ignored) (s : σ) (b : Bytes) :
    whileLoop stop word s (.on b after) ≠ .error .overread := by
  rw [whileLoop_eq]
  intro h
  exact scan_there (fun _ _ _ => hword.there hafter.ne hafter.percent) s b (error_eq_map.mp h)

theorem parseUserinfo_there {b : Bytes} (hb : b ≠ []) :
    parseUserinfo S flags st (.on b after) ≠ .error .overread := by
  unfold parseUserinfo
  rw [doLoop_on _ hb]
  intro h
  rcases error_eq_bind.mp h with h | ⟨user, huser, h⟩
  · exact whileLoop_there hafter userinfoWord_looks () b h
  · rw [whileLoop_eq] at huser
    obtain ⟨o, ho, rfl⟩ := ok_eq_map huser
    dsimp only at h
    split_ifs at h with hstop
    rw [advance_stop ho (by simpa using hstop)] at h
    rcases error_eq_bind.mp h with h | ⟨pass, -, h⟩
    · exact whileLoop_there hafter userinfoWord_looks () _ h
    · cases h

theorem hostLoop_there (port : ℕ) (b : Bytes) : hostLoop S flags port (.on b after) ≠
    .error .overread := by
  unfold hostLoop
  by_cases hb : b = []
  · subst hb
    simp
  · have hleft : ¬ (UrlCursor.on b after).left = 0 := by simpa using hb
    rw [if_neg hleft, doLoop_on _ hb]
    intro h
    rcases error_eq_bind.mp h with h | ⟨host, hhost, h⟩
    · exact whileLoop_there hafter hostWord_looks false b h
    · rw [whileLoop_eq] at hhost
      obtain ⟨o, ho, rfl⟩ := ok_eq_map hhost
      dsimp only at h
      split_ifs at h with hstop
      rw [advance_stop ho (by simpa using hstop)] at h
      rcases error_eq_bind.mp h with h | ⟨port, -, h⟩
      · exact whileLoop_there hafter portWord_looks _ _ h
      · cases h

theorem parseHostRest_there (len : ℕ) (st : UrlState) (b : Bytes) :
    parseHostRest S flags len st (.on b after) ≠ .error .overread := by
  have hidna : ∀ (st : UrlState) (host len : ℕ), parseIdna S flags st host len ≠
      .error .overread := by
    intro st host len
    unfold parseIdna
    split
    · simp
    · split
      · simp
      · split_ifs <;> simp
  unfold parseHostRest
  intro h
  rcases error_eq_bind.mp h with h | ⟨host, -, h⟩
  · exact hostLoop_there hafter _ b h
  · dsimp only at h
    split_ifs at h
    exact hidna _ _ _ h

theorem parseHostinfo_there {b : Bytes} (hb : b ≠ []) :
    parseHostinfo S flags st (.on b after) ≠ .error .overread := by
  obtain ⟨c, b, rfl⟩ := List.exists_cons_of_ne_nil hb
  unfold parseHostinfo
  rw [UrlCursor.on_read, parseIp6_on]
  simp only [bind, Except.bind]
  by_cases hopen : c = 91
  · simp only [if_pos hopen]
    cases hip : ip6Text S.libs (c :: b) with
    | none =>
      simp only [Option.map_none]
      by_cases hignore : flags.ignoreErrors = true
      · simp only [if_pos hignore]
        exact parseHostRest_there hafter _ _ _
      · simp [hignore]
    | some o =>
      obtain ⟨front, hfront⟩ := ip6Text_suffix hip
      simp only [Option.map_some]
      rw [hfront, advance_suffix]
      exact parseHostRest_there hafter _ _ _
  · simp only [if_neg hopen]
    exact parseHostRest_there hafter _ _ _

end

/-! ### The authority -/

theorem infoOf_part (part left after : Bytes) : infoOf (.on (part ++ left) after) part.length =
    if part = [] then none else some (.on part (left ++ after)) := by
  rw [infoOf, cursor_part]
  simp only [List.length_eq_zero_iff]

section
variable {part left after : Bytes} (hpart : ∀ c ∈ part, inAuthority c = true)
include hpart

/-- Without a user info -/
theorem beforeHost_plain (hleft : ∀ c ∈ left.head?, inAuthority c = false)
    (hat : (left ++ after).head? ≠ some atSign) :
    beforeHost S flags st (.on (part ++ left) after) = (UrlCursor.on left after).read 0 >>= fun _ =>
      .ok (st, if part = [] then none else some (.on part (left ++ after)), .on left after) := by
  unfold beforeHost
  rw [UrlCursor.on_rest, takeWhile_end hpart hleft]
  dsimp only
  rw [advance_part, infoOf_part]
  cases hread : (UrlCursor.on left after).read 0 with
  | error e => rfl
  | ok c =>
    have hc : (left ++ after).head? = some c := read_ok_iff.mp hread
    have hne : ¬ c = atSign := fun h => hat (h ▸ hc)
    simp only [bind, Except.bind, if_neg hne]

theorem beforeHost_user {host : Bytes} (hhost : ∀ c ∈ host, inHost flags c = true)
    (hleft : ∀ c ∈ left.head?, inHost flags c = false) :
    beforeHost S flags st (.on (part ++ atSign :: (host ++ left)) after) =
      (if part = [] then .ok st else parseUserinfo S flags st
        (.on part (atSign :: (host ++ left) ++ after))) >>= fun st =>
        (UrlCursor.on left after).read 0 >>= fun c =>
          if c = atSign ∧ flags.ignoreErrors = false then .error .refused
          else .ok (st, if host = [] then none else some (.on host (left ++ after)),
            .on left after) := by
  have hend : ∀ c ∈ (atSign :: (host ++ left)).head?, inAuthority c = false := by
    intro c hc
    cases hc
    rfl
  have hnext : (UrlCursor.on (part ++ atSign :: (host ++ left)) after).advance (part.length + 1) =
      .on (host ++ left) after := by
    rw [← UrlCursor.advance_advance, advance_part]
    exact UrlCursor.advance_on _ _ (by simp)
  have hpos : 0 < (UrlCursor.on (atSign :: (host ++ left)) after).left := by
    rw [UrlCursor.on_left, List.length_cons]
    omega
  unfold beforeHost
  rw [UrlCursor.on_rest, takeWhile_end hpart hend]
  dsimp only
  rw [advance_part, userinfoOf_eq, hnext, UrlCursor.on_rest, takeWhile_end hhost hleft,
    advance_part, infoOf_part, UrlCursor.on_read]
  simp only [bind, Except.bind, if_true, if_pos hpos]

end

/-- Every text in front of which an authority is taken, with or without a user info. -/
theorem authority_split (flags : UrlFlags) (t : Bytes) :
    ∃ part, (∀ c ∈ part, inAuthority c = true) ∧
    ((∃ left, t = part ++ left ∧ (∀ c ∈ left.head?, inAuthority c = false) ∧
      left.head? ≠ some atSign) ∨
      ∃ host left, t = part ++ atSign :: (host ++ left) ∧ (∀ c ∈ host, inHost flags c = true) ∧
        ∀ c ∈ left.head?, inHost flags c = false) := by
  refine ⟨t.takeWhile inAuthority, fun c hc => List.mem_takeWhile_imp hc, ?_⟩
  by_cases hat : (t.dropWhile inAuthority).head? = some atSign
  · obtain ⟨rest, hrest⟩ := List.head?_eq_some_iff.mp hat
    refine .inr ⟨rest.takeWhile (inHost flags), rest.dropWhile (inHost flags), ?_,
      fun c hc => List.mem_takeWhile_imp hc, dropWhile_head rest⟩
    rw [List.takeWhile_append_dropWhile, ← hrest, List.takeWhile_append_dropWhile]
  · exact .inl ⟨t.dropWhile inAuthority, List.takeWhile_append_dropWhile.symm,
      dropWhile_head t, hat⟩

theorem dropWhile_end {P : Byte → Bool} {part left : Bytes} (hpart : ∀ c ∈ part, P c = true)
    (hleft : ∀ c ∈ left.head?, P c = false) : (part ++ left).dropWhile P = left := by
  rw [List.dropWhile_append_of_pos hpart]
  cases left with
  | nil => rfl
  | cons c left => exact List.dropWhile_cons_of_neg (by simp [hleft c rfl])

/-- A part of the text, in front of a character. -/
def InfoClosed (info : UrlCursor) : Prop := ∃ b behind, b ≠ [] ∧ Closed behind ∧ info = .on b behind

theorem closed_append {P : Byte → Bool} (hP : P percent = true) {left after : Bytes}
    (hleft : ∀ c ∈ left.head?, P c = false) (hafter : after.head? ≠ some percent)
    (hne : left ++ after ≠ []) :
    Closed (left ++ after) := by
  refine ⟨hne, ?_⟩
  cases left with
  | nil => exact hafter
  | cons c left =>
    intro h
    rw [hleft percent h] at hP
    cases hP

theorem closed_at (rest : Bytes) : Closed (atSign :: rest) := by
  refine ⟨List.cons_ne_nil _ _, ?_⟩
  have hne : atSign ≠ percent := by decide
  simpa using hne

theorem read_ne_nil {cur : UrlCursor} {i : ℕ} {c : Byte} (h : cur.read i = .ok c) :
    cur.text ≠ [] := by
  intro hnil
  rw [UrlCursor.read, hnil] at h
  cases h

section
variable {after : Bytes} (hpercent : after.head? ≠ some percent) (hat : after.head? ≠ some atSign)
include hpercent hat

/-- Behind an authority there is the text, and a host info ends in front of a character. -/
theorem beforeHost_closed {t : Bytes} {st' : UrlState} {info : Option UrlCursor} {cur : UrlCursor}
    (h : beforeHost S flags st (.on t after) = .ok (st', info, cur)) :
    (∃ t', cur = .on t' after) ∧ ∀ c ∈ info, InfoClosed c := by
  have hinfo : ∀ (part left : Bytes), Closed (left ++ after) →
      ∀ c ∈ (if part = [] then none else some (UrlCursor.on part (left ++ after))),
        InfoClosed c := by
    intro part left hclosed c hc
    split_ifs at hc with hpart
    · cases hc
    · cases hc
      exact ⟨part, _, hpart, hclosed, rfl⟩
  obtain ⟨part, hpart, ⟨left, rfl, hleft, hplain⟩ | ⟨host, left, rfl, hhost, hleft⟩⟩ :=
    authority_split flags t
  · have hboth : (left ++ after).head? ≠ some atSign := by
      cases left with
      | nil => exact hat
      | cons c left => exact hplain
    rw [beforeHost_plain hpart hleft hboth] at h
    obtain ⟨c, hc, h⟩ := ok_eq_bind h
    cases h
    exact ⟨⟨left, rfl⟩, hinfo _ _ (closed_append rfl hleft hpercent (read_ne_nil hc))⟩
  · rw [beforeHost_user hpart hhost hleft] at h
    obtain ⟨st₁, -, h⟩ := ok_eq_bind h
    obtain ⟨c, hc, h⟩ := ok_eq_bind h
    by_cases hagain : c = atSign ∧ flags.ignoreErrors = false
    · rw [if_pos hagain] at h
      cases h
    · rw [if_neg hagain] at h
      cases h
      exact ⟨⟨left, rfl⟩, hinfo host left (closed_append rfl hleft hpercent (read_ne_nil hc))⟩

end

theorem read_on_overread {left : Bytes} {after : Bytes} :
    (UrlCursor.on left after).read 0 = .error .overread ↔ left = [] ∧ after = [] := by
  cases left with
  | nil =>
    cases after with
    | nil => simp [UrlCursor.read]
    | cons c after => simp [UrlCursor.read]
  | cons c left => simp [UrlCursor.read]

/-- Where there is a character behind the text that is not part of an authority, the end is
found. -/
theorem beforeHost_there {after : Bytes} (hafter : Closed after) (hat : after.head? ≠ some atSign)
    (t : Bytes) :
    beforeHost S flags st (.on t after) ≠ .error .overread := by
  intro h
  obtain ⟨part, hpart, ⟨left, rfl, hleft, hplain⟩ | ⟨host, left, rfl, hhost, hleft⟩⟩ :=
    authority_split flags t
  · have hboth : (left ++ after).head? ≠ some atSign := by
      cases left with
      | nil => exact hat
      | cons c left => exact hplain
    rw [beforeHost_plain hpart hleft hboth] at h
    rcases error_eq_bind.mp h with h | ⟨c, -, h⟩
    · exact hafter.ne (read_on_overread.mp h).2
    · cases h
  · rw [beforeHost_user hpart hhost hleft] at h
    rcases error_eq_bind.mp h with h | ⟨st₁, -, h⟩
    · split_ifs at h with hnil
      exact parseUserinfo_there (closed_at _) hnil h
    · rcases error_eq_bind.mp h with h | ⟨c, -, h⟩
      · exact hafter.ne (read_on_overread.mp h).2
      · by_cases hagain : c = atSign ∧ flags.ignoreErrors = false
        · rw [if_pos hagain] at h
          cases h
        · rw [if_neg hagain] at h
          cases h

section
variable (S flags)

/-- What ends an authority is in the text: a character behind the host info, and behind the user
info first. -/
def AuthorityEnds (st : UrlState) (t : Bytes) : Prop := ∃ c rest,
    t.dropWhile inAuthority = c :: rest ∧
  (c = atSign → (∃ st', userinfoOf S flags st (.on t []) (t.takeWhile inAuthority).length =
    .ok st') →
    rest.dropWhile (inHost flags) ≠ [])

end

theorem beforeHost_overread_iff {t : Bytes} :
    beforeHost S flags st (.on t []) = .error .overread ↔ ¬ AuthorityEnds S flags st t := by
  obtain ⟨part, hpart, ⟨left, rfl, hleft, hplain⟩ | ⟨host, left, rfl, hhost, hleft⟩⟩ :=
    authority_split flags t
  · rw [beforeHost_plain hpart hleft (by simpa using hplain), AuthorityEnds,
      dropWhile_end hpart hleft]
    cases left with
    | nil => simp [UrlCursor.read, bind, Except.bind]
    | cons c left =>
      have hc : c ≠ atSign := fun h => hplain (congrArg some h)
      simp [UrlCursor.read, bind, Except.bind, hc]
  · have hend : ∀ c ∈ (atSign :: (host ++ left)).head?, inAuthority c = false := by
      intro c hc
      cases hc
      rfl
    have hends : AuthorityEnds S flags st (part ++ atSign :: (host ++ left)) ↔
        ((∃ st', (if part = [] then .ok st
          else parseUserinfo S flags st (.on part (atSign :: (host ++ left) ++ []))) =
            Except.ok st') → left ≠ []) := by
      rw [AuthorityEnds, dropWhile_end hpart hend, takeWhile_end hpart hend, userinfoOf_eq]
      constructor
      · rintro ⟨c, rest, heq, h⟩
        cases heq
        have hrest := h rfl
        rwa [dropWhile_end hhost hleft] at hrest
      · intro h
        exact ⟨_, _, rfl, fun _ => by rwa [dropWhile_end hhost hleft]⟩
    rw [hends, beforeHost_user hpart hhost hleft]
    cases huser : (if part = [] then .ok st
      else parseUserinfo S flags st (.on part (atSign :: (host ++ left) ++ [])) :
        Except UrlExit UrlState) with
    | error e =>
      have hread : e ≠ .overread := by
        rintro rfl
        split_ifs at huser with hnil
        exact parseUserinfo_there (closed_at _) hnil huser
      simp [bind, Except.bind, hread]
    | ok st₁ =>
      cases left with
      | nil => simp [bind, Except.bind, UrlCursor.read]
      | cons c left =>
        simp only [bind, Except.bind, UrlCursor.on_read]
        by_cases hagain : c = atSign ∧ flags.ignoreErrors = false
        · simp [hagain]
        · simp [hagain]

/-! ### Loops at the end of the text -/

/-- Nothing behind the text: a turn looks there exactly at a `%`, or at `%%`, at the end. -/
theorem overread_iff {word : UrlWord σ} {ignored : σ → Bytes × ℕ × σ} (h : Looks flags word ignored)
    {s : σ} {c : Byte} {d : Bytes} : word s (.on (c :: d) []) = .error .overread ↔
      c = percent ∧ (d = [] ∨ d = [percent]) := by
  by_cases hc : c = percent
  · subst hc
    rw [h.atPercent]
    rcases triple_slice d with ⟨hd, hread⟩ | ⟨o, ho, -⟩
    · rw [hread]
      exact ⟨fun _ => ⟨rfl, hd⟩, fun _ => rfl⟩
    · have hlong : ¬ (d = [] ∨ d = [percent]) := by
        rintro (rfl | rfl)
        · cases ho []
        · cases ho []
      rw [ho]
      cases o with
      | none => simp [bind, Except.bind, hlong, orElse_read]
      | some w => simp [bind, Except.bind, hlong]
  · constructor
    · exact fun hread => absurd hread ((h.inside s c d hc).there [])
    · exact fun hd => absurd hd.1 hc

/-- A loop that comes to a `%`, or to `%%`, at the end of its text -/
def Dangles (stop : Byte → Bool) (word : UrlWord σ) (s : σ) (b : Bytes) : Prop :=
  ∃ t d, Comes stop (onText word) [] s b t (percent :: d) ∧ (d = [] ∨ d = [percent])

theorem whileLoop_overread_iff {stop : Byte → Bool} (hstop : stop percent = false)
    {word : UrlWord σ} {ignored : σ → Bytes × ℕ × σ} (hword : Looks flags word ignored) {s : σ}
    {b : Bytes} :
    whileLoop stop word s (.on b []) = .error .overread ↔ Dangles stop word s b := by
  rw [whileLoop_eq, error_eq_map, scanE_error_iff]
  constructor
  · rintro ⟨t, c, d, hcomes, -, hread⟩
    obtain ⟨rfl, hd⟩ := (overread_iff hword).mp hread
    exact ⟨t, d, hcomes, hd⟩
  · rintro ⟨t, d, hcomes, hd⟩
    exact ⟨t, percent, d, hcomes, hstop, (overread_iff hword).mpr ⟨rfl, hd⟩⟩

theorem parsePath_overread_iff {t : Bytes} : parsePath S flags st (.on t []) = .error .overread ↔
    ¬ (t ≠ [] ∧ (t.head? ≠ some nul → ¬ Dangles isPathEnd (pathWord S flags) () t)) := by
  unfold parsePath
  rw [error_eq_bind, read_on_overread]
  cases t with
  | nil => simp
  | cons c d =>
    have hne : c :: d ≠ [] := List.cons_ne_nil c d
    by_cases hnul : c = nul
    · simp [hnul]
    · have hloop : whileLoop isPathEnd (pathWord S flags) () (.on (c :: d) []) = .error .overread ↔
          Dangles isPathEnd (pathWord S flags) () (c :: d) :=
            whileLoop_overread_iff (by decide) pathWord_looks
      have htaken : ∀ o : LoopEnd Unit, ((if o.taken = 0 then .ok (st, .on (c :: d) [])
          else .ok ({ st with path := some st.offset }.put (o.written ++ [nul]),
            (UrlCursor.on (c :: d) []).advance o.taken)) : Except UrlExit (UrlState × UrlCursor)) ≠
          .error .overread := by
        intro o
        split_ifs <;> simp
      simp [hnul, error_eq_bind, doLoop_on _ hne, hloop, htaken]

theorem parseQuery_overread_iff {t : Bytes} : parseQuery S flags st (.on t []) = .error .overread ↔
    ¬ (t ≠ [] ∧ (t.head? = some question → ¬ Dangles isHash (queryWord S flags) () t.tail)) := by
  unfold parseQuery
  rw [error_eq_bind, read_on_overread]
  cases t with
  | nil => simp
  | cons c d =>
    by_cases hquestion : c = question
    · have hnext : (UrlCursor.on (c :: d) []).advance 1 = .on d [] :=
        UrlCursor.advance_on _ _ (by simp)
      have hloop : whileLoop isHash (queryWord S flags) () (.on d []) = .error .overread ↔
          Dangles isHash (queryWord S flags) () d :=
            whileLoop_overread_iff (by decide) (textWord_looks .query)
      simp [hquestion, error_eq_bind, hquestion ▸ hnext, hloop]
    · simp [hquestion]

theorem parseFragment_overread_iff {t : Bytes} : parseFragment S flags st (.on t []) =
    .error .overread ↔
    ¬ (t ≠ [] ∧ (t.head? = some hash →
      t.tail ≠ [] ∧ ¬ Dangles never (fragmentWord S flags) () t.tail)) := by
  unfold parseFragment
  rw [error_eq_bind, read_on_overread]
  cases t with
  | nil => simp
  | cons c d =>
    by_cases hhash : c = hash
    · have hnext : (UrlCursor.on (c :: d) []).advance 1 = .on d [] :=
        UrlCursor.advance_on _ _ (by simp)
      by_cases hd : d = []
      · subst hd
        simp [hhash, hhash ▸ hnext, doLoop, UrlCursor.read, error_eq_bind]
      · have hloop : whileLoop never (fragmentWord S flags) () (.on d []) = .error .overread ↔
            Dangles never (fragmentWord S flags) () d :=
              whileLoop_overread_iff rfl fragmentWord_looks
        simp [hhash, error_eq_bind, hhash ▸ hnext, doLoop_on _ hd, hloop, hd]
    · simp [hhash]

theorem parseScheme_overread_iff {t : Bytes} : parseScheme S flags st (.on t []) =
    .error .overread ↔ t = [] := by
  unfold parseScheme
  by_cases ht : t = []
  · subst ht
    simp [doLoop, UrlCursor.read, bind, Except.bind]
  · rw [doLoop_on _ ht, whileLoop_eq]
    have hread : scanE isColon (onText (schemeWord S flags)) [] true 0 t ≠ .error .overread :=
      scan_there (fun s c d => (schemeWord_inside s c d).there []) true t
    cases hscan : scanE isColon (onText (schemeWord S flags)) [] true 0 t with
    | error e =>
      cases e with
      | overread => exact absurd hscan hread
      | refused => simp [Except.map, ht]
      | runaway => simp [Except.map, ht]
    | ok o =>
      simp only [Except.map, ht, iff_false]
      split <;> simp_all

/-! ### Text in front of a NUL -/

theorem closed_nul (more : Bytes) : Closed (nul :: more) := by
  refine ⟨List.cons_ne_nil _ _, ?_⟩
  have hne : nul ≠ percent := by decide
  simpa using hne

section
variable (S flags)

/-- A character that is cut off at the end of `b`, and not refused by the component. -/
def CutOff (what : UrlPart) (b : Bytes) : Prop :=
  ∃ wc, mbFound S flags b = .incomplete wc ∧ mbCopied S flags what wc ≠ some false

end

/-- At the end a turn begins to copy what there is not, or the NUL is an error. -/
theorem mbWord_end (what : UrlPart) (s : σ) (more : Bytes) :
    CutOff S flags what [] ∧ mbWord S flags what s (.on [] (nul :: more)) = .error .runaway ∨
      ¬ CutOff S flags what [] ∧
        mbWord S flags what s (.on [] (nul :: more)) = ExtHttp.orElse flags ([nul], 1, s) := by
  have hread : (UrlCursor.on [] (nul :: more)).read 0 = .ok nul := rfl
  have hlen : utf8MbLen nul = 1 := by decide
  have hmb : mbAt S flags (.on [] (nul :: more)) = .ok (mbFound S flags []) := by
    unfold mbAt mbUtf8 mbFound
    rw [hread]
    simp only [bind, Except.bind, hlen, UrlCursor.on_size, List.length_nil, Nat.zero_lt_one,
      true_or, if_true, List.take_zero, utf8ToWc, Option.elim_none]
    split_ifs <;> rfl
  unfold CutOff
  rw [mbWord_eq hread, hmb]
  cases hfound : mbFound S flags [] with
  | invalid =>
    right
    refine ⟨?_, rfl⟩
    rintro ⟨wc, ⟨⟩, -⟩
  | char wc tail => exact absurd hfound (mbFound_nil wc tail)
  | incomplete wc =>
    by_cases hcopied : mbCopied S flags what wc = some false
    · right
      refine ⟨?_, if_pos hcopied⟩
      rintro ⟨_, ⟨⟩, hnot⟩
      exact hnot hcopied
    · exact .inl ⟨⟨wc, rfl, hcopied⟩, if_neg hcopied⟩

theorem mbWord_end_there {what : UrlPart} {s : σ} {more : Bytes} :
    mbWord S flags what s (.on [] (nul :: more)) ≠ .error .overread := by
  rcases @mbWord_end S flags σ what s more with ⟨-, h⟩ | ⟨-, h⟩
  · simp [h]
  · rw [h]
    exact orElse_read

theorem parseScheme_there (t more : Bytes) : parseScheme S flags st (.on t (nul :: more)) ≠
    .error .overread := by
  have hword : schemeWord S flags true (.on [] (nul :: more)) =
      mbWord S flags .scheme false (.on [] (nul :: more)) := rfl
  have hloop : doLoop isColon (schemeWord S flags) true (.on t (nul :: more)) ≠
      .error .overread := by
    by_cases ht : t = []
    · subst ht
      have hread : (UrlCursor.on [] (nul :: more)).read 0 = .ok nul := rfl
      have hstop : isColon nul = false := by decide
      rw [doLoop, if_neg (by simp), hread]
      simp only [bind, Except.bind, hstop, hword, Bool.false_eq_true, if_false]
      exact fun h => mbWord_end_there (error_eq_map.mp h)
    · rw [doLoop_on _ ht, whileLoop_eq]
      exact fun h => scan_there (fun s c d => (schemeWord_inside s c d).there _) true t
        (error_eq_map.mp h)
  unfold parseScheme
  split
  · simp
  · simp
  · simp
  · next e _ he =>
    intro h
    cases h
    exact hloop he

theorem parsePath_there (t more : Bytes) : parsePath S flags st (.on t (nul :: more)) ≠
    .error .overread := by
  unfold parsePath
  cases t with
  | nil =>
    have hread : (UrlCursor.on [] (nul :: more)).read 0 = .ok nul := rfl
    simp [hread, bind, Except.bind]
  | cons c d =>
    rw [UrlCursor.on_read]
    simp only [bind, Except.bind]
    by_cases hnul : c = nul
    · simp [hnul]
    · rw [if_neg hnul, doLoop_on _ (List.cons_ne_nil c d)]
      intro h
      rcases error_eq_bind.mp h with h | ⟨o, -, h⟩
      · exact whileLoop_there (closed_nul more) pathWord_looks () _ h
      · split_ifs at h

theorem parseQuery_there (t more : Bytes) : parseQuery S flags st (.on t (nul :: more)) ≠
    .error .overread := by
  unfold parseQuery
  cases t with
  | nil =>
    have hread : (UrlCursor.on [] (nul :: more)).read 0 = .ok nul := rfl
    have hnul : nul ≠ question := by decide
    simp [hread, bind, Except.bind, hnul]
  | cons c d =>
    have hnext : (UrlCursor.on (c :: d) (nul :: more)).advance 1 = .on d (nul :: more) :=
      UrlCursor.advance_on _ _ (by simp)
    rw [UrlCursor.on_read, hnext]
    simp only [bind, Except.bind]
    by_cases hquestion : c = question
    · rw [if_neg (not_not.mpr hquestion)]
      intro h
      rcases error_eq_bind.mp h with h | ⟨o, -, h⟩
      · exact whileLoop_there (closed_nul more) (textWord_looks .query) () _ h
      · cases h
    · simp [hquestion]

theorem parseFragment_there (t more : Bytes) : parseFragment S flags st (.on t (nul :: more)) ≠
    .error .overread := by
  unfold parseFragment
  cases t with
  | nil =>
    have hread : (UrlCursor.on [] (nul :: more)).read 0 = .ok nul := rfl
    have hnul : nul ≠ hash := by decide
    simp [hread, bind, Except.bind, hnul]
  | cons c d =>
    have hnext : (UrlCursor.on (c :: d) (nul :: more)).advance 1 = .on d (nul :: more) :=
      UrlCursor.advance_on _ _ (by simp)
    rw [UrlCursor.on_read, hnext]
    simp only [bind, Except.bind]
    by_cases hhash : c = hash
    · rw [if_neg (not_not.mpr hhash)]
      intro h
      rcases error_eq_bind.mp h with h | ⟨o, -, h⟩
      · by_cases hd : d = []
        · subst hd
          have hword : fragmentWord S flags () (.on [] (nul :: more)) =
            mbWord S flags .fragment () (.on [] (nul :: more)) := rfl
          have hloop : doLoop never (fragmentWord S flags) () (.on [] (nul :: more)) =
              (fragmentWord S flags () (.on [] (nul :: more))).map fun o =>
                ⟨o.1, o.2.2, o.2.1, false⟩ := rfl
          rw [hloop, hword] at h
          exact mbWord_end_there (error_eq_map.mp h)
        · rw [doLoop_on _ hd] at h
          exact whileLoop_there (closed_nul more) fragmentWord_looks () _ h
      · cases h
    · simp [hhash]

end UrlScanner

end ExtHttp
