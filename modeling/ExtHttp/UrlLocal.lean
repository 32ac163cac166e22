import ExtHttp.UrlEnds
import ExtHttp.UrlSettled

/-!
# URLs as slices

`php_http_url_parse` depends on its text alone exactly if all that it looks at is in it, from stage
to stage.
-/
namespace ExtHttp
open Scan

namespace UrlScanner
variable {S : UrlSystem} {flags : UrlFlags} {σ : Type} {st st' : UrlState} {cur cur' : UrlCursor}

/-! ### Cursors on the text -/

/-- The cursor stands in the text, and a host info ends in front of a character. -/
def OnText (after : Bytes) (x : UrlConfig) : Prop :=
  (∃ t, x.cur = .on t after) ∧ ∀ info, x.stage = .host (some info) → InfoClosed info

theorem advance_inside {t after : Bytes} {n : ℕ} (h : 0 ≤ ((UrlCursor.on t after).advance n).left) :
    ∃ t', (UrlCursor.on t after).advance n = .on t' after := by
  have hn : n ≤ t.length := by
    change 0 ≤ (t.length : ℤ) - n at h
    omega
  exact ⟨t.drop n, UrlCursor.advance_on _ _ hn⟩

/-- There is no scheme without a text. -/
theorem scheme_text {t after : Bytes} (hcolon : after.head? ≠ some colon) {scheme : Bytes}
    {first : Bool} {n : ℕ} (h : doLoop isColon (schemeWord S flags) true (.on t after) =
      .ok ⟨scheme, first, n, true⟩) : t ≠ [] := by
  rintro rfl
  rw [doLoop, if_neg (by simp)] at h
  obtain ⟨c, hc, h⟩ := ok_eq_bind h
  split_ifs at h with hcol
  · obtain rfl : c = colon := by simpa [isColon] using hcol
    exact hcolon (read_ok_iff.mp hc)
  · obtain ⟨o, -, h⟩ := ok_eq_map h
    cases h

/-- Behind its scheme a URL goes on in the text. -/
theorem parseScheme_on {t after : Bytes} (hcolon : after.head? ≠ some colon)
    (h : parseScheme S flags st (.on t after) = .ok (st', cur')) : ∃ t', cur' = .on t' after := by
  unfold parseScheme at h
  split at h
  · next scheme first n ho =>
    cases h
    rw [doLoop_on _ (scheme_text hcolon ho), whileLoop_eq] at ho
    obtain ⟨o, hscan, ho⟩ := ok_eq_map ho
    have hrest : o.rest ≠ [] := by
      have hstopped := congrArg LoopEnd.stopped ho
      simpa using hstopped
    have htaken : n = t.length - o.rest.length + o.excess := (congrArg LoopEnd.taken ho).symm
    rw [htaken, advance_stop hscan hrest]
    exact ⟨_, rfl⟩
  · cases h
    exact ⟨t, rfl⟩
  · cases h
    exact ⟨t, rfl⟩
  · cases h

theorem parsePath_advance (h : parsePath S flags st cur = .ok (st', cur')) : cur' = cur ∨
    ∃ o, cur.read 0 ≠ .ok nul ∧ doLoop isPathEnd (pathWord S flags) () cur = .ok o ∧
      cur' = cur.advance o.taken := by
  obtain ⟨c, hc, h⟩ := ok_eq_bind h
  split_ifs at h with hnul
  · cases h
    exact .inl rfl
  · obtain ⟨o, ho, h⟩ := ok_eq_bind h
    split_ifs at h
    · cases h
      exact .inl rfl
    · cases h
      refine .inr ⟨o, ?_, ho, rfl⟩
      rw [hc]
      exact fun heq => hnul (by cases heq; rfl)

theorem parseQuery_advance (h : parseQuery S flags st cur = .ok (st', cur')) : cur' = cur ∨
    ∃ o, cur.read 0 = .ok question ∧ whileLoop isHash (queryWord S flags) ()
      (cur.advance 1) = .ok o ∧
      cur' = cur.advance (o.taken + 1) := by
  obtain ⟨c, hc, h⟩ := ok_eq_bind h
  by_cases hquestion : c = question
  · rw [if_neg (not_not.mpr hquestion)] at h
    obtain ⟨o, ho, h⟩ := ok_eq_bind h
    cases h
    exact .inr ⟨o, hquestion ▸ hc, ho, rfl⟩
  · rw [if_pos hquestion] at h
    cases h
    exact .inl rfl

theorem parseFragment_advance (h : parseFragment S flags st cur = .ok (st', cur')) : cur' = cur ∨
    ∃ o, cur.read 0 = .ok hash ∧ doLoop never (fragmentWord S flags) () (cur.advance 1) = .ok o ∧
      cur' = cur.advance (o.taken + 1) := by
  obtain ⟨c, hc, h⟩ := ok_eq_bind h
  by_cases hhash : c = hash
  · rw [if_neg (not_not.mpr hhash)] at h
    obtain ⟨o, ho, h⟩ := ok_eq_bind h
    cases h
    exact .inr ⟨o, hhash ▸ hc, ho, rfl⟩
  · rw [if_pos hhash] at h
    cases h
    exact .inl rfl

section
variable {after : Bytes}

theorem OnText.start (s : Bytes) : OnText after ⟨.scheme, urlStart, .on s after⟩ :=
  ⟨⟨s, rfl⟩, fun _ h => by cases h⟩

/-- Up to the host a step stays on the text, and behind it if it does not go behind the end. -/
theorem OnText.step (hcolon : after.head? ≠ some colon) (hpercent : after.head? ≠ some percent)
    (hat : after.head? ≠ some atSign) {x y : UrlConfig} (hx : OnText after x)
    (h : urlStep S flags x = .ok y) (hleft : stagesLeft x.stage ≤ 3 → 0 ≤ y.cur.left) :
    OnText after y := by
  obtain ⟨stage, st, cur⟩ := x
  obtain ⟨⟨t, hcur⟩, -⟩ := hx
  change cur = .on t after at hcur
  subst hcur
  cases stage with
  | scheme =>
    obtain ⟨⟨st', cur'⟩, ho, rfl⟩ := ok_eq_map h
    exact ⟨parseScheme_on hcolon ho, fun _ h => by cases h⟩
  | hier =>
    obtain ⟨c, -, h⟩ := ok_eq_bind h
    split_ifs at h with hslash
    · obtain ⟨d, -, h⟩ := ok_eq_bind h
      split_ifs at h
      · cases h
        have htwo := hslash.2
        have hinside : 0 ≤ ((UrlCursor.on t after).advance 2).left := by
          change 0 ≤ (UrlCursor.on t after).left - 2
          omega
        exact ⟨advance_inside hinside, fun _ h => by cases h⟩
      · cases h
        exact ⟨⟨t, rfl⟩, fun _ h => by cases h⟩
    · cases h
      exact ⟨⟨t, rfl⟩, fun _ h => by cases h⟩
  | authority =>
    obtain ⟨⟨st', info, cur'⟩, ho, rfl⟩ := ok_eq_map h
    obtain ⟨hon, hclosed⟩ := beforeHost_closed hpercent hat ho
    refine ⟨hon, ?_⟩
    intro c hc
    cases hc
    exact hclosed c rfl
  | host info =>
    obtain ⟨st', -, rfl⟩ := ok_eq_map h
    exact ⟨⟨t, rfl⟩, fun _ h => by cases h⟩
  | path =>
    obtain ⟨⟨st', cur'⟩, ho, rfl⟩ := ok_eq_map h
    rcases parsePath_advance ho with rfl | ⟨o, -, -, rfl⟩
    · exact ⟨⟨t, rfl⟩, fun _ h => by cases h⟩
    · exact ⟨advance_inside (hleft (by simp [stagesLeft])), fun _ h => by cases h⟩
  | query =>
    obtain ⟨⟨st', cur'⟩, ho, rfl⟩ := ok_eq_map h
    rcases parseQuery_advance ho with rfl | ⟨o, -, -, rfl⟩
    · exact ⟨⟨t, rfl⟩, fun _ h => by cases h⟩
    · exact ⟨advance_inside (hleft (by simp [stagesLeft])), fun _ h => by cases h⟩
  | fragment =>
    obtain ⟨⟨st', cur'⟩, ho, rfl⟩ := ok_eq_map h
    rcases parseFragment_advance ho with rfl | ⟨o, -, -, rfl⟩
    · exact ⟨⟨t, rfl⟩, fun _ h => by cases h⟩
    · exact ⟨advance_inside (hleft (by simp [stagesLeft])), fun _ h => by cases h⟩
  | done =>
    cases h
    exact ⟨⟨t, rfl⟩, fun _ h => by cases h⟩

/-- In front of a NUL no stage reads behind the memory. -/
theorem OnText.there {more : Bytes} {x : UrlConfig} (hx : OnText (nul :: more) x) :
    urlStep S flags x ≠ .error .overread := by
  obtain ⟨stage, st, cur⟩ := x
  obtain ⟨⟨t, hcur⟩, hinfo⟩ := hx
  change cur = .on t (nul :: more) at hcur
  subst hcur
  intro h
  cases stage with
  | scheme => exact parseScheme_there t more (error_eq_map.mp h)
  | hier =>
    rcases error_eq_bind.mp h with h | ⟨c, -, h⟩
    · cases (read_on_overread.mp h).2
    · split_ifs at h with hslash
      rcases error_eq_bind.mp h with h | ⟨d, -, h⟩
      · match t, hslash with
        | c :: d :: t, _ => cases h
        | [c], hslash => simp at hslash
        | [], hslash => simp at hslash
      · split_ifs at h
  | authority =>
    have hat : (nul :: more).head? ≠ some atSign := by
      have hne : nul ≠ atSign := by decide
      simpa using hne
    exact beforeHost_there (closed_nul more) hat t (error_eq_map.mp h)
  | host info =>
    have hhost := error_eq_map.mp h
    cases info with
    | none => cases hhost
    | some info =>
      obtain ⟨b, behind, hb, hclosed, rfl⟩ := hinfo info rfl
      exact parseHostinfo_there hclosed hb hhost
  | path => exact parsePath_there t more (error_eq_map.mp h)
  | query => exact parseQuery_there t more (error_eq_map.mp h)
  | fragment => exact parseFragment_there t more (error_eq_map.mp h)
  | done => cases h

end

/-! ### All in the text -/

section
variable (S flags)

/-- What a stage looks at is in the text: a character at the cursor, what ends an authority, and no
`%` or `%%` at the end of a loop. -/
def Within (x : UrlConfig) : Prop :=
  match x.stage with
  | .scheme => x.cur.rest ≠ []
  | .hier => x.cur.rest ≠ []
  | .authority => AuthorityEnds S flags x.state x.cur.rest
  | .host _ => True
  | .path => x.cur.rest ≠ [] ∧ (x.cur.rest.head? ≠ some nul →
    ¬ Dangles isPathEnd (pathWord S flags) () x.cur.rest)
  | .query => x.cur.rest ≠ [] ∧
      (x.cur.rest.head? = some question → ¬ Dangles isHash (queryWord S flags) () x.cur.rest.tail)
  | .fragment => x.cur.rest ≠ [] ∧ (x.cur.rest.head? = some hash →
      x.cur.rest.tail ≠ [] ∧ ¬ Dangles never (fragmentWord S flags) () x.cur.rest.tail)
  | .done => True

end

/-- A stage reads behind a text that ends with the memory exactly if it looks there. -/
theorem OnText.overread_iff {x : UrlConfig} (hx : OnText [] x) :
    urlStep S flags x = .error .overread ↔ ¬ Within S flags x := by
  obtain ⟨stage, st, cur⟩ := x
  obtain ⟨⟨t, hcur⟩, hinfo⟩ := hx
  change cur = .on t [] at hcur
  subst hcur
  cases stage with
  | scheme =>
    simp only [urlStep, Within, error_eq_map, parseScheme_overread_iff, UrlCursor.on_rest, not_not]
  | hier =>
    simp only [urlStep, Within, error_eq_bind, read_on_overread, UrlCursor.on_rest,
      not_not, and_true]
    constructor
    · rintro (h | ⟨c, -, h⟩)
      · exact h
      · split_ifs at h with hslash
        rcases error_eq_bind.mp h with h | ⟨d, -, h⟩
        · cases t with
          | nil => simp at hslash
          | cons c t =>
            cases t with
            | nil => simp at hslash
            | cons d t => cases h
        · split_ifs at h
    · exact .inl
  | authority =>
    simp only [urlStep, Within, error_eq_map, beforeHost_overread_iff, UrlCursor.on_rest]
  | host info =>
    simp only [Within, not_true_eq_false, iff_false]
    intro h
    have hhost := error_eq_map.mp h
    cases info with
    | none => cases hhost
    | some info =>
      obtain ⟨b, behind, hb, hclosed, rfl⟩ := hinfo info rfl
      exact parseHostinfo_there hclosed hb hhost
  | path => simp only [urlStep, Within, error_eq_map, parsePath_overread_iff, UrlCursor.on_rest]
  | query => simp only [urlStep, Within, error_eq_map, parseQuery_overread_iff, UrlCursor.on_rest]
  | fragment =>
    simp only [urlStep, Within, error_eq_map, parseFragment_overread_iff, UrlCursor.on_rest]
  | done => simp [urlStep, Within]

theorem Kept.on {x : Except UrlExit (UrlState × UrlCursor)} (h : Kept [] x x)
    (hx : x = .ok (st, cur)) :
    ∃ b, cur = .on b [] := by
  rcases h with hread | ⟨e, he, -⟩ | ⟨st', b, hb, -⟩
  · rw [hread] at hx
    cases hx
  · rw [he] at hx
    cases hx
  · rw [hb] at hx
    cases hx
    exact ⟨b, rfl⟩

/-- With nothing behind the text, no step goes behind it. -/
theorem OnText.step_slice {x y : UrlConfig} (hx : OnText [] x) (h : urlStep S flags x = .ok y) :
    OnText [] y := by
  have hon : ∀ {cur : UrlCursor}, (∃ b, cur = .on b []) → 0 ≤ cur.left := by
    rintro cur ⟨b, rfl⟩
    exact Int.natCast_nonneg _
  refine hx.step (by simp) (by simp) (by simp) h fun hstage => ?_
  obtain ⟨stage, st, cur⟩ := x
  obtain ⟨⟨t, hcur⟩, -⟩ := hx
  change cur = .on t [] at hcur
  subst hcur
  cases stage with
  | path =>
    obtain ⟨⟨st', cur'⟩, ho, rfl⟩ := ok_eq_map h
    exact hon ((parsePath_kept st t).on ho)
  | query =>
    obtain ⟨⟨st', cur'⟩, ho, rfl⟩ := ok_eq_map h
    exact hon ((parseQuery_kept st t).on ho)
  | fragment =>
    obtain ⟨⟨st', cur'⟩, ho, rfl⟩ := ok_eq_map h
    exact hon ((parseFragment_kept st t).on ho)
  | done =>
    cases h
    exact hon ⟨t, rfl⟩
  | _ => exact absurd hstage (by simp [stagesLeft])

theorem urlParse_error_iff {s after : Bytes} {e : UrlExit} :
    urlParse S flags s after = .error e ↔ ∃ x, UrlReaches S flags s after x ∧
      urlStep S flags x = .error e := by
  unfold urlParse
  rw [error_eq_map]
  change urlFrom S flags ⟨.scheme, urlStart, .on s after⟩ = _ ↔ _
  refine Steps.final_error_iff urlFrom_step (fun x => x.stage = .done) (fun x => stagesLeft x.stage)
    (fun _ _ => urlStep_left) ?_
  rintro ⟨stage, st, cur⟩ rfl
  exact ⟨_, rfl⟩

/-- The text is all that `php_http_url_parse` looks at exactly if it is in each stage that it comes
to. -/
theorem urlParse_within_iff {s : Bytes} : urlParse S flags s [] ≠ .error .overread ↔
    ∀ x, UrlReaches S flags s [] x → Within S flags x := by
  have hon : ∀ x, UrlReaches S flags s [] x → OnText [] x := fun x hreach =>
    Steps.Reaches.invariant (I := OnText []) (fun _ _ hx hstep => hx.step_slice hstep) hreach
      (.start s)
  rw [ne_eq, urlParse_error_iff]
  constructor
  · intro h x hreach
    by_contra hwithin
    exact h ⟨x, hreach, (hon x hreach).overread_iff.mpr hwithin⟩
  · rintro h ⟨x, hreach, hread⟩
    exact (hon x hreach).overread_iff.mp hread (h x hreach)

/-! ### Two NULs behind the text -/

theorem scan_excess_le {stop : Byte → Bool} {word : UrlWord σ} {after : Bytes}
    (hword : ∀ s c d w n s', word s (.on (c :: d) after) = .ok (w, n, s') → n ≤ d.length + 2)
    {s : σ} {k : ℕ} {b : Bytes} {o : Outcome Byte Byte σ} (hk : k ≤ b.length + 1)
    (h : scanE stop (onText word) after s k b = .ok o) :
    o.excess ≤ 1 := by
  induction b generalizing s k o with
  | nil =>
    cases k <;> cases h
    · exact Nat.zero_le _
    · simpa using hk
  | cons c b ih =>
    cases k with
    | succ k => exact ih (by simpa using hk) h
    | zero =>
      cases hc : stop c with
      | true =>
        rw [scanE_stop hc] at h
        cases h
        exact Nat.zero_le _
      | false =>
        cases hw : word s (.on (c :: b) after) with
        | error e =>
          rw [scanE_error hc hw] at h
          cases h
        | ok t =>
          obtain ⟨w, n, s'⟩ := t
          have hn := hword s c b w n s' hw
          rw [scanE_word hc hw] at h
          obtain ⟨o', ho', rfl⟩ := ok_eq_map h
          have hle : n - 1 ≤ b.length + 1 := by omega
          have hrest := ih hle ho'
          exact hrest

theorem taken_le {word : UrlWord σ} {ignored : σ → Bytes × ℕ × σ} (h : Looks flags word ignored)
    (hone : ∀ s, (ignored s).2.1 = 1) {after : Bytes} (hafter : Closed after) {s s' : σ} {c : Byte}
    {d w : Bytes} {n : ℕ} (hw : word s (.on (c :: d) after) = .ok (w, n, s')) :
    n ≤ d.length + 2 := by
  by_cases hlong : d.length < n - 1
  · obtain ⟨rfl, rfl⟩ := (h.excess_iff hone hafter.ne hafter.percent).mp ⟨w, n, s', hw, hlong⟩
    obtain ⟨o, ho, -⟩ := triple_there hafter.ne hafter.percent [percent]
    rw [h.atPercent, ho] at hw
    cases o with
    | none =>
      have hn := orElse_ok hw
      rw [hone] at hn
      omega
    | some v =>
      cases hw
      exact Nat.le_refl 3
  · omega

/-- A loop ends on the text, or a character behind it. -/
theorem whileLoop_nuls {stop : Byte → Bool} {word : UrlWord σ} {ignored : σ → Bytes × ℕ × σ}
    (h : Looks flags word ignored) (hone : ∀ s, (ignored s).2.1 = 1) {s : σ} {b : Bytes}
    {o : LoopEnd σ} (ho : whileLoop stop word s (.on b [nul, nul]) = .ok o) :
    0 ≤ ((UrlCursor.on b [nul, nul]).advance o.taken).left ∨
      ((UrlCursor.on b [nul, nul]).advance o.taken).text.head? = some nul := by
  rw [whileLoop_eq] at ho
  obtain ⟨r, hr, rfl⟩ := ok_eq_map ho
  have hexcess := scan_excess_le (fun _ _ _ _ _ _ => taken_le h hone (closed_nul [nul]))
    (Nat.zero_le _) hr
  by_cases hnone : r.excess = 0
  · left
    rw [advance_rest hr hnone]
    exact Int.natCast_nonneg _
  · right
    have hone : r.excess = 1 := by omega
    have hrest := rest_nil (scanE_ok hr) (by omega)
    rw [UrlCursor.advance, UrlCursor.on_text, hrest, hone]
    simp [List.drop_append]

/-- In front of two NULs: on the text, or at one of them behind the path or the query. -/
def BeforeNuls (x : UrlConfig) : Prop := OnText [nul, nul] x ∨
  (x.stage = .query ∨ x.stage = .fragment) ∧ x.cur.text.head? = some nul ∨ x.stage = .done

theorem BeforeNuls.there {x : UrlConfig} (hx : BeforeNuls x) :
    urlStep S flags x ≠ .error .overread := by
  rcases hx with hon | ⟨hstage, hnul⟩ | hdone
  · exact hon.there
  · obtain ⟨stage, st, cur⟩ := x
    have hread := read_ok_iff.mpr hnul
    rcases hstage with rfl | rfl
    · simp [urlStep, parseQuery, hread, bind, Except.bind,
        show nul ≠ question by decide, Except.map]
    · simp [urlStep, parseFragment, hread, bind, Except.bind, show nul ≠ hash by decide, Except.map]
  · obtain ⟨stage, st, cur⟩ := x
    cases hdone
    simp [urlStep]

theorem BeforeNuls.step {x y : UrlConfig} (hx : BeforeNuls x) (h : urlStep S flags x = .ok y) :
    BeforeNuls y := by
  rcases hx with hon | ⟨hstage, hnul⟩ | hdone
  · by_cases hleft : stagesLeft x.stage ≤ 3 → 0 ≤ y.cur.left
    · exact .inl (hon.step (by decide) (by decide) (by decide) h hleft)
    · rw [Classical.not_imp] at hleft
      obtain ⟨hstage, hleft⟩ := hleft
      obtain ⟨stage, st, cur⟩ := x
      obtain ⟨⟨t, hcur⟩, -⟩ := hon
      change cur = .on t [nul, nul] at hcur
      subst hcur
      cases stage with
      | path =>
        obtain ⟨⟨st', cur'⟩, ho, rfl⟩ := ok_eq_map h
        rcases parsePath_advance ho with rfl | ⟨o, hnul, hloop, rfl⟩
        · exact absurd (Int.natCast_nonneg _) hleft
        · have ht : t ≠ [] := by
            rintro rfl
            exact hnul rfl
          rw [doLoop_on _ ht] at hloop
          exact .inr (.inl ⟨.inl rfl,
            (whileLoop_nuls pathWord_looks (fun _ => rfl) hloop).resolve_left hleft⟩)
      | query =>
        obtain ⟨⟨st', cur'⟩, ho, rfl⟩ := ok_eq_map h
        rcases parseQuery_advance ho with rfl | ⟨o, hread, hloop, rfl⟩
        · exact absurd (Int.natCast_nonneg _) hleft
        · cases t with
          | nil => cases hread
          | cons c d =>
            have hnext : (UrlCursor.on (c :: d) [nul, nul]).advance 1 = .on d [nul, nul] :=
              UrlCursor.advance_on _ _ (by simp)
            have hcur : (UrlCursor.on (c :: d) [nul, nul]).advance (o.taken + 1) =
                (UrlCursor.on d [nul, nul]).advance o.taken := by
              rw [Nat.add_comm, ← UrlCursor.advance_advance, hnext]
            rw [hnext] at hloop
            change ¬ 0 ≤ ((UrlCursor.on (c :: d) [nul, nul]).advance (o.taken + 1)).left at hleft
            rw [hcur] at hleft
            refine .inr (.inl ⟨.inr rfl, ?_⟩)
            change ((UrlCursor.on (c :: d) [nul, nul]).advance (o.taken + 1)).text.head? = some nul
            rw [hcur]
            exact (whileLoop_nuls (textWord_looks .query) (fun _ => rfl) hloop).resolve_left hleft
      | fragment =>
        obtain ⟨o, -, rfl⟩ := ok_eq_map h
        exact .inr (.inr rfl)
      | done =>
        cases h
        exact .inr (.inr rfl)
      | _ => exact absurd hstage (by simp [stagesLeft])
  · obtain ⟨stage, st, cur⟩ := x
    have hread := read_ok_iff.mpr hnul
    rcases hstage with rfl | rfl
    · obtain ⟨⟨st', cur'⟩, ho, rfl⟩ := ok_eq_map h
      rcases parseQuery_advance ho with rfl | ⟨o, hquestion, -⟩
      · exact .inr (.inl ⟨.inr rfl, hnul⟩)
      · rw [hread] at hquestion
        cases hquestion
    · obtain ⟨o, -, rfl⟩ := ok_eq_map h
      exact .inr (.inr rfl)
  · obtain ⟨stage, st, cur⟩ := x
    cases hdone
    cases h
    exact .inr (.inr rfl)

/-- With two NULs behind the text there is enough to look at. -/
theorem urlParse_nuls (s : Bytes) : urlParse S flags s [nul, nul] ≠ .error .overread := by
  intro h
  obtain ⟨x, hreach, hread⟩ := urlParse_error_iff.mp h
  have hx : BeforeNuls x := Steps.Reaches.invariant (I := BeforeNuls)
    (fun _ _ hx hstep => hx.step hstep) hreach (.inl (.start s))
  exact hx.there hread

theorem parseAuthority_overread_iff {t : Bytes} :
    parseAuthority S flags st (.on t []) = .error .overread ↔ ¬ AuthorityEnds S flags st t := by
  rw [parseAuthority_eq, error_eq_bind, beforeHost_overread_iff]
  refine or_iff_left ?_
  rintro ⟨⟨st', info, cur'⟩, ho, h⟩
  have hhost := error_eq_map.mp h
  cases info with
  | none => cases hhost
  | some info =>
    obtain ⟨b, behind, hb, hclosed, rfl⟩ := (beforeHost_closed (by simp) (by simp) ho).2 info rfl
    exact parseHostinfo_there hclosed hb hhost

theorem parseAuthority_nul (t : Bytes) : parseAuthority S flags st (.on t [nul]) ≠
    .error .overread := by
  rw [parseAuthority_eq]
  intro h
  rcases error_eq_bind.mp h with h | ⟨⟨st', info, cur'⟩, ho, h⟩
  · exact beforeHost_there (closed_nul []) (by decide) t h
  · have hhost := error_eq_map.mp h
    cases info with
    | none => cases hhost
    | some info =>
      obtain ⟨b, behind, hb, hclosed, rfl⟩ :=
        (beforeHost_closed (by decide) (by decide) ho).2 info rfl
      exact parseHostinfo_there hclosed hb hhost

theorem urlParseAuthority_overread_iff {s after : Bytes} :
    urlParseAuthority S flags s after = .error .overread ↔
    parseAuthority S flags urlStart (.on s after) = .error .overread := by
  unfold urlParseAuthority
  rw [error_eq_bind]
  refine or_iff_left ?_
  rintro ⟨⟨st', cur'⟩, -, h⟩
  by_cases hrest : cur'.left ≠ 0 ∧ flags.ignoreErrors = false
  · simp only [if_pos hrest] at h
    cases h
  · simp only [if_neg hrest] at h
    cases h

/-! ### Slices -/

section
variable (S flags)

/-- Whatever is in the memory behind a text, it is parsed alike. -/
def SliceOnly (s : Bytes) : Prop := ∀ t t', urlParse S flags s t = urlParse S flags s t' ∧
  urlParseAuthority S flags s t = urlParseAuthority S flags s t'

end

/-- A text is parsed alike in any memory exactly if in each stage all that is looked at is in it,
and as an authority as well. -/
theorem sliceOnly_iff (S : UrlSystem) (flags : UrlFlags) (s : Bytes) : SliceOnly S flags s ↔
    (∀ x, UrlReaches S flags s [] x → Within S flags x) ∧ AuthorityEnds S flags urlStart s := by
  rw [← urlParse_within_iff]
  constructor
  · intro h
    refine ⟨?_, ?_⟩
    · rw [(h [] [nul, nul]).1]
      exact urlParse_nuls s
    · by_contra hends
      have hread := urlParseAuthority_overread_iff.mpr (parseAuthority_overread_iff.mpr hends)
      rw [(h [] [nul]).2] at hread
      exact parseAuthority_nul s (urlParseAuthority_overread_iff.mp hread)
  · rintro ⟨hparse, hends⟩ t t'
    have hauthority : urlParseAuthority S flags s [] ≠ .error .overread := fun h =>
      parseAuthority_overread_iff.mp (urlParseAuthority_overread_iff.mp h) hends
    exact ⟨(urlParse_kept hparse t).trans (urlParse_kept hparse t').symm,
      (urlParseAuthority_kept hauthority t).trans (urlParseAuthority_kept hauthority t').symm⟩

/-- A URL that ends with its host is a string, but not a request target: there is a space behind
it. -/
theorem slice_target : ¬ SliceOnly plainSystem .std (ascii "http://h") := by
  intro h
  have hspace := (h [nul] (ascii " HTTP/1.1")).1
  revert hspace
  decide +kernel

end UrlScanner

end ExtHttp
