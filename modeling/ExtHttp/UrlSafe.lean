import ExtHttp.UrlLocal
import ExtHttp.UrlTears

/-!
# Cursors that stay in the text

In front of the NUL that ends a string, `php_http_url_parse` stays in it exactly if path and query
do not come to `%%` at their end, no `#` is taken for a fragment that has nothing behind it, and no
character that is taken is cut off.
-/
namespace ExtHttp
open Scan

namespace UrlScanner
variable {S : UrlSystem} {flags : UrlFlags} {σ : Type} {st : UrlState}

/-! ### Loops -/

section
variable (S flags)

/-- A loop that comes to a character that is cut off -/
def Tears (what : UrlPart) (stop : Byte → Bool) (word : UrlWord σ) (after : Bytes) (s : σ)
    (b : Bytes) : Prop :=
  ∃ t c d, Comes stop (onText word) after s b t (c :: d) ∧ stop c = false ∧ Torn S flags what c d

end

/-- A loop that comes to `%%` at the end of its text -/
def Exceeds (stop : Byte → Bool) (word : UrlWord σ) (after : Bytes) (s : σ) (b : Bytes) : Prop :=
  ∃ t, Comes stop (onText word) after s b t [percent, percent]

section
variable {what : UrlPart} {stop : Byte → Bool} {word : UrlWord σ} {s : σ} {b after : Bytes}

theorem whileLoop_runaway_iff (hword : Tearing S flags what word) :
    whileLoop stop word s (.on b after) = .error .runaway ↔
      Tears S flags what stop word after s b := by
  rw [whileLoop_eq, error_eq_map, scanE_error_iff]
  constructor
  · rintro ⟨t, c, d, hcomes, hstop, hrun⟩
    exact ⟨t, c, d, hcomes, hstop, (hword t c d after).mp hrun⟩
  · rintro ⟨t, c, d, hcomes, hstop, htorn⟩
    exact ⟨t, c, d, hcomes, hstop, (hword t c d after).mpr htorn⟩

theorem whileLoop_exceeds_iff {ignored : σ → Bytes × ℕ × σ} (hword : Looks flags word ignored)
    (hone : ∀ s, (ignored s).2.1 = 1) (hafter : Closed after) (hstop : stop percent = false) :
    (∃ o, whileLoop stop word s (.on b after) = .ok o ∧
      ((UrlCursor.on b after).advance o.taken).left < 0) ↔
      Exceeds stop word after s b := by
  have hbehind : ∀ o : Outcome Byte Byte σ, scanE stop (onText word) after s 0 b = .ok o →
      (((UrlCursor.on b after).advance (b.length - o.rest.length + o.excess)).left < 0 ↔
        0 < o.excess) := by
    intro o ho
    obtain ⟨front, hfront⟩ := rest_suffix (scanE_ok ho)
    have hlen := congrArg List.length hfront
    rw [List.length_append] at hlen
    change (b.length : ℤ) - (b.length - o.rest.length + o.excess : ℕ) < 0 ↔ 0 < o.excess
    constructor
    · intro h
      omega
    · intro h
      have hrest := rest_nil (scanE_ok ho) h
      rw [hrest, List.length_nil] at hlen ⊢
      omega
  rw [whileLoop_eq]
  constructor
  · rintro ⟨e, he, hleft⟩
    obtain ⟨o, ho, rfl⟩ := ok_eq_map he
    obtain ⟨t, c, d, w, n, t', hcomes, -, hw, hlen⟩ :=
      scanE_excess_iff.mp ⟨o, ho, (hbehind o ho).mp hleft⟩
    obtain ⟨rfl, rfl⟩ := (hword.excess_iff hone hafter.ne hafter.percent).mp ⟨w, n, t', hw, hlen⟩
    exact ⟨t, hcomes⟩
  · rintro ⟨t, hcomes⟩
    obtain ⟨w, n, t', hw, hlen⟩ := (hword.excess_iff hone hafter.ne hafter.percent).mpr ⟨rfl, rfl⟩
    obtain ⟨o, ho, hexcess⟩ := scanE_excess_iff.mpr ⟨t, percent, [percent], w, n, t', hcomes,
      hstop, hw, hlen⟩
    refine ⟨⟨o.written, o.state, b.length - o.rest.length + o.excess, o.rest ≠ []⟩, ?_,
      (hbehind o ho).mpr hexcess⟩
    rw [ho]
    rfl

end

/-! ### Components in front of a character -/

section
variable (S flags)

/-- A user info with a character that is cut off, in the user or in the password. -/
def UserinfoTears (b after : Bytes) : Prop :=
  Tears S flags .userinfo isColon (userinfoWord S flags) after () b ∨
    ∃ p, Comes isColon (onText (userinfoWord S flags)) after () b () (colon :: p) ∧
      Tears S flags .userinfo never (userinfoWord S flags) after () p

/-- What the loop of `parse_hostinfo` runs over: what is behind a literal address, or all of the
host info. -/
def hostText (b : Bytes) : Option Bytes :=
  if b.head? = some 91 then
    match ip6Text S.libs b with
    | some o => some o.2
    | none => if flags.ignoreErrors then some b else none
  else some b

/-- A host info with a character that is cut off. -/
def HostinfoTears (b after : Bytes) : Prop :=
  ∃ rest ∈ hostText S flags b, Tears S flags .hostinfo isColon (hostWord S flags) after false rest

end

theorem whileLoop_rest {stop : Byte → Bool} {word : UrlWord σ} {s : σ} {b after : Bytes}
    {o : LoopEnd σ} (h : whileLoop stop word s (.on b after) = .ok o)
    (hstop : o.stopped = true) : ∃ c p,
      Comes stop (onText word) after s b o.state (c :: p) ∧ stop c = true ∧
        (UrlCursor.on b after).advance (o.taken + 1) = .on p after := by
  rw [whileLoop_eq] at h
  obtain ⟨r, hr, rfl⟩ := ok_eq_map h
  have hrest : r.rest ≠ [] := by simpa using hstop
  obtain ⟨c, p, hcp⟩ := List.exists_cons_of_ne_nil hrest
  refine ⟨c, p, hcp ▸ comes_rest hr hrest, rest_head (scanE_ok hr) c (by rw [hcp]; rfl), ?_⟩
  rw [advance_stop hr hrest, hcp, List.tail_cons]

theorem parseUserinfo_runaway_iff {b after : Bytes} (hb : b ≠ []) :
    parseUserinfo S flags st (.on b after) = .error .runaway ↔ UserinfoTears S flags b after := by
  unfold parseUserinfo UserinfoTears
  rw [doLoop_on _ hb, error_eq_bind, whileLoop_runaway_iff userinfoWord_tearing]
  refine or_congr_right ?_
  constructor
  · rintro ⟨user, huser, h⟩
    dsimp only at h
    by_cases hstop : user.stopped = true
    · obtain ⟨c, p, hcomes, hc, hnext⟩ := whileLoop_rest huser hstop
      obtain rfl : c = colon := by simpa [isColon] using hc
      rw [if_pos hstop, hnext, error_eq_bind, whileLoop_runaway_iff userinfoWord_tearing] at h
      refine ⟨p, hcomes, h.resolve_right ?_⟩
      rintro ⟨pass, -, h⟩
      cases h
    · rw [if_neg hstop] at h
      cases h
  · rintro ⟨p, hcomes, htears⟩
    obtain ⟨o, ho, -, hrest⟩ := scanE_stopped hcomes (by decide)
    have hne : o.rest ≠ [] := by simp [hrest]
    refine ⟨_, by rw [whileLoop_eq, ho]; rfl, ?_⟩
    rw [if_pos (by simpa using hne), advance_stop ho hne, hrest, List.tail_cons, error_eq_bind,
      whileLoop_runaway_iff userinfoWord_tearing]
    exact .inl htears

theorem hostLoop_runaway_iff {port : ℕ} {b after : Bytes} :
    hostLoop S flags port (.on b after) = .error .runaway ↔
    Tears S flags .hostinfo isColon (hostWord S flags) after false b := by
  have hport : ∀ (port : ℕ) (cur : UrlCursor), whileLoop never (portWord flags) port cur ≠
      .error .runaway := by
    intro port cur h
    unfold whileLoop at h
    split_ifs at h
    obtain ⟨t, c, d, -, -, hrun⟩ := scanE_error_iff.mp (error_eq_map.mp h)
    exact portWord_whole t c d _ hrun
  unfold hostLoop
  by_cases hb : b = []
  · subst hb
    have hnone : ¬ Tears S flags .hostinfo isColon (hostWord S flags) after false [] := by
      rw [← whileLoop_runaway_iff hostWord_tearing, whileLoop_eq]
      exact fun h => by cases h
    simp [hnone]
  · have hleft : ¬ (UrlCursor.on b after).left = 0 := by simpa using hb
    rw [if_neg hleft, doLoop_on _ hb, error_eq_bind, whileLoop_runaway_iff hostWord_tearing]
    refine or_iff_left ?_
    rintro ⟨host, -, h⟩
    split_ifs at h
    rcases error_eq_bind.mp h with h | ⟨port, -, h⟩
    · exact hport _ _ h
    · cases h

theorem parseHostRest_runaway_iff {len : ℕ} {b after : Bytes} :
    parseHostRest S flags len st (.on b after) = .error .runaway ↔
      Tears S flags .hostinfo isColon (hostWord S flags) after false b := by
  have hidna : ∀ (st : UrlState) (host len : ℕ), parseIdna S flags st host len ≠
      .error .runaway := by
    intro st host len
    unfold parseIdna
    split
    · simp
    · split
      · simp
      · split_ifs <;> simp
  unfold parseHostRest
  rw [error_eq_bind, hostLoop_runaway_iff]
  refine or_iff_left ?_
  rintro ⟨host, -, h⟩
  dsimp only at h
  split_ifs at h
  exact hidna _ _ _ h

theorem parseHostinfo_runaway_iff {b after : Bytes} (hb : b ≠ []) :
    parseHostinfo S flags st (.on b after) = .error .runaway ↔ HostinfoTears S flags b after := by
  obtain ⟨c, b, rfl⟩ := List.exists_cons_of_ne_nil hb
  unfold parseHostinfo HostinfoTears hostText
  rw [UrlCursor.on_read, parseIp6_on]
  simp only [bind, Except.bind, List.head?_cons, Option.some.injEq]
  by_cases hopen : c = 91
  · simp only [if_pos hopen]
    cases hip : ip6Text S.libs (c :: b) with
    | none =>
      simp only [Option.map_none]
      by_cases hignore : flags.ignoreErrors = true
      · simp [hignore, parseHostRest_runaway_iff]
      · simp [hignore]
    | some o =>
      obtain ⟨front, hfront⟩ := ip6Text_suffix hip
      simp only [Option.map_some]
      rw [hfront, advance_suffix, parseHostRest_runaway_iff]
      simp
  · simp [hopen, parseHostRest_runaway_iff]

/-! ### Stages -/

theorem mbWord_end_runaway_iff {what : UrlPart} {s : σ} {more : Bytes} :
    mbWord S flags what s (.on [] (nul :: more)) = .error .runaway ↔ CutOff S flags what [] := by
  rcases @mbWord_end S flags σ what s more with ⟨hcut, h⟩ | ⟨hwhole, h⟩
  · simp [h, hcut]
  · simp [h, hwhole, orElse_whole]

theorem parseScheme_runaway_iff {t : Bytes} : parseScheme S flags st (.on t [nul]) =
    .error .runaway ↔
    if t = [] then CutOff S flags .scheme [] else Tears S flags .scheme isColon (schemeWord S flags)
      [nul] true t := by
  have hscheme : parseScheme S flags st (.on t [nul]) = .error .runaway ↔
      doLoop isColon (schemeWord S flags) true (.on t [nul]) = .error .runaway := by
    unfold parseScheme
    split
    · next h => simp [h]
    · next h => simp [h]
    · next h => simp [h]
    · next h => simp [h]
  rw [hscheme]
  by_cases ht : t = []
  · subst ht
    have hword : doLoop isColon (schemeWord S flags) true (.on [] [nul]) =
        (mbWord S flags .scheme false (.on [] [nul])).map fun o => ⟨o.1, o.2.2, o.2.1, false⟩ := rfl
    rw [hword, error_eq_map, mbWord_end_runaway_iff, if_pos rfl]
  · rw [doLoop_on _ ht, whileLoop_runaway_iff schemeWord_tearing, if_neg ht]

theorem parsePath_runaway_iff {t : Bytes} : parsePath S flags st (.on t [nul]) = .error .runaway ↔
    t ≠ [] ∧ t.head? ≠ some nul ∧ Tears S flags .path isPathEnd (pathWord S flags) [nul] () t := by
  unfold parsePath
  cases t with
  | nil =>
    have hread : (UrlCursor.on [] [nul]).read 0 = .ok nul := rfl
    simp [hread, bind, Except.bind]
  | cons c d =>
    by_cases hnul : c = nul
    · simp [bind, Except.bind, hnul]
    · have htaken : ∀ o : LoopEnd Unit, ((if o.taken = 0 then .ok (st, .on (c :: d) [nul])
          else .ok ({ st with path := some st.offset }.put (o.written ++ [nul]),
            (UrlCursor.on (c :: d) [nul]).advance o.taken)) :
              Except UrlExit (UrlState × UrlCursor)) ≠
          .error .runaway := by
        intro o
        split_ifs <;> simp
      rw [UrlCursor.on_read, error_eq_bind]
      simp [hnul, error_eq_bind, doLoop_on _ (List.cons_ne_nil c d),
        whileLoop_runaway_iff pathWord_tearing, htaken]

theorem parseQuery_runaway_iff {t : Bytes} : parseQuery S flags st (.on t [nul]) = .error .runaway ↔
    t.head? = some question ∧ Tears S flags .query isHash (queryWord S flags) [nul] () t.tail := by
  unfold parseQuery
  cases t with
  | nil =>
    have hread : (UrlCursor.on [] [nul]).read 0 = .ok nul := rfl
    have hnul : nul ≠ question := by decide
    simp [hread, bind, Except.bind, hnul]
  | cons c d =>
    by_cases hquestion : c = question
    · have hnext : (UrlCursor.on (c :: d) [nul]).advance 1 = .on d [nul] :=
        UrlCursor.advance_on _ _ (by simp)
      rw [UrlCursor.on_read, hnext]
      simp [hquestion, error_eq_bind, whileLoop_runaway_iff queryWord_tearing]
    · simp [hquestion, bind, Except.bind]

theorem parseFragment_runaway_iff {t : Bytes} : parseFragment S flags st (.on t [nul]) =
    .error .runaway ↔
    t.head? = some hash ∧ (if t.tail = [] then CutOff S flags .fragment []
      else Tears S flags .fragment never (fragmentWord S flags) [nul] () t.tail) := by
  unfold parseFragment
  cases t with
  | nil =>
    have hread : (UrlCursor.on [] [nul]).read 0 = .ok nul := rfl
    have hnul : nul ≠ hash := by decide
    simp [hread, bind, Except.bind, hnul]
  | cons c d =>
    by_cases hhash : c = hash
    · have hnext : (UrlCursor.on (c :: d) [nul]).advance 1 = .on d [nul] :=
        UrlCursor.advance_on _ _ (by simp)
      rw [UrlCursor.on_read, hnext]
      by_cases hd : d = []
      · subst hd
        have hword : doLoop never (fragmentWord S flags) () (.on [] [nul]) =
            (mbWord S flags .fragment () (.on [] [nul])).map fun o =>
              ⟨o.1, o.2.2, o.2.1, false⟩ := rfl
        rw [hword]
        simp [hhash, error_eq_bind, error_eq_map, mbWord_end_runaway_iff]
      · simp [hhash, hd, error_eq_bind, doLoop_on _ hd, whileLoop_runaway_iff fragmentWord_tearing]
    · simp [hhash, bind, Except.bind]

theorem parsePath_exceeds_iff {t : Bytes} :
    (∃ o, parsePath S flags st (.on t [nul]) = .ok o ∧ o.2.left < 0) ↔
      t ≠ [] ∧ t.head? ≠ some nul ∧ Exceeds isPathEnd (pathWord S flags) [nul] () t := by
  have hnonneg : ¬ (UrlCursor.on t [nul]).left < 0 := not_lt.mpr (Int.natCast_nonneg _)
  constructor
  · rintro ⟨⟨st', cur'⟩, ho, hleft⟩
    rcases parsePath_advance ho with rfl | ⟨o, hnul, hloop, rfl⟩
    · exact absurd hleft hnonneg
    · have ht : t ≠ [] := by
        rintro rfl
        exact hnul rfl
      obtain ⟨c, d, rfl⟩ := List.exists_cons_of_ne_nil ht
      rw [doLoop_on _ ht] at hloop
      refine ⟨ht, ?_, (whileLoop_exceeds_iff pathWord_looks (fun _ => rfl) (closed_nul [])
        (by decide)).mp ⟨o, hloop, hleft⟩⟩
      intro hc
      cases hc
      exact hnul rfl
  · rintro ⟨ht, hnul, hexceeds⟩
    obtain ⟨c, d, rfl⟩ := List.exists_cons_of_ne_nil ht
    obtain ⟨o, hloop, hleft⟩ :=
      (whileLoop_exceeds_iff pathWord_looks (fun _ => rfl) (closed_nul []) (by decide)).mpr hexceeds
    have hc : ¬ c = nul := fun h => hnul (congrArg some h)
    have htaken : ¬ o.taken = 0 := by
      intro hzero
      rw [hzero, UrlCursor.advance_zero] at hleft
      exact hnonneg hleft
    refine ⟨({ st with path := some st.offset }.put (o.written ++ [nul]),
      (UrlCursor.on (c :: d) [nul]).advance o.taken), ?_, hleft⟩
    unfold parsePath
    rw [UrlCursor.on_read, doLoop_on _ ht, hloop]
    simp only [bind, Except.bind, if_neg hc, if_neg htaken]

/-- Behind the `?` or the `#`, a loop that goes behind the end leaves the cursor there. -/
theorem advance_behind_left (c : Byte) (d after : Bytes) (n : ℕ) :
    ((UrlCursor.on (c :: d) after).advance (n + 1)).left =
      ((UrlCursor.on d after).advance n).left := by
  change ((d.length + 1 : ℕ) : ℤ) - ((n + 1 : ℕ) : ℤ) = (d.length : ℤ) - n
  omega

theorem parseQuery_exceeds_iff {t : Bytes} :
    (∃ o, parseQuery S flags st (.on t [nul]) = .ok o ∧ o.2.left < 0) ↔
      t.head? = some question ∧ Exceeds isHash (queryWord S flags) [nul] () t.tail := by
  have hnonneg : ¬ (UrlCursor.on t [nul]).left < 0 := not_lt.mpr (Int.natCast_nonneg _)
  constructor
  · rintro ⟨⟨st', cur'⟩, ho, hleft⟩
    rcases parseQuery_advance ho with rfl | ⟨o, hread, hloop, rfl⟩
    · exact absurd hleft hnonneg
    · cases t with
      | nil => cases hread
      | cons c d =>
        cases hread
        have hnext : (UrlCursor.on (question :: d) [nul]).advance 1 = .on d [nul] :=
          UrlCursor.advance_on _ _ (by simp)
        rw [hnext] at hloop
        change ((UrlCursor.on (question :: d) [nul]).advance (o.taken + 1)).left < 0 at hleft
        rw [advance_behind_left] at hleft
        exact ⟨rfl, (whileLoop_exceeds_iff (textWord_looks .query) (fun _ => rfl) (closed_nul [])
          (by decide)).mp ⟨o, hloop, hleft⟩⟩
  · rintro ⟨hhead, hexceeds⟩
    obtain ⟨d, rfl⟩ := List.head?_eq_some_iff.mp hhead
    obtain ⟨o, hloop, hleft⟩ := (whileLoop_exceeds_iff (textWord_looks .query) (fun _ => rfl)
      (closed_nul []) (by decide)).mpr hexceeds
    have hnext : (UrlCursor.on (question :: d) [nul]).advance 1 = .on d [nul] :=
      UrlCursor.advance_on _ _ (by simp)
    refine ⟨({ st with query := some st.offset }.put (o.written ++ [nul]),
      (UrlCursor.on (question :: d) [nul]).advance (o.taken + 1)), ?_, ?_⟩
    · unfold parseQuery
      rw [UrlCursor.on_read, hnext]
      simp only [bind, Except.bind, ne_eq, not_true_eq_false, if_false]
      rw [show whileLoop isHash (queryWord S flags) () (.on d [nul]) = .ok o from hloop]
    · exact (advance_behind_left question d [nul] o.taken).trans_lt hleft

theorem parseFragment_exceeds_iff {t : Bytes} :
    (∃ o, parseFragment S flags st (.on t [nul]) = .ok o ∧ o.2.left < 0) ↔
      t.head? = some hash ∧ (if t.tail = [] then flags.ignoreErrors = true ∧
        ¬ CutOff S flags .fragment []
        else Exceeds never (fragmentWord S flags) [nul] () t.tail) := by
  have hnonneg : ¬ (UrlCursor.on t [nul]).left < 0 := not_lt.mpr (Int.natCast_nonneg _)
  have hend : doLoop never (fragmentWord S flags) () (.on [] [nul]) =
    (mbWord S flags .fragment () (.on [] [nul])).map fun o => ⟨o.1, o.2.2, o.2.1, false⟩ := rfl
  constructor
  · rintro ⟨⟨st', cur'⟩, ho, hleft⟩
    rcases parseFragment_advance ho with rfl | ⟨o, hread, hloop, rfl⟩
    · exact absurd hleft hnonneg
    · cases t with
      | nil => cases hread
      | cons c d =>
        cases hread
        have hnext : (UrlCursor.on (hash :: d) [nul]).advance 1 = .on d [nul] :=
          UrlCursor.advance_on _ _ (by simp)
        rw [hnext] at hloop
        change ((UrlCursor.on (hash :: d) [nul]).advance (o.taken + 1)).left < 0 at hleft
        rw [advance_behind_left] at hleft
        refine ⟨rfl, ?_⟩
        rw [List.tail_cons]
        by_cases hd : d = []
        · subst hd
          rw [if_pos rfl]
          rw [hend] at hloop
          obtain ⟨w, hw, -⟩ := ok_eq_map hloop
          rcases @mbWord_end S flags Unit .fragment () [] with ⟨-, h⟩ | ⟨hwhole, h⟩
          · rw [h] at hw
            cases hw
          · refine ⟨?_, hwhole⟩
            by_contra hstrict
            rw [h, ExtHttp.orElse, if_neg hstrict] at hw
            cases hw
        · rw [if_neg hd]
          rw [doLoop_on _ hd] at hloop
          exact (whileLoop_exceeds_iff fragmentWord_looks (fun _ => rfl) (closed_nul []) rfl).mp
            ⟨o, hloop, hleft⟩
  · rintro ⟨hhead, hexceeds⟩
    obtain ⟨d, rfl⟩ := List.head?_eq_some_iff.mp hhead
    have hnext : (UrlCursor.on (hash :: d) [nul]).advance 1 = .on d [nul] :=
      UrlCursor.advance_on _ _ (by simp)
    obtain ⟨o, hloop, hleft⟩ : ∃ o, doLoop never (fragmentWord S flags) () (.on d [nul]) = .ok o ∧
        ((UrlCursor.on d [nul]).advance o.taken).left < 0 := by
      rw [List.tail_cons] at hexceeds
      by_cases hd : d = []
      · subst hd
        rw [if_pos rfl] at hexceeds
        obtain ⟨hignore, hwhole⟩ := hexceeds
        obtain ⟨-, h⟩ := (@mbWord_end S flags Unit .fragment () []).resolve_left fun h => hwhole h.1
        rw [ExtHttp.orElse, if_pos hignore] at h
        exact ⟨⟨[nul], (), 1, false⟩, by rw [hend, h]; rfl, by decide⟩
      · rw [if_neg hd] at hexceeds
        rw [doLoop_on _ hd]
        exact (whileLoop_exceeds_iff fragmentWord_looks (fun _ => rfl)
          (closed_nul []) rfl).mpr hexceeds
    refine ⟨({ st with fragment := some st.offset }.put (o.written ++ [nul]),
      (UrlCursor.on (hash :: d) [nul]).advance (o.taken + 1)), ?_, ?_⟩
    · unfold parseFragment
      rw [UrlCursor.on_read, hnext]
      simp only [bind, Except.bind, ne_eq, not_true_eq_false, if_false, hloop]
    · exact (advance_behind_left hash d [nul] o.taken).trans_lt hleft

/-! ### Runs -/

section
variable (S flags)

/-- A step reads nothing behind the NUL, and leaves the cursor in the text. -/
structure CursorSafe (x : UrlConfig) : Prop where
  read : urlStep S flags x ≠ .error .overread
  copy : urlStep S flags x ≠ .error .runaway
  left : ∀ y, urlStep S flags x = .ok y → 0 ≤ y.cur.left

/-- No character that is taken is cut off, path, query and fragment do not come to `%%` at their
end, and a `#` is not the last character, or it is refused. -/
def CursorFits (x : UrlConfig) : Prop :=
  match x.stage with
  | .scheme => if x.cur.rest = [] then ¬ CutOff S flags .scheme []
      else ¬ Tears S flags .scheme isColon (schemeWord S flags) [nul] true x.cur.rest
  | .hier => True
  | .authority => (x.cur.rest.dropWhile inAuthority).head? = some atSign →
    x.cur.rest.takeWhile inAuthority ≠ [] →
      ¬ UserinfoTears S flags (x.cur.rest.takeWhile inAuthority)
        (x.cur.rest.dropWhile inAuthority ++ [nul])
  | .host info => ∀ c ∈ info, ¬ HostinfoTears S flags c.rest c.after
  | .path => x.cur.rest ≠ [] → x.cur.rest.head? ≠ some nul →
      ¬ Tears S flags .path isPathEnd (pathWord S flags) [nul] () x.cur.rest ∧
        ¬ Exceeds isPathEnd (pathWord S flags) [nul] () x.cur.rest
  | .query => x.cur.rest.head? = some question →
      ¬ Tears S flags .query isHash (queryWord S flags) [nul] () x.cur.rest.tail ∧
        ¬ Exceeds isHash (queryWord S flags) [nul] () x.cur.rest.tail
  | .fragment => x.cur.rest.head? = some hash →
      if x.cur.rest.tail = [] then flags.ignoreErrors = false ∧ ¬ CutOff S flags .fragment []
      else ¬ Tears S flags .fragment never (fragmentWord S flags) [nul] () x.cur.rest.tail ∧
        ¬ Exceeds never (fragmentWord S flags) [nul] () x.cur.rest.tail
  | .done => True

/-- What `php_http_url_parse`, or `php_http_url_parse_authority` up to the host, comes to on a
string. -/
def Scanned (s : Bytes) (x : UrlConfig) : Prop := UrlReaches S flags s [nul] x ∨
  Steps.Reaches (urlStep S flags) ⟨.authority, urlStart, .on s [nul]⟩ x ∧ 4 ≤ stagesLeft x.stage

end

theorem cursorSafe_iff_of {x : UrlConfig} (hx : OnText [nul] x) : CursorSafe S flags x ↔
    urlStep S flags x ≠ .error .runaway ∧ ¬ ∃ y, urlStep S flags x = .ok y ∧ y.cur.left < 0 := by
  constructor
  · intro h
    refine ⟨h.copy, ?_⟩
    rintro ⟨y, hy, hleft⟩
    exact absurd (h.left y hy) (not_le.mpr hleft)
  · rintro ⟨hcopy, hleft⟩
    exact ⟨hx.there, hcopy, fun y hy => not_lt.mp fun hneg => hleft ⟨y, hy, hneg⟩⟩

theorem beforeHost_runaway_iff {t : Bytes} : beforeHost S flags st (.on t [nul]) = .error .runaway ↔
    (t.dropWhile inAuthority).head? = some atSign ∧ t.takeWhile inAuthority ≠ [] ∧
      UserinfoTears S flags (t.takeWhile inAuthority) (t.dropWhile inAuthority ++ [nul]) := by
  have hread : ∀ cur : UrlCursor, cur.read 0 ≠ .error .runaway := by
    intro cur
    unfold UrlCursor.read
    split <;> simp
  obtain ⟨part, hpart, ⟨left, rfl, hleft, hplain⟩ | ⟨host, left, rfl, hhost, hleft⟩⟩ :=
    authority_split flags t
  · have hboth : (left ++ [nul]).head? ≠ some atSign := by
      cases left with
      | nil => decide
      | cons c left => exact hplain
    rw [beforeHost_plain hpart hleft hboth, dropWhile_end hpart hleft, error_eq_bind]
    constructor
    · rintro (h | ⟨c, -, h⟩)
      · exact absurd h (hread _)
      · cases h
    · exact fun h => absurd h.1 hplain
  · have hend : ∀ c ∈ (atSign :: (host ++ left)).head?, inAuthority c = false := by
      intro c hc
      cases hc
      rfl
    rw [beforeHost_user hpart hhost hleft, dropWhile_end hpart hend, takeWhile_end hpart hend,
      error_eq_bind]
    have hrest : ∀ st₁ : UrlState, (UrlCursor.on left [nul]).read 0 >>= (fun c =>
        if c = atSign ∧ flags.ignoreErrors = false then .error .refused
        else .ok (st₁, if host = [] then none else some (UrlCursor.on host (left ++ [nul])),
          UrlCursor.on left [nul])) ≠
        (.error .runaway : Except UrlExit (UrlState × Option UrlCursor × UrlCursor)) := by
      intro st₁ h
      rcases error_eq_bind.mp h with h | ⟨c, -, h⟩
      · exact hread _ h
      · by_cases hagain : c = atSign ∧ flags.ignoreErrors = false
        · rw [if_pos hagain] at h
          cases h
        · rw [if_neg hagain] at h
          cases h
    constructor
    · rintro (h | ⟨st₁, -, h⟩)
      · split_ifs at h with hnil
        exact ⟨rfl, hnil, (parseUserinfo_runaway_iff hnil).mp h⟩
      · exact absurd h (hrest st₁)
    · rintro ⟨-, hnil, htears⟩
      exact .inl ((if_neg hnil).trans ((parseUserinfo_runaway_iff hnil).mpr htears))

theorem map_left_iff {x : Except UrlExit (UrlState × UrlCursor)} {stage : UrlStage} :
    (∃ y, (x.map fun o => (⟨stage, o.1, o.2⟩ : UrlConfig)) = .ok y ∧ y.cur.left < 0) ↔
      ∃ o, x = .ok o ∧ o.2.left < 0 := by
  constructor
  · rintro ⟨y, hy, hleft⟩
    obtain ⟨o, ho, rfl⟩ := ok_eq_map hy
    exact ⟨o, ho, hleft⟩
  · rintro ⟨o, ho, hleft⟩
    exact ⟨⟨stage, o.1, o.2⟩, by rw [ho]; rfl, hleft⟩

/-- Up to the host every step stays on the text. -/
theorem OnText.front {x : UrlConfig} (hx : OnText [nul] x) (hstage : 4 ≤ stagesLeft x.stage) :
    ¬ ∃ y, urlStep S flags x = .ok y ∧ y.cur.left < 0 := by
  rintro ⟨y, hy, hleft⟩
  obtain ⟨⟨t, ht⟩, -⟩ := hx.step (by decide) (by decide) (by decide) hy fun h => by omega
  rw [ht] at hleft
  exact absurd hleft (not_lt.mpr (Int.natCast_nonneg _))

/-- A stage is safe exactly if the text in front of it fits. -/
theorem OnText.safe_iff {x : UrlConfig} (hx : OnText [nul] x) :
    CursorSafe S flags x ↔ CursorFits S flags x := by
  rw [cursorSafe_iff_of hx]
  obtain ⟨stage, st, cur⟩ := x
  have hon := hx
  obtain ⟨⟨t, hcur⟩, hinfo⟩ := hx
  change cur = .on t [nul] at hcur
  subst hcur
  cases stage with
  | scheme =>
    rw [and_iff_left (hon.front (by simp [stagesLeft]))]
    simp only [urlStep, CursorFits, ne_eq, error_eq_map, parseScheme_runaway_iff, UrlCursor.on_rest]
    split_ifs <;> rfl
  | hier =>
    rw [and_iff_left (hon.front (by simp [stagesLeft]))]
    simp only [CursorFits, iff_true]
    have hread : ∀ i, (UrlCursor.on t [nul]).read i ≠ .error .runaway := by
      intro i
      unfold UrlCursor.read
      split <;> simp
    intro h
    rcases error_eq_bind.mp h with h | ⟨c, -, h⟩
    · exact hread 0 h
    · split_ifs at h
      rcases error_eq_bind.mp h with h | ⟨d, -, h⟩
      · exact hread 1 h
      · split_ifs at h
  | authority =>
    rw [and_iff_left (hon.front (by simp [stagesLeft]))]
    simp only [urlStep, CursorFits, ne_eq, error_eq_map, beforeHost_runaway_iff,
      UrlCursor.on_rest, not_and]
  | host info =>
    rw [and_iff_left (hon.front (by simp [stagesLeft]))]
    simp only [urlStep, CursorFits, ne_eq, error_eq_map]
    cases info with
    | none => simp [hostOf]
    | some info =>
      obtain ⟨b, behind, hb, -, rfl⟩ := hinfo info rfl
      simp [hostOf, parseHostinfo_runaway_iff hb]
  | path =>
    simp only [urlStep, CursorFits, ne_eq, error_eq_map, parsePath_runaway_iff, map_left_iff,
      parsePath_exceeds_iff, UrlCursor.on_rest, not_and]
    tauto
  | query =>
    simp only [urlStep, CursorFits, ne_eq, error_eq_map, parseQuery_runaway_iff, map_left_iff,
      parseQuery_exceeds_iff, UrlCursor.on_rest, not_and]
    tauto
  | fragment =>
    simp only [urlStep, CursorFits, ne_eq, error_eq_map, parseFragment_runaway_iff, map_left_iff,
      parseFragment_exceeds_iff, UrlCursor.on_rest, not_and]
    by_cases htail : t.tail = []
    · simp only [if_pos htail, not_and, not_not]
      cases flags.ignoreErrors
      · simp
      · simp
        tauto
    · simp only [if_neg htail]
      tauto
  | done =>
    have hnonneg : ¬ (UrlCursor.on t [nul]).left < 0 := not_lt.mpr (Int.natCast_nonneg _)
    simp [urlStep, CursorFits]

/-- Where every stage on the text is safe, the cursor stays there. -/
theorem onText_of_safe {s : Bytes}
    (h : ∀ x, UrlReaches S flags s [nul] x → OnText [nul] x → CursorSafe S flags x) {x : UrlConfig}
    (hreach : UrlReaches S flags s [nul] x) : OnText [nul] x := by
  induction hreach with
  | refl => exact .start s
  | @tail x y hx hstep ih =>
    exact ih.step (by decide) (by decide) (by decide) hstep fun _ => (h x hx ih).left y hstep

theorem authority_onText {s : Bytes} {x : UrlConfig}
    (hreach : Steps.Reaches (urlStep S flags) ⟨.authority, urlStart, .on s [nul]⟩ x)
    (hstage : 4 ≤ stagesLeft x.stage) :
    OnText [nul] x := by
  induction hreach with
  | refl => exact ⟨⟨s, rfl⟩, fun _ h => by cases h⟩
  | @tail x y _ hstep ih =>
    have hdone : x.stage ≠ .done := by
      intro hdone
      obtain ⟨stage, st, cur⟩ := x
      cases hdone
      cases hstep
      simp [stagesLeft] at hstage
    have hless := urlStep_left hstep hdone
    exact (ih (by omega)).step (by decide) (by decide) (by decide) hstep fun h => by omega

/-- All the stages that a string comes to are safe exactly if the text fits in all of them. -/
theorem cursor_safe_iff (S : UrlSystem) (flags : UrlFlags) (s : Bytes) :
    (∀ x, Scanned S flags s x → CursorSafe S flags x) ↔
      ∀ x, Scanned S flags s x → CursorFits S flags x := by
  constructor
  · intro h x hx
    have hsafe := h x hx
    rcases hx with hreach | ⟨hreach, hstage⟩
    · exact (onText_of_safe (fun y hy _ => h y (.inl hy)) hreach).safe_iff.mp hsafe
    · exact (authority_onText hreach hstage).safe_iff.mp hsafe
  · intro h x hx
    have hfits := h x hx
    rcases hx with hreach | ⟨hreach, hstage⟩
    · exact (onText_of_safe (fun y hy hon => hon.safe_iff.mpr (h y (.inl hy)))
        hreach).safe_iff.mpr hfits
    · exact (authority_onText hreach hstage).safe_iff.mpr hfits

/-- A path that ends with `%%` leaves the cursor behind the NUL. -/
theorem cursor_beyond :
    ¬ ∀ x, Scanned plainSystem .std (ascii "/a%%") x → CursorSafe plainSystem .std x := by
  intro h
  have hhier : urlStep plainSystem .std ⟨.scheme, urlStart, .on (ascii "/a%%") [nul]⟩ =
      .ok ⟨.hier, urlStart, .on (ascii "/a%%") [nul]⟩ := by decide
  have hpath : urlStep plainSystem .std ⟨.hier, urlStart, .on (ascii "/a%%") [nul]⟩ =
      .ok ⟨.path, urlStart, .on (ascii "/a%%") [nul]⟩ := by decide
  have hsafe := h _ (.inl (.head hhier (.head hpath .refl)))
  have hleft :
      ∀ y ∈ (urlStep plainSystem .std ⟨.path, urlStart, .on (ascii "/a%%") [nul]⟩).toOption,
      y.cur.left < 0 := by decide
  cases hstep : urlStep plainSystem .std ⟨.path, urlStart, .on (ascii "/a%%") [nul]⟩ with
  | error e =>
    have hnone : (urlStep plainSystem .std ⟨.path, urlStart, .on (ascii "/a%%") [nul]⟩).toOption ≠
        none := by
      decide
    rw [hstep] at hnone
    exact hnone rfl
  | ok y =>
    have hneg := hleft y (by rw [hstep]; rfl)
    exact absurd (hsafe.left y hstep) (not_le.mpr hneg)

end UrlScanner

end ExtHttp
