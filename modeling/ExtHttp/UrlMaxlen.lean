import ExtHttp.UrlFits

/-!
# The length of the buffer of the URL parser

`php_http_url_parse` has room for three bytes for each byte of the text and for eight more,
`php_http_url_parse_authority` for three bytes for each byte. What has been written leaves three
bytes for each byte of the text that is left, and a few more: a stage writes behind the buffer only
for a character that is cut off, or for one that is taken from the memory behind the text.
-/
namespace ExtHttp
open Scan

/-- Which of the two functions parses. -/
inductive UrlEntry
  | url
  | authority
  deriving DecidableEq, Repr

/-- `maxlen` for a text of `len` bytes -/
def UrlEntry.maxlen (len : ℕ) : UrlEntry → ℕ
  | .url => 3 * len + 8
  | .authority => 3 * len

/-- Where it begins. -/
def UrlEntry.stage : UrlEntry → UrlStage
  | .url => .scheme
  | .authority => .authority

/-- The host info that is parsed next -/
def UrlStage.info : UrlStage → Option UrlCursor
  | .host info => info
  | _ => none

/-- How many stages are left behind its last one. -/
def UrlEntry.left : UrlEntry → ℕ
  | .url => 0
  | .authority => 3

/-- How many bytes more than three for one it has room for in front of the host. -/
def UrlEntry.spare : UrlEntry → ℕ
  | .url => 10
  | .authority => 1

theorem UrlEntry.one_le_spare (entry : UrlEntry) : 1 ≤ entry.spare := by cases entry <;> decide

theorem UrlEntry.spare_le_ten (entry : UrlEntry) : entry.spare ≤ 10 := by cases entry <;> decide

namespace UrlScanner
variable {S : UrlSystem} {flags : UrlFlags} {maxlen : ℕ} {st st' : UrlState} {cur cur' : UrlCursor}
    {after : Bytes}

/-! ### The authority -/

theorem takeWhile_rest_le (cur : UrlCursor) (P : Byte → Bool) :
    (cur.rest.takeWhile P).length ≤ cur.text.length :=
  (length_takeWhile_le P _).trans (List.length_take_le' _ _)

/-- The cursor of a part of the text. -/
theorem part_on {n : ℕ} (h : n ≤ cur.text.length) :
    (⟨cur.text, n⟩ : UrlCursor) = .on (cur.text.take n) (cur.text.drop n) := by
  rw [UrlCursor.on, List.take_append_drop, List.length_take_of_le h]

theorem userinfo_settles {n : ℕ} (hn : n ≤ cur.text.length)
    (hroom : n ≠ 0 → st.offset + 3 * n ≤ maxlen) :
    Settles (userinfoIn S flags maxlen st cur n) (userinfoOf S flags st cur n)
      (n ≠ 0 → ¬ UserinfoTears S flags (cur.text.take n) (cur.text.drop n)) := by
  unfold userinfoIn userinfoOf
  by_cases hzero : n = 0
  · rw [if_pos hzero, if_pos hzero]
    exact (Settles.ok st).congr (iff_of_true (fun h => absurd hzero h) trivial)
  · have hlen := List.length_take_of_le hn
    have hne : cur.text.take n ≠ [] := by
      intro hnil
      rw [hnil] at hlen
      exact hzero hlen.symm
    rw [if_neg hzero, if_neg hzero, part_on hn]
    exact (parseUserinfo_settles hne (by rw [hlen]; exact hroom hzero)).congr
      (forall_prop_of_true hzero)

theorem beforeHost_settles (hroom : RoomFor maxlen 1 st.offset after cur) :
    Settles (beforeHostIn S flags maxlen st cur) (beforeHost S flags st cur)
      (let n := (cur.rest.takeWhile inAuthority).length
      (cur.advance n).read 0 = .ok atSign → n ≠ 0 →
        ¬ UserinfoTears S flags (cur.text.take n) (cur.text.drop n)) := by
  have hn := takeWhile_rest_le cur inAuthority
  have hlen : (cur.rest.takeWhile inAuthority).length ≠ 0 →
      st.offset + 3 * (cur.rest.takeWhile inAuthority).length ≤ maxlen := by
    intro hzero
    have hpos : 0 < cur.left := by
      by_contra hend
      apply hzero
      rw [UrlCursor.rest, Int.toNat_of_nonpos (Int.not_lt.mp hend)]
      rfl
    obtain ⟨t, rfl, ht⟩ := hroom hpos
    have hle := length_takeWhile_le inAuthority t
    rw [UrlCursor.on_rest]
    omega
  unfold beforeHostIn beforeHost
  dsimp only
  generalize (cur.rest.takeWhile inAuthority).length = n at hn hlen
  apply Settles.read
  · intro c hc
    by_cases hat : c = atSign
    · subst hat
      rw [if_pos rfl, if_pos rfl]
      refine Settles.congr ?_ (forall_prop_of_true hc)
      apply (userinfo_settles hn hlen).bind
      intro st₁ _
      by_cases hleft : 0 < (cur.advance n).left
      · rw [if_pos hleft, if_pos hleft]
        apply Settles.read
        · intro d _
          by_cases hagain : d = atSign ∧ flags.ignoreErrors = false
          · rw [if_pos hagain, if_pos hagain]
            exact .failed (e := .refused) (by decide) trivial
          · rw [if_neg hagain, if_neg hagain]
            exact .ok _
        · exact fun _ => trivial
      · rw [if_neg hleft, if_neg hleft]
        exact .ok _
    · rw [if_neg hat, if_neg hat]
      exact (Settles.ok _).congr (iff_of_true
        (fun h => absurd (Except.ok.inj (hc.symm.trans h)) hat) trivial)
  · intro hread h
    rw [hread] at h
    cases h

/-! ### Room from stage to stage -/

section Room
variable (maxlen spare offset : ℕ) (after : Bytes)

/-- The cursor stands in the text, with room for what is left of it and for `spare` bytes more. -/
def OnRoom (cur : UrlCursor) : Prop :=
  ∃ t, cur = .on t after ∧ offset + 3 * t.length + spare ≤ maxlen + 1

/-- Behind the text a stage may stand too. -/
structure BehindRoom (cur : UrlCursor) : Prop where
  bytes : offset + spare ≤ maxlen + 1
  room : RoomFor maxlen spare offset after cur

end Room

/-- What a stage finds in front of it. In front of the host there is room for ten bytes more, behind
it for nine. -/
def HasRoom (maxlen spare : ℕ) (after : Bytes) (x : UrlConfig) : Prop :=
  match x.stage with
  | .scheme | .hier => x.state.host = none ∧ OnRoom maxlen 9 x.state.offset after x.cur
  | .authority => x.state.host = none ∧ OnRoom maxlen spare x.state.offset after x.cur
  | .host info => x.state.host = none ∧ (∀ c ∈ info, InfoOn c) ∧
      OnRoom maxlen spare (x.state.offset + 3 * info.elim 0 fun c => c.rest.length) after x.cur
  | .path => OnRoom maxlen 9 x.state.offset after x.cur
  | .query => BehindRoom maxlen 5 x.state.offset after x.cur
  | .fragment => BehindRoom maxlen 4 x.state.offset after x.cur
  | .done => True

section Steps
variable {spare : ℕ}

theorem OnRoom.behind {offset : ℕ} (h : OnRoom maxlen spare offset after cur) :
    BehindRoom maxlen spare offset after cur := by
  obtain ⟨t, rfl, hlen⟩ := h
  exact ⟨by omega, fun _ => ⟨t, rfl, hlen⟩⟩

theorem RoomFor.mono {spare' offset offset' : ℕ} (h : RoomFor maxlen spare offset after cur)
    (hle : offset' + spare' ≤ offset + spare) : RoomFor maxlen spare' offset' after cur := by
  intro hpos
  obtain ⟨t, rfl, hlen⟩ := h hpos
  exact ⟨t, rfl, by omega⟩

theorem BehindRoom.mono {spare' offset offset' : ℕ} (h : BehindRoom maxlen spare offset after cur)
    (hle : offset' + spare' ≤ offset + spare) : BehindRoom maxlen spare' offset' after cur :=
  ⟨hle.trans h.bytes, h.room.mono hle⟩

/-- Behind a loop there is room for the text that it has left. -/
theorem whileLoop_room {σ : Type} {stop : Byte → Bool} {word : UrlWord σ} {s : σ}
    (hword : Threefold word) {t : Bytes} {o : LoopEnd σ}
    (h : whileLoop stop word s (.on t after) = .ok o) {offset : ℕ}
    (hroom : offset + 3 * t.length + spare ≤ maxlen + 1) :
    BehindRoom maxlen spare (offset + o.written.length) after
      ((UrlCursor.on t after).advance o.taken) := by
  obtain ⟨hwritten, hend, hstop⟩ := whileLoop_threefold hword h
  refine ⟨by omega, ?_⟩
  intro hpos
  cases hstopped : o.stopped with
  | false => exact absurd hpos (not_lt.mpr (hend hstopped))
  | true =>
    obtain ⟨c, p, hcur, -, hle⟩ := hstop hstopped
    exact ⟨c :: p, hcur, by rw [List.length_cons]; omega⟩

theorem parseScheme_room (hcolon : after.head? ≠ some colon)
    (hroom : OnRoom maxlen 9 st.offset after cur)
    (h : parseScheme S flags st cur = .ok (st', cur')) :
    st'.host = st.host ∧ OnRoom maxlen 9 st'.offset after cur' := by
  obtain ⟨t, rfl, hlen⟩ := hroom
  unfold parseScheme at h
  split at h
  · next scheme first n ho =>
    cases h
    have ht := scheme_text hcolon ho
    rw [doLoop_on _ ht] at ho
    obtain ⟨-, -, hstop⟩ := whileLoop_threefold schemeWord_threefold ho
    obtain ⟨c, p, hcur, -, hle⟩ := hstop rfl
    refine ⟨rfl, p, advance_next hcur, ?_⟩
    dsimp only at hle
    simp only [UrlState.put, List.length_append, List.length_singleton]
    omega
  · cases h
    exact ⟨rfl, t, rfl, hlen⟩
  · cases h
    exact ⟨rfl, t, rfl, hlen⟩
  · cases h

/-- A user info with its terminators needs one byte more than its text, if there is no password. -/
theorem parseUserinfo_room {b behind : Bytes} (hb : b ≠ [])
    (h : parseUserinfo S flags st (.on b behind) = .ok st') :
    st'.host = st.host ∧ st'.offset ≤ st.offset + 3 * b.length + 1 := by
  obtain ⟨user, huser, h⟩ := ok_eq_bind h
  rw [doLoop_on _ hb] at huser
  obtain ⟨hwritten, -, hstop⟩ := whileLoop_threefold userinfoWord_threefold huser
  dsimp only at h
  by_cases hstopped : user.stopped = true
  · obtain ⟨c, p, hcur, -, hle⟩ := hstop hstopped
    rw [if_pos hstopped, advance_next hcur] at h
    obtain ⟨pass, hpass, h⟩ := ok_eq_bind h
    have hmore := (whileLoop_threefold userinfoWord_threefold hpass).1
    cases h
    refine ⟨rfl, ?_⟩
    simp only [UrlState.put, List.length_append, List.length_singleton]
    omega
  · rw [if_neg hstopped] at h
    cases h
    refine ⟨rfl, ?_⟩
    simp only [UrlState.put, List.length_append, List.length_singleton]
    omega

theorem infoOn_part (part behind : Bytes) :
    ∀ c ∈ (if part = [] then none else some (UrlCursor.on part behind)), InfoOn c := by
  intro c hc
  split_ifs at hc with hnil
  · cases hc
  · cases hc
    exact ⟨part, behind, hnil, rfl⟩

theorem length_info (part behind : Bytes) :
    ((if part = [] then none else some (UrlCursor.on part behind)).elim 0 fun c => c.rest.length) =
      part.length := by
  by_cases hnil : part = []
  · rw [if_pos hnil, hnil]
    rfl
  · rw [if_neg hnil, Option.elim_some, UrlCursor.on_rest]

theorem beforeHost_room (hat : after.head? ≠ some atSign)
    (hroom : OnRoom maxlen spare st.offset after cur) {info : Option UrlCursor}
    (h : beforeHost S flags st cur = .ok (st', info, cur')) :
    st'.host = st.host ∧ (∀ c ∈ info, InfoOn c) ∧
      OnRoom maxlen spare (st'.offset + 3 * info.elim 0 fun c => c.rest.length) after cur' := by
  obtain ⟨t, rfl, hlen⟩ := hroom
  obtain ⟨part, hpart, ⟨left, rfl, hleft, hplain⟩ | ⟨host, left, rfl, hhost, hleft⟩⟩ :=
    authority_split flags t
  · have hboth : (left ++ after).head? ≠ some atSign := by
      cases left with
      | nil => exact hat
      | cons c left => exact hplain
    rw [beforeHost_plain hpart hleft hboth] at h
    obtain ⟨_, -, h⟩ := ok_eq_bind h
    cases h
    refine ⟨rfl, infoOn_part _ _, left, rfl, ?_⟩
    rw [length_info]
    rw [List.length_append] at hlen
    omega
  · rw [beforeHost_user hpart hhost hleft] at h
    obtain ⟨st₁, huser, h⟩ := ok_eq_bind h
    obtain ⟨c, -, h⟩ := ok_eq_bind h
    by_cases hagain : c = atSign ∧ flags.ignoreErrors = false
    · rw [if_pos hagain] at h
      cases h
    rw [if_neg hagain] at h
    cases h
    have hfront : st'.host = st.host ∧ st'.offset ≤ st.offset + 3 * part.length + 1 := by
      by_cases hnil : part = []
      · rw [if_pos hnil] at huser
        cases huser
        exact ⟨rfl, by omega⟩
      · rw [if_neg hnil] at huser
        exact parseUserinfo_room hnil huser
    refine ⟨hfront.1, infoOn_part _ _, left, rfl, ?_⟩
    rw [length_info]
    simp only [List.length_append, List.length_cons] at hlen
    omega

theorem hostOf_room (hidn : flags.toidn = false) (hhost : st.host = none) {info : Option UrlCursor}
    (hinfo : ∀ c ∈ info, InfoOn c) (hname : ∀ c ∈ info, c.text.head? ≠ some 91)
    (h : hostOf S flags st info = .ok st') : st'.offset ≤
      st.offset + (3 * info.elim 0 fun c => c.rest.length) + 1 := by
  cases info with
  | none =>
    cases h
    omega
  | some info =>
    obtain ⟨b, behind, hb, rfl⟩ := hinfo info rfl
    change parseHostinfo S flags st (.on b behind) = _ at h
    rw [parseHostinfo_name hidn hhost (hname _ rfl)] at h
    obtain ⟨c, -, h⟩ := ok_eq_bind h
    obtain ⟨o, ho, rfl⟩ := ok_eq_map h
    have hlen := hostLoop_length hb ho
    simp only [UrlState.put, List.length_append, List.length_singleton, Option.elim_some,
      UrlCursor.on_rest]
    omega

/-- With no text left there is none behind either. -/
theorem RoomFor.end {offset : ℕ} (hend : ¬ 0 < cur.left) (n : ℕ) :
    RoomFor maxlen spare offset after (cur.advance n) := by
  intro hpos
  change 0 < cur.left - (n : ℤ) at hpos
  omega

theorem parsePath_room (hroom : OnRoom maxlen 9 st.offset after cur)
    (h : parsePath S flags st cur = .ok (st', cur')) :
    BehindRoom maxlen 5 st'.offset after cur' := by
  have hsame : BehindRoom maxlen 5 st.offset after cur := hroom.behind.mono (Nat.le_add_right _ 4)
  obtain ⟨t, rfl, hlen⟩ := hroom
  obtain ⟨c, hc, h⟩ := ok_eq_bind h
  by_cases hnul : c = nul
  · rw [if_pos hnul] at h
    cases h
    exact hsame
  rw [if_neg hnul] at h
  obtain ⟨o, ho, h⟩ := ok_eq_bind h
  by_cases htaken : o.taken = 0
  · rw [if_pos htaken] at h
    cases h
    exact hsame
  rw [if_neg htaken] at h
  cases h
  have hoffset : ({ st with path := some st.offset }.put (o.written ++ [nul])).offset =
      st.offset + o.written.length + 1 := by
    simp only [UrlState.put, List.length_append, List.length_singleton]
    rfl
  rw [hoffset]
  by_cases ht : t = []
  · subst ht
    have hend : ¬ 0 < (UrlCursor.on [] after).left := lt_irrefl 0
    have hshort : o.written.length ≤ 3 := by
      rw [doLoop, if_neg hend, hc] at ho
      dsimp only [bind, Except.bind] at ho
      split_ifs at ho
      · cases ho
        exact Nat.zero_le 3
      · obtain ⟨w, hw, rfl⟩ := ok_eq_map ho
        exact pathWord_kinds.short hc rfl hw
    rw [List.length_nil] at hlen
    exact ⟨by omega, .end hend _⟩
  · rw [doLoop_on _ ht] at ho
    exact (whileLoop_room pathWord_threefold ho hlen).mono (by omega)

theorem parseQuery_room (hroom : BehindRoom maxlen 5 st.offset after cur)
    (h : parseQuery S flags st cur = .ok (st', cur')) :
    BehindRoom maxlen 4 st'.offset after cur' := by
  obtain ⟨c, -, h⟩ := ok_eq_bind h
  by_cases hquestion : c ≠ question
  · rw [if_pos hquestion] at h
    cases h
    exact hroom.mono (Nat.le_succ _)
  rw [if_neg hquestion] at h
  obtain ⟨o, ho, h⟩ := ok_eq_bind h
  cases h
  have hoffset : ({ st with query := some st.offset }.put (o.written ++ [nul])).offset =
      st.offset + o.written.length + 1 := by
    simp only [UrlState.put, List.length_append, List.length_singleton]
    rfl
  rw [hoffset]
  by_cases hpos : 0 < cur.left
  · obtain ⟨d, t, rfl, hlen⟩ := hroom.room.cons hpos
    have hnext : (UrlCursor.on (d :: t) after).advance 1 = .on t after :=
      advance_next (UrlCursor.advance_zero _)
    rw [hnext] at ho
    rw [Nat.add_comm o.taken, ← UrlCursor.advance_advance, hnext]
    have hbehind : BehindRoom maxlen 8 (st.offset + o.written.length) after
        ((UrlCursor.on t after).advance o.taken) :=
      whileLoop_room (textWord_threefold .query) ho (by omega)
    exact hbehind.mono (by omega)
  · have hend : ¬ 0 < (cur.advance 1).left := by
      change ¬ 0 < cur.left - (1 : ℕ)
      omega
    rw [whileLoop_end hend] at ho
    cases ho
    have hbytes := hroom.bytes
    exact ⟨by simp only [List.length_nil]; omega, .end hpos _⟩

/-- What each stage needs of room for the next one. -/
theorem HasRoom.step (hidn : flags.toidn = false) (hcolon : after.head? ≠ some colon)
    (hat : after.head? ≠ some atSign) {x y : UrlConfig} (hx : HasRoom maxlen spare after x)
    (hname : ∀ info ∈ x.stage.info, info.text.head? ≠ some 91)
    (hle : spare ≤ 10) (hspare : 10 ≤ spare ∨ 4 ≤ stagesLeft y.stage)
    (hstep : urlStep S flags x = .ok y) :
    HasRoom maxlen spare after y := by
  obtain ⟨stage, st, cur⟩ := x
  cases stage with
  | scheme =>
    obtain ⟨hhost, hroom⟩ := hx
    obtain ⟨⟨st', cur'⟩, hscheme, rfl⟩ := ok_eq_map hstep
    obtain ⟨hsame, hroom'⟩ := parseScheme_room hcolon hroom hscheme
    exact ⟨hsame.trans hhost, hroom'⟩
  | hier =>
    obtain ⟨hhost, hroom⟩ := hx
    obtain ⟨c, -, hstep⟩ := ok_eq_bind hstep
    split_ifs at hstep with hslash
    · obtain ⟨d, -, hstep⟩ := ok_eq_bind hstep
      split_ifs at hstep
      · cases hstep
        obtain ⟨t, hcur, hlen⟩ := hroom
        change cur = .on t after at hcur
        subst hcur
        have hlong := hslash.2
        rw [UrlCursor.on_left] at hlong
        refine ⟨hhost, t.drop 2, UrlCursor.advance_on _ _ (by omega), ?_⟩
        rw [List.length_drop]
        dsimp only at hlen ⊢
        omega
      · cases hstep
        exact hroom
    · cases hstep
      exact hroom
  | authority =>
    obtain ⟨hhost, hroom⟩ := hx
    obtain ⟨⟨st', info, cur'⟩, hbefore, rfl⟩ := ok_eq_map hstep
    obtain ⟨hsame, hinfo, hroom'⟩ := beforeHost_room hat hroom hbefore
    exact ⟨hsame.trans hhost, hinfo, hroom'⟩
  | host info =>
    obtain ⟨hhost, hinfo, hroom⟩ := hx
    obtain ⟨st', hok, rfl⟩ := ok_eq_map hstep
    have hwritten := hostOf_room hidn hhost hinfo hname hok
    have hten := hspare.resolve_right (by simp [stagesLeft])
    obtain ⟨t, hcur, hlen⟩ := hroom
    refine ⟨t, hcur, ?_⟩
    dsimp only at hwritten hlen ⊢
    omega
  | path =>
    obtain ⟨⟨st', cur'⟩, hpath, rfl⟩ := ok_eq_map hstep
    exact parsePath_room hx hpath
  | query =>
    obtain ⟨⟨st', cur'⟩, hquery, rfl⟩ := ok_eq_map hstep
    exact parseQuery_room hx hquery
  | fragment =>
    obtain ⟨o, -, rfl⟩ := ok_eq_map hstep
    trivial
  | done =>
    cases hstep
    trivial

end Steps

/-! ### Runs -/

/-- What `php_http_url_parse` or `php_http_url_parse_authority` comes to on a text, with its writes
checked. -/
def EntryReaches (S : UrlSystem) (flags : UrlFlags) (entry : UrlEntry) (str after : Bytes)
    (x : UrlConfig) : Prop :=
  Steps.Reaches (urlStepIn S flags (entry.maxlen str.length))
    ⟨entry.stage, urlStart, .on str after⟩ x ∧
    entry.left < stagesLeft x.stage

theorem hier_whole : urlStep S flags ⟨.hier, st, cur⟩ ≠ .error .runaway := by
  intro h
  rcases error_eq_bind.mp h with h | ⟨c, -, h⟩
  · cases read_overread h
  · split_ifs at h
    rcases error_eq_bind.mp h with h | ⟨d, -, h⟩
    · cases read_overread h
    · split_ifs at h

/-- With that room a stage writes behind the buffer exactly if its text does not fit. -/
theorem HasRoom.settles (hidn : flags.toidn = false) {spare : ℕ} (hone : 1 ≤ spare) {x : UrlConfig}
    (hx : HasRoom maxlen spare after x) (hname : ∀ info ∈ x.stage.info, info.text.head? ≠ some 91) :
    Settles (urlStepIn S flags maxlen x) (urlStep S flags x) (StageFits S flags maxlen x) := by
  obtain ⟨stage, st, cur⟩ := x
  cases stage with
  | scheme =>
    obtain ⟨-, t, hcur, hlen⟩ := hx
    change cur = .on t after at hcur
    subst hcur
    dsimp only at hlen
    exact (parseScheme_settles (by omega) (by omega)).map _
  | hier => exact .of_eq rfl (iff_of_false hier_whole (not_not.mpr trivial))
  | authority =>
    exact (beforeHost_settles (hx.2.behind.mono (Nat.add_le_add_left hone _)).room).map _
  | host info =>
    obtain ⟨hhost, hinfo, t, -, hlen⟩ := hx
    cases info with
    | none => exact (Settles.ok _).congr (iff_of_true (fun _ hc => nomatch hc) trivial)
    | some info =>
      obtain ⟨b, behind, hb, rfl⟩ := hinfo info rfl
      have hroom : st.offset + 3 * b.length ≤ maxlen := by
        rw [Option.elim_some, UrlCursor.on_rest] at hlen
        dsimp only at hlen
        omega
      have hhead : b.head? ≠ some 91 := by
        have hfirst := hname _ rfl
        rwa [UrlCursor.on_text, List.head?_append_of_ne_nil _ hb] at hfirst
      refine ((parseHostinfo_settles hidn hhost hb hhead hroom).map _).congr ?_
      simp [StageFits]
  | path =>
    have hbytes : st.offset + 9 ≤ maxlen + 1 := hx.behind.bytes
    have hspare : st.offset + 3 ≤ maxlen := by omega
    exact (parsePath_settles (hx.behind.room.mono (Nat.add_le_add_left (by decide) _)) hspare).map _
  | query =>
    have hbytes : st.offset + 5 ≤ maxlen + 1 := hx.bytes
    have hspare : st.offset ≤ maxlen := by omega
    exact (parseQuery_settles (hx.room.mono (Nat.le_add_right _ 5)) hspare).map _
  | fragment =>
    have hbytes : st.offset + 4 ≤ maxlen + 1 := hx.bytes
    have hspare : st.offset + 3 ≤ maxlen := by omega
    exact (parseFragment_settles (hx.room.mono (Nat.le_add_right _ 4)) hspare).map _
  | done => exact .ok _

theorem urlStepIn_left {x y : UrlConfig} (h : urlStepIn S flags maxlen x = .ok y) :
    stagesLeft y.stage ≤ stagesLeft x.stage := by
  obtain ⟨stage, st, cur⟩ := x
  cases stage with
  | hier =>
    have hstep : urlStep S flags ⟨.hier, st, cur⟩ = .ok y := checked_ok h
    exact (urlStep_left hstep (by simp)).le
  | done =>
    cases h
    exact le_rfl
  | _ =>
    obtain ⟨o, -, rfl⟩ := ok_eq_map h
    simp [stagesLeft]

/-- The hosts that are come to do not begin with `[`. -/
def HostsNamed (S : UrlSystem) (flags : UrlFlags) (entry : UrlEntry) (str after : Bytes) : Prop :=
  ∀ x, EntryReaches S flags entry str after x → ∀ info ∈ x.stage.info, info.text.head? ≠ some 91

section Runs
variable {entry : UrlEntry} {str : Bytes} (hidn : flags.toidn = false)
    (hname : HostsNamed S flags entry str after)
  (hcolon : after.head? ≠ some colon) (hat : after.head? ≠ some atSign)
include hidn hname hcolon hat

theorem EntryReaches.hasRoom {x : UrlConfig} (h : EntryReaches S flags entry str after x) :
    HasRoom (entry.maxlen str.length) entry.spare after x := by
  obtain ⟨hreach, hleft⟩ := h
  induction hreach with
  | refl =>
    cases entry with
    | url => exact ⟨rfl, str, rfl, by simp [urlStart, UrlEntry.maxlen]⟩
    | authority => exact ⟨rfl, str, rfl, by simp [urlStart, UrlEntry.maxlen, UrlEntry.spare]⟩
  | @tail x y hreach hstep ih =>
    have hx := hleft.trans_le (urlStepIn_left hstep)
    have hnamed := hname x ⟨hreach, hx⟩
    have hok := ((ih hx).settles hidn entry.one_le_spare hnamed).ok_of hstep
    apply (ih hx).step hidn hcolon hat hnamed entry.spare_le_ten
    · cases entry with
      | url => exact .inl le_rfl
      | authority => exact .inr hleft
    · exact hok

/-- All that is written is in the buffer exactly if the text fits in all stages. -/
theorem writes_fit_iff :
    (∀ x, EntryReaches S flags entry str after x → urlStepIn S flags (entry.maxlen str.length) x ≠
      .error .overrun) ↔
      ∀ x, EntryReaches S flags entry str after x →
        StageFits S flags (entry.maxlen str.length) x := by
  have hstage : ∀ x, EntryReaches S flags entry str after x →
      (urlStepIn S flags (entry.maxlen str.length) x ≠ .error .overrun ↔
        StageFits S flags (entry.maxlen str.length) x) := by
    intro x hx
    exact ((hx.hasRoom hidn hname hcolon hat).settles hidn entry.one_le_spare (hname x hx)).iff
  exact forall_congr' fun x => forall_congr' fun hx => hstage x hx

end Runs

/-- A list that no step leaves has all that is come to. -/
theorem EntryReaches.mem {entry : UrlEntry} {str : Bytes} {xs : List UrlConfig}
    (hstart : ⟨entry.stage, urlStart, .on str after⟩ ∈ xs)
    (hstep : ∀ x ∈ xs, ∀ y ∈ (urlStepIn S flags (entry.maxlen str.length) x).toOption, y ∈ xs)
    {x : UrlConfig} (h : EntryReaches S flags entry str after x) : x ∈ xs := by
  apply h.1.invariant (I := fun x => x ∈ xs)
  · intro x y hx hy
    exact hstep x hx y (by rw [hy]; rfl)
  · exact hstart

/-- What `//h` comes to -/
def hostOnly : List UrlConfig :=
  [⟨.scheme, urlStart, .on (ascii "//h") [nul]⟩, ⟨.hier, urlStart, .on (ascii "//h") [nul]⟩,
    ⟨.authority, urlStart, .on (ascii "h") [nul]⟩, ⟨.host (some (.on (ascii "h") [nul])), urlStart,
      .on [] [nul]⟩] ++
    [.path, .query, .fragment, .done].map fun stage =>
      ⟨stage, { urlStart with buffer := ascii "h" ++ [nul], offset := 2, host := some 0 },
        .on [] [nul]⟩

/-- `//h`, with all of `PHP_HTTP_URL_STDFLAGS` but `PHP_HTTP_URL_PARSE_TOIDN` -/
theorem writes_fit_host :
    (∀ x, EntryReaches plainSystem 0x232003 .url (ascii "//h") [nul] x →
      urlStepIn plainSystem 0x232003 (UrlEntry.maxlen 3 .url) x ≠ .error .overrun) ∧
    ∀ x, EntryReaches plainSystem 0x232003 .url (ascii "//h") [nul] x →
      StageFits plainSystem 0x232003 (UrlEntry.maxlen 3 .url) x := by
  have hmem : ∀ x, EntryReaches plainSystem 0x232003 .url (ascii "//h") [nul] x → x ∈ hostOnly :=
    fun x hx => hx.mem (by decide) (by decide)
  have hnamed : ∀ x ∈ hostOnly, ∀ info ∈ x.stage.info, info.text.head? ≠ some 91 := by decide
  have hwrites : ∀ x ∈ hostOnly, urlStepIn plainSystem 0x232003 (UrlEntry.maxlen 3 .url) x ≠
      .error .overrun := by
    decide
  have hall : ∀ x, EntryReaches plainSystem 0x232003 .url (ascii "//h") [nul] x →
      urlStepIn plainSystem 0x232003 (UrlEntry.maxlen 3 .url) x ≠ .error .overrun :=
        fun x hx => hwrites x (hmem x hx)
  exact ⟨hall, (writes_fit_iff (by decide) (fun x hx => hnamed x (hmem x hx)) (by decide)
    (by decide)).mp hall⟩

/-- The NUL behind a text, and the bytes that its block of memory has behind that. -/
def padding : Bytes := List.replicate 8 nul

/-- What `#` comes to -/
def hashOnly : List UrlConfig :=
  [.scheme, .hier, .path, .query, .fragment].map fun stage =>
    ⟨stage, urlStart, .on (ascii "#") padding⟩

/-- At the end of `#` the fragment takes a character that is cut off: nothing is left of the text
for `mbrtowc`. -/
theorem writes_overrun : UrlFlags.toidn 0x210000 = false ∧
    HostsNamed plainSystem 0x210000 .url (ascii "#") padding ∧
    ∃ x, EntryReaches plainSystem 0x210000 .url (ascii "#") padding x ∧
      urlStepIn plainSystem 0x210000 (UrlEntry.maxlen 1 .url) x = .error .overrun := by
  have hnamed : ∀ x ∈ hashOnly, ∀ info ∈ x.stage.info, info.text.head? ≠ some 91 := by decide
  refine ⟨by decide, ?_, ⟨.fragment, urlStart, .on (ascii "#") padding⟩, ⟨?_, by decide⟩, by decide⟩
  · intro x hx
    exact hnamed x (hx.mem (by decide) (by decide))
  · exact Steps.reaches_of_run (n := 4) (by decide)

end UrlScanner

end ExtHttp
