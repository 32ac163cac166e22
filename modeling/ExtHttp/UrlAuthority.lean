import ExtHttp.UrlCuts

/-!
# The authority of a URL

What `parse_userinfo`, `parse_hostinfo` and `parse_authority` find, for any flags that do not ignore
errors.
-/
namespace ExtHttp
open Scan UrlState

/-- The libraries as the standard flags use them. -/
def UrlSystem.libs (S : UrlSystem) : UrlLibs := ⟨S.inet6, S.idna .std, S.isualnum⟩

/-- The authority at the beginning of a text -/
def authorityText (t : Bytes) : Bytes := t.takeWhile fun c => inAuthority c || c = atSign

/-- The user info of an authority -/
def givenUserinfo (auth : Bytes) : Option Bytes :=
  if atSign ∈ auth then some (auth.takeWhile (· ≠ atSign)) else none

/-- The host info of an authority -/
def givenHostinfo (auth : Bytes) : Bytes :=
  if atSign ∈ auth then (auth.dropWhile (· ≠ atSign)).tail else auth

/-- What is behind a literal address. -/
def behindLiteral (hostinfo : Bytes) : Bytes :=
  if hostinfo.head? = some 91 then (hostinfo.tail.dropWhile (· ≠ 93)).tail else hostinfo

section
variable (S : UrlSystem) (flags : UrlFlags)

/-- The name of a host as the flags have it converted. -/
def idnHost (host : Bytes) : Option Bytes :=
  if flags.toidn then match S.idna flags with
    | none => some host
    | some idna => idna host
  else some host

/-- The text of a port -/
def portText (hostinfo : Bytes) : Option Bytes := (urlCut S flags (behindLiteral hostinfo)).behind

/-- The name of a host -/
def hostName (hostinfo : Bytes) : Option Bytes :=
  if hostinfo.head? = some 91 then (ip6Text S.libs hostinfo).map (·.1)
  else some ((urlCut S flags hostinfo).raw ++ portTriples 0 ((portText S flags hostinfo).getD []))

/-- The number of a port -/
def portValue (hostinfo : Bytes) : ℕ :=
  (portDigits 0 ((portText S flags hostinfo).getD [])).foldl portStep 0

/-- The strings of a user info in front of an `@`. -/
def userStrings (userinfo : Bytes) : Bytes × Option Bytes :=
  let cut := urlCut S flags userinfo
  let string (cut : UrlCut) := cut.text ++ [atSign].take cut.excess
  (string cut, cut.behind.map fun pass => string (urlCut S flags pass))

end

variable {S : UrlSystem} {flags : UrlFlags} {st st' : UrlState} {u : HttpUrl}

namespace UrlScanner

/-- The cursor behind the `:` at which a loop has stopped. -/
theorem advance_behind {b p : Bytes} (h : (urlCut S flags b).behind = some p) (after : Bytes) :
    (UrlCursor.on b after).advance (b.length - (colon :: p).length + 0 + 1) = .on p after := by
  have htext := urlCut_text S flags b
  rw [h] at htext
  obtain ⟨raw, rfl⟩ : ∃ raw, b = raw ++ colon :: p := ⟨_, htext⟩
  have htaken : (raw ++ colon :: p).length - (colon :: p).length + 0 + 1 = raw.length + 1 := by
    rw [List.length_append]
    omega
  rw [htaken, UrlCursor.advance_on _ _ (by simp), ← List.drop_drop, List.drop_left]
  rfl

theorem hostLoop_ok (hignore : flags.ignoreErrors = false) {port port' : ℕ} {b after w : Bytes}
    (h : hostLoop S flags port (.on b after) = .ok (w, port')) :
    (∃ k, w = (urlCut S flags b).raw ++ portTriples 0 ((urlCut S flags b).behind.getD []) ++
      after.take k) ∧
      port' = (portDigits 0 ((urlCut S flags b).behind.getD [])).foldl portStep port ∧
      ∀ c ∈ portDigits 0 ((urlCut S flags b).behind.getD []), isDigit c = true := by
  unfold hostLoop at h
  by_cases hb : b = []
  · subst hb
    rw [if_pos (by rfl)] at h
    cases h
    exact ⟨⟨0, rfl⟩, rfl, by simp [urlCut, cutFrom, portDigits]⟩
  · have hleft : (UrlCursor.on b after).left ≠ 0 := by simpa using hb
    rw [if_neg hleft, doLoop_on _ hb] at h
    obtain ⟨host, hhost, h⟩ := ok_eq_bind h
    obtain ⟨p, hp, rfl⟩ := whileLoop_on hhost
    obtain ⟨hrest, hexcess, -, hwritten⟩ := host_of_scan hignore hp
    cases hbehind : (urlCut S flags b).behind with
    | none =>
      rw [hbehind] at hrest
      rw [if_neg (by simp [hrest, delimited])] at h
      cases h
      refine ⟨⟨(urlCut S flags b).excess, ?_⟩, rfl, by simp [portDigits]⟩
      rw [hwritten]
      simp [portTriples]
    | some pt =>
      have hzero : (urlCut S flags b).excess = 0 := by
        by_contra hne
        have := rest_nil hp (by omega)
        rw [hrest, hbehind] at this
        cases this
      rw [hbehind] at hrest
      rw [if_pos (by simp [hrest, delimited])] at h
      obtain ⟨o, ho, h⟩ := ok_eq_bind h
      dsimp only at ho
      rw [hrest, hexcess, hzero] at ho
      change whileLoop never (portWord flags) port
        ((UrlCursor.on b after).advance (b.length - (colon :: pt).length + 0 + 1)) = _ at ho
      rw [advance_behind hbehind] at ho
      obtain ⟨q, hq, rfl⟩ := whileLoop_on ho
      obtain ⟨⟨k, hw⟩, hstate, hdigits⟩ := port_of_scan hignore hq
      cases h
      refine ⟨⟨k, ?_⟩, hstate, hdigits⟩
      rw [hwritten, hw, hzero]
      simp

theorem shows_user (hs : st.Shows u) (w : Bytes) :
    ({ st with user := some st.offset }.put (w ++ [nul])).Shows
      { u with user := some (cString w) } :=
  hs.component w rfl (by simp [marks, UrlState.put]; grind) fun hu hr => by
    rw [← hu, ← hr]
    rfl

theorem shows_pass (hs : st.Shows u) (w : Bytes) :
    ({ st with pass := some st.offset }.put (w ++ [nul])).Shows
      { u with pass := some (cString w) } :=
  hs.component w rfl (by simp [marks, UrlState.put]; grind) fun hu hr => by
    rw [← hu, ← hr]
    rfl

theorem take_atSign {k : ℕ} (h : k ≤ 1) (rest : Bytes) :
    (atSign :: rest).take k = [atSign].take k := by
  interval_cases k <;> rfl

/-- The strings of the user info come behind the components that are there. -/
theorem parseUserinfo_ok (hignore : flags.ignoreErrors = false) (hs : st.Shows u)
    (hpass : u.pass = none) {b rest : Bytes} (hb : b ≠ [])
    (h : parseUserinfo S flags st (.on b (atSign :: rest)) = .ok st') :
    st'.Shows { u with
      user := some (cString (userStrings S flags b).1)
      pass := (userStrings S flags b).2.map cString } := by
  have hat : (atSign :: rest).head? ≠ some percent :=
    fun he => absurd (Option.some.inj he) (by decide)
  unfold parseUserinfo at h
  rw [doLoop_on _ hb] at h
  obtain ⟨user, huser, h⟩ := ok_eq_bind h
  obtain ⟨p, hp, rfl⟩ := whileLoop_on huser
  obtain ⟨hrest, hexcess, hone, hwritten⟩ := userinfo_of_scan hignore (fun _ => isColon_eq) hp
  have huser := shows_user hs p.written
  have hstring : (userStrings S flags b).1 = p.written := by
    rw [hwritten, take_atSign (hexcess ▸ hone hat)]
    rfl
  have hsecond : (userStrings S flags b).2 = (urlCut S flags b).behind.map fun pass =>
    (urlCut S flags pass).text ++ [atSign].take (urlCut S flags pass).excess := rfl
  rw [hstring, hsecond]
  cases hbehind : (urlCut S flags b).behind with
  | none =>
    rw [hbehind] at hrest
    rw [if_neg (by simp [hrest, delimited])] at h
    cases h
    rw [Option.map_none, Option.map_none, ← hpass]
    exact huser
  | some pt =>
    have hzero : (urlCut S flags b).excess = 0 := by
      by_contra hne
      have := rest_nil hp (by omega)
      rw [hrest, hbehind] at this
      cases this
    rw [hbehind] at hrest
    rw [if_pos (by simp [hrest, delimited])] at h
    obtain ⟨o, ho, h⟩ := ok_eq_bind h
    dsimp only at ho
    rw [hrest, hexcess, hzero] at ho
    change whileLoop never (userinfoWord S flags) ()
      ((UrlCursor.on b (atSign :: rest)).advance (b.length - (colon :: pt).length + 0 +
        1)) = _ at ho
    rw [advance_behind hbehind] at ho
    obtain ⟨q, hq, rfl⟩ := whileLoop_on ho
    obtain ⟨-, hexcess', hone', hwritten'⟩ := userinfo_of_scan hignore (fun _ hs => by cases hs) hq
    cases h
    rw [Option.map_some, Option.map_some, ← take_atSign (hexcess' ▸ hone' hat) rest, ← hwritten']
    exact shows_pass huser q.written

/-! ### The host -/

/-- The components in front of the offset do not care for the rest of the buffer. -/
theorem url_of_buffer (hs : st.Shows u) {buffer : Bytes} (hb : st.laid <+: buffer) (offset : ℕ) :
    ({ st with buffer := buffer, offset := offset } : UrlState).url = u := by
  have hmap : ∀ m : Option ℕ, (∀ i ∈ m, i ∈ st.marks) →
      m.map ({ st with buffer := buffer, offset := offset } : UrlState).read = m.map st.read := by
    intro m hm
    cases m with
    | none => rfl
    | some i => exact congrArg some (read_of_laid (hs.sealed i (hm i rfl)) hb)
  rw [← hs.url]
  unfold url
  dsimp only
  rw [hmap st.scheme, hmap st.user, hmap st.pass, hmap st.host, hmap st.path, hmap st.query,
    hmap st.fragment]
  all_goals
    intro i hi
    simp [marks, Option.mem_def.mp hi]

section
variable (S flags st) (b after : Bytes)

/-- What `parse_hostinfo` lays down: the host, what it writes behind it, the port, and what it takes
for the length of the host. -/
inductive HostLaid : Bytes → Bytes → ℕ → ℕ → Prop
  | literal {v rest w : Bytes} {port : ℕ} (hb : b.head? = some 91)
    (hip : ip6Text S.libs b = some (v, rest))
      (hloop : hostLoop S flags st.port (.on rest after) = .ok (w, port)) :
        HostLaid v w port st.offset
  | name {v : Bytes} {port : ℕ}
      (hb : b.head? = some 91 → ip6Text S.libs b = none ∧ flags.ignoreErrors = true)
      (hloop : hostLoop S flags st.port (.on b after) = .ok (v, port)) : HostLaid v [] port v.length

end

/-- The state before the host is converted. -/
def hostState (st : UrlState) (v w : Bytes) (port : ℕ) : UrlState :=
  { st.put (v ++ nul :: w) with host := some st.offset, port := port }

theorem parseIp6_on (b after : Bytes) : parseIp6 S (.on b after) =
    .ok ((ip6Text S.libs b).map fun o => (o.1, b.length - o.2.length)) := by
  have htext : (UrlCursor.on b after).text.take (UrlCursor.on b after).size = b := by
    rw [UrlCursor.on_size, UrlCursor.on_text, List.take_left]
  have hthere : ¬ (UrlCursor.on b after).text.length < (UrlCursor.on b after).size := by
    rw [UrlCursor.on_size, UrlCursor.on_text, List.length_append]
    omega
  have hsplit := congrArg List.length (List.takeWhile_append_dropWhile (p := (· ≠ 93))
    (l := b.tail))
  rw [List.length_append, List.length_tail] at hsplit
  unfold parseIp6 ip6Text
  dsimp only
  rw [htext, if_neg hthere]
  cases hrest : b.tail.dropWhile (· ≠ 93) with
  | nil =>
    rw [hrest, List.length_nil] at hsplit
    rw [if_neg (by omega)]
    rfl
  | cons d rest =>
    rw [hrest, List.length_cons] at hsplit
    have hlen : b.length - rest.length = (b.tail.takeWhile (· ≠ 93)).length + 2 := by omega
    rw [if_pos (by omega), Option.map_map]
    refine congrArg Except.ok ?_
    simp only [UrlSystem.libs, Function.comp_def, hlen]

theorem advance_suffix (w rest after : Bytes) :
    (UrlCursor.on (w ++ rest) after).advance ((w ++ rest).length - rest.length) =
      .on rest after := by
  rw [List.length_append, Nat.add_sub_cancel, UrlCursor.advance_on _ _ (by simp), List.drop_left]

theorem ip6Text_suffix {L : UrlLibs} {b v rest : Bytes} (h : ip6Text L b = some (v, rest)) :
    ∃ front, b = front ++ rest := by
  have hsplit := List.takeWhile_append_dropWhile (p := (· ≠ 93)) (l := b.tail)
  unfold ip6Text at h
  cases hrest : b.tail.dropWhile (· ≠ 93) with
  | nil =>
    rw [hrest] at h
    cases h
  | cons d behind =>
    rw [hrest] at h hsplit
    obtain ⟨addr, -, heq⟩ := Option.map_eq_some_iff.mp h
    cases heq
    refine ⟨b.take 1 ++ b.tail.takeWhile (· ≠ 93) ++ [d], ?_⟩
    conv_lhs => rw [← List.take_append_drop 1 b, List.drop_one, ← hsplit]
    simp

theorem parseHostRest_none (hhost : st.host = none) {cur : UrlCursor}
    (h : parseHostRest S flags st.offset st cur = .ok st') :
    ∃ v port, hostLoop S flags st.port cur = .ok (v, port) ∧
      (if flags.toidn then parseIdna S flags (hostState st v [] port) st.offset v.length
        else .ok (hostState st v [] port)) = .ok st' := by
  obtain ⟨⟨v, port⟩, hloop, h⟩ := ok_eq_bind h
  refine ⟨v, port, hloop, ?_⟩
  have hlen : (st.put v).offset - st.offset = v.length := Nat.add_sub_cancel_left ..
  have hstate : hostState st v [] port =
      ({ st.put v with host := some st.offset, port := port } : UrlState).put [nul] := by
    unfold hostState
    rw [← put_put]
    rfl
  simp only [show (st.put v).host = none from hhost, hlen] at h
  rwa [hstate]

theorem parseHostRest_some {v : Bytes} {cur : UrlCursor} {st₁ : UrlState}
    (hst₁ : st₁ = { st with host := some st.offset }.put (v ++ [nul]))
    (h : parseHostRest S flags st.offset st₁ cur = .ok st') :
    ∃ w port, hostLoop S flags st.port cur = .ok (w, port) ∧
      (if flags.toidn then parseIdna S flags (hostState st v w port) st.offset st.offset
        else .ok (hostState st v w port)) = .ok st' := by
  obtain ⟨⟨w, port⟩, hloop, h⟩ := ok_eq_bind h
  subst hst₁
  refine ⟨w, port, hloop, ?_⟩
  have hstate : hostState st v w port =
      { ({ st with host := some st.offset }.put (v ++ [nul])).put w with port := port } := by
    unfold hostState
    rw [put_put, List.append_assoc]
    rfl
  rw [hstate]
  exact h

theorem parseHostinfo_laid (hhost : st.host = none) {b after : Bytes} (hb : b ≠ [])
    (h : parseHostinfo S flags st (.on b after) = .ok st') :
    ∃ v w port len, HostLaid S flags st b after v w port len ∧
      (if flags.toidn then parseIdna S flags (hostState st v w port) st.offset len
        else .ok (hostState st v w port)) = .ok st' := by
  obtain ⟨c, b, rfl⟩ := List.exists_cons_of_ne_nil hb
  have hname : ((c :: b).head? = some 91 → ip6Text S.libs (c :: b) = none ∧
      flags.ignoreErrors = true) →
      parseHostRest S flags st.offset st (.on (c :: b) after) = .ok st' →
      ∃ v w port len, HostLaid S flags st (c :: b) after v w port len ∧
        (if flags.toidn then parseIdna S flags (hostState st v w port) st.offset len
          else .ok (hostState st v w port)) = .ok st' := by
    intro hlit hrest
    obtain ⟨v, port, hloop, hidn⟩ := parseHostRest_none hhost hrest
    exact ⟨v, [], port, v.length, .name hlit hloop, hidn⟩
  obtain ⟨_, ⟨⟩, h⟩ := ok_eq_bind h
  by_cases hc : c = 91
  · rw [if_pos hc] at h
    obtain ⟨o, ho, h⟩ := ok_eq_bind h
    rw [parseIp6_on] at ho
    cases hip : ip6Text S.libs (c :: b) with
    | none =>
      rw [hip] at ho
      cases ho
      by_cases hignore : flags.ignoreErrors = true
      · exact hname (fun _ => ⟨hip, hignore⟩) ((if_pos hignore).symm.trans h)
      · cases (if_neg hignore).symm.trans h
    | some o =>
      rw [hip] at ho
      cases ho
      obtain ⟨v, rest⟩ := o
      obtain ⟨w, port, hloop, hidn⟩ := parseHostRest_some rfl h
      obtain ⟨front, hfront⟩ := ip6Text_suffix hip
      rw [hfront, advance_suffix] at hloop
      exact ⟨v, w, port, st.offset, .literal (congrArg some hc) hip hloop, hidn⟩
  · rw [if_neg hc] at h
    exact hname (fun hhead => absurd (Option.some.inj hhead) hc) h

/-! ### Conversion -/

/-- The IDN library gives `idn` for a host. -/
def Converted (S : UrlSystem) (flags : UrlFlags) (host idn : Bytes) : Prop :=
  flags.toidn = true ∧ ∃ idna ∈ S.idna flags, idna host = some idn

theorem Converted.noNul {host idn : Bytes} (h : Converted S flags host idn) : nul ∉ idn := by
  obtain ⟨-, idna, hidna, heq⟩ := h
  exact fun hmem => (S.idna_ascii flags idna hidna host idn heq nul hmem).1 rfl

/-- The host is converted, or all stays as it is. -/
theorem idna_cases {st₁ : UrlState} {i len : ℕ}
    (h : (if flags.toidn then parseIdna S flags st₁ i len else .ok st₁) = .ok st') :
    (∃ idn, Converted S flags (st₁.read i) idn ∧ idnHost S flags (st₁.read i) = some idn ∧
      st' = { st₁ with
        buffer := overwrite st₁.buffer i (idn ++ [nul]), offset :=
  st₁.offset + idn.length - len }) ∨
    (∀ idn, ¬ Converted S flags (st₁.read i) idn) ∧ st' = st₁ ∧
      (flags.ignoreErrors = false → idnHost S flags (st₁.read i) = some (st₁.read i)) := by
  unfold idnHost
  by_cases hto : flags.toidn = true
  · rw [if_pos hto] at h ⊢
    unfold parseIdna at h
    cases hidna : S.idna flags with
    | none =>
      rw [hidna] at h
      cases h
      refine .inr ⟨fun idn hconv => ?_, rfl, fun _ => rfl⟩
      obtain ⟨-, idna, hmem, -⟩ := hconv
      rw [hidna] at hmem
      cases hmem
    | some idna =>
      rw [hidna] at h
      cases hname : idna (st₁.read i) with
      | some idn =>
        simp only [hname] at h
        cases h
        exact .inl ⟨idn, ⟨hto, idna, hidna, hname⟩, hname, rfl⟩
      | none =>
        simp only [hname] at h
        split_ifs at h with hkept
        cases h
        refine .inr ⟨fun idn hconv => ?_, rfl, fun hignore => ?_⟩
        · obtain ⟨-, idna', hmem, heq⟩ := hconv
          rw [Option.mem_unique hmem hidna, hname] at heq
          cases heq
        · rw [hignore, Bool.and_false] at hkept
          cases hkept
  · rw [if_neg hto] at h ⊢
    cases h
    exact .inr ⟨fun idn hconv => hto hconv.1, rfl, fun _ => rfl⟩

@[simp] theorem hostState_offset (st : UrlState) (v w : Bytes) (port : ℕ) :
    (hostState st v w port).offset = st.offset + (v.length + (w.length + 1)) := by
  simp [hostState, UrlState.put]

theorem laid_hostState (st : UrlState) (v w : Bytes) (port : ℕ) :
    (hostState st v w port).laid = (st.put (v ++ nul :: w)).laid := rfl

theorem cString_nul (v w : Bytes) : cString (v ++ nul :: w) = cString v := by
  by_cases h : nul ∈ v
  · exact cString_append h _
  · rw [cString_of_noNul h, cString, List.takeWhile_append_of_pos]
    · simp
    · intro c hc
      have hne : c ≠ nul := fun he => h (he ▸ hc)
      simpa using hne

theorem read_hostState (st : UrlState) (v w : Bytes) (port : ℕ) :
    (hostState st v w port).read st.offset = cString v := by
  have hlaid : (hostState st v w port).laid.drop st.offset = v ++ nul :: w := by
    rw [laid_hostState, laid_put, List.drop_left' (length_pad _ _)]
  have hnul : nul ∈ (hostState st v w port).laid.drop st.offset := by
    rw [hlaid]
    simp
  rw [← read_of_laid hnul (List.prefix_refl _), hlaid, cString_nul]

theorem drop_overwrite (b : Bytes) (i : ℕ) (w : Bytes) :
    (overwrite b i w).drop i = w ++ b.drop (i + w.length) := by
  unfold overwrite
  rw [List.append_assoc, List.drop_left' (length_pad _ _)]

theorem laid_prefix_overwrite {b : Bytes} (hb : st.laid <+: b) (w : Bytes) :
    st.laid <+: overwrite b st.offset w := by
  have hlen : st.laid.length ≤ st.offset := List.length_take_le _ _
  unfold overwrite
  rw [List.append_assoc]
  exact (List.prefix_take_iff.mpr ⟨hb.trans (List.prefix_append _ _), hlen⟩).trans
    (List.prefix_append _ _)

/-- The host that is there at the end, for any conversion. -/
theorem hostinfo_url (hs : st.Shows u) {v w : Bytes} {port len : ℕ}
    (h : (if flags.toidn then parseIdna S flags (hostState st v w port) st.offset len
      else .ok (hostState st v w port)) = .ok st') :
    ∃ host, (Converted S flags (cString v) host ∨
        host = cString v ∧ ∀ idn, ¬ Converted S flags (cString v) idn) ∧
      (flags.ignoreErrors = false → idnHost S flags (cString v) = some host) ∧
      st'.url = { u with host := some host, port := port } := by
  have hlaid : st.laid <+: (hostState st v w port).buffer :=
    (laid_prefix_put _).trans (List.take_prefix _ _)
  have hread := read_hostState st v w port
  rcases idna_cases h with ⟨idn, hconv, hname, rfl⟩ | ⟨hnot, rfl, hname⟩
  · rw [hread] at hconv hname
    refine ⟨idn, .inl hconv, fun _ => hname, ?_⟩
    have hurl := url_of_buffer hs (laid_prefix_overwrite hlaid (idn ++ [nul]))
      ((hostState st v w port).offset + idn.length - len)
    have hhost : cString ((overwrite (hostState st v w port).buffer st.offset
        (idn ++ [nul])).drop st.offset) =
        idn := by
      rw [drop_overwrite, List.append_assoc, List.singleton_append, cString_nul,
        cString_of_noNul hconv.noNul]
    change { ({ st with
      buffer := overwrite (hostState st v w port).buffer st.offset (idn ++ [nul])
      offset := (hostState st v w port).offset + idn.length - len } : UrlState).url with
        host :=
          some (cString ((overwrite (hostState st v w port).buffer st.offset
            (idn ++ [nul])).drop st.offset))
        port := port } = _
    rw [hurl, hhost]
  · rw [hread] at hnot hname
    refine ⟨cString v, .inr ⟨rfl, hnot⟩, hname, ?_⟩
    rw [← url_of_buffer hs hlaid (hostState st v w port).offset, ← hread]
    rfl

theorem behindLiteral_of_ip6 {b v rest : Bytes} (hb : b.head? = some 91)
    (h : ip6Text S.libs b = some (v, rest)) :
    behindLiteral b = rest := by
  unfold ip6Text at h
  rw [behindLiteral, if_pos hb]
  cases hrest : b.tail.dropWhile (· ≠ 93) with
  | nil =>
    rw [hrest] at h
    cases h
  | cons d behind =>
    rw [hrest] at h
    obtain ⟨addr, -, heq⟩ := Option.map_eq_some_iff.mp h
    cases heq
    rfl

/-- The host and the port that are laid down if no errors are ignored. -/
theorem HostLaid.text {b after v w : Bytes} {port len : ℕ} (hignore : flags.ignoreErrors = false)
    (h : HostLaid S flags st b after v w port len) :
    (∃ name k, hostName S flags b = some name ∧ v = name ++ after.take k) ∧
      port = (portDigits 0 ((portText S flags b).getD [])).foldl portStep st.port ∧
      ∀ c ∈ portDigits 0 ((portText S flags b).getD []), isDigit c = true := by
  unfold portText hostName
  cases h with
  | literal hb hip hloop =>
    obtain ⟨-, hport, hdigits⟩ := hostLoop_ok hignore hloop
    rw [behindLiteral_of_ip6 hb hip, if_pos hb, hip]
    exact ⟨⟨v, 0, rfl, by simp⟩, hport, hdigits⟩
  | name hb hloop =>
    have hhead : b.head? ≠ some 91 := fun hb' => by
      have := (hb hb').2
      rw [hignore] at this
      cases this
    obtain ⟨⟨k, hv⟩, hport, hdigits⟩ := hostLoop_ok hignore hloop
    rw [behindLiteral, if_neg hhead, if_neg hhead]
    exact ⟨⟨_, k, rfl, by rw [hv, portText, behindLiteral, if_neg hhead]⟩, hport, hdigits⟩

/-! ### The authority -/

theorem cursor_part (part left after : Bytes) :
    (⟨(UrlCursor.on (part ++ left) after).text, (part.length : ℕ)⟩ : UrlCursor) =
      .on part (left ++ after) := by
  simp [UrlCursor.on, List.append_assoc]

theorem advance_part (part left after : Bytes) :
    (UrlCursor.on (part ++ left) after).advance part.length = .on left after := by
  rw [UrlCursor.advance_on _ _ (by simp), List.drop_left]

theorem userinfoOf_eq (part left after : Bytes) :
    userinfoOf S flags st (.on (part ++ left) after) part.length =
      if part = [] then .ok st else parseUserinfo S flags st (.on part (left ++ after)) := by
  rw [userinfoOf, cursor_part]
  simp only [List.length_eq_zero_iff]

theorem hostinfoOf_eq (part left after : Bytes) :
    hostinfoOf S flags st (.on (part ++ left) after) part.length =
      if part = [] then .ok st else parseHostinfo S flags st (.on part (left ++ after)) := by
  rw [hostinfoOf, cursor_part]
  simp only [List.length_eq_zero_iff]

/-- What stands at the end of an authority. -/
theorem read_end {left : Bytes} {c : Byte} (h : (UrlCursor.on left [nul]).read 0 = .ok c) :
    left = [] ∧ c = nul ∨ ∃ rest, left = c :: rest := by
  cases left with
  | nil =>
    cases h
    exact .inl ⟨rfl, rfl⟩
  | cons d rest =>
    cases h
    exact .inr ⟨rest, rfl⟩

theorem takeWhile_end {P : Byte → Bool} {part left : Bytes} (hpart : ∀ c ∈ part, P c = true)
    (hleft : ∀ c ∈ left.head?, P c = false) : (part ++ left).takeWhile P = part := by
  rw [List.takeWhile_append_of_pos hpart]
  cases left with
  | nil => simp
  | cons c left => rw [List.takeWhile_cons_of_neg (by simp [hleft c rfl]), List.append_nil]

theorem dropWhile_head {P : Byte → Bool} (t : Bytes) :
    ∀ c ∈ (t.dropWhile P).head?, P c = false := by
  intro c hc
  have := List.head?_dropWhile_not P t
  rw [Option.mem_def.mp hc] at this
  simpa using this

theorem inAuthority_noAt {part : Bytes} (h : ∀ c ∈ part, inAuthority c = true) :
    atSign ∉ part := fun hmem =>
  absurd (h _ hmem) (by decide)

theorem given_plain {part : Bytes} (h : ∀ c ∈ part, inAuthority c = true) :
    givenUserinfo part = none ∧ givenHostinfo part = part := by
  have hat := inAuthority_noAt h
  exact ⟨if_neg hat, if_neg hat⟩

theorem given_at {part : Bytes} (h : ∀ c ∈ part, inAuthority c = true) (host : Bytes) :
    givenUserinfo (part ++ atSign :: host) = some part ∧
      givenHostinfo (part ++ atSign :: host) = host := by
  have hne : ∀ c ∈ part, decide (c ≠ atSign) = true := fun c hc =>
    decide_eq_true fun he => inAuthority_noAt h (he ▸ hc)
  unfold givenUserinfo givenHostinfo
  rw [if_pos (by simp), if_pos (by simp), takeWhile_end hne (by simp),
    List.dropWhile_append_of_pos hne]
  simp

/-- No authority goes on in front of a character that ends its last part. -/
theorem authority_end {left : Bytes} (hleft : ∀ c ∈ left.head?, inAuthority c = false) {c : Byte}
    (hc : (UrlCursor.on left [nul]).read 0 = .ok c) (hat : c ≠ atSign) :
    ∀ c ∈ left.head?, (inAuthority c || decide (c = atSign)) = false := by
  intro d hd
  obtain ⟨rfl, -⟩ | ⟨rest, rfl⟩ := read_end hc
  · cases hd
  · obtain rfl : c = d := Option.some.inj hd
    simp [hleft c hd, hat]

theorem parseAuthority_ok (hignore : flags.ignoreErrors = false) {t : Bytes} {cur : UrlCursor}
    (h : parseAuthority S flags st (.on t [nul]) = .ok (st', cur)) :
    ∃ rest, t = authorityText t ++ rest ∧ cur = .on rest [nul] ∧ ∃ st₁,
      (∀ userinfo ∈ givenUserinfo (authorityText t), userinfo ≠ [] →
        ∃ after, parseUserinfo S flags st (.on userinfo (atSign :: after)) = .ok st₁) ∧
      ((∀ userinfo ∈ givenUserinfo (authorityText t), userinfo = []) → st₁ = st) ∧
      (if givenHostinfo (authorityText t) = [] then .ok st₁
        else parseHostinfo S flags st₁ (.on (givenHostinfo (authorityText t)) (rest ++ [nul]))) =
          .ok st' := by
  have hin : inHost flags = inAuthority := by
    funext c
    simp [inHost, hignore]
  obtain ⟨part, left, rfl, hpart, hleft⟩ : ∃ part left, t = part ++ left ∧
      (∀ c ∈ part, inAuthority c = true) ∧ ∀ c ∈ left.head?, inAuthority c = false :=
    ⟨_, _, List.takeWhile_append_dropWhile.symm, fun c hc => List.mem_takeWhile_imp hc,
      dropWhile_head t⟩
  unfold parseAuthority at h
  rw [UrlCursor.on_rest, takeWhile_end hpart hleft] at h
  dsimp only at h
  rw [advance_part] at h
  obtain ⟨c, hc, h⟩ := ok_eq_bind h
  by_cases hat : c = atSign
  · subst hat
    obtain ⟨-, hnul⟩ | ⟨t, rfl⟩ := read_end hc
    · cases hnul
    obtain ⟨part₂, left₂, rfl, hpart₂, hleft₂⟩ : ∃ part left, t = part ++ left ∧
        (∀ c ∈ part, inAuthority c = true) ∧ ∀ c ∈ left.head?, inAuthority c = false :=
      ⟨_, _, List.takeWhile_append_dropWhile.symm, fun c hc => List.mem_takeWhile_imp hc,
        dropWhile_head t⟩
    have hnext : (UrlCursor.on (part ++ atSign :: (part₂ ++ left₂)) [nul]).advance
        (part.length + 1) = .on (part₂ ++ left₂) [nul] := by
      rw [UrlCursor.advance_on _ _ (by simp), ← List.drop_drop, List.drop_left]
      rfl
    rw [if_pos rfl, userinfoOf_eq, hnext] at h
    obtain ⟨st₁, huser, h⟩ := ok_eq_bind h
    have hpos : 0 < (UrlCursor.on (atSign :: (part₂ ++ left₂)) [nul]).left := by
      rw [UrlCursor.on_left, List.length_cons]
      omega
    rw [if_pos hpos] at h
    unfold parseHost at h
    rw [UrlCursor.on_rest, hin, takeWhile_end hpart₂ hleft₂] at h
    dsimp only at h
    rw [advance_part, hostinfoOf_eq] at h
    obtain ⟨c, hc, h⟩ := ok_eq_bind h
    have hagain : ¬ (c = atSign ∧ flags.ignoreErrors = false) := fun hagain => by
      rw [if_pos hagain] at h
      cases h
    rw [if_neg hagain] at h
    obtain ⟨st₂, hhost, h⟩ := ok_eq_bind h
    cases h
    have hauth : authorityText (part ++ atSign :: part₂ ++ left₂) = part ++ atSign :: part₂ := by
      refine takeWhile_end (fun d hd => ?_)
        (authority_end hleft₂ hc fun hne => hagain ⟨hne, hignore⟩)
      rcases List.mem_append.mp hd with hd | hd
      · simp [hpart d hd]
      · rcases List.mem_cons.mp hd with rfl | hd
        · decide
        · simp [hpart₂ d hd]
    rw [List.append_assoc, List.cons_append] at hauth
    obtain ⟨hgiven, hgiven'⟩ := given_at hpart part₂
    rw [hauth, hgiven, hgiven']
    refine ⟨left₂, by simp, rfl, st₁, ?_, ?_, hhost⟩
    · rintro userinfo ⟨⟩ hne
      rw [if_neg hne] at huser
      exact ⟨_, huser⟩
    · intro hall
      rw [if_pos (hall part rfl)] at huser
      cases huser
      rfl
  · rw [if_neg hat, hostinfoOf_eq] at h
    obtain ⟨st₁, hhost, h⟩ := ok_eq_bind h
    cases h
    have hauth : authorityText (part ++ left) = part :=
      takeWhile_end (fun d hd => by simp [hpart d hd]) (authority_end hleft hc hat)
    obtain ⟨hgiven, hgiven'⟩ := given_plain hpart
    rw [hauth, hgiven, hgiven']
    exact ⟨left, rfl, rfl, st, fun _ hmem => absurd hmem (Option.not_mem_none _),
      fun _ => rfl, hhost⟩

/-- The components with those of the user info of an authority -/
def withUserinfo (S : UrlSystem) (flags : UrlFlags) (u : HttpUrl) (auth : Bytes) : HttpUrl :=
  match givenUserinfo auth with
  | none => u
  | some [] => u
  | some (c :: b) => { u with
      user := some (cString (userStrings S flags (c :: b)).1)
      pass := (userStrings S flags (c :: b)).2.map cString }

theorem shows_host {v : UrlState} (hs : v.Shows u) (h : u.host = none) : v.host = none := by
  have hhost : v.host.map v.read = u.host := congrArg HttpUrl.host hs.url
  rwa [h, Option.map_eq_none_iff] at hhost

/-- The components of an authority. -/
theorem parseAuthority_url (hignore : flags.ignoreErrors = false) (hs : st.Shows u)
    (hu : u.pass = none ∧ u.host = none ∧ u.port = 0) {t : Bytes} {cur : UrlCursor}
    (h : parseAuthority S flags st (.on t [nul]) = .ok (st', cur)) :
    ∃ rest, t = authorityText t ++ rest ∧ cur = .on rest [nul] ∧
      if givenHostinfo (authorityText t) = [] then st'.url =
        withUserinfo S flags u (authorityText t)
      else ∃ name k host, hostName S flags (givenHostinfo (authorityText t)) = some name ∧
        idnHost S flags (cString (name ++ (rest ++ [nul]).take k)) = some host ∧
        (∀ c ∈ portDigits 0 ((portText S flags (givenHostinfo (authorityText t))).getD []),
          isDigit c = true) ∧
        st'.url = { withUserinfo S flags u (authorityText t) with
          host := some host, port := portValue S flags (givenHostinfo (authorityText t)) } := by
  obtain ⟨hpass, hhost, hport⟩ := hu
  obtain ⟨rest, hrest, rfl, st₁, huser, hnone, hhostinfo⟩ := parseAuthority_ok hignore h
  have hshows : st₁.Shows (withUserinfo S flags u (authorityText t)) := by
    unfold withUserinfo
    cases hgiven : givenUserinfo (authorityText t) with
    | none =>
      obtain rfl := hnone fun _ hmem => by
        rw [hgiven] at hmem
        cases hmem
      exact hs
    | some userinfo =>
      cases userinfo with
      | nil =>
        obtain rfl := hnone fun _ hmem => by
          rw [hgiven] at hmem
          exact (Option.some.inj hmem).symm
        exact hs
      | cons c b =>
        obtain ⟨after, hparsed⟩ := huser (c :: b) hgiven (List.cons_ne_nil c b)
        exact parseUserinfo_ok hignore hs hpass (List.cons_ne_nil c b) hparsed
  have hfields : (withUserinfo S flags u (authorityText t)).host = none ∧
      (withUserinfo S flags u (authorityText t)).port = 0 := by
    unfold withUserinfo
    split <;> exact ⟨hhost, hport⟩
  refine ⟨rest, hrest, rfl, ?_⟩
  split_ifs at hhostinfo ⊢ with hempty
  · cases hhostinfo
    exact hshows.url
  · obtain ⟨v, w, port, len, hlaid, hidn⟩ :=
      parseHostinfo_laid (shows_host hshows hfields.1) hempty hhostinfo
    obtain ⟨⟨name, k, hname, rfl⟩, hportval, hdigits⟩ := hlaid.text hignore
    obtain ⟨host, -, hconv, hurl⟩ := hostinfo_url hshows hidn
    have hzero : st₁.port = 0 := (congrArg HttpUrl.port hshows.url).trans hfields.2
    refine ⟨name, k, host, hname, hconv hignore, hdigits, ?_⟩
    rw [hurl, hportval, hzero]
    rfl

theorem urlStart_shows : urlStart.Shows noUrl := ⟨rfl, by simp [Sealed, marks, urlStart]⟩

theorem parseScheme_shows {cur cur' : UrlCursor}
    (h : parseScheme S flags urlStart cur = .ok (st, cur')) :
    ∃ scheme, st.Shows { noUrl with scheme := scheme } := by
  unfold parseScheme at h
  split at h
  · next scheme _ _ _ =>
    cases h
    refine ⟨some (cString scheme),
      urlStart_shows.component scheme rfl (by simp [marks, UrlState.put, urlStart])
      fun hu hr => ?_⟩
    rw [← hu, ← hr]
    rfl
  · cases h
    exact ⟨none, urlStart_shows⟩
  · cases h
    exact ⟨none, urlStart_shows⟩
  · cases h

end UrlScanner

end ExtHttp
