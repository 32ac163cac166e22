import ExtHttp.UrlAuthority
import ExtHttp.UrlStages

/-!
# Where a host ends

The strings of the components, one behind the other in the buffer, and the offset behind the host.
With `PHP_HTTP_URL_PARSE_TOIDN` it is corrected by a length that is not always that of what has been
written.
-/
namespace ExtHttp
open Scan

/-! ### Strings apart from each other -/

/-- The components of one URL are those of another, which may have more. -/
structure HttpUrl.Extends (u v : HttpUrl) : Prop where
  scheme : ∀ s ∈ u.scheme, v.scheme = some s
  user : ∀ s ∈ u.user, v.user = some s
  pass : ∀ s ∈ u.pass, v.pass = some s
  host : ∀ s ∈ u.host, v.host = some s
  port : v.port = u.port
  path : ∀ s ∈ u.path, v.path = some s
  query : ∀ s ∈ u.query, v.query = some s
  fragment : ∀ s ∈ u.fragment, v.fragment = some s

theorem HttpUrl.Extends.refl (u : HttpUrl) : u.Extends u :=
  ⟨fun _ h => h, fun _ h => h, fun _ h => h, fun _ h => h, rfl, fun _ h => h, fun _ h => h,
    fun _ h => h⟩

namespace UrlState

/-- Each string ends in front of the next one. -/
def Apart (st : UrlState) : Prop := st.marks.Pairwise fun i j => i + (st.read i).length < j

variable {st st' : UrlState} {u : HttpUrl}

theorem end_of_nul {i : ℕ} (h : nul ∈ st.laid.drop i) : i + (st.read i).length < st.offset := by
  have hread : st.read i = cString (st.laid.drop i) := (read_of_laid h (List.prefix_refl _)).symm
  have hshort : (cString (st.laid.drop i)).length < (st.laid.drop i).length := by
    by_contra hle
    have hsub := List.takeWhile_sublist (fun c => decide (c ≠ nul)) (l := st.laid.drop i)
    have heq : cString (st.laid.drop i) = st.laid.drop i := hsub.eq_of_length_le (Nat.not_lt.mp hle)
    rw [← heq] at h
    simpa using List.mem_takeWhile_imp h
  have hlaid : st.laid.length ≤ st.offset := List.length_take_le _ _
  rw [List.length_drop] at hshort
  rw [hread]
  omega

/-- A component that is written behind those that are there. -/
theorem Apart.component (h : st.Apart) (hs : st.Sealed) (hlaid : st.laid <+: st'.buffer)
    (hmarks : st'.marks = st.marks ++ [st.offset]) : st'.Apart := by
  have hsame : ∀ i ∈ st.marks, st'.read i = st.read i := fun i hi => read_of_laid (hs i hi) hlaid
  unfold Apart
  rw [hmarks, List.pairwise_append]
  refine ⟨?_, List.pairwise_singleton _ _, ?_⟩
  · refine List.Pairwise.imp_of_mem ?_ h
    intro i j hi _ hij
    rwa [hsame i hi]
  · intro i hi j hj
    rw [List.mem_singleton] at hj
    rw [hj, hsame i hi]
    exact end_of_nul (hs i hi)

theorem marks_eq (st : UrlState) :
    st.marks = st.scheme.toList ++ (st.user.toList ++ (st.pass.toList ++
    (st.host.toList ++ (st.path.toList ++ (st.query.toList ++ st.fragment.toList))))) := by
  have hcons : ∀ (m : Option ℕ) (ms : List (Option ℕ)),
      (m :: ms).filterMap id = m.toList ++ ms.filterMap id := by
    intro m ms
    cases m <;> rfl
  simp only [marks, hcons, List.filterMap_nil, List.append_nil]

/-- All strings are complete and apart. -/
structure Ready (st : UrlState) : Prop where
  sealed : st.Sealed
  apart : st.Apart

theorem Ready.start :
    urlStart.Ready := ⟨by simp [Sealed, marks, urlStart], by simp [Apart, marks, urlStart]⟩

theorem Ready.place (h : st.Ready) (w : Bytes) (hlaid : st'.laid = (st.put (w ++ [nul])).laid)
    (hmarks : st'.marks = st.marks ++ [st.offset]) : st'.Ready := by
  have hshows : st'.Shows st'.url := Shows.component ⟨rfl, h.sealed⟩ w hlaid
    (by rw [hmarks]; simp) fun _ _ => rfl
  refine ⟨hshows.sealed, h.apart.component h.sealed ?_ hmarks⟩
  have hput : st.laid <+: (st.put (w ++ [nul])).laid := laid_prefix_put _
  rw [← hlaid] at hput
  exact hput.trans (List.take_prefix _ _)

/-- What is there up to the host. -/
structure NoHost (st : UrlState) : Prop where
  host : st.host = none
  path : st.path = none
  query : st.query = none
  fragment : st.fragment = none

end UrlState

open UrlState

namespace UrlScanner
variable {S : UrlSystem} {flags : UrlFlags} {st st' : UrlState} {cur cur' : UrlCursor}

/-! ### The components behind the host -/

theorem parsePath_put (h : parsePath S flags st cur = .ok (st', cur')) :
    st' = st ∨ ∃ w, st' = { st with path := some st.offset }.put (w ++ [nul]) := by
  obtain ⟨c, -, h⟩ := ok_eq_bind h
  split_ifs at h
  · cases h
    exact .inl rfl
  · obtain ⟨o, -, h⟩ := ok_eq_bind h
    split_ifs at h
    · cases h
      exact .inl rfl
    · cases h
      exact .inr ⟨o.written, rfl⟩

theorem parseQuery_put (h : parseQuery S flags st cur = .ok (st', cur')) :
    st' = st ∨ ∃ w, st' = { st with query := some st.offset }.put (w ++ [nul]) := by
  obtain ⟨c, -, h⟩ := ok_eq_bind h
  split_ifs at h
  · cases h
    exact .inl rfl
  · obtain ⟨o, -, h⟩ := ok_eq_bind h
    cases h
    exact .inr ⟨o.written, rfl⟩

theorem parseFragment_put (h : parseFragment S flags st cur = .ok (st', cur')) :
    st' = st ∨ ∃ w, st' = { st with fragment := some st.offset }.put (w ++ [nul]) := by
  obtain ⟨c, -, h⟩ := ok_eq_bind h
  split_ifs at h
  · cases h
    exact .inl rfl
  · obtain ⟨o, -, h⟩ := ok_eq_bind h
    cases h
    exact .inr ⟨o.written, rfl⟩

theorem shows_path {u : HttpUrl} (hs : st.Shows u) (w : Bytes) :
    ({ st with path := some st.offset }.put (w ++ [nul])).Shows
      { u with path := some (cString w) } :=
  hs.component w rfl (by simp [marks, UrlState.put]; grind) fun hu hr => by
    rw [← hu, ← hr]
    rfl

theorem shows_query {u : HttpUrl} (hs : st.Shows u) (w : Bytes) :
    ({ st with query := some st.offset }.put (w ++ [nul])).Shows
      { u with query := some (cString w) } :=
  hs.component w rfl (by simp [marks, UrlState.put]; grind) fun hu hr => by
    rw [← hu, ← hr]
    rfl

theorem shows_fragment {u : HttpUrl} (hs : st.Shows u) (w : Bytes) :
    ({ st with fragment := some st.offset }.put (w ++ [nul])).Shows
      { u with fragment := some (cString w) } :=
  hs.component w rfl (by simp [marks, UrlState.put]; grind) fun hu hr => by
    rw [← hu, ← hr]
    rfl

/-- Behind the host, with the components ready that are there, and the others missing. -/
def Tail (x : UrlConfig) : Prop :=
  x.state.Ready ∧ match x.stage with
    | .path => x.state.path = none ∧ x.state.query = none ∧ x.state.fragment = none
    | .query => x.state.query = none ∧ x.state.fragment = none
    | .fragment => x.state.fragment = none
    | .done => True
    | _ => False

theorem Tail.step {x y : UrlConfig} (h : Tail x) (hstep : urlStep S flags x = .ok y) :
    Tail y ∧ x.state.url.Extends y.state.url := by
  obtain ⟨stage, st, cur⟩ := x
  obtain ⟨hready, hnone⟩ := h
  have hshows : st.Shows st.url := ⟨rfl, hready.sealed⟩
  cases stage with
  | path =>
    obtain ⟨hp, hq, hf⟩ := hnone
    obtain ⟨⟨st', cur'⟩, hpath, rfl⟩ := ok_eq_map hstep
    rcases parsePath_put hpath with rfl | ⟨w, rfl⟩
    · exact ⟨⟨hready, hq, hf⟩, .refl _⟩
    · have hmarks : ({ st with path := some st.offset }.put (w ++ [nul])).marks =
          st.marks ++ [st.offset] := by
        rw [marks_eq, marks_eq]
        simp [UrlState.put, show st.path = none from hp, show st.query = none from hq,
          show st.fragment = none from hf]
      have hurl := (shows_path hshows w).url
      refine ⟨⟨hready.place w rfl hmarks, hq, hf⟩, ?_⟩
      rw [hurl]
      exact { HttpUrl.Extends.refl
        st.url with path := by simp [UrlState.url, show st.path = none from hp] }
  | query =>
    obtain ⟨hq, hf⟩ := hnone
    obtain ⟨⟨st', cur'⟩, hquery, rfl⟩ := ok_eq_map hstep
    rcases parseQuery_put hquery with rfl | ⟨w, rfl⟩
    · exact ⟨⟨hready, hf⟩, .refl _⟩
    · have hmarks : ({ st with query := some st.offset }.put (w ++ [nul])).marks =
          st.marks ++ [st.offset] := by
        rw [marks_eq, marks_eq]
        simp [UrlState.put, show st.query = none from hq, show st.fragment = none from hf]
      have hurl := (shows_query hshows w).url
      refine ⟨⟨hready.place w rfl hmarks, hf⟩, ?_⟩
      rw [hurl]
      exact { HttpUrl.Extends.refl
        st.url with query := by simp [UrlState.url, show st.query = none from hq] }
  | fragment =>
    obtain ⟨⟨st', cur'⟩, hfragment, rfl⟩ := ok_eq_map hstep
    rcases parseFragment_put hfragment with rfl | ⟨w, rfl⟩
    · exact ⟨⟨hready, trivial⟩, .refl _⟩
    · have hmarks : ({ st with fragment := some st.offset }.put (w ++ [nul])).marks =
          st.marks ++ [st.offset] := by
        rw [marks_eq, marks_eq]
        simp [UrlState.put, show st.fragment = none from hnone]
      have hurl := (shows_fragment hshows w).url
      refine ⟨⟨hready.place w rfl hmarks, trivial⟩, ?_⟩
      rw [hurl]
      exact { HttpUrl.Extends.refl
        st.url with fragment := by simp [UrlState.url, show st.fragment = none from hnone] }
  | done =>
    cases hstep
    exact ⟨⟨hready, trivial⟩, .refl _⟩
  | _ => exact hnone.elim

/-! ### Up to the host -/

theorem parseScheme_put (h : parseScheme S flags st cur = .ok (st', cur')) : st' = st ∧ cur' = cur ∨
    ∃ w n, st' = { st.put (w ++ [nul]) with scheme := some 0 } ∧ cur' = cur.advance n := by
  unfold parseScheme at h
  split at h
  · next scheme _ n _ =>
    cases h
    exact .inr ⟨scheme, n + 1, rfl, rfl⟩
  · cases h
    exact .inl ⟨rfl, rfl⟩
  · cases h
    exact .inl ⟨rfl, rfl⟩
  · cases h

theorem parseUserinfo_put (h : parseUserinfo S flags st cur = .ok st') :
    ∃ w, st' = { st with user := some st.offset }.put (w ++ [nul]) ∨
      ∃ st₁ w', st₁ = { st with user := some st.offset }.put (w ++ [nul]) ∧
        st' = { st₁ with pass := some st₁.offset }.put (w' ++ [nul]) := by
  obtain ⟨user, -, h⟩ := ok_eq_bind h
  dsimp only at h
  split_ifs at h
  · obtain ⟨pass, -, h⟩ := ok_eq_bind h
    cases h
    exact ⟨user.written, .inr ⟨_, pass.written, rfl, rfl⟩⟩
  · cases h
    exact ⟨user.written, .inl rfl⟩

/-- The states before the user info. -/
structure Bare (st : UrlState) : Prop where
  ready : st.Ready
  noHost : st.NoHost
  user : st.user = none
  pass : st.pass = none

theorem Bare.scheme (w : Bytes) : Bare { urlStart.put (w ++ [nul]) with scheme := some 0 } where
  ready := Ready.start.place w rfl rfl
  noHost := ⟨rfl, rfl, rfl, rfl⟩
  user := rfl
  pass := rfl

theorem Bare.userinfoOf (hb : Bare st) {n : ℕ} (h : userinfoOf S flags st cur n = .ok st') :
    st'.Ready ∧ st'.NoHost := by
  unfold UrlScanner.userinfoOf at h
  obtain ⟨hhost, hpath, hquery, hfragment⟩ := hb.noHost
  have huser : ∀ w, ({ st with user := some st.offset }.put (w ++ [nul])).Ready := by
    intro w
    refine hb.ready.place w rfl ?_
    rw [marks_eq, marks_eq]
    simp [UrlState.put, hb.user, hb.pass, hhost, hpath, hquery, hfragment]
  split_ifs at h
  · cases h
    exact ⟨hb.ready, hb.noHost⟩
  · obtain ⟨w, rfl | ⟨st₁, w', rfl, rfl⟩⟩ := parseUserinfo_put h
    · exact ⟨huser w, hhost, hpath, hquery, hfragment⟩
    · refine ⟨(huser w).place w' rfl ?_, hhost, hpath, hquery, hfragment⟩
      rw [marks_eq, marks_eq]
      simp [UrlState.put, hb.pass, hhost, hpath, hquery, hfragment]

/-- A host info that is not empty, with what is in the memory behind it. -/
def InfoOn (info : UrlCursor) : Prop := ∃ b behind, b ≠ [] ∧ info = .on b behind

theorem infoOf_on {t after : Bytes} {n : ℕ} (hn : n ≤ t.length) :
    ∀ info ∈ infoOf (.on t after) n, InfoOn info := by
  intro info hinfo
  unfold infoOf at hinfo
  split_ifs at hinfo with hzero
  · cases hinfo
  · cases hinfo
    refine ⟨t.take n, t.drop n ++ after, ?_, ?_⟩
    · rw [ne_eq, List.take_eq_nil_iff]
      rintro (h | h)
      · exact hzero h
      · rw [h, List.length_nil] at hn
        omega
    · rw [UrlCursor.on_text, UrlCursor.on, ← List.append_assoc, List.take_append_drop,
        List.length_take_of_le hn]

theorem length_takeWhile_le (P : Byte → Bool) (t : Bytes) : (t.takeWhile P).length ≤ t.length :=
  (List.takeWhile_sublist P).length_le

theorem beforeHost_on {t after : Bytes} (hat : after.head? ≠ some atSign) (hb : Bare st)
    {info : Option UrlCursor} (h : beforeHost S flags st (.on t after) = .ok (st', info, cur')) :
    st'.Ready ∧ st'.NoHost ∧ ∀ c ∈ info, InfoOn c := by
  have hle := length_takeWhile_le inAuthority t
  unfold beforeHost at h
  rw [UrlCursor.on_rest] at h
  dsimp only at h
  generalize (t.takeWhile inAuthority).length = n at hle h
  obtain ⟨c, hc, h⟩ := ok_eq_bind h
  by_cases hcat : c = atSign
  · rw [if_pos hcat] at h
    obtain ⟨st₁, huser, h⟩ := ok_eq_bind h
    obtain ⟨hready, hnone⟩ := hb.userinfoOf huser
    by_cases hpos : 0 < ((UrlCursor.on t after).advance n).left
    · rw [if_pos hpos] at h
      have hlt : n + 1 ≤ t.length := by
        rw [UrlCursor.advance_on _ _ hle, UrlCursor.on_left, List.length_drop] at hpos
        omega
      rw [UrlCursor.advance_on _ _ hlt, UrlCursor.on_rest] at h
      obtain ⟨d, -, h⟩ := ok_eq_bind h
      split_ifs at h
      cases h
      exact ⟨hready, hnone, infoOf_on (length_takeWhile_le _ _)⟩
    · -- an `@` behind the end
      rw [UrlCursor.advance_on _ _ hle, UrlCursor.on_left, List.length_drop] at hpos
      rw [UrlCursor.advance_on _ _ hle, List.drop_eq_nil_of_le (by omega)] at hc
      subst hcat
      refine absurd ?_ hat
      cases after with
      | nil => cases hc
      | cons d after =>
        cases hc
        rfl
  · rw [if_neg hcat] at h
    cases h
    exact ⟨hb.ready, hb.noHost, infoOf_on hle⟩

/-- The configurations up to the host. -/
def UpToHost (after : Bytes) (x : UrlConfig) : Prop :=
  match x.stage with
    | .scheme => x.state = urlStart ∧ ∃ t, x.cur = .on t after
    | .hier => Bare x.state ∧ ((∃ t, x.cur = .on t after) ∨ x.cur.left ≤ 0)
    | .authority => Bare x.state ∧ ∃ t, x.cur = .on t after
    | .host info => x.state.Ready ∧ x.state.NoHost ∧ ∀ c ∈ info, InfoOn c
    | _ => True

theorem UpToHost.step {after : Bytes} (hat : after.head? ≠ some atSign) {x y : UrlConfig}
    (h : UpToHost after x) (hstep : urlStep S flags x = .ok y) : UpToHost after y := by
  obtain ⟨stage, st, cur⟩ := x
  cases stage with
  | scheme =>
    obtain ⟨hst, t, hcur⟩ := h
    change st = urlStart at hst
    change cur = .on t after at hcur
    subst hst hcur
    obtain ⟨⟨st', cur'⟩, hscheme, rfl⟩ := ok_eq_map hstep
    obtain ⟨rfl, rfl⟩ | ⟨w, n, rfl, rfl⟩ := parseScheme_put hscheme
    · exact ⟨⟨.start, ⟨rfl, rfl, rfl, rfl⟩, rfl, rfl⟩, .inl ⟨t, rfl⟩⟩
    · refine ⟨.scheme w, ?_⟩
      by_cases hn : n ≤ t.length
      · exact .inl ⟨t.drop n, UrlCursor.advance_on _ _ hn⟩
      · right
        change (t.length : ℤ) - n ≤ 0
        omega
  | hier =>
    obtain ⟨hb, hcur⟩ := h
    obtain ⟨c, -, hstep⟩ := ok_eq_bind hstep
    split_ifs at hstep with hslash
    · obtain ⟨d, -, hstep⟩ := ok_eq_bind hstep
      split_ifs at hstep
      · cases hstep
        refine ⟨hb, ?_⟩
        obtain ⟨t, hcur⟩ := hcur.resolve_right (by change ¬ cur.left ≤ 0; omega)
        change cur = .on t after at hcur
        subst hcur
        have hlen := hslash.2
        rw [UrlCursor.on_left] at hlen
        exact ⟨t.drop 2, UrlCursor.advance_on _ _ (by omega)⟩
      · cases hstep
        trivial
    · cases hstep
      trivial
  | authority =>
    obtain ⟨hb, t, hcur⟩ := h
    change cur = .on t after at hcur
    subst hcur
    obtain ⟨⟨st', info, cur'⟩, hbefore, rfl⟩ := ok_eq_map hstep
    exact beforeHost_on hat hb hbefore
  | host info =>
    obtain ⟨o, -, rfl⟩ := ok_eq_map hstep
    trivial
  | path =>
    obtain ⟨o, -, rfl⟩ := ok_eq_map hstep
    trivial
  | query =>
    obtain ⟨o, -, rfl⟩ := ok_eq_map hstep
    trivial
  | fragment =>
    obtain ⟨o, -, rfl⟩ := ok_eq_map hstep
    trivial
  | done =>
    cases hstep
    trivial

theorem UrlReaches.upToHost {str after : Bytes} (hat : after.head? ≠ some atSign) {x : UrlConfig}
    (h : UrlReaches S flags str after x) : UpToHost after x :=
  Steps.Reaches.invariant (I := UpToHost after) (fun _ _ hx hstep => hx.step hat hstep) h
    ⟨rfl, str, rfl⟩

/-! ### The end of the host -/

section
variable (S : UrlSystem) (flags : UrlFlags)

/-- A literal address at the beginning of a host info, as it is written, and what is behind it. -/
def literalOf (b : Bytes) : Option (Bytes × Bytes) :=
  if b.head? = some 91 then ip6Text S.libs b else none

/-- The IDN library converts a host. -/
def Converts (host : Bytes) : Prop := ∃ idn, Converted S flags host idn

/-- A name is converted, or there is no NUL in it. A literal address is converted and, with what is
written behind it, as long as all that has been written before; or it is not, and nothing is written
behind it. -/
def HostFits (st : UrlState) (info : UrlCursor) : Prop :=
  match literalOf S info.rest with
  | some (addr, rest) => ∀ w port, hostLoop S flags st.port (.on rest info.after) = .ok (w, port) →
      Converts S flags addr ∧ addr.length + w.length = st.offset ∨ ¬ Converts S flags addr ∧ w = []
  | none => ∀ v port, hostLoop S flags st.port (.on info.rest info.after) = .ok (v, port) →
      Converts S flags (cString v) ∨ nul ∉ v

/-- The offset is behind the NUL that ends the host; from there on all strings stay apart, and no
component changes another one. -/
structure HostSettled (st : UrlState) (cur : UrlCursor) : Prop where
  offset : ∃ i ∈ st.host, st.offset = i + (st.read i).length + 1 ∧
    st.buffer[i + (st.read i).length]? = some nul
  apart : ∀ x, Steps.Reaches (urlStep S flags) ⟨.path, st, cur⟩ x → x.state.Apart
  kept : ∀ x y, Steps.Reaches (urlStep S flags) ⟨.path, st, cur⟩ x → urlStep S flags x = .ok y →
    x.state.url.Extends y.state.url

end

/-- What `parse_hostinfo` leaves behind, and where. -/
structure HostEnds (st st' : UrlState) (name : Bytes) (n : ℕ) : Prop where
  host : st'.host = some st.offset
  others : st'.path = st.path ∧ st'.query = st.query ∧ st'.fragment = st.fragment
  marks : st.NoHost → st'.marks = st.marks ++ [st.offset]
  laid : st.laid <+: st'.buffer
  buffer : ∃ tail, st'.buffer.drop st.offset = name ++ nul :: tail
  noNul : nul ∉ name
  offset : st'.offset = n

theorem HostEnds.read {name : Bytes} {n : ℕ} (h : HostEnds st st' name n) :
    st'.read st.offset = name := by
  obtain ⟨tail, htail⟩ := h.buffer
  change cString (st'.buffer.drop st.offset) = name
  rw [htail, cString_nul, cString_of_noNul h.noNul]

theorem marks_host (hno : st.NoHost) {m : UrlState}
    (hm : m.scheme = st.scheme ∧ m.user = st.user ∧ m.pass = st.pass)
    (hhost : m.host = some st.offset)
    (hothers : m.path = st.path ∧ m.query = st.query ∧ m.fragment = st.fragment) :
    m.marks = st.marks ++ [st.offset] := by
  rw [marks_eq, marks_eq, hm.1, hm.2.1, hm.2.2, hhost, hothers.1, hothers.2.1, hothers.2.2,
    hno.host, hno.path, hno.query, hno.fragment]
  simp

theorem cString_tail {b : Bytes} (h : nul ∈ b) : ∃ tail, b = cString b ++ nul :: tail := by
  induction b with
  | nil => cases h
  | cons c b ih =>
    by_cases hc : c = nul
    · exact ⟨b, by simp [cString, hc]⟩
    · obtain ⟨tail, htail⟩ := ih ((List.mem_cons.mp h).resolve_left (Ne.symm hc))
      refine ⟨tail, ?_⟩
      rw [cString] at htail ⊢
      rw [List.takeWhile_cons_of_pos (by simpa using hc), List.cons_append, ← htail]

theorem hostEnds {v w : Bytes} {port len : ℕ}
    (h : (if flags.toidn then parseIdna S flags (hostState st v w port) st.offset len
      else .ok (hostState st v w port)) = .ok st') :
    (∃ idn, Converted S flags (cString v) idn ∧
        HostEnds st st' idn (st.offset + (v.length + (w.length + 1)) + idn.length - len)) ∨
      ¬ Converts S flags (cString v) ∧
        HostEnds st st' (cString v) (st.offset + (v.length + (w.length + 1))) := by
  have hlaid : st.laid <+: (hostState st v w port).buffer :=
    (laid_prefix_put _).trans (List.take_prefix _ _)
  have hread := read_hostState st v w port
  rcases idna_cases h with ⟨idn, hconv, -, rfl⟩ | ⟨hnot, rfl, -⟩
  · rw [hread] at hconv
    refine .inl ⟨idn, hconv, rfl, ⟨rfl, rfl, rfl⟩,
      fun hno => marks_host hno ⟨rfl, rfl, rfl⟩ rfl ⟨rfl, rfl, rfl⟩, laid_prefix_overwrite hlaid _,
      ?_, hconv.noNul, ?_⟩
    · refine ⟨(hostState st v w port).buffer.drop (st.offset + (idn ++ [nul]).length), ?_⟩
      rw [drop_overwrite, List.append_assoc, List.singleton_append]
    · rw [hostState_offset]
  · rw [hread] at hnot
    refine .inr ⟨fun ⟨idn, hconv⟩ => hnot idn hconv, rfl, ⟨rfl, rfl, rfl⟩,
      fun hno => marks_host hno ⟨rfl, rfl, rfl⟩ rfl ⟨rfl, rfl, rfl⟩, hlaid, ?_, ?_,
      hostState_offset _ _ _ _⟩
    · obtain ⟨tail, htail⟩ := cString_tail (b := v ++ nul :: w) (by simp)
      rw [cString_nul] at htail
      refine ⟨tail ++ st.buffer.drop (st.offset + (v ++ nul :: w).length), ?_⟩
      have hdrop : (hostState st v w port).buffer.drop st.offset =
          v ++ nul :: w ++ st.buffer.drop (st.offset + (v ++ nul :: w).length) :=
            drop_overwrite _ _ _
      rw [hdrop, htail]
      simp
    · intro hmem
      simpa using List.mem_takeWhile_imp hmem

theorem literal_noNul {b addr rest : Bytes} (h : literalOf S b = some (addr, rest)) :
    nul ∉ addr := by
  unfold literalOf ip6Text at h
  split_ifs at h
  split at h
  · cases h
  · obtain ⟨text, htext, heq⟩ := Option.map_eq_some_iff.mp h
    cases heq
    have hnul := S.inet6_noNul _ _ htext
    simp [hnul]
    decide

theorem length_cString_eq {v : Bytes} : (cString v).length = v.length ↔ nul ∉ v := by
  constructor
  · intro hlen hmem
    have heq : cString v = v := (List.takeWhile_sublist _).eq_of_length hlen
    rw [← heq] at hmem
    simpa using List.mem_takeWhile_imp hmem
  · intro h
    rw [cString_of_noNul h]

/-- The offset comes to the end of the host exactly if the host fits. -/
theorem hostEnds_iff (hhost : st.host = none) {b behind : Bytes} (hb : b ≠ [])
    (h : parseHostinfo S flags st (.on b behind) = .ok st') :
    ∃ name n, HostEnds st st' name n ∧
      (n = st.offset + name.length + 1 ↔ HostFits S flags st (.on b behind)) := by
  obtain ⟨v, w, port, len, hlaid, hidn⟩ := parseHostinfo_laid hhost hb h
  have hends := hostEnds hidn
  unfold HostFits
  rw [UrlCursor.on_rest, UrlCursor.on_after]
  cases hlaid with
  | @literal rest w port hhead hip hloop =>
    have hlit : literalOf S b = some (v, rest) := (if_pos hhead).trans hip
    have hplain : cString v = v := cString_of_noNul (literal_noNul hlit)
    have honly : ∀ {P : Bytes → Prop},
        (∀ w' port', hostLoop S flags st.port (.on rest behind) = .ok (w', port') → P w') ↔
        P w := by
      intro P
      constructor
      · exact fun hall => hall w port hloop
      · intro hw w' port' hloop'
        rw [hloop] at hloop'
        cases hloop'
        exact hw
    rw [hlit]
    dsimp only
    rw [honly]
    rw [hplain] at hends
    rcases hends with ⟨idn, hconv, hends⟩ | ⟨hnot, hends⟩
    · refine ⟨_, _, hends, ?_⟩
      have hconverts : Converts S flags v := ⟨idn, hconv⟩
      simp only [hconverts, not_true_eq_false, false_and, or_false, true_and]
      omega
    · refine ⟨_, _, hends, ?_⟩
      simp only [hnot, not_false_eq_true, false_and, false_or, true_and]
      rw [← List.length_eq_zero_iff]
      omega
  | @name port hlit hloop =>
    have hnone : literalOf S b = none := by
      unfold literalOf
      split_ifs with hhead
      · exact (hlit hhead).1
      · rfl
    have honly : ∀ {P : Bytes → Prop},
        (∀ v' port', hostLoop S flags st.port (.on b behind) = .ok (v', port') → P v') ↔
        P v := by
      intro P
      constructor
      · exact fun hall => hall v port hloop
      · intro hv v' port' hloop'
        rw [hloop] at hloop'
        cases hloop'
        exact hv
    rw [hnone]
    dsimp only
    rw [honly]
    rcases hends with ⟨idn, hconv, hends⟩ | ⟨hnot, hends⟩
    · refine ⟨_, _, hends, ?_⟩
      have hconverts : Converts S flags (cString v) := ⟨idn, hconv⟩
      simp only [hconverts, true_or, iff_true, List.length_nil]
      omega
    · refine ⟨_, _, hends, ?_⟩
      rw [← length_cString_eq]
      simp only [hnot, false_or, List.length_nil]
      omega

/-- All strings are complete if the offset is behind the host. -/
theorem HostEnds.ready {name : Bytes} {n : ℕ} (h : HostEnds st st' name n) (hready : st.Ready)
    (hno : st.NoHost) (hn : n = st.offset + name.length + 1) : st'.Ready := by
  have hmarks := h.marks hno
  obtain ⟨tail, htail⟩ := h.buffer
  have hlaid : st.laid <+: st'.laid := by
    have hlen : st.laid.length ≤ st.offset := List.length_take_le _ _
    refine List.prefix_take_iff.mpr ⟨h.laid, ?_⟩
    rw [h.offset]
    omega
  refine ⟨?_, hready.apart.component hready.sealed h.laid hmarks⟩
  intro i hi
  rw [hmarks, List.mem_append, List.mem_singleton] at hi
  rcases hi with hi | rfl
  · have hnul := hready.sealed i hi
    have hle : i ≤ st.laid.length := by
      by_contra hlt
      rw [List.drop_eq_nil_of_le (by omega)] at hnul
      cases hnul
    obtain ⟨more, hmore⟩ := hlaid
    rw [← hmore, List.drop_append_of_le_length hle]
    exact List.mem_append_left _ hnul
  · have hhost : st'.laid.drop st.offset = name ++ [nul] := by
      rw [UrlState.laid, h.offset, hn, List.drop_take, htail]
      have hlen : st.offset + name.length + 1 - st.offset = (name ++ [nul]).length := by simp; omega
      have hsplit : name ++ nul :: tail = (name ++ [nul]) ++ tail := by simp
      rw [hlen, hsplit, List.take_left]
    rw [hhost]
    simp

/-- In every parse the offset is behind the host, and the strings stay apart, exactly if the host
fits. -/
theorem hostinfo_settled_iff {str after : Bytes} (hat : after.head? ≠ some atSign)
    {info : UrlCursor} (hreach : UrlReaches S flags str after ⟨.host (some info), st, cur⟩)
    (h : parseHostinfo S flags st info = .ok st') : HostSettled S flags st' cur ↔
      HostFits S flags st info := by
  obtain ⟨hready, hno, hinfo⟩ := hreach.upToHost hat
  obtain ⟨b, behind, hb, rfl⟩ := hinfo info rfl
  obtain ⟨name, n, hends, hfits⟩ := hostEnds_iff hno.host hb h
  rw [← hfits]
  constructor
  · rintro ⟨⟨i, hi, hoffset, -⟩, -, -⟩
    rw [hends.host, Option.mem_some_iff] at hi
    subst hi
    rw [hends.read, hends.offset] at hoffset
    exact hoffset
  · intro hn
    have htail : Tail ⟨.path, st', cur⟩ := ⟨hends.ready hready hno hn,
      hends.others.1.trans hno.path, hends.others.2.1.trans hno.query,
      hends.others.2.2.trans hno.fragment⟩
    have hall : ∀ x, Steps.Reaches (urlStep S flags) ⟨.path, st', cur⟩ x → Tail x := fun x hx =>
      hx.invariant (fun _ _ hx hstep => (hx.step hstep).1) htail
    refine ⟨⟨st.offset, hends.host, ?_, ?_⟩, fun x hx => (hall x hx).1.apart,
      fun x y hx hstep => ((hall x hx).step hstep).2⟩
    · rw [hends.read, hends.offset, hn]
    · obtain ⟨tail, htail⟩ := hends.buffer
      rw [hends.read, ← List.getElem?_drop, htail]
      simp

/-- The state before a host behind a scheme and a user -/
def behindUser (scheme user : Bytes) : UrlState :=
  { urlStart with
    buffer := scheme ++ nul :: (user ++ [nul])
    offset := scheme.length + 1 + (user.length + 1)
    scheme := some 0
    user := some (scheme.length + 1) }

/-- `http://u@h/a` -/
theorem hostinfo_settled_name : HostSettled plainSystem .std
    { behindUser (ascii "http") (ascii "u") with
      buffer := ascii "http" ++ nul :: (ascii "u" ++ nul :: (ascii "h" ++ [nul]))
      offset := 9
      host := some 7 }
    (.on (ascii "/a") [nul]) := by
  have hrun : Steps.run (urlStep plainSystem .std) 3
      ⟨.scheme, urlStart, .on (ascii "http://u@h/a") [nul]⟩ =
      .ok ⟨.host (some (.on (ascii "h") (ascii "/a" ++ [nul]))),
        behindUser (ascii "http") (ascii "u"), .on (ascii "/a") [nul]⟩ := by decide
  have hhost : parseHostinfo plainSystem .std (behindUser (ascii "http") (ascii "u"))
      (.on (ascii "h") (ascii "/a" ++ [nul])) = .ok { behindUser (ascii "http") (ascii "u") with
        buffer := ascii "http" ++ nul :: (ascii "u" ++ nul :: (ascii "h" ++ [nul])), offset := 9,
          host := some 7 } := by
    decide
  refine (hostinfo_settled_iff (by decide) (Steps.reaches_of_run hrun) hhost).mpr ?_
  have hloop : hostLoop plainSystem .std 0 (.on (ascii "h") (ascii "/a" ++ [nul])) =
      .ok (ascii "h", 0) := by
    decide
  intro v port h
  have hsame := hloop.symm.trans h
  cases hsame
  exact .inr (by decide)

/-- `http://averylonguser@[::1]:80/a?q`: the offset comes into the user. -/
theorem hostinfo_unsettled : ∃ st st' info cur,
    UrlReaches plainSystem .std (ascii "http://averylonguser@[::1]:80/a?q") [nul]
      ⟨.host (some info), st, cur⟩ ∧
      parseHostinfo plainSystem .std st info = .ok st' ∧ ¬ HostSettled plainSystem .std st' cur ∧
        (urlParse plainSystem .std (ascii "http://averylonguser@[::1]:80/a?q")
          [nul]).map HttpUrl.user = .ok (some (ascii "averyl/a")) := by
  have hrun : Steps.run (urlStep plainSystem .std) 3
      ⟨.scheme, urlStart, .on (ascii "http://averylonguser@[::1]:80/a?q") [nul]⟩ =
      .ok ⟨.host (some (.on (ascii "[::1]:80") (ascii "/a?q" ++ [nul]))),
        behindUser (ascii "http") (ascii "averylonguser"), .on (ascii "/a?q") [nul]⟩ := by decide
  refine ⟨behindUser (ascii "http") (ascii "averylonguser"),
    { behindUser (ascii "http") (ascii "averylonguser") with
      buffer := ascii "http" ++ nul :: (ascii "averylonguser" ++ nul :: (ascii "[::1]" ++ [nul]))
      offset := 11
      host := some 19
      port := 80 }, _, _, Steps.reaches_of_run hrun, by decide, ?_, by decide⟩
  rintro ⟨⟨i, hi, hoffset, -⟩, -, -⟩
  cases hi
  revert hoffset
  decide

end UrlScanner

end ExtHttp
