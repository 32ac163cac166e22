import ExtHttp.Url

/-!
# What the URL parser reads

The parser without its buffer: the components come out as they are written. It does the same as
`php_http_url_parse` unless the components of that one get in each other's way.
-/
namespace ExtHttp
open Scan

/-! ### The parser on components -/

def readScheme (L : UrlLibs) (u : HttpUrl) (str after : Bytes) : HttpUrl × Bytes :=
  match scan isColon (schemeWord L) after true 0 str with
  | some ⟨scheme, _, _ :: rest, _⟩ => ({ u with scheme := some (cString scheme) }, rest)
  | _ => (u, str)

def readUserinfo (u : HttpUrl) (userinfo after : Bytes) : Option HttpUrl := do
  let user ← scan isColon userinfoWord after () 0 userinfo
  let u := { u with user := some (cString user.written) }
  match user.rest with
  | [] => some u
  | _ :: rest => do
      let pass ← scan never userinfoWord after () 0 rest
      some { u with pass := some (cString pass.written) }

/-- What the IDN library makes of a name. -/
def idnName (L : UrlLibs) (host : Bytes) : Option Bytes :=
  match L.idna with
  | none => some host
  | some idna => idna host

def readHostRest (L : UrlLibs) (u : HttpUrl) (literal : Option Bytes) (hostinfo after : Bytes) :
    Option HttpUrl := do
  let host ← scan isColon hostWord after false 0 hostinfo
  let port ← portScan u.port host.rest after
  (idnName L (cString (literal.getD (host.written ++ port.written)))).map fun name =>
    { u with host := some (cString name), port := port.state }

def readHostinfo (L : UrlLibs) (u : HttpUrl) (hostinfo after : Bytes) : Option HttpUrl :=
  if hostinfo.head? = some 91 then
    (ip6Text L hostinfo).bind fun o => readHostRest L u (some o.1) o.2 after
  else readHostRest L u none hostinfo after

def readUserPart (u : HttpUrl) (rest after : Bytes) : Option (HttpUrl × Bytes × Bytes) :=
  let part := rest.takeWhile inAuthority
  let left := rest.dropWhile inAuthority
  if left.head? = some atSign then
    (if part = [] then some u else readUserinfo u part (left ++ after)).map fun u =>
      (u, left.tail.takeWhile inAuthority, left.tail.dropWhile inAuthority)
  else some (u, part, left)

def readAuthority (L : UrlLibs) (u : HttpUrl) (rest after : Bytes) : Option (HttpUrl × Bytes) :=
  (readUserPart u rest after).bind fun (u, part, left) =>
    if left.head? = some atSign then none
    else (if part = [] then some u else readHostinfo L u part (left ++ after)).map fun u =>
      (u, left)

def readPath (u : HttpUrl) (rest after : Bytes) : Option (HttpUrl × Bytes × ℕ) :=
  if current rest after = nul then some (u, rest, 0)
  else (scanDo isPathEnd pathWord after () rest).map fun path =>
    if path.rest.length = rest.length ∧ path.excess = 0 then (u, rest, 0)
    else ({ u with path := some (cString path.written) }, path.rest, path.excess)

def readHier (L : UrlLibs) (u : HttpUrl) (rest after : Bytes) : Option (HttpUrl × Bytes × ℕ) :=
  let authority := if rest.take 2 = [slash, slash] then readAuthority L u (rest.drop 2) after
    else some (u, rest)
  authority.bind fun (u, rest) => readPath u rest after

def readQuery (u : HttpUrl) (rest : Bytes) (excess : ℕ) (after : Bytes) :
    Option (HttpUrl × Bytes × ℕ) := do
  let c ← (rest ++ after)[excess]?
  if c ≠ question then some (u, rest, excess)
  else match rest with
    | [] => some ({ u with query := some [] }, [], excess + 1)
    | _ :: rest => (scan isHash queryWord after () 0 rest).map fun query =>
        ({ u with query := some (cString query.written) }, query.rest, query.excess)

def readFragment (u : HttpUrl) (rest : Bytes) (excess : ℕ) (after : Bytes) : Option HttpUrl := do
  let c ← (rest ++ after)[excess]?
  if c ≠ hash then some u
  else (fragmentScan rest excess after).map fun fragment =>
    { u with fragment := some (cString fragment.written) }

def noUrl : HttpUrl := ⟨none, none, none, none, 0, none, none, none⟩

def urlRead (L : UrlLibs) (str after : Bytes) : Option HttpUrl := do
  let (u, rest) := readScheme L noUrl str after
  let (u, rest, excess) ← readHier L u rest after
  let (u, rest, excess) ← readQuery u rest excess after
  readFragment u rest excess after

/-! ### The buffer -/

theorem cString_append {v : Bytes} (h : nul ∈ v) (w : Bytes) : cString (v ++ w) = cString v := by
  have hne : ¬ (cString v).length = v.length := fun hlen => by
    have heq : cString v = v := (List.takeWhile_sublist _).eq_of_length hlen
    simpa using List.takeWhile_eq_self_iff.mp heq nul h
  exact List.takeWhile_append.trans (if_neg hne)

theorem length_pad (b : Bytes) (n : ℕ) :
    ((b ++ List.replicate (n - b.length) nul).take n).length = n := by
  simp only [List.length_take, List.length_append, List.length_replicate]
  omega

namespace UrlState
variable (st : UrlState)

/-- Where components begin. -/
def marks : List ℕ :=
  [st.scheme, st.user, st.pass, st.host, st.path, st.query, st.fragment].filterMap id

/-- What has been written up to the offset. -/
def laid : Bytes := st.buffer.take st.offset

/-- Every component has come to its end. -/
def Sealed : Prop := ∀ i ∈ st.marks, nul ∈ st.laid.drop i

variable {st}

theorem read_of_laid {i : ℕ} {b : Bytes} (h : nul ∈ st.laid.drop i) (hb : st.laid <+: b) :
    cString (b.drop i) = st.read i := by
  have hi : i ≤ st.laid.length := by
    by_contra hlt
    rw [List.drop_eq_nil_of_le (by omega)] at h
    cases h
  have hread : ∀ {b : Bytes}, st.laid <+: b → cString (b.drop i) = cString (st.laid.drop i) := by
    rintro _ ⟨t, rfl⟩
    rw [List.drop_append_of_le_length hi, cString_append h]
  rw [hread hb]
  exact (hread (List.take_prefix _ _)).symm

@[simp] theorem laid_put (w : Bytes) : (st.put w).laid =
    (st.buffer ++ List.replicate (st.offset - st.buffer.length) nul).take st.offset ++ w := by
  unfold put laid overwrite
  rw [List.take_left']
  rw [List.length_append, length_pad]

theorem laid_prefix_put (w : Bytes) : st.laid <+: (st.put w).laid := by
  rw [laid_put]
  refine List.IsPrefix.trans ?_ (List.prefix_append _ _)
  rw [List.take_append]
  exact List.prefix_append _ _

theorem read_put (w : Bytes) : (st.put (w ++ [nul])).read st.offset = cString w := by
  have hlaid : (st.put (w ++ [nul])).laid.drop st.offset = w ++ [nul] := by
    rw [laid_put, List.drop_left' (length_pad _ _)]
  have hnul : nul ∈ (st.put (w ++ [nul])).laid.drop st.offset := by
    rw [hlaid]
    simp
  rw [← read_of_laid hnul (List.prefix_refl _), hlaid]
  by_cases h : nul ∈ w
  · exact cString_append h _
  · rw [cString_of_noNul h, cString, List.takeWhile_append_of_pos]
    · simp
    · intro c hc
      have hne : c ≠ nul := fun he => h (he ▸ hc)
      simpa using hne

/-- The components are there as `u`, and sealed. -/
structure Shows (st : UrlState) (u : HttpUrl) : Prop where
  url : st.url = u
  sealed : st.Sealed

/-- Nothing changes as long as what has been laid down stays. -/
theorem Shows.keep {st' : UrlState} {u : HttpUrl} (h : st.Shows u) (hb : st.laid <+: st'.laid)
    (hmarks : st' = { st with buffer := st'.buffer, offset := st'.offset }) : st'.Shows u := by
  have hbuffer : st.laid <+: st'.buffer := hb.trans (List.take_prefix _ _)
  have hmap : ∀ m : Option ℕ, (∀ i ∈ m, i ∈ st.marks) → m.map st'.read = m.map st.read := by
    intro m hm
    cases m with
    | none => rfl
    | some i => exact congrArg some (read_of_laid (h.sealed i (hm i rfl)) hbuffer)
  refine ⟨?_, ?_⟩
  · rw [← h.url]
    have hread : st'.url = ⟨st.scheme.map st'.read, st.user.map st'.read, st.pass.map st'.read,
        st.host.map st'.read, st.port, st.path.map st'.read, st.query.map st'.read,
        st.fragment.map st'.read⟩ := by
      conv_lhs => rw [hmarks]
      rfl
    rw [hread, hmap st.scheme, hmap st.user, hmap st.pass, hmap st.host, hmap st.path,
      hmap st.query, hmap st.fragment]
    · rfl
    all_goals
      intro i hi
      simp [marks, Option.mem_def.mp hi]
  · intro i hi
    have hmark : i ∈ st.marks := by
      rw [hmarks] at hi
      exact hi
    obtain ⟨t, ht⟩ := hb
    have hnul := h.sealed i hmark
    have hle : i ≤ st.laid.length := by
      by_contra hlt
      rw [List.drop_eq_nil_of_le (by omega)] at hnul
      cases hnul
    rw [← ht, List.drop_append_of_le_length hle]
    exact List.mem_append_left _ hnul

theorem Shows.put {u : HttpUrl} (h : st.Shows u) (w : Bytes) : (st.put w).Shows u :=
  h.keep (laid_prefix_put w) rfl

/-- A component that is written behind the others. -/
theorem Shows.component {u u' : HttpUrl} (h : st.Shows u) (w : Bytes) {st' : UrlState}
    (hlaid : st'.laid = (st.put (w ++ [nul])).laid)
    (hmarks : ∀ i ∈ st'.marks, i ∈ st.marks ∨ i = st.offset)
    (hurl : (st.put (w ++ [nul])).url = u → (st.put (w ++ [nul])).read st.offset = cString w →
      st'.url = u') : st'.Shows u' := by
  have hput := h.put (w ++ [nul])
  refine ⟨hurl hput.url (read_put w), fun i hi => ?_⟩
  rw [hlaid]
  rcases hmarks i hi with hi | rfl
  · exact hput.sealed i hi
  · rw [laid_put, List.drop_left' (length_pad _ _)]
    simp

end UrlState

open UrlState

variable {st : UrlState} {u : HttpUrl} {L : UrlLibs}

theorem Option.Rel.bind' {α β γ δ : Type} {R : α → β → Prop} {S : γ → δ → Prop} {x : Option α}
    {y : Option β} {f : α → Option γ} {g : β → Option δ} (h : Option.Rel R x y)
    (hfg : ∀ a b, R a b → Option.Rel S (f a) (g b)) : Option.Rel S (x >>= f) (y >>= g) := by
  cases h with
  | none => exact .none
  | some hab => exact hfg _ _ hab

theorem Option.Rel.map' {α γ δ : Type} {S : γ → δ → Prop} {f : α → γ} {g : α → δ}
    (hfg : ∀ a, S (f a) (g a)) (x : Option α) : Option.Rel S (x.map f) (x.map g) := by
  cases x with
  | none => exact .none
  | some a => exact .some (hfg a)

theorem Option.Rel.map_rel {α β γ δ : Type} {R : α → β → Prop} {S : γ → δ → Prop} {x : Option α}
    {y : Option β} {f : α → γ} {g : β → δ} (h : Option.Rel R x y)
    (hfg : ∀ a b, R a b → S (f a) (g b)) : Option.Rel S (x.map f) (y.map g) := by
  cases h with
  | none => exact .none
  | some hab => exact .some (hfg _ _ hab)

theorem Option.Rel.bind_same {α γ δ : Type} {S : γ → δ → Prop} {f : α → Option γ}
    {g : α → Option δ} (x : Option α) (hfg : ∀ a, Option.Rel S (f a) (g a)) :
    Option.Rel S (x >>= f) (x >>= g) := by
  cases x with
  | none => exact .none
  | some a => exact hfg a

abbrev ShowsPair {α : Type} (x : UrlState × α) (y : HttpUrl × α) : Prop :=
  x.1.Shows y.1 ∧ x.2 = y.2

theorem parseUserinfo_shows (h : st.Shows u) (userinfo after : Bytes) :
    Option.Rel Shows (parseUserinfo st userinfo after) (readUserinfo u userinfo after) := by
  refine Option.Rel.bind_same _ fun user => ?_
  have huser : ({ st with user := some st.offset }.put (user.written ++ [nul])).Shows
      { u with user := some (cString user.written) } :=
    h.component user.written rfl (by simp [marks, UrlState.put]; grind) fun hu hr => by
      rw [← hu, ← hr]
      rfl
  generalize ({ st with user := some st.offset }.put (user.written ++ [nul]) : UrlState) = st',
    ({ u with user := some (cString user.written) } : HttpUrl) = u' at huser ⊢
  cases hrest : user.rest with
  | nil => simpa [hrest] using Option.Rel.some huser
  | cons c rest =>
    refine Option.Rel.bind_same _ fun pass => .some ?_
    refine huser.component pass.written rfl (by simp [marks, UrlState.put]; grind) fun hu hr => ?_
    rw [← hu, ← hr]
    rfl

theorem parseUserPart_shows (h : st.Shows u) (rest after : Bytes) :
    Option.Rel ShowsPair (parseUserPart st rest after) (readUserPart u rest after) := by
  unfold parseUserPart readUserPart
  dsimp only
  split_ifs
  · exact .some ⟨h, rfl⟩
  · exact Option.Rel.map_rel (parseUserinfo_shows h _ _) fun _ _ h => ⟨h, rfl⟩
  · exact .some ⟨h, rfl⟩

theorem parsePath_shows (h : st.Shows u) (rest after : Bytes) :
    Option.Rel ShowsPair (parsePath st rest after) (readPath u rest after) := by
  unfold parsePath readPath
  split_ifs
  · exact .some ⟨h, rfl⟩
  · refine Option.Rel.map' (fun path => ?_) _
    split_ifs
    · exact ⟨h, rfl⟩
    · refine ⟨h.component path.written rfl (by simp [marks, UrlState.put]; grind) fun hu hr => ?_,
        rfl⟩
      rw [← hu, ← hr]
      rfl

theorem parseQuery_shows (h : st.Shows u) (rest : Bytes) (excess : ℕ) (after : Bytes) :
    Option.Rel ShowsPair (parseQuery st rest excess after) (readQuery u rest excess after) := by
  refine Option.Rel.bind_same _ fun c => ?_
  split_ifs
  · exact .some ⟨h, rfl⟩
  · cases rest with
    | nil =>
      have hquery : ({ st with query := some st.offset }.put ([] ++ [nul])).Shows
          { u with query := some (cString []) } :=
        h.component [] rfl (by simp [marks, UrlState.put]; grind) fun hu hr => by
          rw [← hu, ← hr]
          rfl
      exact .some ⟨hquery, rfl⟩
    | cons c rest =>
      refine Option.Rel.map' (fun query => ?_) _
      refine ⟨h.component query.written rfl (by simp [marks, UrlState.put]; grind) fun hu hr => ?_,
        rfl⟩
      rw [← hu, ← hr]
      rfl

theorem parseFragment_shows (h : st.Shows u) (rest : Bytes) (excess : ℕ) (after : Bytes) :
    Option.Rel Shows (parseFragment st rest excess after) (readFragment u rest excess after) := by
  refine Option.Rel.bind_same _ fun c => ?_
  split_ifs
  · exact .some h
  · refine Option.Rel.map' (fun fragment => ?_) _
    refine h.component fragment.written rfl (by simp [marks, UrlState.put]; grind) fun hu hr => ?_
    rw [← hu, ← hr]
    rfl

theorem parseScheme_shows (L : UrlLibs) (str after : Bytes) :
    ShowsPair (parseScheme L urlStart str after) (readScheme L noUrl str after) := by
  have hstart : urlStart.Shows noUrl := ⟨rfl, by simp [Sealed, marks, urlStart]⟩
  unfold parseScheme readScheme
  generalize scan isColon (schemeWord L) after true 0 str = o
  match o with
  | none => exact ⟨hstart, rfl⟩
  | some ⟨_, _, [], _⟩ => exact ⟨hstart, rfl⟩
  | some ⟨scheme, _, _ :: rest, _⟩ =>
    refine ⟨?_, rfl⟩
    change ({ urlStart.put (scheme ++ [nul]) with scheme := some 0 } : UrlState).Shows
      { noUrl with scheme := some (cString scheme) }
    refine hstart.component scheme rfl (by simp [marks, UrlState.put, urlStart]) fun hu hr => ?_
    rw [← hu, ← hr]
    rfl

/-! ### The host -/

theorem put_put (st : UrlState) (a b : Bytes) : (st.put a).put b = st.put (a ++ b) := by
  have hbuffer : overwrite (overwrite st.buffer st.offset a) (st.offset + a.length) b =
      overwrite st.buffer st.offset (a ++ b) := by
    have hpad := length_pad st.buffer st.offset
    unfold overwrite
    generalize (st.buffer ++ List.replicate (st.offset - st.buffer.length) nul).take st.offset = pad
      at hpad
    rw [List.append_assoc (pad ++ a), List.take_left' (by rw [List.length_append, hpad]),
      ← List.drop_drop, List.drop_left' (by rw [List.length_append, hpad]), List.drop_drop,
      List.length_append, Nat.add_assoc]
    simp
  unfold put
  simp only [hbuffer, List.length_append, Nat.add_assoc]

/-- The name is laid down as `w` at the end of `st`, and may be replaced by another there. -/
theorem parseIdna_shows (h : st.Shows u) (w : Bytes) (port : ℕ) {st₁ : UrlState} {n : ℕ}
    (hst₁ : st₁ = { st with
      buffer := st₁.buffer, offset := st₁.offset, host := some st.offset, port := port })
    (hlaid : (st.put (w ++ [nul])).laid <+: st₁.laid)
    (hn : L.idna.isSome = true → st.offset + 1 + n ≤ st₁.offset) :
    Option.Rel Shows (parseIdna L st₁ st.offset n)
      ((idnName L (cString w)).map fun name =>
        { u with host := some (cString name), port := port }) := by
  have hput : ∀ v : Bytes, ({ st.put (v ++ [nul]) with host := some st.offset, port := port } :
      UrlState).Shows { u with host := some (cString v), port := port } := fun v => by
    refine h.component v rfl (by simp [marks, UrlState.put]; grind) fun hu hr => ?_
    rw [← hu, ← hr]
    rfl
  have hshows : st₁.Shows { u with host := some (cString w), port := port } := by
    refine (hput w).keep hlaid ?_
    conv_lhs => rw [hst₁]
    rfl
  have hread : st₁.read st.offset = cString w := by
    have hhost := congrArg HttpUrl.host hshows.url
    have hmark : st₁.host = some st.offset := by rw [hst₁]
    simpa [url, hmark] using hhost
  unfold parseIdna idnName
  cases hidna : L.idna with
  | none =>
    have hname : cString (cString w) = cString w := cString_of_noNul fun hmem => by
      simpa using List.mem_takeWhile_imp hmem
    simpa only [Option.map_some, hname] using Option.Rel.some hshows
  | some idna =>
    dsimp only
    rw [hread]
    refine Option.Rel.map' (fun idn => ?_) _
    have hn := hn (by rw [hidna]; rfl)
    refine (hput idn).keep ?_ ?_
    · have hbuffer := hlaid.trans (List.take_prefix st₁.offset st₁.buffer)
      change (st.put (idn ++ [nul])).laid <+:
        (overwrite st₁.buffer st.offset (idn ++ [nul])).take (st₁.offset + idn.length - n)
      have hpad := length_pad st.buffer st.offset
      rw [laid_put] at hbuffer ⊢
      generalize (st.buffer ++ List.replicate (st.offset - st.buffer.length) nul).take st.offset =
        pad at hpad hbuffer ⊢
      obtain ⟨t, ht⟩ := hbuffer
      have htake : (st₁.buffer ++ List.replicate (st.offset - st₁.buffer.length) nul).take
          st.offset =
          pad := by
        rw [← ht, List.append_assoc, List.append_assoc, List.take_left' hpad]
      refine List.prefix_take_iff.mpr ⟨?_, ?_⟩
      · rw [overwrite, htake]
        exact List.prefix_append _ _
      · simp only [List.length_append, List.length_singleton, hpad]
        omega
    · conv_lhs => rw [hst₁]
      rfl

theorem ip6Text_literal {hostinfo a rest : Bytes} (h : ip6Text L hostinfo = some (a, rest)) :
    ∃ addr ∈ L.inet6 (hostinfo.tail.takeWhile (· ≠ 93)), a = 91 :: addr ++ [93] := by
  unfold ip6Text at h
  split at h
  · cases h
  · obtain ⟨addr, haddr, heq⟩ := Option.map_eq_some_iff.mp h
    exact ⟨addr, haddr, (congrArg Prod.fst heq).symm⟩

/-- With an IDN library, a literal address has as many characters as there are bytes in front of
it. -/
def Roomy (L : UrlLibs) (offset : ℕ) (hostinfo : Bytes) : Prop :=
  L.idna.isSome = true → hostinfo.head? = some 91 →
    ∀ a rest, ip6Text L hostinfo = some (a, rest) → offset ≤ a.length

theorem parseHostRest_shows (h : st.Shows u) (hhost : st.host = none) (hostinfo after : Bytes) :
    Option.Rel Shows (parseHostRest L st.offset st hostinfo after)
      (readHostRest L u none hostinfo after) := by
  have hport : u.port = st.port := by rw [← h.url]; rfl
  unfold parseHostRest readHostRest
  rw [hport]
  refine Option.Rel.bind_same _ fun host => Option.Rel.bind_same _ fun port => ?_
  have hput := put_put st (host.written ++ port.written) [nul]
  have hlen : (st.put (host.written ++ port.written)).offset - st.offset =
      (host.written ++ port.written).length := by simp [UrlState.put]
  simp only [show (st.put (host.written ++ port.written)).host = none from hhost, hlen]
  refine parseIdna_shows h (host.written ++ port.written) port.state rfl ?_ fun _ => ?_
  · rw [← hput]
    exact List.prefix_refl _
  · simp only [UrlState.put, List.length_singleton]
    omega

theorem parseHostRest_literal (h : st.Shows u) (a hostinfo after : Bytes)
    (hroomy : L.idna.isSome = true → st.offset ≤ a.length) :
    Option.Rel Shows
      (parseHostRest L st.offset ({ st with host := some st.offset }.put (a ++ [nul]))
        hostinfo after)
      (readHostRest L u (some a) hostinfo after) := by
  have hport : u.port = st.port := by rw [← h.url]; rfl
  unfold parseHostRest readHostRest
  rw [hport]
  refine Option.Rel.bind_same _ fun host => Option.Rel.bind_same _ fun port => ?_
  refine parseIdna_shows h a port.state rfl ?_ fun hidna => ?_
  · exact (laid_prefix_put _ : (st.put (a ++ [nul])).laid <+: _)
  · have := hroomy hidna
    simp only [UrlState.put, List.length_append, List.length_singleton]
    omega

theorem parseHostinfo_shows (h : st.Shows u) (hhost : st.host = none) {hostinfo : Bytes}
    (hroomy : Roomy L st.offset hostinfo) (after : Bytes) :
    Option.Rel Shows (parseHostinfo L st hostinfo after) (readHostinfo L u hostinfo after) := by
  unfold parseHostinfo readHostinfo
  split_ifs with hhead
  · unfold parseIp6
    cases hip : ip6Text L hostinfo with
    | none => exact .none
    | some o => exact parseHostRest_literal h o.1 o.2 after fun hidna => hroomy hidna hhead _ _ hip
  · exact parseHostRest_shows h hhost hostinfo after

/-! ### The whole -/

theorem Option.Rel.bind_mem {α β γ δ : Type} {R : α → β → Prop} {S : γ → δ → Prop} {x : Option α}
    {y : Option β} {f : α → Option γ} {g : β → Option δ} (h : Option.Rel R x y)
    (hfg : ∀ a ∈ x, ∀ b, R a b → Option.Rel S (f a) (g b)) :
    Option.Rel S (x.bind f) (y.bind g) := by
  cases h with
  | none => exact .none
  | some hab => exact hfg _ rfl _ hab

theorem parseUserPart_host {rest after : Bytes} :
    ∀ o ∈ parseUserPart st rest after, o.1.host = st.host := by
  have huserinfo : ∀ userinfo after, ∀ st' ∈ parseUserinfo st userinfo after,
      st'.host = st.host := by
    intro userinfo after st' h
    obtain ⟨user, -, h⟩ := Option.bind_eq_some_iff.mp h
    split at h
    · cases h
      rfl
    · obtain ⟨pass, -, h⟩ := Option.bind_eq_some_iff.mp h
      cases h
      rfl
  intro o ho
  unfold parseUserPart at ho
  dsimp only at ho
  split_ifs at ho
  · cases ho
    rfl
  · obtain ⟨st', hst', rfl⟩ := Option.map_eq_some_iff.mp ho
    exact huserinfo _ _ _ hst'
  · cases ho
    rfl

theorem parseAuthority_shows (h : st.Shows u) (hhost : st.host = none) {rest after : Bytes}
    (hroomy : ∀ o ∈ parseUserPart st rest after, Roomy L o.1.offset o.2.1) :
    Option.Rel ShowsPair (parseAuthority L st rest after) (readAuthority L u rest after) := by
  unfold parseAuthority readAuthority
  refine Option.Rel.bind_mem (parseUserPart_shows h rest after) fun o ho o' hoo => ?_
  obtain ⟨st, part, left⟩ := o
  obtain ⟨u, part', left'⟩ := o'
  obtain ⟨h, heq⟩ := hoo
  obtain ⟨rfl, rfl⟩ := Prod.mk.inj heq
  dsimp only
  split_ifs
  · exact .none
  · exact .some ⟨h, rfl⟩
  · have hhost := (parseUserPart_host _ ho).trans hhost
    exact Option.Rel.map_rel (parseHostinfo_shows h hhost (hroomy _ ho) _) fun _ _ h => ⟨h, rfl⟩

theorem parseHier_shows (h : st.Shows u) (hhost : st.host = none) {rest after : Bytes}
    (hroomy : rest.take 2 = [slash, slash] →
      ∀ o ∈ parseUserPart st (rest.drop 2) after, Roomy L o.1.offset o.2.1) :
    Option.Rel ShowsPair (parseHier L st rest after) (readHier L u rest after) := by
  unfold parseHier readHier
  refine Option.Rel.bind' (R := ShowsPair) ?_ fun o o' hoo => ?_
  · split_ifs with hslash
    · exact parseAuthority_shows h hhost (hroomy hslash)
    · exact .some ⟨h, rfl⟩
  · obtain ⟨st, rest⟩ := o
    obtain ⟨u, rest'⟩ := o'
    obtain ⟨h, rfl⟩ := hoo
    exact parsePath_shows h _ _

/-- The state and the text that `parse_hostinfo` is called with, if it is. -/
def hostinfoAt (L : UrlLibs) (str after : Bytes) : Option (ℕ × Bytes) :=
  let (st, rest) := parseScheme L urlStart str after
  if rest.take 2 = [slash, slash] then
    (parseUserPart st (rest.drop 2) after).map fun o => (o.1.offset, o.2.1)
  else none

/-- Where the literal address has room enough, the buffer makes no difference. -/
theorem urlParse_eq_read {str after : Bytes}
    (hroomy : ∀ o ∈ hostinfoAt L str after, Roomy L o.1 o.2) :
    urlParse L str after = urlRead L str after := by
  have hscheme := parseScheme_shows L str after
  have hhost : (parseScheme L urlStart str after).1.host = none := by
    unfold parseScheme
    split <;> rfl
  unfold hostinfoAt at hroomy
  unfold urlParse urlRead
  generalize parseScheme L urlStart str after = o, readScheme L noUrl str after = o'
    at hscheme hhost hroomy ⊢
  obtain ⟨st, rest⟩ := o
  obtain ⟨u, rest'⟩ := o'
  obtain ⟨hshows, rfl⟩ := hscheme
  have hroom : rest.take 2 = [slash, slash] →
      ∀ o ∈ parseUserPart st (rest.drop 2) after, Roomy L o.1.offset o.2.1 := by
    intro hslash o ho
    dsimp only at hroomy
    rw [if_pos hslash] at hroomy
    exact hroomy _ (Option.mem_map_of_mem _ ho)
  have hhier := parseHier_shows hshows hhost hroom
  dsimp only
  generalize parseHier L st rest after = x, readHier L u rest after = y at hhier ⊢
  cases hhier with
  | none => rfl
  | @some o o' hoo =>
  obtain ⟨st, rest, excess⟩ := o
  obtain ⟨u, _⟩ := o'
  obtain ⟨h, rfl⟩ := hoo
  have hquery := parseQuery_shows h rest excess after
  simp only [Option.bind_eq_bind, Option.bind_some]
  generalize parseQuery st rest excess after = x, readQuery u rest excess after = y at hquery ⊢
  cases hquery with
  | none => rfl
  | @some o o' hoo =>
  obtain ⟨st, rest, excess⟩ := o
  obtain ⟨u, _⟩ := o'
  obtain ⟨h, rfl⟩ := hoo
  have hfragment := parseFragment_shows h rest excess after
  simp only [Option.bind_some]
  generalize parseFragment st rest excess after = x, readFragment u rest excess after = y
    at hfragment ⊢
  cases hfragment with
  | none => rfl
  | some h => exact congrArg some h.url

end ExtHttp
