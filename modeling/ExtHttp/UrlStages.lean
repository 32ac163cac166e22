import ExtHttp.Steps
import ExtHttp.UrlWords

/-!
# The stages of the URL parser

`php_http_url_parse` as a machine that takes a component in each of its steps, and the states it
comes to.
-/
namespace ExtHttp

/-- What is parsed next. The host info has an end of its own. -/
inductive UrlStage
  | scheme
  | hier
  | authority
  | host (info : Option UrlCursor)
  | path
  | query
  | fragment
  | done
  deriving DecidableEq, Repr

deriving instance DecidableEq for UrlState

structure UrlConfig where
  stage : UrlStage
  state : UrlState
  cur : UrlCursor
  deriving DecidableEq

namespace UrlScanner
variable (S : UrlSystem) (flags : UrlFlags)

def infoOf (cur : UrlCursor) (n : ℕ) : Option UrlCursor :=
  if n = 0 then none else some ⟨cur.text, n⟩

/-- `parse_authority` up to the host info, and where the path begins. -/
def beforeHost (st : UrlState) (cur : UrlCursor) :
    Except UrlExit (UrlState × Option UrlCursor × UrlCursor) := do
  let n := (cur.rest.takeWhile inAuthority).length
  let c ← (cur.advance n).read 0
  if c = atSign then do
    let st ← userinfoOf S flags st cur n
    if 0 < (cur.advance n).left then do
      let cur := cur.advance (n + 1)
      let n := (cur.rest.takeWhile (inHost flags)).length
      let c ← (cur.advance n).read 0
      if c = atSign ∧ flags.ignoreErrors = false then .error .refused
      else .ok (st, infoOf cur n, cur.advance n)
    else .ok (st, some (cur.advance (n + 1)), cur.advance n)
  else .ok (st, infoOf cur n, cur.advance n)

/-- `parse_hostinfo`, if there is a host info. -/
def hostOf (st : UrlState) : Option UrlCursor → Except UrlExit UrlState
  | none => .ok st
  | some info => parseHostinfo S flags st info

/-- One component of `php_http_url_parse` -/
def urlStep : UrlConfig → Except UrlExit UrlConfig
  | ⟨.scheme, st, cur⟩ => (parseScheme S flags st cur).map fun o => ⟨.hier, o.1, o.2⟩
  | ⟨.hier, st, cur⟩ => do
      let c ← cur.read 0
      if c = slash ∧ 1 < cur.left then do
        let d ← cur.read 1
        if d = slash then .ok ⟨.authority, st, cur.advance 2⟩ else .ok ⟨.path, st, cur⟩
      else .ok ⟨.path, st, cur⟩
  | ⟨.authority, st, cur⟩ => (beforeHost S flags st cur).map fun o => ⟨.host o.2.1, o.1, o.2.2⟩
  | ⟨.host info, st, cur⟩ => (hostOf S flags st info).map fun st => ⟨.path, st, cur⟩
  | ⟨.path, st, cur⟩ => (parsePath S flags st cur).map fun o => ⟨.query, o.1, o.2⟩
  | ⟨.query, st, cur⟩ => (parseQuery S flags st cur).map fun o => ⟨.fragment, o.1, o.2⟩
  | ⟨.fragment, st, cur⟩ => (parseFragment S flags st cur).map fun o => ⟨.done, o.1, o.2⟩
  | ⟨.done, st, cur⟩ => .ok ⟨.done, st, cur⟩

/-- Where `php_http_url_parse` comes to on a text, with `after` in the memory behind it. -/
def UrlReaches (str after : Bytes) (x : UrlConfig) : Prop :=
  Steps.Reaches (urlStep S flags) ⟨.scheme, urlStart, .on str after⟩ x

/-- What is still done of `php_http_url_parse`. -/
def urlFrom : UrlConfig → Except UrlExit (UrlState × UrlCursor)
  | ⟨.scheme, st, cur⟩ => do
      let o ← parseScheme S flags st cur
      let o ← parseHier S flags o.1 o.2
      let o ← parseQuery S flags o.1 o.2
      parseFragment S flags o.1 o.2
  | ⟨.hier, st, cur⟩ => do
      let o ← parseHier S flags st cur
      let o ← parseQuery S flags o.1 o.2
      parseFragment S flags o.1 o.2
  | ⟨.authority, st, cur⟩ => do
      let o ← parseAuthority S flags st cur
      let o ← parsePath S flags o.1 o.2
      let o ← parseQuery S flags o.1 o.2
      parseFragment S flags o.1 o.2
  | ⟨.host info, st, cur⟩ => do
      let st ← hostOf S flags st info
      let o ← parsePath S flags st cur
      let o ← parseQuery S flags o.1 o.2
      parseFragment S flags o.1 o.2
  | ⟨.path, st, cur⟩ => do
      let o ← parsePath S flags st cur
      let o ← parseQuery S flags o.1 o.2
      parseFragment S flags o.1 o.2
  | ⟨.query, st, cur⟩ => do
      let o ← parseQuery S flags st cur
      parseFragment S flags o.1 o.2
  | ⟨.fragment, st, cur⟩ => parseFragment S flags st cur
  | ⟨.done, st, cur⟩ => .ok (st, cur)

variable {S : UrlSystem} {flags : UrlFlags}

theorem hostinfoOf_info (st : UrlState) (cur : UrlCursor) (n : ℕ) :
    hostinfoOf S flags st cur n = hostOf S flags st (infoOf cur n) := by
  unfold hostinfoOf infoOf
  split_ifs <;> rfl

theorem hostinfoOf_bind (st : UrlState) (cur next : UrlCursor) (n : ℕ) :
    (hostinfoOf S flags st cur n >>= fun st => .ok (st, next)) =
      (hostOf S flags st (infoOf cur n)).map fun st => (st, next) := by
  rw [hostinfoOf_info]
  cases hostOf S flags st (infoOf cur n) <;> rfl

theorem parseAuthority_eq (st : UrlState) (cur : UrlCursor) : parseAuthority S flags st cur =
    beforeHost S flags st cur >>= fun o => (hostOf S flags o.1 o.2.1).map fun st =>
      (st, o.2.2) := by
  unfold parseAuthority beforeHost parseHost
  simp only [hostinfoOf_bind]
  cases (cur.advance (cur.rest.takeWhile inAuthority).length).read 0 with
  | error e => rfl
  | ok c =>
    simp only [bind, Except.bind]
    by_cases hat : c = atSign
    · simp only [if_pos hat]
      cases userinfoOf S flags st cur (cur.rest.takeWhile inAuthority).length with
      | error e => rfl
      | ok st =>
        by_cases hpos : 0 < (cur.advance (cur.rest.takeWhile inAuthority).length).left
        · simp only [if_pos hpos]
          split
          · rfl
          · by_cases hagain : ‹Byte› = atSign ∧ flags.ignoreErrors = false
            · simp only [if_pos hagain]
            · simp only [if_neg hagain]
        · simp only [if_neg hpos, hostOf]
          cases parseHostinfo S flags st
            (cur.advance ((cur.rest.takeWhile inAuthority).length + 1)) <;> rfl
    · simp only [if_neg hat]

theorem map_bind' {ε α β γ : Type} (x : Except ε α) (f : α → β) (g : β → Except ε γ) :
    x.map f >>= g = x >>= fun a => g (f a) := by
  cases x <;> rfl

/-- A step leaves the rest to the configuration it comes to. -/
theorem urlFrom_step (x : UrlConfig) : urlFrom S flags x =
    urlStep S flags x >>= urlFrom S flags := by
  obtain ⟨stage, st, cur⟩ := x
  cases stage with
  | hier =>
    rw [urlFrom, urlStep, parseHier]
    cases cur.read 0 with
    | error e => rfl
    | ok c =>
      simp only [bind, Except.bind]
      by_cases hslash : c = slash ∧ 1 < cur.left
      · simp only [if_pos hslash]
        cases cur.read 1 with
        | error e => rfl
        | ok d =>
          by_cases hd : d = slash
          · simp only [if_pos hd, urlFrom, bind, Except.bind]
            cases parseAuthority S flags st (cur.advance 2) <;> rfl
          · simp only [if_neg hd, urlFrom, bind, Except.bind]
      · simp only [if_neg hslash, urlFrom, bind, Except.bind]
  | authority =>
    rw [urlFrom, urlStep, map_bind', parseAuthority_eq]
    cases beforeHost S flags st cur with
    | error e => rfl
    | ok o => exact map_bind' _ _ _
  | done => rfl
  | scheme =>
    rw [urlStep, map_bind']
    rfl
  | host info =>
    rw [urlStep, map_bind']
    rfl
  | path =>
    rw [urlStep, map_bind']
    rfl
  | query =>
    rw [urlStep, map_bind']
    rfl
  | fragment =>
    rw [urlStep, map_bind', urlFrom]
    cases parseFragment S flags st cur <;> rfl

/-- How many stages there are at most to the end. -/
def stagesLeft : UrlStage → ℕ
  | .scheme => 7
  | .hier => 6
  | .authority => 5
  | .host _ => 4
  | .path => 3
  | .query => 2
  | .fragment => 1
  | .done => 0

theorem urlStep_left {x y : UrlConfig} (h : urlStep S flags x = .ok y) (hx : x.stage ≠ .done) :
    stagesLeft y.stage < stagesLeft x.stage := by
  obtain ⟨stage, st, cur⟩ := x
  cases stage with
  | hier =>
    obtain ⟨c, -, h⟩ := ok_eq_bind h
    split_ifs at h
    · obtain ⟨d, -, h⟩ := ok_eq_bind h
      split_ifs at h
      · cases h
        simp [stagesLeft]
      · cases h
        simp [stagesLeft]
    · cases h
      simp [stagesLeft]
  | done => exact absurd rfl hx
  | _ =>
    obtain ⟨o, -, rfl⟩ := ok_eq_map h
    simp [stagesLeft]

/-- The result is what the machine comes to. -/
theorem urlState_ok_iff {str after : Bytes} {st : UrlState} {cur : UrlCursor} :
    urlState S flags (.on str after) = .ok (st, cur) ↔
      UrlReaches S flags str after ⟨.done, st, cur⟩ := by
  change urlFrom S flags ⟨.scheme, urlStart, .on str after⟩ = _ ↔ _
  constructor
  · intro h
    obtain ⟨x, hreach, hdone, hx⟩ := Steps.reaches_of_final urlFrom_step (fun x => x.stage = .done)
      (fun x => stagesLeft x.stage) (fun _ _ => urlStep_left) h
    obtain ⟨stage, st', cur'⟩ := x
    cases hdone
    cases hx
    exact hreach
  · intro h
    rw [h.final_eq urlFrom_step]
    rfl

end UrlScanner

end ExtHttp
