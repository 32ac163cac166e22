import ExtHttp.HeaderParser
import ExtHttp.Headers

/-! No input makes the header parser store a value with a line end, a NUL or outer blanks in it, or
a name that is not spelled its one way. -/
namespace ExtHttp
open BufferLoop

/-- What a caller with a headers array and a callback gets to see. -/
structure HeaderLog (Url : Type) where
  infos : List (Info Url)
  headers : Headers
  deriving DecidableEq, Repr

def headerLog {Url : Type} : HeaderSink Url (HeaderLog Url) where
  info info log := { log with infos := log.infos ++ [info] }
  header key val log := { log with headers := log.headers.add key val }

/-- Neither end of `v` is a blank. -/
structure Trimmed (v : Bytes) : Prop where
  head : ∀ c, v.head? = some c → isSpace c = false
  last : ∀ c, v.getLast? = some c → isSpace c = false

/-- A value as far as `SET_ADD_VAL` has assembled it. -/
structure ValueSound (v : Bytes) : Prop where
  ne : v ≠ []
  noEol : NoEol v
  trimmed : Trimmed v

structure ValueSafe (v : Bytes) : Prop extends ValueSound v where
  noNul : nul ∉ v

structure NameSafe (name : Bytes) : Prop where
  chars : ∀ c ∈ name, isNameChar c = true
  pretty : prettyKey true true name = name

def HeaderValue.Safe (v : HeaderValue) : Prop := ∀ x ∈ v.toArray, ∃ b, x = .str b ∧ ValueSafe b

def Headers.Safe (hs : Headers) : Prop := ∀ h ∈ hs, NameSafe h.1 ∧ h.2.Safe

/-! ### Values -/

theorem trim_of_dropWhile (line : Bytes) : trim line <+: line.dropWhile isSpace :=
  List.rdropWhile_prefix isSpace _

theorem trim_trimmed (line : Bytes) : Trimmed (trim line) := by
  constructor
  · intro c hc
    obtain ⟨t, ht⟩ := trim_of_dropWhile line
    have hhead := List.head?_dropWhile_not isSpace line
    rw [← ht, List.head?_append, hc] at hhead
    simpa using hhead
  · intro c hc
    have hne : trim line ≠ [] := by
      intro h
      simp [h] at hc
    rw [List.getLast?_eq_some_getLast hne, Option.some.injEq] at hc
    have := List.rdropWhile_last_not isSpace (line.dropWhile isSpace) hne
    rw [← hc]
    simpa [trim] using this

theorem trim_noEol {line : Bytes} (h : NoEol line) : NoEol (trim line) := fun c hc =>
  h c ((List.dropWhile_sublist isSpace).subset ((trim_of_dropWhile line).subset hc))

/-- A folded line is joined by a space, which keeps the value free of line ends and outer blanks. -/
theorem setAddVal_sound {val : Option Bytes} (hval : ∀ v ∈ val, ValueSound v) {line : Bytes}
    (hline : NoEol line) : ∀ v ∈ setAddVal val line, ValueSound v := by
  have htrim := trim_trimmed line
  have hnoEol := trim_noEol hline
  unfold setAddVal
  split_ifs with hne
  · exact hval
  · intro v hv
    cases val with
    | none =>
      simp only [Option.elim_none, Option.mem_def, Option.some.injEq] at hv
      exact hv ▸ ⟨hne, hnoEol, htrim⟩
    | some old =>
      obtain ⟨hold, holdEol, holdTrimmed⟩ := hval old rfl
      simp only [Option.elim_some, Option.mem_def, Option.some.injEq] at hv
      subst hv
      have hspace : isEol space = false := by decide
      refine ⟨by simp, ?_, ?_, ?_⟩
      · rw [noEol_append, noEol_cons]
        exact ⟨holdEol, hspace, hnoEol⟩
      · intro c hc
        rw [List.head?_append_of_ne_nil _ hold] at hc
        exact holdTrimmed.head c hc
      · intro c hc
        rw [List.getLast?_append_of_ne_nil _ (by simp), List.getLast?_cons_of_ne_nil hne] at hc
        exact htrim.last c hc

theorem Headers.add_safe {hs : Headers} (h : hs.Safe) {key val : Bytes} (hkey : NameSafe key)
    (hval : ValueSafe val) : (hs.add key val).Safe := by
  intro x hx
  rcases Headers.mem_update hx with hx | rfl
  · exact h x hx
  · refine ⟨hkey, ?_⟩
    intro y hy
    cases hfind : hs.find key with
    | none =>
      simp only [hfind, HeaderValue.toArray, List.mem_singleton] at hy
      exact ⟨val, hy, hval⟩
    | some old =>
      simp only [hfind, HeaderValue.toArray, List.mem_append, List.mem_singleton] at hy
      rcases hy with hy | rfl
      · exact (h _ (Headers.find_mem hfind)).2 y hy
      · exact ⟨val, rfl, hval⟩

/-! ### Turns and calls -/

variable {Url : Type} {P : UrlParsers Url}

/-- What holds of parser and headers at every turn. -/
structure HeadersInvariant (c : HeaderConfig (HeaderLog Url)) : Prop where
  key : ∀ k ∈ c.1.key, ∀ x ∈ k, isNameChar x = true
  val : ∀ v ∈ c.1.val, ValueSound v
  headers : c.2.headers.Safe

theorem keyTurn_invariant {call : HeaderCall} {hp : HeaderParser} {log : HeaderLog Url} (b : Bytes)
    (h : HeadersInvariant (hp, log)) :
    HeadersInvariant (keyTurn P headerLog call hp log b).state := by
  unfold keyTurn
  split
  · exact ⟨h.key, h.val, h.headers⟩
  · split
    · exact ⟨h.key, h.val, h.headers⟩
    · split
      · split_ifs with hkey
        · refine ⟨?_, h.val, h.headers⟩
          rintro _ ⟨⟩
          exact hkey
        · exact ⟨by simp [Turn.state], h.val, h.headers⟩
      · split_ifs <;> exact ⟨h.key, h.val, h.headers⟩

theorem valueTurn_invariant {call : HeaderCall} {hp : HeaderParser} {log : HeaderLog Url}
    (b : Bytes) (h : HeadersInvariant (hp, log)) :
    HeadersInvariant (valueTurn call hp log b).state := by
  unfold valueTurn
  split
  · next i l he =>
    exact ⟨h.key, setAddVal_sound h.val (locateBinEol_bounds he).2.2.2, h.headers⟩
  · next he =>
    split_ifs
    · exact ⟨h.key, setAddVal_sound h.val (locateBinEol_eq_none.mp he), h.headers⟩
    · exact ⟨h.key, h.val, h.headers⟩

/-- The value is stored behind the check for a NUL, under the name in its one spelling. -/
theorem headerDoneTurn_invariant {hp : HeaderParser} {log : HeaderLog Url} (b : Bytes)
    (h : HeadersInvariant (hp, log)) :
    HeadersInvariant (headerDoneTurn headerLog hp log b).state := by
  have hempty : ∀ {state} {hs : HeaderLog Url}, hs.headers.Safe →
      HeadersInvariant (⟨state, none, none⟩, hs) := fun hs => ⟨by simp, by simp, hs⟩
  unfold headerDoneTurn
  split
  · next key val hk hv =>
    split_ifs with hnul
    · exact hempty h.headers
    · refine hempty (Headers.add_safe h.headers ⟨?_, prettyKey_idempotent true true key⟩ ?_)
      · exact prettyKey_nameChars true true (h.key key hk)
      · exact ⟨h.val val hv, hnul⟩
  · exact hempty h.headers

theorem headerTurn_invariant {call : HeaderCall} {c : HeaderConfig (HeaderLog Url)} (b : Bytes)
    (h : HeadersInvariant c) : HeadersInvariant (headerTurn P headerLog call c b).state := by
  have hstate : ∀ state, HeadersInvariant ({ c.1 with state := state }, c.2) := fun _ =>
    ⟨h.key, h.val, h.headers⟩
  unfold headerTurn
  split
  · exact h
  · split_ifs
    · exact h
    · exact hstate _
  · split_ifs
    · exact h
    · exact keyTurn_invariant b h
  · split_ifs
    · exact h
    · exact valueTurn_invariant b h
  · unfold valueExTurn
    split_ifs
    · exact hstate _
    · exact hstate _
    · exact h
  · exact headerDoneTurn_invariant b h
  · exact hstate _

/-- Whatever is fed, and with whatever flags: at every turn of every call and between the calls, the
stored headers are safe. -/
theorem headerParser_headers_safe (P : UrlParsers Url) :
    (∀ c b, Between (headerLoop P headerLog) (headerParserInit, ⟨[], []⟩) [] c b →
        c.2.headers.Safe) ∧
      ∀ call d, During (headerLoop P headerLog) (headerParserInit, ⟨[], []⟩) [] call d →
        d.1.2.headers.Safe := by
  have hinit : HeadersInvariant (headerParserInit, (⟨[], []⟩ : HeaderLog Url)) :=
    ⟨by simp [headerParserInit], by simp [headerParserInit], by simp [Headers.Safe]⟩
  have hturn : ∀ {call c} b, HeadersInvariant c →
      HeadersInvariant ((headerLoop P headerLog call).turn c b).state :=
    fun b h => headerTurn_invariant b h
  exact ⟨fun c b h => (h.state_invariant hinit hturn).headers,
    fun call d h => (h.state_invariant hinit hturn).headers⟩

end ExtHttp
