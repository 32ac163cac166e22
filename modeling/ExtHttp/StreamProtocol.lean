import ExtHttp.StreamResponse

/-!
# The protocol of a response on a stream

What holds in every state that operations lead to, as long as the stream does not fall short of the
header block.
-/
namespace ExtHttp
namespace StreamResponse

/-- The header block goes out at most once and before anything else, and no body byte goes out
without it. -/
def HeadFirst (log : List StreamEvent) : Prop :=
  ∀ before e after, log = before ++ e :: after → e.sent ≠ [] →
    if e.isHead then ∀ d ∈ before, d.sent = [] else ∃ block, StreamEvent.head block block ∈ before

/-- What is promised of a response in some state, whatever its stream does from there on. -/
structure Protocol (env : StreamEnv) (r : StreamResponse) : Prop where
  headFirst : HeadFirst r.log
  oneFilter : r.log.count .filter ≤ 1
  frozen : (∃ e ∈ r.log, e.sent ≠ []) → ∀ op : StreamOp, op.isSetter → r.step env op = (false, r)
  silent : (r.step env .finish).1 = true → ∀ ops : List StreamOp,
    ((r.step env .finish).2.run env ops).log = (r.step env .finish).2.log

/-- If the response is still to be started, the stream takes the whole header block, or nothing of
it and the body is not going to be chunked. -/
def TakesHead (env : StreamEnv) (r : StreamResponse) : Prop :=
  r.started = false → r.finished = false →
    (∃ n, env.take r.log [] r.headerBlock = some n ∧ r.headerBlock.length ≤ n) ∨
      ((∀ n ∈ env.take r.log [] r.headerBlock, n = 0) ∧ r.keepsChunked = false)

/-- The states that operations lead to, each in a state where the stream takes the header block if
it is asked to. -/
inductive Reached (env : StreamEnv) (request : Option (Version × Bytes)) : StreamResponse → Prop
  | init : Reached env request (streamInit request)
  | step {r : StreamResponse} (op : StreamOp) : Reached env request r →
      (op.isSetter = false → r.TakesHead env) → Reached env request (r.step env op).2

/-! ### The invariant -/

/-- Nothing has gone out yet. -/
structure Fresh (r : StreamResponse) : Prop where
  started : r.started = false
  finished : r.finished = false
  filters : r.filters = 0
  quiet : ∀ e ∈ r.log, e.sent = [] ∧ e ≠ .filter

/-- The header block has gone out and nothing but the body has followed it. -/
structure Running (r : StreamResponse) : Prop where
  started : r.started = true
  log : ∃ quiet block rest, r.log = quiet ++ .head block block :: rest ∧
    (∀ e ∈ quiet, e.sent = [] ∧ e ≠ .filter) ∧ (∀ e ∈ rest, e.isHead = false) ∧
      rest.count .filter ≤ 1

variable {env : StreamEnv} {r : StreamResponse}

theorem headerBlock_ne (r : StreamResponse) : r.headerBlock ≠ [] := by
  simp [headerBlock, httpSlash]

/-- More events of a running response, none of which is a header block or a filter. -/
theorem Running.more (h : r.Running) {s : StreamResponse} (hstarted : s.started = r.started)
    {es : List StreamEvent} (hlog : s.log = r.log ++ es)
    (hes : ∀ e ∈ es, e.isHead = false ∧ e ≠ .filter) : s.Running := by
  obtain ⟨quiet, block, rest, hr, hquiet, hrest, hcount⟩ := h.log
  refine ⟨hstarted.trans h.started, quiet, block, rest ++
    es, by rw [hlog, hr]; simp, hquiet, ?_, ?_⟩
  · intro e he
    rcases List.mem_append.mp he with he | he
    · exact hrest e he
    · exact (hes e he).1
  · have hnone : es.count .filter = 0 := List.count_eq_zero.mpr fun hf => (hes _ hf).2 rfl
    rw [List.count_append, hnone]
    exact hcount

/-- A flush without filters sends nothing. -/
theorem flushStream_plain (h : r.filters = 0) :
    (r.flushStream env).2 = { r with log := r.log ++ [.last []] } := by
  simp [flushStream, h]

theorem Fresh.flushStream (h : r.Fresh) : (r.flushStream env).2.Fresh := by
  rw [flushStream_plain h.filters]
  refine ⟨h.started, h.finished, h.filters, fun e he => ?_⟩
  rcases List.mem_append.mp he with he | he
  · exact h.quiet e he
  · obtain rfl := List.mem_singleton.mp he
    exact ⟨rfl, by simp⟩

theorem Running.flushStream (h : r.Running) : (r.flushStream env).2.Running :=
  h.more rfl rfl fun e he => by
    obtain rfl := List.mem_singleton.mp he
    exact ⟨rfl, by simp⟩

theorem Fresh.headWrite (h : r.Fresh) : streamWrite env r.log r.filters r.headerBlock =
    match env.take r.log [] r.headerBlock with
    | some n => (some (min n r.headerBlock.length), r.headerBlock.take n)
    | none => (none, []) := by
  cases htake : env.take r.log [] r.headerBlock <;>
    simp [streamWrite, r.headerBlock_ne, h.filters, htake]

/-- The whole header block has gone out. -/
theorem Fresh.writeHead_all (h : r.Fresh) {n : ℕ} (hn : env.take r.log [] r.headerBlock = some n)
    (hle : r.headerBlock.length ≤ n) :
    (r.writeHead env).started = true ∧
      (r.writeHead env).log = r.log ++ [.head r.headerBlock r.headerBlock] := by
  unfold writeHead
  rw [h.headWrite, hn]
  simp [hle]

/-- Nothing of it has. -/
theorem Fresh.writeHead_none (h : r.Fresh) (hnone : ∀ n ∈ env.take r.log [] r.headerBlock, n = 0) :
    (r.writeHead env).Fresh := by
  have hlen : r.headerBlock.length ≠ 0 := fun h0 => r.headerBlock_ne (List.length_eq_zero_iff.mp h0)
  have hout : (streamWrite env r.log r.filters r.headerBlock).1 ≠ some r.headerBlock.length ∧
      (streamWrite env r.log r.filters r.headerBlock).2 = [] := by
    rw [h.headWrite]
    cases htake : env.take r.log [] r.headerBlock with
    | none => simp
    | some n =>
      obtain rfl := hnone n htake
      simp [hlen.symm]
  refine ⟨by simp [writeHead, hout.1], h.finished, h.filters, fun e he => ?_⟩
  rcases List.mem_append.mp he with he | he
  · exact h.quiet e he
  · obtain rfl := List.mem_singleton.mp he
    exact ⟨hout.2, by simp⟩

/-- The first filter is put on the stream when the header block has gone out. -/
theorem installFilter_running (hstarted : r.started = true) {quiet : List StreamEvent}
    {block : Bytes} (hlog : r.log = quiet ++ [.head block block] ++ [.last []])
    (hquiet : ∀ e ∈ quiet, e.sent = [] ∧ e ≠ .filter) : (r.installFilter env).Running := by
  unfold installFilter
  split_ifs
  · exact ⟨hstarted, quiet, block, [.last [], .filter], by simp [hlog], hquiet,
      by simp [StreamEvent.isHead], by decide⟩
  · exact ⟨hstarted, quiet, block, [.last []], by simp [hlog], hquiet, by simp [StreamEvent.isHead],
      by decide⟩

@[simp] theorem installFilter_flags (env : StreamEnv) (r : StreamResponse) :
    (r.installFilter env).started = r.started ∧ (r.installFilter env).finished = r.finished := by
  unfold installFilter
  split_ifs <;> exact ⟨rfl, rfl⟩

/-- What starting a response comes to. -/
theorem Fresh.start (h : r.Fresh) (htake : r.TakesHead env) :
    ((r.start env).1 = true ∧ (r.start env).2.Running ∧ (r.start env).2.finished = false) ∨
      ((r.start env).1 = false ∧ (r.start env).2.Fresh) := by
  have hnot : ¬ (r.started || r.finished) = true := by rw [h.started, h.finished]; decide
  have hflush : ((r.writeHead env).flushStream env).2 =
      { r.writeHead env with log := (r.writeHead env).log ++ [.last []] } :=
    flushStream_plain h.filters
  unfold StreamResponse.start
  rw [if_neg hnot, hflush]
  rcases htake h.started h.finished with ⟨n, hn, hle⟩ | ⟨hnone, hplain⟩
  · obtain ⟨hstarted, hlog⟩ := h.writeHead_all hn hle
    left
    dsimp only
    split_ifs
    · have hflags := installFilter_flags env
        { r.writeHead env with log := (r.writeHead env).log ++ [.last []] }
      exact ⟨hflags.1.trans hstarted, installFilter_running hstarted (by rw [hlog]) h.quiet,
        hflags.2.trans h.finished⟩
    · exact ⟨hstarted, ⟨hstarted, r.log, r.headerBlock, [.last []], by simp [hlog], h.quiet,
        by simp [StreamEvent.isHead], by decide⟩, h.finished⟩
  · right
    have hfresh : ((r.writeHead env).flushStream env).2.Fresh :=
      (h.writeHead_none hnone).flushStream
    rw [hflush] at hfresh
    have hchunked : ¬ (r.writeHead env).chunked = true := by
      rw [show (r.writeHead env).chunked = r.keepsChunked from rfl, hplain]
      decide
    dsimp only
    rw [if_neg hchunked]
    exact ⟨hfresh.started, hfresh⟩

/-! ### What an operation keeps -/

/-- A response that has started does not take anything about its header block. -/
theorem step_setter (h : r.started = true) {op : StreamOp} (hop : op.isSetter = true) :
    r.step env op = (false, r) := by
  cases op with
  | write data => cases hop
  | flush => cases hop
  | finish => cases hop
  | _ => simp [step, setHeader, h]

/-- A finished response does not take anything at all. -/
theorem step_finished (hstarted : r.started = true) (h : r.finished = true) (op : StreamOp) :
    r.step env op = (false, r) := by
  cases op with
  | write data => simp [step, write, h]
  | flush => simp [step, flush, h]
  | finish => simp [step, finish, h]
  | _ => exact step_setter hstarted rfl

theorem setHeader_keeps (replace : Bool) (r : StreamResponse) (str : Bytes) :
    (r.setHeader replace str).2.started = r.started ∧
      (r.setHeader replace str).2.finished = r.finished ∧
      (r.setHeader replace str).2.filters = r.filters ∧
      (r.setHeader replace str).2.log = r.log := by
  unfold setHeader
  split_ifs <;> exact ⟨rfl, rfl, rfl, rfl⟩

/-- What is said about the header block leaves the stream alone. -/
theorem setter_keeps (env : StreamEnv) (r : StreamResponse) {op : StreamOp}
    (hop : op.isSetter = true) :
    (r.step env op).2.started = r.started ∧ (r.step env op).2.finished = r.finished ∧
      (r.step env op).2.filters = r.filters ∧ (r.step env op).2.log = r.log := by
  cases op with
  | setHeader str => exact setHeader_keeps true r str
  | addHeader str => exact setHeader_keeps false r str
  | write data => cases hop
  | flush => cases hop
  | finish => cases hop
  | _ =>
    unfold step
    dsimp only
    split_ifs <;> exact ⟨rfl, rfl, rfl, rfl⟩

/-- Either nothing has gone out, or the header block has. -/
def Sound (r : StreamResponse) : Prop := r.Fresh ∨ r.Running

theorem Fresh.setter (h : r.Fresh) {op : StreamOp} (hop : op.isSetter = true) :
    (r.step env op).2.Fresh := by
  obtain ⟨hstarted, hfinished, hfilters, hlog⟩ := setter_keeps env r hop
  exact ⟨hstarted.trans h.started, hfinished.trans h.finished, hfilters.trans h.filters,
    fun e he => h.quiet e (hlog ▸ he)⟩

/-- An operation that may start the response goes on with a running one, or stops at a fresh one. -/
theorem Sound.ensureStarted (h : r.Sound) (htake : r.TakesHead env) :
    ((r.ensureStarted env).1 = true ∧ (r.ensureStarted env).2.Running) ∨
      ((r.ensureStarted env).1 = false ∧ (r.ensureStarted env).2.Fresh) := by
  rcases h with h | h
  · have hnot : ¬ r.started = true := by simp [h.started]
    rw [StreamResponse.ensureStarted, if_neg hnot]
    exact (h.start htake).imp (fun hs => ⟨hs.1, hs.2.1⟩) id
  · rw [StreamResponse.ensureStarted, if_pos h.started]
    exact .inl ⟨rfl, h⟩

theorem Running.body (h : r.Running) (data sent : Bytes) :
    ({ r with log := r.log ++ [.body data sent] } : StreamResponse).Running :=
  h.more rfl rfl fun e he => by
    obtain rfl := List.mem_singleton.mp he
    exact ⟨rfl, by simp⟩

theorem Running.removeFilter (h : r.Running) : (r.removeFilter env).Running :=
  h.more rfl rfl fun e he => by
    obtain rfl := List.mem_singleton.mp he
    exact ⟨rfl, by simp⟩

theorem Running.finished (h : r.Running) : ({ r with finished := true } : StreamResponse).Running :=
  ⟨h.started, h.log⟩

/-- Every operation keeps the response sound, if the stream takes the header block in time. -/
theorem Sound.step (h : r.Sound) (op : StreamOp) (htake : op.isSetter = false → r.TakesHead env) :
    (r.step env op).2.Sound := by
  by_cases hop : op.isSetter = true
  · rcases h with h | h
    · exact .inl (h.setter hop)
    · rw [step_setter h.started hop]
      exact .inr h
  have htake := htake (by simpa using hop)
  by_cases hfinished : r.finished = true
  · rcases h with h | h
    · exact absurd hfinished (by simp [h.finished])
    · rw [step_finished h.started hfinished]
      exact .inr h
  have hstart := h.ensureStarted htake
  cases op with
  | write data =>
    change (r.write env data).2.Sound
    rw [write, if_neg hfinished]
    rcases hstart with ⟨hok, hs⟩ | ⟨hfail, hs⟩
    · dsimp only
      rw [if_pos hok]
      exact .inr (hs.body data _)
    · dsimp only
      rw [if_neg (by simp [hfail])]
      exact .inl hs
  | flush =>
    change (r.flush env).2.Sound
    rw [flush, if_neg hfinished]
    rcases hstart with ⟨hok, hs⟩ | ⟨hfail, hs⟩
    · dsimp only
      rw [if_pos hok]
      exact .inr hs.flushStream
    · dsimp only
      rw [if_neg (by simp [hfail])]
      exact .inl hs
  | finish =>
    change (r.finish env).2.Sound
    rw [finish, if_neg hfinished]
    rcases hstart with ⟨hok, hs⟩ | ⟨hfail, hs⟩
    · dsimp only
      rw [if_pos hok]
      dsimp only
      split_ifs
      · exact .inr hs.flushStream.removeFilter.finished
      · exact .inr hs.flushStream.finished
    · dsimp only
      rw [if_neg (by simp [hfail])]
      exact .inl hs
  | _ => exact absurd rfl hop

/-! ### The protocol -/

theorem Fresh.headFirst (h : r.Fresh) : HeadFirst r.log := fun before e after hlog hsent =>
  absurd (h.quiet e (by rw [hlog]; simp)).1 hsent

theorem Running.headFirst (h : r.Running) : HeadFirst r.log := by
  obtain ⟨quiet, block, rest, hr, hquiet, hrest, -⟩ := h.log
  intro before e after hlog hsent
  rw [hr] at hlog
  rcases List.append_eq_append_iff.mp hlog with ⟨middle, rfl, hmiddle⟩ | ⟨middle, rfl, hmiddle⟩
  · cases middle with
    | nil =>
      obtain ⟨rfl, -⟩ := List.cons_eq_cons.mp hmiddle
      simpa [StreamEvent.isHead] using fun d hd => (hquiet d hd).1
    | cons d middle =>
      obtain ⟨rfl, hrest'⟩ := List.cons_eq_cons.mp hmiddle
      rw [if_neg (by simp [hrest e (by rw [hrest']; simp)])]
      exact ⟨block, by simp⟩
  · cases middle with
    | nil =>
      obtain ⟨rfl, -⟩ := List.cons_eq_cons.mp hmiddle
      simpa [StreamEvent.isHead] using fun d hd => (hquiet d (by simp [hd])).1
    | cons d middle =>
      obtain ⟨rfl, -⟩ := List.cons_eq_cons.mp hmiddle
      exact absurd (hquiet e (by simp)).1 hsent

theorem Sound.oneFilter (h : r.Sound) : r.log.count .filter ≤ 1 := by
  rcases h with h | h
  · rw [List.count_eq_zero.mpr fun hf => (h.quiet _ hf).2 rfl]
    exact Nat.zero_le 1
  · obtain ⟨quiet, block, rest, hr, hquiet, -, hcount⟩ := h.log
    have hnone : quiet.count .filter = 0 := List.count_eq_zero.mpr fun hf => (hquiet _ hf).2 rfl
    rw [hr, List.count_append, hnone, List.count_cons_of_ne (by simp), Nat.zero_add]
    exact hcount

theorem ensureStarted_started (hok : (r.ensureStarted env).1 = true) :
    (r.ensureStarted env).2.started = true := by
  unfold StreamResponse.ensureStarted at hok ⊢
  by_cases hstarted : r.started = true
  · rw [if_pos hstarted]
    exact hstarted
  · rw [if_neg hstarted] at hok ⊢
    unfold StreamResponse.start at hok ⊢
    split_ifs at hok ⊢
    exact hok

/-- Finishing, where it succeeds, leaves a response that has started and is finished. -/
theorem finish_finished (hok : (r.step env .finish).1 = true) :
    (r.step env .finish).2.started = true ∧ (r.step env .finish).2.finished = true := by
  change (r.finish env).1 = true at hok
  change (r.finish env).2.started = true ∧ (r.finish env).2.finished = true
  unfold finish at hok ⊢
  by_cases hfinished : r.finished = true
  · rw [if_pos hfinished] at hok
    cases hok
  rw [if_neg hfinished] at hok ⊢
  dsimp only at hok ⊢
  by_cases hstart : (r.ensureStarted env).1 = true
  · have hstarted := ensureStarted_started hstart
    rw [if_pos hstart]
    dsimp only
    split_ifs <;> exact ⟨hstarted, rfl⟩
  · rw [if_neg hstart] at hok
    exact absurd hok hstart

theorem run_finished (hstarted : r.started = true) (hfinished : r.finished = true)
    (ops : List StreamOp) : r.run env ops = r := by
  induction ops with
  | nil => rfl
  | cons op ops ih =>
    rw [run, List.foldl_cons, step_finished hstarted hfinished]
    exact ih

theorem Sound.protocol (h : r.Sound) (env : StreamEnv) : r.Protocol env where
  headFirst := h.elim Fresh.headFirst Running.headFirst
  oneFilter := h.oneFilter
  frozen hsent op hop := by
    rcases h with h | h
    · obtain ⟨e, he, hne⟩ := hsent
      exact absurd (h.quiet e he).1 hne
    · exact step_setter h.started hop
  silent hok ops := by
    obtain ⟨hstarted, hfinished⟩ := finish_finished hok
    rw [run_finished hstarted hfinished]

/-- However a response is operated, and however its stream behaves otherwise: if the stream never
takes just a part of the header block, and does not refuse it where the body is going to be chunked,
then the protocol is kept in every state. -/
theorem reached_protocol (env : StreamEnv) {request : Option (Version × Bytes)} {r : StreamResponse}
    (h : Reached env request r) : r.Protocol env := by
  suffices hsound : r.Sound from hsound.protocol env
  induction h with
  | init => exact .inl ⟨rfl, rfl, rfl, by simp [streamInit]⟩
  | step op _ htake ih => exact ih.step op htake

/-- A stream that takes everything. -/
def openStream : StreamEnv :=
  ⟨fun _ _ buf => some buf.length, fun _ => false, fun _ => true, fun _ => true⟩

/-- A stream that takes nothing at first, and then header blocks, and one byte of what is as short
as three. -/
def haltingStream : StreamEnv :=
  { openStream with
    take := fun log _ buf => if log = [] then some 0 else if buf.length ≤ 3 then some 1
      else some buf.length }

/-- A header block that has been refused goes out in front of a body that is cut short. -/
theorem reached_protocol_short :
    let flushed := ((streamInit (some (⟨1, 0⟩, ascii "GET"))).step haltingStream .flush).2
    let written := (flushed.step haltingStream (.write (ascii "abc"))).2
    (∀ e ∈ flushed.log, e.sent = []) ∧
    (written.log.map StreamEvent.sent).getLast? = some (ascii "a") ∧
      written.Protocol haltingStream := by
  intro flushed written
  have hflushed : Reached haltingStream (some (⟨1, 0⟩, ascii "GET")) flushed :=
    .step .flush .init fun _ _ _ => .inr ⟨by decide +kernel, by decide +kernel⟩
  have htake : haltingStream.take flushed.log [] flushed.headerBlock =
      some flushed.headerBlock.length := by
    decide +kernel
  exact ⟨by decide +kernel, by decide +kernel,
    reached_protocol haltingStream (.step (.write (ascii "abc")) hflushed fun _ _ _ =>
      .inl ⟨_, htake, le_rfl⟩)⟩

/-- A stream that refuses the first write. -/
def refusingStream : StreamEnv :=
  { openStream with take := fun log _ buf => if log = [] then some 0 else some buf.length }

/-- A stream that takes four bytes of its first write. -/
def shortStream : StreamEnv :=
  { openStream with take := fun log _ buf => if log = [] then some 4 else some buf.length }

/-- A header block that was refused goes through the filter when it is written again, and there is a
second filter then. One that was cut off is followed by another, about which the response still
takes orders. -/
theorem protocol_broken :
    let refused := (streamInit none).run refusingStream [.write (ascii "a"), .write (ascii "a")]
    let short := (streamInit (some (⟨1, 0⟩, ascii "GET"))).run shortStream [.flush]
    refused.log.count .filter = 2 ∧ ¬ refused.Protocol refusingStream ∧
      (∃ e ∈ short.log, e.sent ≠ []) ∧ (short.step shortStream (.setStatus 404)).1 = true ∧
      ¬ (short.run shortStream [.flush]).Protocol shortStream := by
  intro refused short
  have hfilters : refused.log.count .filter = 2 := by decide +kernel
  refine ⟨hfilters, fun h => ?_, by decide +kernel, by decide +kernel, fun h => ?_⟩
  · exact absurd h.oneFilter (by rw [hfilters]; decide)
  · generalize hlog : (short.run shortStream [.flush]).log = log at h
    have htwice : log = log.take 2 ++ log.getD 2 .filter :: log.drop 3 ∧
        (log.getD 2 .filter).sent ≠ [] ∧ (log.getD 2 .filter).isHead = true ∧
        ∃ d ∈ log.take 2, d.sent ≠ [] := by
      rw [← hlog]
      decide +kernel
    obtain ⟨hsplit, hsent, hhead, d, hd, hne⟩ := htwice
    have hfirst := h.headFirst (log.take 2) (log.getD 2 .filter) (log.drop 3)
      (hlog.trans hsplit) hsent
    rw [if_pos hhead] at hfirst
    exact hne (hfirst d hd)

end StreamResponse
end ExtHttp
