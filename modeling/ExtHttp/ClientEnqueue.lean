import ExtHttp.ClientQueue

/-!
# Enqueueing a request

`php_http_client_curl_enqueue` with all that it allocates and releases, for each point at which it
may fail. If curl does not take the handle, the descriptor of the caller is left with a pointer to
the handler that has been released; if there is no handle to begin with, its factory is not
released.
-/
namespace ExtHttp

/-- What is allocated for a request. -/
inductive Resource where
  | factory (n : ℕ)
  | handle (n : ℕ)
  | handler (n : ℕ)
  deriving DecidableEq, Repr

/-- What the `opaque` of a descriptor points to: an object of the caller, or a handler. -/
inductive OpaquePtr where
  | object (n : ℕ)
  | handler (n : ℕ)
  deriving DecidableEq, Repr

/-- The destructor of a descriptor: one of the caller, or `queue_dtor`. -/
inductive EnqueueDtor where
  | caller (n : ℕ)
  | queueDtor
  deriving DecidableEq, Repr

/-- A request, with what is looked at of it: whether its URL has a host and a path, and whether it
has a method. -/
structure ClientRequest where
  address : ℕ
  url : Option (Bool × Bool)
  method : Bool
  deriving DecidableEq, Repr

/-- `php_http_client_enqueue_t` -/
structure Enqueue where
  request : ClientRequest
  options : ℕ
  dtor : EnqueueDtor
  opaquePtr : OpaquePtr
  closure : Option ℕ
  deriving DecidableEq, Repr

/-- What the calls of `php_http_client_curl_enqueue` return: whether
`php_resource_factory_handle_ctor` returns a handle, `php_http_options_apply` succeeds, and
`curl_multi_add_handle` takes the handle. -/
structure EnqueueCalls where
  handle : Bool
  options : Bool
  added : Bool

/-- A client: its queue, the handlers whose handles are attached, `handler->queue`, and what has
been allocated and released so far. -/
structure EnqueueClient where
  requests : List Enqueue
  attached : List ℕ
  queue : ℕ → Option Enqueue
  allocated : ℕ
  created : List Resource
  released : List Resource

/-- `create_rf` does not fail. -/
def ClientRequest.hasUrl (request : ClientRequest) : Bool :=
  request.url.any fun url => url.1 || url.2

namespace EnqueueClient

/-- `php_http_client_curl_handler_dtor` -/
def handlerDtor (h : EnqueueClient) (n : ℕ) : EnqueueClient :=
  { h with released := h.released ++ [.handle n, .factory n, .handler n] }

/-- `php_http_client_curl_enqueue`: whether it succeeds, the client, and the descriptor of the
caller. -/
def curlEnqueue (calls : EnqueueCalls) (h : EnqueueClient) (enqueue : Enqueue) :
    Bool × EnqueueClient × Enqueue :=
  if !enqueue.request.hasUrl then (false, h, enqueue)
  else
    let n := h.allocated
    let h := { h with allocated := n + 1, created := h.created ++ [Resource.factory n] }
    if !calls.handle then (false, h, enqueue)
    else
      let h := { h with created := h.created ++ [Resource.handle n, .handler n] }
      -- `php_http_client_curl_handler_prepare`
      if !(calls.options && enqueue.request.method) then (false, h.handlerDtor n, enqueue)
      else
        let h := { h with queue := Function.update h.queue n (some enqueue) }
        let enqueue := { enqueue with opaquePtr := .handler n, dtor := .queueDtor }
        if !calls.added then (false, h.handlerDtor n, enqueue)
        else (true, { h with requests := h.requests ++ [enqueue], attached := n :: h.attached },
          enqueue)

/-- `php_http_client_enqueue` -/
def clientEnqueue (calls : EnqueueCalls) (h : EnqueueClient) (enqueue : Enqueue) :
    Bool × EnqueueClient × Enqueue :=
  if h.requests.any fun e => e.request.address = enqueue.request.address then (false, h, enqueue)
  else h.curlEnqueue calls enqueue

end EnqueueClient

/-- What `msg_queue_dtor` releases for its caller: the object at `opaque`, the options and the
closure. -/
def msgQueueDtor (enqueue : Enqueue) : OpaquePtr × ℕ × Option ℕ :=
  (enqueue.opaquePtr, enqueue.options, enqueue.closure)

/-- A call that has changed nothing: the queue, the handles and the descriptor are as before, and
what has been allocated has been released once. -/
structure EnqueueUndone (h h' : EnqueueClient) (e e' : Enqueue) : Prop where
  requests : h'.requests = h.requests
  attached : h'.attached = h.attached
  enqueue : e' = e
  released : ∃ created released, h'.created = h.created ++ created ∧
    h'.released = h.released ++ released ∧
    created.Nodup ∧ released.Perm created

/-- The descriptor is already what the call makes of it. -/
def Enqueue.Stale (e : Enqueue) (n : ℕ) : Prop := e.opaquePtr = .handler n ∧ e.dtor = .queueDtor

theorem EnqueueUndone.refl (h : EnqueueClient) (e : Enqueue) : EnqueueUndone h h e e :=
  ⟨rfl, rfl, rfl, [], [], (List.append_nil _).symm, (List.append_nil _).symm, List.nodup_nil,
    List.Perm.nil⟩

/-- A handler that is released behind a failure takes its handle and its factory with it. -/
theorem handlerDtor_released (n : ℕ) :
    [Resource.factory n, .handle n, .handler n].Nodup ∧
      [Resource.handle n, .factory n, .handler n].Perm [.factory n, .handle n, .handler n] :=
  ⟨by simp, List.Perm.swap _ _ _⟩

/-- Without a handle the factory is left behind. -/
theorem curlEnqueue_noHandle {calls : EnqueueCalls} (h : EnqueueClient) {e : Enqueue}
    (hurl : e.request.hasUrl = true) (hhandle : calls.handle = false) : h.curlEnqueue calls e =
      (false,
        { h with allocated := h.allocated + 1, created := h.created ++ [.factory h.allocated] },
        e) := by
  simp [EnqueueClient.curlEnqueue, hurl, hhandle]

theorem curlEnqueue_unprepared {calls : EnqueueCalls} (h : EnqueueClient) {e : Enqueue}
    (hurl : e.request.hasUrl = true) (hhandle : calls.handle = true)
    (hprepare : ¬ (calls.options = true ∧ e.request.method = true)) :
    (h.curlEnqueue calls e).1 = false ∧
      EnqueueUndone h (h.curlEnqueue calls e).2.1 e (h.curlEnqueue calls e).2.2 := by
  have hboth : (calls.options && e.request.method) = false := by
    rwa [Bool.eq_false_iff, ne_eq, Bool.and_eq_true]
  simp only [EnqueueClient.curlEnqueue, hurl, hhandle, hboth, Bool.not_true, Bool.not_false,
    Bool.false_eq_true, if_false, if_true]
  obtain ⟨hnodup, hperm⟩ := handlerDtor_released h.allocated
  exact ⟨trivial, rfl, rfl, rfl, _, _, List.append_assoc _ _ _, rfl, hnodup, hperm⟩

/-- The descriptor is written before curl is asked. -/
theorem curlEnqueue_refused {calls : EnqueueCalls} (h : EnqueueClient) {e : Enqueue}
    (hurl : e.request.hasUrl = true) (hhandle : calls.handle = true)
    (hprepare : calls.options = true ∧ e.request.method = true) (hadded : calls.added = false) :
    (h.curlEnqueue calls e).1 = false ∧
      (h.curlEnqueue calls e).2.2 =
        { e with opaquePtr := .handler h.allocated, dtor := .queueDtor } ∧
      (e.Stale h.allocated → EnqueueUndone h (h.curlEnqueue calls e).2.1 e
        (h.curlEnqueue calls e).2.2) := by
  simp only [EnqueueClient.curlEnqueue, hurl, hhandle, hprepare.1, hprepare.2, hadded,
    Bool.and_true, Bool.not_true, Bool.not_false, Bool.false_eq_true, if_false, if_true]
  obtain ⟨hnodup, hperm⟩ := handlerDtor_released h.allocated
  refine ⟨trivial, trivial, fun hstale => ⟨rfl, rfl, ?_, _, _, List.append_assoc _ _ _, rfl,
    hnodup, hperm⟩⟩
  obtain ⟨request, options, dtor, opaquePtr, closure⟩ := e
  obtain ⟨hptr, hdtor⟩ := hstale
  dsimp only at hptr hdtor
  subst hptr hdtor
  rfl

theorem curlEnqueue_added {calls : EnqueueCalls} (h : EnqueueClient) {e : Enqueue}
    (hurl : e.request.hasUrl = true) (hhandle : calls.handle = true)
    (hprepare : calls.options = true ∧ e.request.method = true) (hadded : calls.added = true) :
    (h.curlEnqueue calls e).1 = true := by
  simp [EnqueueClient.curlEnqueue, hurl, hhandle, hprepare.1, hprepare.2, hadded]

/-- A failure undoes the call exactly if there is a handle for the handler, and curl takes it once
the request is prepared. -/
theorem curlEnqueue_undone_iff (calls : EnqueueCalls) (h : EnqueueClient) (e : Enqueue) :
    ((h.curlEnqueue calls e).1 = false →
        EnqueueUndone h (h.curlEnqueue calls e).2.1 e (h.curlEnqueue calls e).2.2) ↔
      (e.request.hasUrl = true → calls.handle = true ∧
        (calls.options = true ∧ e.request.method = true → calls.added = true ∨
          e.Stale h.allocated)) := by
  by_cases hurl : e.request.hasUrl = true
  · by_cases hhandle : calls.handle = true
    · by_cases hprepare : calls.options = true ∧ e.request.method = true
      · by_cases hadded : calls.added = true
        · have hsuccess := curlEnqueue_added h hurl hhandle hprepare hadded
          refine iff_of_true (fun hfail => ?_) fun _ => ⟨hhandle, fun _ => .inl hadded⟩
          rw [hsuccess] at hfail
          exact Bool.noConfusion hfail
        · obtain ⟨hfail, hwritten, hstale⟩ :=
            curlEnqueue_refused h hurl hhandle hprepare (Bool.eq_false_iff.mpr hadded)
          constructor
          · intro hundone _
            have hsame := hwritten.symm.trans (hundone hfail).enqueue
            exact ⟨hhandle, fun _ => .inr ⟨by rw [← hsame], by rw [← hsame]⟩⟩
          · exact fun hcond _ => hstale (((hcond hurl).2 hprepare).resolve_left hadded)
      · obtain ⟨-, hundone⟩ := curlEnqueue_unprepared h hurl hhandle hprepare
        exact iff_of_true (fun _ => hundone) fun _ => ⟨hhandle, fun hboth => absurd hboth hprepare⟩
    · have hleft := curlEnqueue_noHandle h hurl (Bool.eq_false_iff.mpr hhandle)
      refine iff_of_false (fun hundone => ?_) fun hcond => hhandle (hcond hurl).1
      rw [hleft] at hundone
      obtain ⟨created, released, hcreated, hreleased, -, hperm⟩ := (hundone rfl).released
      obtain rfl : [Resource.factory h.allocated] = created := List.append_cancel_left hcreated
      obtain rfl : released = [] := List.append_right_eq_self.mp hreleased.symm
      exact absurd hperm.length_eq (by simp)
  · refine iff_of_true (fun _ => ?_) fun hsome => absurd hsome hurl
    have hsame : h.curlEnqueue calls e = (false, h, e) := by
      rw [EnqueueClient.curlEnqueue, if_pos (by simpa using hurl)]
    rw [hsame]
    exact .refl h e

/-- Where curl refuses the handle, `msg_queue_dtor` of the caller takes the released handler for its
object. -/
theorem msgQueueDtor_refused {calls : EnqueueCalls} (h : EnqueueClient) {e : Enqueue}
    (hurl : e.request.hasUrl = true) (hhandle : calls.handle = true)
    (hprepare : calls.options = true ∧ e.request.method = true) (hadded : calls.added = false) :
    (msgQueueDtor (h.curlEnqueue calls e).2.2).1 = .handler h.allocated := by
  rw [(curlEnqueue_refused h hurl hhandle hprepare hadded).2.1]
  rfl

/-- Curl refuses the handle. -/
theorem curlEnqueue_overwritten :
    let h : EnqueueClient := ⟨[], [], fun _ => none, 0, [], []⟩
    let e : Enqueue := ⟨⟨1, some (true, true), true⟩, 2, .caller 3, .object 4, none⟩
    let r := h.curlEnqueue ⟨true, true, false⟩ e
    ¬ (r.1 = false → EnqueueUndone h r.2.1 e r.2.2) := by
  intro h e r hundone
  exact absurd (hundone rfl).enqueue (by decide)

/-! ### The queue of the client -/

namespace EnqueueClient

/-- `c` has the queue of `h`, its attached handles, and its handlers that have been released. -/
structure Shows (h : EnqueueClient) (c : Client) : Prop where
  requests : List.Forall₂ (fun e entry => entry.request = e.request.address ∧
    e.opaquePtr = .handler entry.handler)
    h.requests c.requests
  multi : c.multi = h.attached.toFinset
  freed : ∀ n, n ∈ c.freed ↔ Resource.handler n ∈ h.released
  fresh : ∀ n ∈ h.attached, n < h.allocated

/-- How far the call comes, as the client's queue sees it: a handle that curl refuses is released
like one that cannot be prepared. -/
def preparation (calls : EnqueueCalls) (e : Enqueue) : Preparation :=
  if !(e.request.hasUrl && calls.handle) then .noHandler
  else if calls.options && e.request.method && calls.added then .ready
  else .unprepared

variable {h : EnqueueClient} {c : Client}

/-- A handler is released that has not been attached. -/
theorem Shows.handlerDtor (hs : Shows h c) (created : List Resource) (queue : ℕ → Option Enqueue) :
    Shows
      ({ h with allocated := h.allocated + 1, created := created, queue := queue }.handlerDtor
        h.allocated)
      ({ c with allocated := h.allocated + 1 }.handlerDtor h.allocated) := by
  refine ⟨hs.requests, hs.multi, fun n => ?_, fun n hn =>
    (hs.fresh n hn).trans (Nat.lt_succ_self _)⟩
  simp [EnqueueClient.handlerDtor, Client.handlerDtor, hs.freed n, or_comm]

/-- On queue and handles the call is that of the smaller client, with a handler that is numbered as
it is here. -/
theorem Shows.curlEnqueue (hs : Shows h c) (calls : EnqueueCalls) (e : Enqueue) :
    let o := { c with allocated := h.allocated }.curlEnqueue (preparation calls e) e.request.address
    (h.curlEnqueue calls e).1 = o.1 ∧ Shows (h.curlEnqueue calls e).2.1 o.2 := by
  have hnew : h.allocated ∉ c.multi := fun hmem => by
    rw [hs.multi, List.mem_toFinset] at hmem
    exact (hs.fresh _ hmem).false
  unfold EnqueueClient.curlEnqueue preparation
  by_cases hurl : e.request.hasUrl = true
  · by_cases hhandle : calls.handle = true
    · by_cases hready : (calls.options && e.request.method) = true
      · by_cases hadded : calls.added = true
        · simp only [hurl, hhandle, hready, hadded, Bool.and_self, Bool.not_true,
            Bool.false_eq_true, if_false, if_true, Client.curlEnqueue, if_neg hnew, true_and]
          refine ⟨?_, ?_, hs.freed, fun n hn => ?_⟩
          · exact List.rel_append hs.requests (.cons ⟨rfl, rfl⟩ .nil)
          · rw [List.toFinset_cons, hs.multi]
          · rcases List.mem_cons.mp hn with rfl | hn
            · exact Nat.lt_succ_self _
            · exact (hs.fresh n hn).trans (Nat.lt_succ_self _)
        · simp only [hurl, hhandle, hready, hadded, Bool.and_self, Bool.and_false, Bool.not_true,
            Bool.not_false, Bool.false_eq_true, if_false, if_true, Client.curlEnqueue, true_and]
          exact hs.handlerDtor _ _
      · simp only [hurl, hhandle, hready, Bool.and_self, Bool.false_and, Bool.not_true,
          Bool.not_false, Bool.false_eq_true, if_false, if_true, Client.curlEnqueue, true_and]
        exact hs.handlerDtor _ _
    · simp only [hurl, hhandle, Bool.and_false, Bool.not_true, Bool.not_false, Bool.false_eq_true,
        if_false, if_true, Client.curlEnqueue, true_and]
      exact ⟨hs.requests, hs.multi, hs.freed, fun n hn =>
        (hs.fresh n hn).trans (Nat.lt_succ_self _)⟩
  · simp only [hurl, Bool.false_and, Bool.not_false, if_true, Client.curlEnqueue, true_and]
    exact ⟨hs.requests, hs.multi, hs.freed, hs.fresh⟩

/-- A request is found in the one queue if it is in the other. -/
theorem Shows.enqueued (hs : Shows h c) (address : ℕ) :
    (c.enqueued address).isSome = h.requests.any fun e => e.request.address = address := by
  have hrequests := hs.requests
  unfold Client.enqueued
  generalize h.requests = es, c.requests = entries at hrequests ⊢
  induction hrequests with
  | nil => rfl
  | @cons e entry es entries hentry _ ih =>
    rw [List.any_cons, ← ih, List.find?_cons, hentry.1]
    by_cases heq : e.request.address = address <;> simp [heq]

/-- The client that does not look at what is allocated follows `php_http_client_enqueue`. -/
theorem Shows.clientEnqueue (hs : Shows h c) (calls : EnqueueCalls) (e : Enqueue) :
    let o := { c with allocated := h.allocated }.enqueue (preparation calls e) e.request.address
    (h.clientEnqueue calls e).1 = o.1 ∧ Shows (h.clientEnqueue calls e).2.1 o.2 := by
  have henqueued : ({ c with allocated := h.allocated }.enqueued e.request.address).isSome =
      h.requests.any fun e' => e'.request.address = e.request.address := hs.enqueued _
  unfold EnqueueClient.clientEnqueue Client.enqueue
  rw [henqueued]
  split_ifs
  · exact ⟨rfl, hs.requests, hs.multi, hs.freed, hs.fresh⟩
  · exact hs.curlEnqueue calls e

end EnqueueClient

end ExtHttp
