import ExtHttp.ClientQueue

/-!
# Sending requests

What the queue of a client and curl do together from the first request to the last response.
Transfers are under way until curl reports that they are done,
`php_http_client_curl_responsehandler` calls back for each report, and the callback may change the
queue. A ledger numbers the transfers, as a handler that is requeued is used for another one.
-/
namespace ExtHttp

/-- A response in the list of the client: the request that is its parent, and its transfer. -/
structure Answer where
  request : ℕ
  transfer : ℕ
  deriving DecidableEq, Repr

/-- A client with its engine: the handlers whose transfers are under way, curl's reports of those
that are done, what it has returned as the number of those under way, and the list of responses. The
ledger has the request of every transfer that has been started, the last transfer of every handler,
the transfers that have been called back for, and those whose responses are not in the list any
more. -/
structure ClientRun where
  client : Client
  running : Finset ℕ
  messages : List ℕ
  unfinished : ℕ
  responses : List Answer
  started : List ℕ
  transfer : ℕ → ℕ
  answered : List ℕ
  gone : List ℕ

/-- A method of `http\Client` that a user calls. -/
inductive UserCall
  | enqueue (prep : Preparation) (request : ℕ)
  | dequeue (request : ℕ)
  | requeue (prepared : Bool) (prep : Preparation) (request : ℕ)
  | reset
  | getResponse (request : Option ℕ)
  deriving DecidableEq

/-- What callbacks do for one response, and whether the closure returns true. -/
structure Reaction where
  calls : List UserCall
  dequeue : Bool

/-- One round of `php_http_client_curl_exec`: what the callbacks do while curl performs, which
transfers are done then, what the callbacks do for the responses, whether there is an exception then
and whether waiting succeeds. -/
structure Round where
  calls : List UserCall
  finished : List ℕ
  reactions : List Reaction
  exception : Bool
  waited : Bool

namespace ClientRun

def init : ClientRun := ⟨.init, ∅, [], 0, [], [], fun _ => 0, [], []⟩

/-- `curl_multi_add_handle` starts a transfer. -/
def start (r : ClientRun) (request handler : ℕ) : ClientRun :=
  { r with
    running := insert handler r.running
    unfinished := r.unfinished + 1
    started := r.started ++ [request]
    transfer := Function.update r.transfer handler r.started.length }

/-- `curl_multi_remove_handle` takes away the transfer and the report of it. -/
def forget (r : ClientRun) (handler : ℕ) : ClientRun :=
  { r with
    running := r.running.erase handler
    messages := r.messages.filter fun h => h ≠ handler }

/-- `php_http_client_enqueue` -/
def enqueue (prep : Preparation) (r : ClientRun) (request : ℕ) : Bool × ClientRun :=
  let o := r.client.enqueue prep request
  (o.1, if o.1 then { r with client := o.2 }.start request r.client.allocated
    else { r with client := o.2 })

/-- `php_http_client_curl_dequeue` -/
def curlDequeue (r : ClientRun) (e : QueueEntry) : Bool × ClientRun :=
  let o := r.client.curlDequeue e
  (o.1, if o.1 then { r with client := o.2 }.forget e.handler else { r with client := o.2 })

/-- `php_http_client_dequeue` -/
def dequeue (r : ClientRun) (request : ℕ) : Bool × ClientRun :=
  match r.client.enqueued request with
  | none => (false, r)
  | some e => r.curlDequeue e

/-- `php_http_client_requeue` -/
def requeue (prepared : Bool) (r : ClientRun) (request : ℕ) : Bool × ClientRun :=
  match r.client.enqueued request with
  | none => (false, r)
  | some e =>
      let o := r.client.curlRequeue prepared e
      (o.1, if o.1 then ({ r with client := o.2 }.forget e.handler).start e.request e.handler
        else { r with client := o.2 })

/-- `php_http_client_reset` -/
def reset (r : ClientRun) : ClientRun :=
  let r := r.client.requests.foldl (fun r e => (r.curlDequeue e).2) r
  { r with
    client := r.client.cleanRequests
    responses := []
    gone := r.gone ++ r.responses.map Answer.transfer }

/-- `HttpClient::getResponse` takes away the last response if it is not asked for that of a
request. -/
def getResponse (r : ClientRun) : Option ℕ → Option Answer × ClientRun
  | some request => (r.responses.find? fun a => a.request = request, r)
  | none => (r.responses.getLast?, { r with
      responses := r.responses.dropLast
      gone := r.gone ++ (r.responses.getLast?.map Answer.transfer).toList })

/-- A method is called. `HttpClient::requeue` enqueues a request that is not in the queue. -/
def call (r : ClientRun) : UserCall → ClientRun
  | .enqueue prep request => (r.enqueue prep request).2
  | .dequeue request => (r.dequeue request).2
  | .requeue prepared prep request =>
      if (r.client.enqueued request).isSome then (r.requeue prepared request).2
        else (r.enqueue prep request).2
  | .reset => r.reset
  | .getResponse request => (r.getResponse request).2

def deeper (r : ClientRun) :
    ClientRun := { r with client := { r.client with depth := r.client.depth + 1 } }

def higher (r : ClientRun) :
    ClientRun := { r with client := { r.client with depth := r.client.depth - 1 } }

/-- The callbacks call these methods. -/
def callback (r : ClientRun) (calls : List UserCall) : ClientRun :=
  (calls.foldl call r.deeper).higher

/-- `curl_multi_perform` finishes some transfers. -/
def perform (r : ClientRun) (finished : List ℕ) : ClientRun :=
  let done := (finished.filter fun h => h ∈ r.running).dedup
  { r with
    running := r.running \ done.toFinset
    messages := r.messages ++ done
    unfinished := (r.running \ done.toFinset).card }

/-- `handle_response`: the response is put into the list, callbacks are called, and the request is
dequeued if the closure has said so. -/
def handleResponse (r : ClientRun) (e : QueueEntry) (reaction : Reaction) : ClientRun :=
  let r := { r with
    responses := r.responses ++ [Answer.mk e.request (r.transfer e.handler)]
    answered := r.answered ++ [r.transfer e.handler] }
  let r := r.callback reaction.calls
  if reaction.dequeue then (r.dequeue e.request).2 else r

/-- The loop of `php_http_client_curl_responsehandler`, which goes on as long as there are
reports. -/
def responsehandler : List Reaction → ClientRun → Option ClientRun
  | [], r => if r.messages = [] then some r else none
  | reaction :: reactions, r =>
      match r.messages with
      | [] => some r
      | handler :: messages =>
          let r := { r with messages := messages }
          responsehandler reactions <| match r.client.requests.find? fun e => e.handler =
            handler with
            | some e => r.handleResponse e reaction
            | none => r

/-- `php_http_client_curl_once` without an event loop -/
def once (round : Round) (r : ClientRun) : Option ClientRun :=
  if r.client.depth ≠ 0 then some r
  else responsehandler round.reactions ((r.callback round.calls).perform round.finished)

/-- `php_http_client_curl_exec` without an event loop: what it returns and the client then; nothing
if it goes on after these rounds. -/
def exec : List Round → ClientRun → Option (Bool × ClientRun)
  | [], _ => none
  | round :: rounds, r =>
      if r.client.depth ≠ 0 then some (true, r)
      else (once round r).bind fun r =>
        if r.unfinished = 0 ∨ round.exception then some (true, r)
        else if round.waited then exec rounds r
        else some (false, r)

end ClientRun
end ExtHttp
