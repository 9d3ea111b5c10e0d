/-
# `FreenetGit.WsClient` — one connection to the host

`put_contract`, `get_state` and `update_state` send a request and then read the
messages of the connection until one of them ends the wait.  Messages carry at most
a contract key.  The host answers a request when it likes, also after the
operation has given up, and sends notifications of subscribed contracts, so an
operation may read what an earlier one was waiting for.

`cause` is what made the host send a message.  The code does not see it.
-/
import FreenetGit.Legacy

namespace FreenetGit

open Lib

/-! ## The receive loops -/

inductive UpdateDispatch where
  | success
  | notFound
  | continue_
deriving DecidableEq

/-- `dispatch_update_response`. -/
def dispatchUpdateResponse (response : HostResponse) (id : ContractId) : UpdateDispatch :=
  match response with
  | .updateResponse gotKey => if gotKey = id then .success else .continue_
  | .updateNotification notifKey => if notifKey = id then .success else .continue_
  | .notFound nfId => if nfId ≠ id then .continue_ else .notFound
  | .ok => .success
  | _ => .continue_

/-- What an operation returns when it succeeds: `put_contract` the key it asked for,
`update_state` nothing. -/
inductive ClientResult where
  | confirmed
  | state (bytes : Bytes)
deriving DecidableEq

inductive Received where
  | continue_
  | success (result : ClientResult)
  | failure (msg : String)
deriving DecidableEq

def missingContractMarker : String := "missing contract"

/-- `is_missing_contract_message`. -/
def isMissingContractMessage (msg : String) : Bool := strContains msg missingContractMarker

section

variable (cr : Crypto)

/-- `update_recv_error`. -/
def updateRecvError (id : ContractId) (hostMessage : String) : String :=
  if isMissingContractMessage hostMessage then
    "the local Freenet node could not resolve contract " ++ cr.bs58Encode id ++
      " to apply the update to. An update is applied on your own node before it is sent to " ++
      "the network, so this is a local condition despite what the host's wording suggests. " ++
      "Check that you are pushing through the node the repo was published to (`git push` " ++
      "uses FREENET_GIT_WS_URL, `freenet-git create` uses --publish-to), and that it is " ++
      "running and past startup. (host said: " ++ hostMessage ++ ")"
  else "recv: " ++ hostMessage

namespace ContractRequest

/-- What the receive loop of an operation does with a message. -/
def receive (request : ContractRequest) (response : HostResponse) : Received :=
  match request with
  | .put key _ =>
      match dispatchPutResponse response key with
      | .success => .success .confirmed
      | .continue_ => .continue_
  | .get id =>
      match dispatchGetResponse response id with
      | .state bytes => .success (.state bytes)
      | .notFound => .failure ("contract " ++ cr.bs58Encode id ++ " " ++ getNotFoundSuffix)
      | .continue_ => .continue_
  | .update id _ =>
      match dispatchUpdateResponse response id with
      | .success => .success .confirmed
      | .notFound => .failure ("contract " ++ cr.bs58Encode id ++
          " not found on the network (cannot UPDATE). The repo state was readable a moment " ++
          "ago, so this is usually transient routing rather than lost data — retry the push, " ++
          "and if it persists run `freenet-git rescue <repo-url>`.")
      | .continue_ => .continue_

def sendError : ContractRequest → String → String
  | .put _ _, e => "send PUT: " ++ e
  | .get _, e => "send GET: " ++ e
  | .update _ _, e => "send UPDATE: " ++ e

def recvError : ContractRequest → String → String
  | .put _ _, e | .get _, e => "recv: " ++ e
  | .update id _, e => updateRecvError cr id e

/-- `timeout` is the text of the timeout. -/
def timeoutError : ContractRequest → String → String
  | .put _ _, timeout => "timed out waiting for PUT confirmation after " ++ timeout
  | .get _, timeout => getTimeoutPrefix ++ " after " ++ timeout
  | .update _ _, timeout => "timed out waiting for UPDATE response after " ++ timeout

end ContractRequest

end

/-! ## The host -/

/-- What made the host send a message: a request of this connection, by its number,
or a change of a contract by another writer. -/
inductive Cause where
  | request (n : Nat)
  | otherWriter
deriving DecidableEq

structure Message where
  response : HostResponse
  cause : Cause
deriving DecidableEq

/-- The contract a request is about. -/
def ContractRequest.contract : ContractRequest → ContractId
  | .put key _ | .get key | .update key _ => key

/-- The responses that a request may get. -/
inductive Answers : ContractRequest → HostResponse → Prop
  | putResponse {key : ContractId} {state : Bytes} : Answers (.put key state) (.putResponse key)
  | getResponse {key : ContractId} {state : Bytes} : Answers (.get key) (.getResponse key state)
  | updateResponse {key : ContractId} {delta : Bytes} :
      Answers (.update key delta) (.updateResponse key)
  /-- The connection is subscribed to what it puts. -/
  | putEcho {key : ContractId} {state : Bytes} :
      Answers (.put key state) (.updateNotification key)
  | updateEcho {key : ContractId} {delta : Bytes} :
      Answers (.update key delta) (.updateNotification key)
  | notFound {request : ContractRequest} : Answers request (.notFound request.contract)
  | ok {request : ContractRequest} : Answers request .ok
  | other {request : ContractRequest} : Answers request .other

/-- A PUT subscribes to its contract, and so does a GET that asks for it. -/
def Subscribed (sent : List ContractRequest) (key : ContractId) : Prop :=
  (∃ state, .put key state ∈ sent) ∨ .get key ∈ sent

/-- A message that the host may send after these requests. -/
def Message.Possible (sent : List ContractRequest) (m : Message) : Prop :=
  match m.cause with
  | .request n => ∃ request, sent[n]? = some request ∧ Answers request m.response
  | .otherWriter => ∃ key, m.response = .updateNotification key ∧ Subscribed sent key

/-! ## The connection -/

/-- The requests sent on the connection, the messages that have arrived and were not
read yet, and the request of the operation that waits. -/
structure ClientState where
  sent : List ContractRequest
  queue : List Message
  waiting : Option ContractRequest

def ClientState.start : ClientState := ⟨[], [], none⟩

inductive ClientEvent where
  | send (request : ContractRequest)
  | deliver (message : Message)
  | skip (message : Message)
  | succeed (request : ContractRequest) (message : Message) (result : ClientResult)
  | fail (request : ContractRequest) (msg : String)
deriving DecidableEq

inductive ClientStep (cr : Crypto) : ClientState → ClientEvent → ClientState → Prop
  | send {s request} (hidle : s.waiting = none) :
      ClientStep cr s (.send request)
        { s with sent := s.sent ++ [request], waiting := some request }
  /-- The request may have been sent before the error. -/
  | sendFail {s request sent e} (hidle : s.waiting = none)
      (hsent : sent = s.sent ∨ sent = s.sent ++ [request]) :
      ClientStep cr s (.fail request (request.sendError e)) { s with sent := sent }
  | deliver {s m} (hm : m.Possible s.sent) :
      ClientStep cr s (.deliver m) { s with queue := s.queue ++ [m] }
  | skip {s request m queue} (hwait : s.waiting = some request) (hqueue : s.queue = m :: queue)
      (hreceive : request.receive cr m.response = .continue_) :
      ClientStep cr s (.skip m) { s with queue := queue }
  | succeed {s request m queue result} (hwait : s.waiting = some request)
      (hqueue : s.queue = m :: queue)
      (hreceive : request.receive cr m.response = .success result) :
      ClientStep cr s (.succeed request m result) { s with queue := queue, waiting := none }
  | refuse {s request m queue msg} (hwait : s.waiting = some request)
      (hqueue : s.queue = m :: queue)
      (hreceive : request.receive cr m.response = .failure msg) :
      ClientStep cr s (.fail request msg) { s with queue := queue, waiting := none }
  | recvFail {s request e} (hwait : s.waiting = some request) :
      ClientStep cr s (.fail request (request.recvError cr e)) { s with waiting := none }
  | timeout {s request timeout} (hwait : s.waiting = some request) :
      ClientStep cr s (.fail request (request.timeoutError timeout)) { s with waiting := none }

/-! ## Whose reply it was -/

/-- The reply was caused by the request itself or by an identical one. -/
def Attributed (sent : List ContractRequest) (request : ContractRequest) (m : Message) : Prop :=
  ∃ n, m.cause = .request n ∧ sent[n]? = some request

/-- The reply was caused by a request of the connection of which this holds. -/
def CausedBy (sent : List ContractRequest) (P : ContractRequest → Prop) (m : Message) : Prop :=
  ∃ n request, m.cause = .request n ∧ sent[n]? = some request ∧ P request

/-- What an operation has read when it succeeds. -/
def Confirms (sent : List ContractRequest) (m : Message) :
    ContractRequest → ClientResult → Prop
  | .put key _, result => result = .confirmed ∧
      (m.response = .updateNotification key ∨
        (m.response = .ok ∧ CausedBy sent (fun _ => True) m) ∨
        m.response = .putResponse key ∧ CausedBy sent (fun r => ∃ state, r = .put key state) m)
  | .update key _, result => result = .confirmed ∧
      (m.response = .updateNotification key ∨
        (m.response = .ok ∧ CausedBy sent (fun _ => True) m) ∨
        m.response = .updateResponse key ∧
          CausedBy sent (fun r => ∃ delta, r = .update key delta) m)
  | .get id, result => ∃ bytes, result = .state bytes ∧ m.response = .getResponse id bytes ∧
      Attributed sent (.get id) m

section

variable {cr : Crypto} {sent sent' : List ContractRequest} {m : Message}

theorem Subscribed.mono {key : ContractId} (h : Subscribed sent key) (hsub : sent ⊆ sent') :
    Subscribed sent' key := by
  rcases h with ⟨state, h⟩ | h
  · exact .inl ⟨state, hsub h⟩
  · exact .inr (hsub h)

/-- What was possible stays so: requests are only added. -/
theorem Message.Possible.append (h : m.Possible sent) (more : List ContractRequest) :
    m.Possible (sent ++ more) := by
  unfold Message.Possible at h ⊢
  cases hc : m.cause with
  | request n =>
      rw [hc] at h
      obtain ⟨request, hn, hanswers⟩ := h
      obtain ⟨hlt, -⟩ := List.getElem?_eq_some_iff.mp hn
      exact ⟨request, by rw [List.getElem?_append_left hlt, hn], hanswers⟩
  | otherWriter =>
      rw [hc] at h
      obtain ⟨key, hresponse, hsub⟩ := h
      exact ⟨key, hresponse, hsub.mono (List.subset_append_left _ _)⟩

/-- The messages that have arrived were possible. -/
def ClientState.Inv (s : ClientState) : Prop := ∀ m ∈ s.queue, m.Possible s.sent

theorem ClientState.start_inv : ClientState.start.Inv := fun _ hm => absurd hm List.not_mem_nil

theorem ClientStep.inv {s s' : ClientState} {e : ClientEvent} (hs : s.Inv)
    (h : ClientStep cr s e s') : s'.Inv := by
  cases h with
  | send _ => exact fun m hm => (hs m hm).append _
  | sendFail _ hsent =>
      rcases hsent with rfl | rfl
      · exact hs
      · exact fun m hm => (hs m hm).append _
  | deliver hm =>
      intro m' hm'
      rcases List.mem_append.mp hm' with h | h
      · exact hs m' h
      · exact List.mem_singleton.mp h ▸ hm
  | skip _ hqueue _ | succeed _ hqueue _ | refuse _ hqueue _ =>
      exact fun m hm => hs m (hqueue ▸ List.mem_cons_of_mem _ hm)
  | recvFail _ | timeout _ => exact hs

/-- A response that only some requests may get was caused by one of them. -/
theorem Message.Possible.causedBy {P : ContractRequest → Prop} (h : m.Possible sent)
    (hno : ∀ key, m.response ≠ .updateNotification key)
    (hP : ∀ request, Answers request m.response → P request) : CausedBy sent P m := by
  unfold Message.Possible at h
  cases hc : m.cause with
  | request n =>
      rw [hc] at h
      obtain ⟨request, hn, hanswers⟩ := h
      exact ⟨n, request, hc, hn, hP request hanswers⟩
  | otherWriter =>
      rw [hc] at h
      obtain ⟨key, hresponse, -⟩ := h
      exact absurd hresponse (hno key)

theorem dispatchPutResponse_eq_success {response : HostResponse} {key : ContractId} :
    dispatchPutResponse response key = .success ↔
      response = .updateNotification key ∨ response = .ok ∨ response = .putResponse key := by
  cases response with
  | putResponse k | updateNotification k =>
      by_cases hk : k = key <;> simp [dispatchPutResponse, hk]
  | _ => simp [dispatchPutResponse]

theorem dispatchUpdateResponse_eq_success {response : HostResponse} {id : ContractId} :
    dispatchUpdateResponse response id = .success ↔
      response = .updateNotification id ∨ response = .ok ∨ response = .updateResponse id := by
  cases response with
  | updateResponse k | updateNotification k | notFound k =>
      by_cases hk : k = id <;> simp [dispatchUpdateResponse, hk]
  | _ => simp [dispatchUpdateResponse]

theorem dispatchGetResponse_eq_state {response : HostResponse} {id : ContractId} {bytes : Bytes} :
    dispatchGetResponse response id = .state bytes ↔ response = .getResponse id bytes := by
  cases response with
  | getResponse k _ | notFound k =>
      by_cases hk : k = id <;> simp [dispatchGetResponse, hk]
  | _ => simp [dispatchGetResponse]

/-- What an operation makes a success of. -/
theorem receive_eq_success {request : ContractRequest} {response : HostResponse}
    {result : ClientResult} (h : request.receive cr response = .success result) :
    match request with
    | .put key _ => result = .confirmed ∧ dispatchPutResponse response key = .success
    | .update key _ => result = .confirmed ∧ dispatchUpdateResponse response key = .success
    | .get id => ∃ bytes, result = .state bytes ∧ dispatchGetResponse response id = .state bytes := by
  cases request with
  | put key state =>
      simp only [ContractRequest.receive] at h
      split at h
      · next hd =>
          cases h
          exact ⟨rfl, hd⟩
      · cases h
  | get id =>
      simp only [ContractRequest.receive] at h
      split at h
      · next bytes hd =>
          cases h
          exact ⟨bytes, rfl, hd⟩
      · cases h
      · cases h
  | update key delta =>
      simp only [ContractRequest.receive] at h
      split at h
      · next hd =>
          cases h
          exact ⟨rfl, hd⟩
      · cases h
      · cases h

theorem confirms_of_receive {request : ContractRequest} {result : ClientResult}
    (hm : m.Possible sent) (h : request.receive cr m.response = .success result) :
    Confirms sent m request result := by
  have h := receive_eq_success h
  cases request with
  | put key state =>
      refine ⟨h.1, (dispatchPutResponse_eq_success.mp h.2).imp_right (Or.imp ?_ ?_)⟩
      · intro hok
        exact ⟨hok, hm.causedBy (by simp [hok]) fun _ _ => trivial⟩
      · intro hput
        refine ⟨hput, hm.causedBy (by simp [hput]) fun request ha => ?_⟩
        rw [hput] at ha
        cases ha
        exact ⟨_, rfl⟩
  | update key delta =>
      refine ⟨h.1, (dispatchUpdateResponse_eq_success.mp h.2).imp_right (Or.imp ?_ ?_)⟩
      · intro hok
        exact ⟨hok, hm.causedBy (by simp [hok]) fun _ _ => trivial⟩
      · intro hupdate
        refine ⟨hupdate, hm.causedBy (by simp [hupdate]) fun request ha => ?_⟩
        rw [hupdate] at ha
        cases ha
        exact ⟨_, rfl⟩
  | get id =>
      obtain ⟨bytes, rfl, hd⟩ := h
      have hget := dispatchGetResponse_eq_state.mp hd
      obtain ⟨n, _, hn, hsent, rfl⟩ := hm.causedBy (P := (· = .get id)) (by simp [hget])
        fun request ha => by
          rw [hget] at ha
          cases ha
          rfl
      exact ⟨bytes, rfl, hget, n, hn, hsent⟩

end

/-- **What success rests on.**  In every run of a connection, an operation that succeeds
has read a reply to a request of its own kind for its own contract, a notification of
that contract, or a bare `Ok`; and a GET returns what a reply to such a GET holds. -/
theorem success_confirmed {cr : Crypto} {tr : List (Transition ClientState ClientEvent)}
    {s : ClientState} (hrun : Run (ClientStep cr) .start tr s)
    {t : Transition ClientState ClientEvent} (ht : t ∈ tr) {request : ContractRequest}
    {m : Message} {result : ClientResult} (he : t.event = .succeed request m result) :
    Confirms t.before.sent m request result := by
  obtain ⟨hinv, hstep⟩ := hrun.mem ClientState.start_inv (fun _ _ _ => ClientStep.inv) ht
  obtain ⟨before, event, after⟩ := t
  cases he
  dsimp only at hstep
  cases hstep with
  | succeed _ hqueue hreceive =>
      exact confirms_of_receive (hinv m (hqueue ▸ List.mem_cons_self)) hreceive

/-! ## Replies to others

The first request times out and the second one is sent.  The message that arrives then
is not about the second one. -/

namespace Sample

def contract : ContractId := zeros 32

def lateTrace (first second : ContractRequest) (m : Message) :
    List (Transition ClientState ClientEvent) :=
  [⟨⟨[], [], none⟩, .send first, ⟨[first], [], some first⟩⟩,
   ⟨⟨[first], [], some first⟩, .fail first (first.timeoutError "180s"), ⟨[first], [], none⟩⟩,
   ⟨⟨[first], [], none⟩, .send second, ⟨[first, second], [], some second⟩⟩,
   ⟨⟨[first, second], [], some second⟩, .deliver m, ⟨[first, second], [m], some second⟩⟩,
   ⟨⟨[first, second], [m], some second⟩, .succeed second m .confirmed,
     ⟨[first, second], [], none⟩⟩]

theorem late_run {first second : ContractRequest} {m : Message}
    (hm : m.Possible [first, second])
    (hreceive : second.receive unsigned m.response = .success .confirmed) :
    Run (ClientStep unsigned) .start (lateTrace first second m) ⟨[first, second], [], none⟩ :=
  ((((Run.nil.snoc (.send rfl)).snoc (.timeout rfl)).snoc (.send rfl)).snoc (.deliver hm)).snoc
    (.succeed rfl rfl hreceive)

/-- Some operation of a run takes this response for its own although neither its
request nor an identical one caused it. -/
def Misattributed (response : HostResponse) : Prop :=
  ∃ tr s, Run (ClientStep unsigned) .start tr s ∧
    ∃ t ∈ tr, ∃ request m, t.event = .succeed request m .confirmed ∧ m.response = response ∧
      ¬ Attributed t.before.sent request m

theorem late_misattributed {first second : ContractRequest} {m : Message}
    (hm : m.Possible [first, second])
    (hreceive : second.receive unsigned m.response = .success .confirmed)
    (hnot : ¬ Attributed [first, second] second m) : Misattributed m.response :=
  ⟨_, _, late_run hm hreceive, _, List.mem_of_getLast? rfl, second, m, rfl, rfl, hnot⟩

theorem not_attributed {first second : ContractRequest} {response : HostResponse}
    (hne : first ≠ second) : ¬ Attributed [first, second] second ⟨response, .request 0⟩ := by
  rintro ⟨n, hn, hsent⟩
  cases hn
  exact hne (Option.some.inj hsent)

end Sample

open Sample in
theorem success_misattributed :
    Misattributed (.updateNotification contract) ∧ Misattributed .ok ∧
      Misattributed (.updateResponse contract) ∧ Misattributed (.putResponse contract) := by
  refine ⟨?_, ?_, ?_, ?_⟩
  · have hm : Message.Possible [.put contract [1], .update contract [2]]
        ⟨.updateNotification contract, .otherWriter⟩ :=
      ⟨contract, rfl, .inl ⟨[1], List.mem_cons_self⟩⟩
    exact late_misattributed hm rfl fun ⟨_, hn, _⟩ => nomatch hn
  · have hm : Message.Possible [.put contract [1], .update contract [2]] ⟨.ok, .request 0⟩ :=
      ⟨_, rfl, .ok⟩
    exact late_misattributed hm rfl (not_attributed (by decide))
  · have hm : Message.Possible [.update contract [1], .update contract [2]]
        ⟨.updateResponse contract, .request 0⟩ := ⟨_, rfl, .updateResponse⟩
    exact late_misattributed hm rfl (not_attributed (by decide))
  · have hm : Message.Possible [.put contract [1], .put contract [2]]
        ⟨.putResponse contract, .request 0⟩ := ⟨_, rfl, .putResponse⟩
    exact late_misattributed hm rfl (not_attributed (by decide))

open Sample in
theorem success_confirmed_late :
    Confirms [.update contract [1], .update contract [2]]
      ⟨.updateResponse contract, .request 0⟩ (.update contract [2]) .confirmed := by
  have hm : Message.Possible [.update contract [1], .update contract [2]]
      ⟨.updateResponse contract, .request 0⟩ := ⟨_, rfl, .updateResponse⟩
  exact success_confirmed (late_run hm rfl) (List.mem_of_getLast? rfl) rfl

end FreenetGit
