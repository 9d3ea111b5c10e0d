/-
# `FreenetGit.Publish` — publishing a chunked pack

`publish_chunked_pack_with_progress` works in four phases: PUT every chunk, GET
every chunk back, PUT the manifest, GET the manifest back.  The tasks of a phase
share a pool of connections and run in any order the pool admits; the host may
answer anything.  The GETs go through the pack cache, which the PUTs write.

A run is a list of steps of the tasks.  Its events say what was sent and what
was received.
-/
import FreenetGit.Chunked
import FreenetGit.Lib.Hex
import FreenetGit.Lib.Run

namespace FreenetGit

open Lib

/-! ## The host -/

abbrev ContractId := Vector UInt8 32

/-- `ContractRequest`. -/
inductive ContractRequest where
  | put (key : ContractId) (state : Bytes)
  | get (key : ContractId)
  | update (key : ContractId) (delta : Bytes)
deriving DecidableEq

/-- `HostResponse`, as far as the receive loops look at it. -/
inductive HostResponse where
  | putResponse (key : ContractId)
  | updateResponse (key : ContractId)
  | updateNotification (key : ContractId)
  | getResponse (key : ContractId) (state : Bytes)
  | notFound (instanceId : ContractId)
  | ok
  | other
deriving DecidableEq

inductive PutDispatch where
  | success
  | continue_
deriving DecidableEq

/-- `dispatch_put_response`: a bare `Ok` has no key to compare. -/
def dispatchPutResponse (response : HostResponse) (expectedKey : ContractId) : PutDispatch :=
  match response with
  | .putResponse key => if key ≠ expectedKey then .continue_ else .success
  | .updateNotification key => if key = expectedKey then .success else .continue_
  | .ok => .success
  | _ => .continue_

inductive GetDispatch where
  | state (bytes : Bytes)
  | notFound
  | continue_
deriving DecidableEq

/-- `dispatch_get_response`. -/
def dispatchGetResponse (response : HostResponse) (id : ContractId) : GetDispatch :=
  match response with
  | .getResponse gotKey state => if gotKey ≠ id then .continue_ else .state state
  | .notFound nfId => if nfId ≠ id then .continue_ else .notFound
  | .updateNotification _ => .continue_
  | _ => .continue_

/-! ## The pack cache -/

/-- The files of the pack cache, `none` where it is disabled. -/
abbrev PackCache := Option (PackHash → Option Bytes)

namespace PackCache

/-- `PackCache::read`: bytes of another hash are a miss. -/
def read (cr : Crypto) (cache : PackCache) (hash : PackHash) : Option Bytes :=
  cache.bind fun files => (files hash).filter fun bytes => cr.blake3 bytes = hash

/-- A read that misses removes a corrupted file, unless that fails. -/
inductive AfterMiss (cache : PackCache) (hash : PackHash) : PackCache → Prop
  | kept : AfterMiss cache hash cache
  | removed : AfterMiss cache hash (cache.map fun files => Function.update files hash none)

/-- `PackCache::write`: best-effort. -/
inductive AfterWrite (cache : PackCache) (hash : PackHash) (bytes : Bytes) : PackCache → Prop
  | failed : AfterWrite cache hash bytes cache
  | written : AfterWrite cache hash bytes
      (cache.map fun files => Function.update files hash (some bytes))

end PackCache

/-! ## The tasks of a phase -/

/-- `PublishPhase`. -/
inductive PublishPhase where
  | putChunk
  | verifyChunk
  | putManifest
  | verifyManifest
deriving DecidableEq

def PublishPhase.next : PublishPhase → Option PublishPhase
  | .putChunk => some .verifyChunk
  | .verifyChunk => some .putManifest
  | .putManifest => some .verifyManifest
  | .verifyManifest => none

/-- A task is one `put_pack` or one `get_pack`. -/
inductive Job where
  | put (bytes : Bytes)
  | get (hash : PackHash)
deriving DecidableEq

/-- How far a task has come: waiting for a connection, about to read the cache,
about to send, waiting for the host's answer. -/
inductive Task where
  | queued
  | looking
  | sending (attempt : Nat)
  | waiting (attempt : Nat)
  | finished
deriving DecidableEq

def Task.holdsConnection : Task → Bool
  | .queued | .finished => false
  | _ => true

def Job.opening : Job → Task
  | .put _ => .sending 1
  | .get _ => .looking

/-- `buffer_unordered` keeps at most `conns` tasks in flight and takes them in
order; task `i` needs connection `i % conns` for itself. -/
def Admitted (conns : Nat) (tasks : List Task) (i : Nat) : Prop :=
  i < tasks.count .finished + conns ∧
    ∀ j task, tasks[j]? = some task → task.holdsConnection = true → j % conns ≠ i % conns

/-- `MAX_ATTEMPTS` of `put_pack`. -/
def maxAttempts : Nat := 3

/-- What may go wrong on a connection, with the text of the cause. -/
inductive ConnFault where
  | send (e : String)
  | recv (e : String)
  | timeout (after : String)
deriving DecidableEq

def ConnFault.text : ConnFault → Job → String
  | .send e, .put _ => "send PUT: " ++ e
  | .send e, .get _ => "send GET: " ++ e
  | .recv e, _ => "recv: " ++ e
  | .timeout t, .put _ => "timed out waiting for PUT confirmation after " ++ t
  | .timeout t, .get _ => "timed out waiting for GET response after " ++ t

/-- The attempt that a fault interrupts. -/
def ConnFault.attempt? : ConnFault → Task → Option Nat
  | .send _, .sending k => some k
  | .recv _, .waiting k => some k
  | .timeout _, .waiting k => some k
  | _, _ => none

/-- What an answer of the host does to the operation that waits for it. -/
inductive Reaction where
  | wait
  | succeed (bytes : Bytes)
  | fail (msg : String)
deriving DecidableEq

/-- What the caller of a successful publish gets. -/
structure PublishedChunkedPack where
  bundle : ObjectBundle
  chunkCount : UInt32
  totalSize : UInt64
deriving DecidableEq

/-- What is to be published. -/
structure PublishPlan where
  chunks : List Bytes
  manifest : ChunkedPackManifestV1
  manifestBytes : Bytes
deriving DecidableEq

/-- The checks before the first connection is opened.  An error is a chain of
messages, outermost context first. -/
def publishPlan (cr : Crypto) (packBytes : Bytes) (chunkSize : UInt32) (parallelism : Nat) :
    Outcome (List String) PublishPlan :=
  if packBytes.isEmpty then .error (.err ["publish_chunked_pack: empty pack"])
  else if chunkSize = 0 then .error (.err ["publish_chunked_pack: zero chunk_size"])
  else if parallelism = 0 then .error (.err ["publish_chunked_pack: zero parallelism"])
  else do
    let chunks := splitPack packBytes chunkSize
    let manifest ← ChunkedPackManifestV1.fromChunks cr chunkSize chunks
    match manifest.validate with
    | .error e => .error (.err ["manifest self-check before publish", e.display])
    | .ok () =>
        match manifest.toBytes with
        | none => .error .panicked
        | some manifestBytes => .ok ⟨chunks, manifest, manifestBytes⟩

/-! ## The steps of a run -/

/-- `answers` is the request that the host answers with a response. -/
inductive PublishEvent where
  | start (phase : PublishPhase) (i : Nat)
  | lookup (phase : PublishPhase) (i : Nat)
  | send (phase : PublishPhase) (i : Nat) (request : ContractRequest)
  | recv (phase : PublishPhase) (i : Nat) (response : HostResponse)
      (answers : Option ContractRequest)
  | fault (phase : PublishPhase) (i : Nat) (fault : ConnFault)
  | next (phase : PublishPhase)
deriving DecidableEq

def PublishEvent.phase : PublishEvent → PublishPhase
  | start ph _ | lookup ph _ | send ph _ _ | recv ph _ _ _ | fault ph _ _ | next ph => ph

inductive PublishState where
  | running (phase : PublishPhase) (tasks : List Task) (cache : PackCache)
  | ended (result : Outcome (List String) PublishedChunkedPack)

section

variable (cr : Crypto) (packId : PackHash → ContractId) (plan : PublishPlan) (conns : Nat)

namespace Job

def hash : Job → PackHash
  | .put bytes => cr.blake3 bytes
  | .get hash => hash

/-- The contract of a pack is named by its hash (`ContractKey::from_params_and_code`). -/
def request : Job → ContractRequest
  | .put bytes => .put (packId (cr.blake3 bytes)) bytes
  | .get hash => .get (packId hash)

/-- The receive loops of `put_contract` and `get_state`, with the hash check of `get_pack`. -/
def react (job : Job) (response : HostResponse) : Reaction :=
  match job with
  | .put bytes =>
      match dispatchPutResponse response (packId (cr.blake3 bytes)) with
      | .success => .succeed bytes
      | .continue_ => .wait
  | .get hash =>
      match dispatchGetResponse response (packId hash) with
      | .state bytes =>
          if cr.blake3 bytes ≠ hash then
            .fail ("pack content hash mismatch: got " ++ hexEncode (cr.blake3 bytes).toList ++
              " expected " ++ hexEncode hash.toList)
          else .succeed bytes
      | .notFound =>
          .fail ("contract " ++ cr.bs58Encode (packId hash) ++ " not found on the network")
      | .continue_ => .wait

end Job

namespace PublishPlan

/-- The tasks of a phase, in the order of the stream. -/
def jobs : PublishPhase → List Job
  | .putChunk => plan.chunks.map .put
  | .verifyChunk => plan.manifest.chunkHashes.map .get
  | .putManifest => [.put plan.manifestBytes]
  | .verifyManifest => [.get (cr.blake3 plan.manifestBytes)]

def context : PublishPhase → Nat → String
  | .putChunk, i => "PUT chunk " ++ toString i
  | .verifyChunk, i => "re-GET chunk " ++ toString i ++ " for verification"
  | .putManifest, _ => "PUT manifest"
  | .verifyManifest, _ => "re-GET manifest for verification"

/-- What the phase checks of the bytes that `get_pack` returned. -/
def verify (i : Nat) (hash : PackHash) (bytes : Bytes) : PublishPhase →
    Outcome (List String) Unit
  | .verifyChunk =>
      if cr.blake3 bytes ≠ hash then
        .error (.err ["chunk " ++ toString i ++ " verification failed: got " ++
          hexEncode (cr.blake3 bytes).toList ++ " expected " ++ hexEncode hash.toList])
      else .ok ()
  | .verifyManifest =>
      if bytes ≠ plan.manifestBytes then
        .error (.err ["manifest re-GET returned different bytes"])
      else .ok ()
  | _ => .ok ()

/-- The start of a phase. -/
def enter (phase : PublishPhase) (cache : PackCache) : PublishState :=
  .running phase (List.replicate (plan.jobs cr phase).length .queued) cache

/-- The operation of task `i` succeeded with these bytes. -/
def received (phase : PublishPhase) (tasks : List Task) (i : Nat) (job : Job) (bytes : Bytes)
    (cache : PackCache) : PublishState :=
  match plan.verify cr i (job.hash cr) bytes phase with
  | .error e => .ended (.error e)
  | .ok () => .running phase (tasks.set i .finished) cache

def published : PublishedChunkedPack where
  bundle := .chunkedPack (cr.blake3 plan.manifestBytes) plan.manifest.totalSize
    plan.manifest.chunkCount
  chunkCount := plan.manifest.chunkCount
  totalSize := plan.manifest.totalSize

end PublishPlan

/-- One step of a task, or of the loop that awaits the tasks of a phase. -/
inductive PublishStep : PublishState → PublishEvent → PublishState → Prop
  | start {ph tasks cache i job} (hjob : (plan.jobs cr ph)[i]? = some job)
      (htask : tasks[i]? = some .queued) (hadm : Admitted conns tasks i) :
      PublishStep (.running ph tasks cache) (.start ph i)
        (.running ph (tasks.set i job.opening) cache)
  /-- `get_pack` finds the bytes in the cache and asks nobody. -/
  | hit {ph tasks cache i hash bytes} (hjob : (plan.jobs cr ph)[i]? = some (.get hash))
      (htask : tasks[i]? = some .looking) (hread : cache.read cr hash = some bytes) :
      PublishStep (.running ph tasks cache) (.lookup ph i)
        (plan.received cr ph tasks i (.get hash) bytes cache)
  | miss {ph tasks cache cache' i hash} (hjob : (plan.jobs cr ph)[i]? = some (.get hash))
      (htask : tasks[i]? = some .looking) (hread : cache.read cr hash = none)
      (hcache : cache.AfterMiss hash cache') :
      PublishStep (.running ph tasks cache) (.lookup ph i)
        (.running ph (tasks.set i (.sending 1)) cache')
  | send {ph tasks cache i job k} (hjob : (plan.jobs cr ph)[i]? = some job)
      (htask : tasks[i]? = some (.sending k)) :
      PublishStep (.running ph tasks cache) (.send ph i (job.request cr packId))
        (.running ph (tasks.set i (.waiting k)) cache)
  | skip {ph tasks cache i job k response answers} (hjob : (plan.jobs cr ph)[i]? = some job)
      (htask : tasks[i]? = some (.waiting k)) (hreact : job.react cr packId response = .wait) :
      PublishStep (.running ph tasks cache) (.recv ph i response answers)
        (.running ph tasks cache)
  | succeed {ph tasks cache cache' i job k response answers bytes}
      (hjob : (plan.jobs cr ph)[i]? = some job) (htask : tasks[i]? = some (.waiting k))
      (hreact : job.react cr packId response = .succeed bytes)
      (hcache : cache.AfterWrite (job.hash cr) bytes cache') :
      PublishStep (.running ph tasks cache) (.recv ph i response answers)
        (plan.received cr ph tasks i job bytes cache')
  | refuse {ph tasks cache i job k response answers msg}
      (hjob : (plan.jobs cr ph)[i]? = some job) (htask : tasks[i]? = some (.waiting k))
      (hreact : job.react cr packId response = .fail msg) :
      PublishStep (.running ph tasks cache) (.recv ph i response answers)
        (.ended (.error (.err [PublishPlan.context ph i, msg])))
  /-- `put_pack` tries again after any error. -/
  | retry {ph tasks cache i bytes task fault k} (hjob : (plan.jobs cr ph)[i]? = some (.put bytes))
      (htask : tasks[i]? = some task) (hfault : fault.attempt? task = some k)
      (hk : k < maxAttempts) :
      PublishStep (.running ph tasks cache) (.fault ph i fault)
        (.running ph (tasks.set i (.sending (k + 1))) cache)
  | giveUp {ph tasks cache i job task fault k} (hjob : (plan.jobs cr ph)[i]? = some job)
      (htask : tasks[i]? = some task) (hfault : fault.attempt? task = some k)
      (hk : ∀ bytes, job = .put bytes → maxAttempts ≤ k) :
      PublishStep (.running ph tasks cache) (.fault ph i fault)
        (.ended (.error (.err [PublishPlan.context ph i, fault.text job])))
  | next {ph ph' tasks cache} (hall : ∀ task ∈ tasks, task = .finished)
      (hnext : ph.next = some ph') :
      PublishStep (.running ph tasks cache) (.next ph) (plan.enter cr ph' cache)
  | done {tasks cache} (hall : ∀ task ∈ tasks, task = .finished) :
      PublishStep (.running .verifyManifest tasks cache) (.next .verifyManifest)
        (.ended (.ok (plan.published cr)))

end

abbrev PublishTrace := List (Transition PublishState PublishEvent)

/-- The calls of `publish_chunked_pack_with_progress`: the steps it takes and what it
returns.  `open_pool` opens at least one connection and at most as many as are asked for. -/
inductive PublishCall (cr : Crypto) (packId : PackHash → ContractId) (packBytes : Bytes) (chunkSize : UInt32) (parallelism : Nat)
    (cache : PackCache) : PublishTrace → Outcome (List String) PublishedChunkedPack → Prop
  | rejected {e} (hplan : publishPlan cr packBytes chunkSize parallelism = .error e) :
      PublishCall cr packId packBytes chunkSize parallelism cache [] (.error e)
  | unconnected {plan} (hplan : publishPlan cr packBytes chunkSize parallelism = .ok plan)
      (e : String) : PublishCall cr packId packBytes chunkSize parallelism cache []
        (.error (.err ["open at least one WS connection", e]))
  | ran {plan conns tr result} (hplan : publishPlan cr packBytes chunkSize parallelism = .ok plan)
      (hpos : 0 < conns) (hconns : conns ≤ min parallelism (max plan.manifest.chunkCount.toNat 1))
      (hrun : Run (PublishStep cr packId plan conns) (plan.enter cr .putChunk cache) tr
        (.ended result)) :
      PublishCall cr packId packBytes chunkSize parallelism cache tr result

/-! ## What a publish promises -/

section

variable (cr : Crypto) (packId : PackHash → ContractId)

/-- The response acknowledges a PUT of these bytes: it names their contract, or it
is the bare `Ok` to such a request. -/
def Acknowledges (bytes : Bytes) (response : HostResponse) (answers : Option ContractRequest) :
    Prop :=
  match response with
  | .putResponse key | .updateNotification key => key = packId (cr.blake3 bytes)
  | .ok => answers = some (.put (packId (cr.blake3 bytes)) bytes)
  | _ => False

/-- The response answers a GET of the contract of this hash, with bytes of this hash. -/
def AnswersGet (hash : PackHash) (response : HostResponse) : Prop :=
  ∃ bytes, response = .getResponse (packId hash) bytes ∧ cr.blake3 bytes = hash

/-- The host acknowledged a PUT of the bytes and afterwards answered a GET for them. -/
def RoundTrip (es : List PublishEvent) (putPhase getPhase : PublishPhase) (i : Nat)
    (bytes : Bytes) : Prop :=
  ∃ ack a answer a', Acknowledges cr packId bytes ack a ∧
    AnswersGet cr packId (cr.blake3 bytes) answer ∧
    List.Sublist [.send putPhase i (.put (packId (cr.blake3 bytes)) bytes),
      .recv putPhase i ack a, .send getPhase i (.get (packId (cr.blake3 bytes))),
      .recv getPhase i answer a'] es

/-- Every chunk and the manifest went to the host and back, and the manifest was
sent only after the chunks had come back. -/
structure PublishVerified (plan : PublishPlan) (es : List PublishEvent) : Prop where
  chunks : ∀ i chunk, plan.chunks[i]? = some chunk →
    RoundTrip cr packId es .putChunk .verifyChunk i chunk
  manifest : RoundTrip cr packId es .putManifest .verifyManifest 0 plan.manifestBytes
  order : ∀ before j request after,
    es = before ++ .send .putManifest j request :: after →
    ∀ i chunk, plan.chunks[i]? = some chunk →
      RoundTrip cr packId before .putChunk .verifyChunk i chunk

/-- The cache does not hold what a GET is about to look up, and a bare `Ok` that a
PUT receives answers that PUT. -/
def Undisturbed (plan : PublishPlan) (t : Transition PublishState PublishEvent) : Prop :=
  match t.before, t.event with
  | .running ph _ cache, .lookup _ i =>
      ∀ hash, (plan.jobs cr ph)[i]? = some (.get hash) → cache.read cr hash = none
  | .running ph _ _, .recv _ i .ok answers =>
      ∀ bytes, (plan.jobs cr ph)[i]? = some (.put bytes) →
        answers = some (.put (packId (cr.blake3 bytes)) bytes)
  | _, _ => True

/-! ## The events of a phase -/

def Job.Answered : Job → HostResponse → Option ContractRequest → Prop
  | .put bytes, response, answers => Acknowledges cr packId bytes response answers
  | .get hash, response, _ => AnswersGet cr packId hash response

/-- The request of the task was sent and then answered. -/
def Served (es : List PublishEvent) (ph : PublishPhase) (i : Nat) (job : Job) : Prop :=
  ∃ response answers, job.Answered cr packId response answers ∧
    List.Sublist [.send ph i (job.request cr packId), .recv ph i response answers] es

/-- What the events of its phase say about a task. -/
def TaskTrace (es : List PublishEvent) (ph : PublishPhase) (i : Nat) (job : Job) : Task → Prop
  | .waiting _ => .send ph i (job.request cr packId) ∈ es
  | .finished => Served cr packId es ph i job
  | _ => True

/-- The events of the phase that is going on. -/
structure PhaseTrace (plan : PublishPlan) (ph : PublishPhase) (tasks : List Task)
    (now : List PublishEvent) : Prop where
  phase : ∀ e ∈ now, e.phase = ph
  length : tasks.length = (plan.jobs cr ph).length
  task : ∀ i job task, (plan.jobs cr ph)[i]? = some job → tasks[i]? = some task →
    TaskTrace cr packId now ph i job task

/-- The events of a phase that is over. -/
structure PhaseDone (plan : PublishPlan) (ph : PublishPhase) (now : List PublishEvent) :
    Prop where
  phase : ∀ e ∈ now, e.phase = ph
  served : ∀ i job, (plan.jobs cr ph)[i]? = some job → Served cr packId now ph i job

/-- The events of the phases before this one. -/
inductive Past (plan : PublishPlan) : PublishPhase → List PublishEvent → Prop
  | start : Past plan .putChunk []
  | next {ph ph' past now} (hpast : Past plan ph past) (hnow : PhaseDone cr packId plan ph now)
      (hnext : ph.next = some ph') : Past plan ph' (past ++ now)

/-- The invariant: the phases before this one are over, and this one is going on. -/
def PublishInv (plan : PublishPlan) (tr : PublishTrace) : PublishState → Prop
  | .running ph tasks _ => ∃ past now, tr.map (·.event) = past ++ now ∧
      Past cr packId plan ph past ∧ PhaseTrace cr packId plan ph tasks now
  | .ended (.ok _) => ∃ past now, tr.map (·.event) = past ++ now ∧
      Past cr packId plan .verifyManifest past ∧
      PhaseDone cr packId plan .verifyManifest now
  | .ended (.error _) => True

end

section

variable {cr : Crypto} {packId : PackHash → ContractId} {plan : PublishPlan}
  {ph : PublishPhase} {tasks : List Task} {now es es' : List PublishEvent} {i : Nat} {job : Job}
  {task : Task} {e : PublishEvent}

theorem Served.mono (h : Served cr packId es ph i job) (hsub : es.Sublist es') :
    Served cr packId es' ph i job := by
  obtain ⟨response, answers, hans, hs⟩ := h
  exact ⟨response, answers, hans, hs.trans hsub⟩

theorem TaskTrace.mono (h : TaskTrace cr packId es ph i job task) (hsub : es.Sublist es') :
    TaskTrace cr packId es' ph i job task := by
  cases task with
  | waiting k => exact hsub.subset h
  | finished => exact Served.mono h hsub
  | queued | looking | sending k => trivial

/-- A step that leaves the tasks as they are. -/
theorem PhaseTrace.mono (h : PhaseTrace cr packId plan ph tasks now) (he : e.phase = ph) :
    PhaseTrace cr packId plan ph tasks (now ++ [e]) where
  phase e' he' := by
    rcases List.mem_append.mp he' with he' | he'
    · exact h.phase e' he'
    · rw [List.mem_singleton.mp he', he]
  length := h.length
  task i job task hjob htask := (h.task i job task hjob htask).mono (List.sublist_append_left _ _)

/-- A step of one task. -/
theorem PhaseTrace.set (h : PhaseTrace cr packId plan ph tasks now) (he : e.phase = ph)
    (hjob : (plan.jobs cr ph)[i]? = some job)
    (htask : TaskTrace cr packId (now ++ [e]) ph i job task) :
    PhaseTrace cr packId plan ph (tasks.set i task) (now ++ [e]) where
  phase := (h.mono he).phase
  length := by rw [List.length_set, h.length]
  task i' job' task' hjob' htask' := by
    by_cases hi : i = i'
    · subst hi
      rw [hjob] at hjob'
      cases hjob'
      have hlt := (List.getElem?_eq_some_iff.mp htask').1
      rw [List.getElem?_set_self (by simpa using hlt)] at htask'
      cases htask'
      exact htask
    · rw [List.getElem?_set_ne hi] at htask'
      exact (h.mono he).task i' job' task' hjob' htask'

/-- When all tasks are finished, the phase is over. -/
theorem PhaseTrace.done (h : PhaseTrace cr packId plan ph tasks now)
    (hall : ∀ task ∈ tasks, task = .finished) : PhaseDone cr packId plan ph now where
  phase := h.phase
  served i job hjob := by
    have hlt : i < tasks.length := by
      rw [h.length]
      exact (List.getElem?_eq_some_iff.mp hjob).1
    have htask := h.task i job _ hjob (List.getElem?_eq_getElem hlt)
    rw [hall _ (List.getElem_mem hlt)] at htask
    exact htask

theorem PhaseTrace.enter (ph : PublishPhase) :
    PhaseTrace cr packId plan ph (List.replicate (plan.jobs cr ph).length .queued) [] where
  phase _ he := absurd he List.not_mem_nil
  length := List.length_replicate
  task i job task _ htask := by
    rw [(List.eq_of_mem_replicate (List.mem_of_getElem? htask) : task = .queued)]
    trivial

/-! ## The steps keep the invariant -/

/-- A PUT that succeeds was acknowledged, a GET that succeeds was answered. -/
theorem answered_of_react {response : HostResponse} {answers : Option ContractRequest}
    {bytes : Bytes} (h : job.react cr packId response = .succeed bytes)
    (hok : ∀ b, job = .put b → response = .ok →
      answers = some (.put (packId (cr.blake3 b)) b)) :
    job.Answered cr packId response answers := by
  cases job with
  | put b =>
      cases response with
      | putResponse key =>
          by_cases hkey : key = packId (cr.blake3 b)
          · exact hkey
          · simp [Job.react, dispatchPutResponse, hkey] at h
      | updateNotification key =>
          by_cases hkey : key = packId (cr.blake3 b)
          · exact hkey
          · simp [Job.react, dispatchPutResponse, hkey] at h
      | ok => exact hok b rfl rfl
      | updateResponse _ | getResponse _ _ | notFound _ | other => cases h
  | get hash =>
      cases response with
      | getResponse key state =>
          by_cases hkey : key = packId hash
          · subst hkey
            by_cases hhash : cr.blake3 state = hash
            · exact ⟨state, rfl, hhash⟩
            · simp [Job.react, dispatchGetResponse, hhash] at h
          · simp [Job.react, dispatchGetResponse, hkey] at h
      | notFound id =>
          by_cases hid : id = packId hash <;> simp [Job.react, dispatchGetResponse, hid] at h
      | putResponse _ | updateResponse _ | updateNotification _ | ok | other => cases h

theorem map_event_concat {tr : PublishTrace} {t : Transition PublishState PublishEvent}
    {past now : List PublishEvent} (h : tr.map (·.event) = past ++ now) :
    (tr ++ [t]).map (·.event) = past ++ (now ++ [t.event]) := by
  rw [List.map_append, h, List.append_assoc]
  rfl

/-- An undisturbed answer that a task accepts serves it. -/
theorem PhaseTrace.succeed {response : HostResponse} {answers : Option ContractRequest}
    {bytes : Bytes} {k : Nat} (h : PhaseTrace cr packId plan ph tasks now)
    (hjob : (plan.jobs cr ph)[i]? = some job) (htask : tasks[i]? = some (.waiting k))
    (hreact : job.react cr packId response = .succeed bytes)
    (hok : ∀ b, job = .put b → response = .ok →
      answers = some (.put (packId (cr.blake3 b)) b)) :
    PhaseTrace cr packId plan ph (tasks.set i .finished)
      (now ++ [.recv ph i response answers]) := by
  refine h.set rfl hjob ⟨response, answers, answered_of_react hreact hok, ?_⟩
  have hsent : .send ph i (job.request cr packId) ∈ now := h.task i job _ hjob htask
  exact (List.singleton_sublist.mpr hsent).append (List.Sublist.refl _)

theorem PublishInv.step {conns : Nat} {tr : PublishTrace} {s s' : PublishState}
    (h : PublishInv cr packId plan tr s) (hs : PublishStep cr packId plan conns s e s')
    (hu : Undisturbed cr packId plan ⟨s, e, s'⟩) :
    PublishInv cr packId plan (tr ++ [⟨s, e, s'⟩]) s' := by
  cases hs with
  | @start ph tasks cache i job hjob htask hadm =>
      obtain ⟨past, now, hes, hpast, hnow⟩ := h
      refine ⟨past, _, map_event_concat hes, hpast, hnow.set rfl hjob ?_⟩
      cases job <;> trivial
  | hit hjob htask hread => exact absurd ((hu _ hjob).symm.trans hread) nofun
  | miss hjob htask hread hcache =>
      obtain ⟨past, now, hes, hpast, hnow⟩ := h
      exact ⟨past, _, map_event_concat hes, hpast, hnow.set rfl hjob trivial⟩
  | send hjob htask =>
      obtain ⟨past, now, hes, hpast, hnow⟩ := h
      refine ⟨past, _, map_event_concat hes, hpast, hnow.set rfl hjob ?_⟩
      exact List.mem_append_right _ (List.mem_singleton_self _)
  | skip hjob htask hreact =>
      obtain ⟨past, now, hes, hpast, hnow⟩ := h
      exact ⟨past, _, map_event_concat hes, hpast, hnow.mono rfl⟩
  | @succeed ph tasks cache cache' i job k response answers bytes hjob htask hreact hcache =>
      obtain ⟨past, now, hes, hpast, hnow⟩ := h
      unfold PublishPlan.received
      split
      · trivial
      · refine ⟨past, _, map_event_concat hes, hpast, hnow.succeed hjob htask hreact ?_⟩
        rintro b rfl rfl
        exact hu b hjob
  | refuse hjob htask hreact => trivial
  | retry hjob htask hfault hk =>
      obtain ⟨past, now, hes, hpast, hnow⟩ := h
      exact ⟨past, _, map_event_concat hes, hpast, hnow.set rfl hjob trivial⟩
  | giveUp hjob htask hfault hk => trivial
  | next hall hnext =>
      obtain ⟨past, now, hes, hpast, hnow⟩ := h
      refine ⟨_, [], ?_, hpast.next ((hnow.mono (e := .next _) rfl).done hall) hnext, .enter _⟩
      rw [List.append_nil]
      exact map_event_concat hes
  | done hall =>
      obtain ⟨past, now, hes, hpast, hnow⟩ := h
      exact ⟨past, _, map_event_concat hes, hpast, (hnow.mono rfl).done hall⟩

/-! ## The promise -/

theorem PhaseDone.append {ph' : PublishPhase} {now' : List PublishEvent} {bytes : Bytes}
    (hput : PhaseDone cr packId plan ph now) (hget : PhaseDone cr packId plan ph' now')
    (hjob : (plan.jobs cr ph)[i]? = some (.put bytes))
    (hjob' : (plan.jobs cr ph')[i]? = some (.get (cr.blake3 bytes))) :
    RoundTrip cr packId (now ++ now') ph ph' i bytes := by
  obtain ⟨ack, a, hack, hs⟩ := hput.served i _ hjob
  obtain ⟨answer, a', hans, hs'⟩ := hget.served i _ hjob'
  exact ⟨ack, a, answer, a', hack, hans, hs.append hs'⟩

theorem RoundTrip.mono {ph' : PublishPhase} {bytes : Bytes}
    (h : RoundTrip cr packId es ph ph' i bytes) (hsub : es.Sublist es') :
    RoundTrip cr packId es' ph ph' i bytes := by
  obtain ⟨ack, a, answer, a', hack, hans, hs⟩ := h
  exact ⟨ack, a, answer, a', hack, hans, hs.trans hsub⟩

/-- A plan holds the chunks of the pack and their hashes. -/
theorem publishPlan_eq_ok {packBytes : Bytes} {chunkSize : UInt32} {parallelism : Nat}
    (h : publishPlan cr packBytes chunkSize parallelism = .ok plan) :
    plan.chunks = splitPack packBytes chunkSize ∧
      plan.manifest.chunkHashes = plan.chunks.map cr.blake3 := by
  unfold publishPlan at h
  split at h
  · cases h
  split at h
  · cases h
  split at h
  · cases h
  obtain ⟨manifest, hm, h⟩ := bind_eq_ok.mp h
  split at h
  · cases h
  split at h
  · cases h
  cases h
  exact ⟨rfl, (ChunkedPackManifestV1.fromChunks_eq_ok hm).1⟩

theorem Past.verifyChunk {past : List PublishEvent} (h : Past cr packId plan .verifyChunk past) :
    PhaseDone cr packId plan .putChunk past := by
  cases h with
  | @next ph _ past now hpast hnow hnext =>
      cases ph with
      | putChunk =>
          cases hpast with
          | start => exact hnow
          | @next ph' _ _ _ _ _ hnext' => cases ph' <;> cases hnext'
      | verifyChunk | putManifest | verifyManifest => cases hnext

/-- All that was sent and received before the manifest is sent. -/
theorem Past.putManifest {past : List PublishEvent} (h : Past cr packId plan .putManifest past) :
    ∃ puts gets, past = puts ++ gets ∧ PhaseDone cr packId plan .putChunk puts ∧
      PhaseDone cr packId plan .verifyChunk gets := by
  cases h with
  | @next ph _ puts gets hpast hnow hnext =>
      cases ph with
      | verifyChunk => exact ⟨puts, gets, rfl, hpast.verifyChunk, hnow⟩
      | putChunk | putManifest | verifyManifest => cases hnext

theorem Past.verifyManifest {past : List PublishEvent}
    (h : Past cr packId plan .verifyManifest past) :
    ∃ chunks puts, past = chunks ++ puts ∧ Past cr packId plan .putManifest chunks ∧
      PhaseDone cr packId plan .putManifest puts := by
  cases h with
  | @next ph _ chunks puts hpast hnow hnext =>
      cases ph with
      | putManifest => exact ⟨chunks, puts, rfl, hpast, hnow⟩
      | putChunk | verifyChunk | verifyManifest => cases hnext

/-- Before the manifest is sent, every chunk went to the host and back. -/
theorem Past.roundTrip {past : List PublishEvent} (h : Past cr packId plan .putManifest past)
    (hhashes : plan.manifest.chunkHashes = plan.chunks.map cr.blake3) {chunk : Bytes}
    (hi : plan.chunks[i]? = some chunk) :
    RoundTrip cr packId past .putChunk .verifyChunk i chunk := by
  obtain ⟨puts, gets, rfl, hputs, hgets⟩ := h.putManifest
  refine hputs.append hgets ?_ ?_
  · rw [PublishPlan.jobs, List.getElem?_map, hi]
    rfl
  · rw [PublishPlan.jobs, hhashes, List.getElem?_map, List.getElem?_map, hi]
    rfl

theorem Past.phase_ne {past : List PublishEvent} (h : Past cr packId plan .putManifest past) :
    ∀ e ∈ past, e.phase ≠ .putManifest := by
  obtain ⟨puts, gets, rfl, hputs, hgets⟩ := h.putManifest
  intro e he
  rcases List.mem_append.mp he with he | he
  · rw [hputs.phase e he]
    nofun
  · rw [hgets.phase e he]
    nofun

/-- What does not occur in the first part of a list is preceded by that part. -/
theorem append_sublist_of_notMem {α : Type} {l₁ l₂ before after : List α} {a : α}
    (h : l₁ ++ l₂ = before ++ a :: after) (ha : a ∉ l₁) : l₁.Sublist before := by
  rcases List.append_eq_append_iff.mp h with ⟨m, rfl, -⟩ | ⟨m, rfl, hm⟩
  · exact List.sublist_append_left _ _
  · cases m with
    | nil =>
        rw [List.append_nil]
    | cons b m =>
        cases hm
        exact absurd (List.mem_append_right _ List.mem_cons_self) ha

/-- **A publish that succeeds undisturbed has verified the network**: every chunk and
the manifest were acknowledged and then read back from the host, and the manifest was
sent only after every chunk had come back. -/
theorem publish_verified {packBytes : Bytes} {chunkSize : UInt32} {parallelism : Nat}
    {cache : PackCache} {tr : PublishTrace} {published : PublishedChunkedPack}
    (hcall : PublishCall cr packId packBytes chunkSize parallelism cache tr (.ok published))
    (hplan : publishPlan cr packBytes chunkSize parallelism = .ok plan)
    (hu : ∀ t ∈ tr, Undisturbed cr packId plan t) :
    PublishVerified cr packId plan (tr.map (·.event)) := by
  cases hcall with
  | @ran plan' conns _ _ hplan' hpos hconns hrun =>
      rw [hplan] at hplan'
      cases hplan'
      have h₀ : PublishInv cr packId plan [] (plan.enter cr .putChunk cache) :=
        ⟨[], [], rfl, .start, .enter _⟩
      have hinv : PublishInv cr packId plan tr (.ended (.ok published)) :=
        hrun.history (PublishInv cr packId plan) h₀ (fun _ _ _ _ h hs ht => h.step hs ht) hu
      obtain ⟨past, gets, hes, hpast, hgets⟩ := hinv
      obtain ⟨chunks, puts, rfl, hchunks, hputs⟩ := hpast.verifyManifest
      obtain ⟨-, hhashes⟩ := publishPlan_eq_ok hplan
      rw [hes, List.append_assoc]
      constructor
      · intro i chunk hi
        exact (hchunks.roundTrip hhashes hi).mono (List.sublist_append_left _ _)
      · exact (hputs.append hgets rfl rfl).mono (List.sublist_append_right _ _)
      · intro before j request after heq i chunk hi
        refine (hchunks.roundTrip hhashes hi).mono (append_sublist_of_notMem heq fun hmem => ?_)
        exact hchunks.phase_ne _ hmem rfl

/-! ## Without a cache -/

/-- The cache is disabled. -/
def PublishState.Uncached : PublishState → Prop
  | .running _ _ cache => cache = none
  | .ended _ => True

/-- A disabled cache stays disabled. -/
theorem PublishState.Uncached.step {conns : Nat} {s s' : PublishState} (h : s.Uncached)
    (hs : PublishStep cr packId plan conns s e s') : s'.Uncached := by
  cases hs with
  | start | send | skip | retry | next => exact h
  | hit hjob htask hread =>
      cases h
      cases hread
  | miss hjob htask hread hcache =>
      cases h
      cases hcache <;> rfl
  | succeed hjob htask hreact hcache =>
      cases h
      unfold PublishPlan.received
      split
      · trivial
      · cases hcache <;> rfl
  | refuse | giveUp | done => trivial

/-- Without a cache, a run without bare `Ok`s is undisturbed. -/
theorem undisturbed_of_uncached {conns : Nat} {tr : PublishTrace} {s : PublishState}
    (hrun : Run (PublishStep cr packId plan conns) (plan.enter cr .putChunk none) tr s)
    (hok : ∀ t ∈ tr, ∀ ph i a, t.event ≠ .recv ph i .ok a) :
    ∀ t ∈ tr, Undisturbed cr packId plan t := by
  intro t ht
  have h₀ : (plan.enter cr .putChunk none).Uncached := rfl
  obtain ⟨hcache, -⟩ := hrun.mem h₀ (fun s _ _ (h : s.Uncached) hs => h.step hs) ht
  have hok := hok t ht
  unfold Undisturbed
  split
  · next hbefore hevent =>
      rw [hbefore] at hcache
      cases hcache
      exact fun _ _ => rfl
  · next hevent => exact absurd hevent (hok _ _ _)
  · trivial

end

/-! A pack of two chunks, published on two connections without a cache; and a pack of one
chunk, published on one connection, both GETs of which are served by the cache. -/

namespace Sample

/-- A pack of one byte. -/
def published : PublishPlan where
  chunks := [[7]]
  manifest := ⟨1, 1024, 1, 1, [hash [7]]⟩
  manifestBytes := (ChunkedPackManifestV1.toBytes ⟨1, 1024, 1, 1, [hash [7]]⟩).getD []

theorem publishPlan_published : publishPlan unsigned [7] 1024 1 = .ok published := by rfl

/-- A pack of two chunks. -/
def twoChunks : PublishPlan where
  chunks := [[7, 8], [9]]
  manifest := ⟨1, 2, 3, 2, [hash [7, 8], hash [9]]⟩
  manifestBytes :=
    (ChunkedPackManifestV1.toBytes ⟨1, 2, 3, 2, [hash [7, 8], hash [9]]⟩).getD []

theorem publishPlan_twoChunks : publishPlan unsigned [7, 8, 9] 2 2 = .ok twoChunks := by rfl

/-- The cache after a write that succeeds. -/
def stored (bytes : Bytes) (cache : PackCache) : PackCache :=
  cache.map fun files => Function.update files (hash bytes) (some bytes)

/-! ### Phases -/

/-- A phase of one PUT that the host acknowledges. -/
def putPhase (ph : PublishPhase) (bytes : Bytes) (cache : PackCache) : PublishTrace :=
  [⟨.running ph [.queued] cache, .start ph 0, .running ph [.sending 1] cache⟩,
    ⟨.running ph [.sending 1] cache, .send ph 0 (.put (hash bytes) bytes),
      .running ph [.waiting 1] cache⟩,
    ⟨.running ph [.waiting 1] cache,
      .recv ph 0 (.putResponse (hash bytes)) (some (.put (hash bytes) bytes)),
      .running ph [.finished] (stored bytes cache)⟩]

/-- A phase of one GET that the cache serves. -/
def hitPhase (ph : PublishPhase) (cache : PackCache) : PublishTrace :=
  [⟨.running ph [.queued] cache, .start ph 0, .running ph [.looking] cache⟩,
    ⟨.running ph [.looking] cache, .lookup ph 0, .running ph [.finished] cache⟩]

/-- A phase of one GET that the host answers. -/
def getPhase (ph : PublishPhase) (bytes : Bytes) : PublishTrace :=
  [⟨.running ph [.queued] none, .start ph 0, .running ph [.looking] none⟩,
    ⟨.running ph [.looking] none, .lookup ph 0, .running ph [.sending 1] none⟩,
    ⟨.running ph [.sending 1] none, .send ph 0 (.get (hash bytes)), .running ph [.waiting 1] none⟩,
    ⟨.running ph [.waiting 1] none,
      .recv ph 0 (.getResponse (hash bytes) bytes) (some (.get (hash bytes))),
      .running ph [.finished] none⟩]

/-- Two PUTs at a time: the second one is sent and acknowledged first. -/
def putBoth (b₀ b₁ : Bytes) : PublishTrace :=
  [⟨.running .putChunk [.queued, .queued] none, .start .putChunk 0,
      .running .putChunk [.sending 1, .queued] none⟩,
    ⟨.running .putChunk [.sending 1, .queued] none, .start .putChunk 1,
      .running .putChunk [.sending 1, .sending 1] none⟩,
    ⟨.running .putChunk [.sending 1, .sending 1] none, .send .putChunk 1 (.put (hash b₁) b₁),
      .running .putChunk [.sending 1, .waiting 1] none⟩,
    ⟨.running .putChunk [.sending 1, .waiting 1] none, .send .putChunk 0 (.put (hash b₀) b₀),
      .running .putChunk [.waiting 1, .waiting 1] none⟩,
    ⟨.running .putChunk [.waiting 1, .waiting 1] none,
      .recv .putChunk 1 (.putResponse (hash b₁)) (some (.put (hash b₁) b₁)),
      .running .putChunk [.waiting 1, .finished] none⟩,
    ⟨.running .putChunk [.waiting 1, .finished] none,
      .recv .putChunk 0 (.putResponse (hash b₀)) (some (.put (hash b₀) b₀)),
      .running .putChunk [.finished, .finished] none⟩]

/-- Two GETs at a time: the second one is answered before the first one is sent. -/
def getBoth (b₀ b₁ : Bytes) : PublishTrace :=
  [⟨.running .verifyChunk [.queued, .queued] none, .start .verifyChunk 0,
      .running .verifyChunk [.looking, .queued] none⟩,
    ⟨.running .verifyChunk [.looking, .queued] none, .start .verifyChunk 1,
      .running .verifyChunk [.looking, .looking] none⟩,
    ⟨.running .verifyChunk [.looking, .looking] none, .lookup .verifyChunk 1,
      .running .verifyChunk [.looking, .sending 1] none⟩,
    ⟨.running .verifyChunk [.looking, .sending 1] none, .send .verifyChunk 1 (.get (hash b₁)),
      .running .verifyChunk [.looking, .waiting 1] none⟩,
    ⟨.running .verifyChunk [.looking, .waiting 1] none,
      .recv .verifyChunk 1 (.getResponse (hash b₁) b₁) (some (.get (hash b₁))),
      .running .verifyChunk [.looking, .finished] none⟩,
    ⟨.running .verifyChunk [.looking, .finished] none, .lookup .verifyChunk 0,
      .running .verifyChunk [.sending 1, .finished] none⟩,
    ⟨.running .verifyChunk [.sending 1, .finished] none, .send .verifyChunk 0 (.get (hash b₀)),
      .running .verifyChunk [.waiting 1, .finished] none⟩,
    ⟨.running .verifyChunk [.waiting 1, .finished] none,
      .recv .verifyChunk 0 (.getResponse (hash b₀) b₀) (some (.get (hash b₀))),
      .running .verifyChunk [.finished, .finished] none⟩]

def nextPhase (ph ph' : PublishPhase) (tasks tasks' : List Task) (cache : PackCache) :
    PublishTrace :=
  [⟨.running ph tasks cache, .next ph, .running ph' tasks' cache⟩]

def lastStep (plan : PublishPlan) (cache : PackCache) : PublishTrace :=
  [⟨.running .verifyManifest [.finished] cache, .next .verifyManifest,
    .ended (.ok (plan.published unsigned))⟩]

/-! ### Their runs -/

section

variable {plan : PublishPlan} {conns : Nat} {ph ph' : PublishPhase} {tasks tasks' : List Task}
  {i k : Nat} {bytes : Bytes} {cache : PackCache}

theorem admitted_only (hconns : 0 < conns) (task : Task) (h : task.holdsConnection = false) :
    Admitted conns [task] 0 := by
  refine ⟨Nat.lt_add_left _ hconns, fun j t hj ht => ?_⟩
  cases List.mem_singleton.mp (List.mem_of_getElem? hj)
  rw [h] at ht
  cases ht

/-- A task is admitted if no other one holds its connection. -/
theorem admitted_of_forall (hlt : i < tasks.count .finished + conns)
    (h : ∀ j (hj : j < tasks.length), tasks[j].holdsConnection = true → j % conns ≠ i % conns) :
    Admitted conns tasks i := by
  refine ⟨hlt, fun j task hj htask => ?_⟩
  obtain ⟨hlt, rfl⟩ := List.getElem?_eq_some_iff.mp hj
  exact h j hlt htask

theorem received_running {job : Job}
    (h : plan.verify unsigned i (job.hash unsigned) bytes ph = .ok ()) :
    plan.received unsigned ph tasks i job bytes cache =
      .running ph (tasks.set i .finished) cache := by
  rw [PublishPlan.received, h]

/-- The host acknowledges a PUT. -/
theorem put_acknowledged (hjob : (plan.jobs unsigned ph)[i]? = some (.put bytes))
    (htask : tasks[i]? = some (.waiting k))
    (hverify : plan.verify unsigned i (hash bytes) bytes ph = .ok ()) :
    PublishStep unsigned id plan conns (.running ph tasks cache)
      (.recv ph i (.putResponse (hash bytes)) (some (.put (hash bytes) bytes)))
      (.running ph (tasks.set i .finished) (stored bytes cache)) := by
  have hreact : (Job.put bytes).react unsigned id (.putResponse (hash bytes)) = .succeed bytes := by
    simp [Job.react, dispatchPutResponse, unsigned]
  have hreceived : plan.received unsigned ph tasks i (.put bytes) bytes (stored bytes cache) =
      .running ph (tasks.set i .finished) (stored bytes cache) := received_running hverify
  rw [← hreceived]
  exact .succeed hjob htask hreact .written

/-- The host answers a GET. -/
theorem get_answered (hjob : (plan.jobs unsigned ph)[i]? = some (.get (hash bytes)))
    (htask : tasks[i]? = some (.waiting k))
    (hverify : plan.verify unsigned i (hash bytes) bytes ph = .ok ()) :
    PublishStep unsigned id plan conns (.running ph tasks none)
      (.recv ph i (.getResponse (hash bytes) bytes) (some (.get (hash bytes))))
      (.running ph (tasks.set i .finished) none) := by
  have hreact : (Job.get (hash bytes)).react unsigned id (.getResponse (hash bytes) bytes) =
      .succeed bytes := by
    simp [Job.react, dispatchGetResponse, unsigned]
  have hreceived : plan.received unsigned ph tasks i (.get (hash bytes)) bytes none =
      .running ph (tasks.set i .finished) none := received_running hverify
  rw [← hreceived]
  exact .succeed hjob htask hreact .failed

variable (plan ph ph' bytes cache)

theorem putPhase_run (hconns : 0 < conns) (hjob : (plan.jobs unsigned ph)[0]? = some (.put bytes))
    (hverify : plan.verify unsigned 0 (hash bytes) bytes ph = .ok ()) :
    Run (PublishStep unsigned id plan conns) (.running ph [.queued] cache)
      (putPhase ph bytes cache) (.running ph [.finished] (stored bytes cache)) :=
  ((Run.nil.snoc (.start hjob rfl (admitted_only hconns _ rfl))).snoc (.send hjob rfl)).snoc
    (put_acknowledged hjob rfl hverify)

theorem hitPhase_run (hconns : 0 < conns)
    (hjob : (plan.jobs unsigned ph)[0]? = some (.get (hash bytes)))
    (hverify : plan.verify unsigned 0 (hash bytes) bytes ph = .ok ())
    (hread : cache.read unsigned (hash bytes) = some bytes) :
    Run (PublishStep unsigned id plan conns) (.running ph [.queued] cache)
      (hitPhase ph cache) (.running ph [.finished] cache) := by
  have hhit : PublishStep unsigned id plan conns (.running ph [.looking] cache) (.lookup ph 0)
      (.running ph [.finished] cache) := by
    have hreceived : plan.received unsigned ph [.looking] 0 (.get (hash bytes)) bytes cache =
        .running ph [.finished] cache := received_running hverify
    rw [← hreceived]
    exact .hit hjob rfl hread
  exact (Run.nil.snoc (.start hjob rfl (admitted_only hconns _ rfl))).snoc hhit

theorem getPhase_run (hconns : 0 < conns)
    (hjob : (plan.jobs unsigned ph)[0]? = some (.get (hash bytes)))
    (hverify : plan.verify unsigned 0 (hash bytes) bytes ph = .ok ()) :
    Run (PublishStep unsigned id plan conns) (.running ph [.queued] none)
      (getPhase ph bytes) (.running ph [.finished] none) :=
  (((Run.nil.snoc (.start hjob rfl (admitted_only hconns _ rfl))).snoc
    (.miss hjob rfl rfl .kept)).snoc (.send hjob rfl)).snoc (get_answered hjob rfl hverify)

theorem putBoth_run {b₀ b₁ : Bytes} (h₀ : (plan.jobs unsigned .putChunk)[0]? = some (.put b₀))
    (h₁ : (plan.jobs unsigned .putChunk)[1]? = some (.put b₁)) :
    Run (PublishStep unsigned id plan 2) (.running .putChunk [.queued, .queued] none)
      (putBoth b₀ b₁) (.running .putChunk [.finished, .finished] none) := by
  have hadm₀ : Admitted 2 [.queued, .queued] 0 := admitted_of_forall (by decide) (by decide)
  have hadm₁ : Admitted 2 [.sending 1, .queued] 1 := admitted_of_forall (by decide) (by decide)
  exact (((((Run.nil.snoc (.start h₀ rfl hadm₀)).snoc (.start h₁ rfl hadm₁)).snoc
    (.send h₁ rfl)).snoc (.send h₀ rfl)).snoc (put_acknowledged h₁ rfl rfl)).snoc
      (put_acknowledged h₀ rfl rfl)

theorem getBoth_run {b₀ b₁ : Bytes}
    (h₀ : (plan.jobs unsigned .verifyChunk)[0]? = some (.get (hash b₀)))
    (h₁ : (plan.jobs unsigned .verifyChunk)[1]? = some (.get (hash b₁)))
    (hverify : ∀ i bytes, plan.verify unsigned i (hash bytes) bytes .verifyChunk = .ok ()) :
    Run (PublishStep unsigned id plan 2) (.running .verifyChunk [.queued, .queued] none)
      (getBoth b₀ b₁) (.running .verifyChunk [.finished, .finished] none) := by
  have hadm₀ : Admitted 2 [.queued, .queued] 0 := admitted_of_forall (by decide) (by decide)
  have hadm₁ : Admitted 2 [.looking, .queued] 1 := admitted_of_forall (by decide) (by decide)
  exact (((((((Run.nil.snoc (.start h₀ rfl hadm₀)).snoc (.start h₁ rfl hadm₁)).snoc
    (.miss h₁ rfl rfl .kept)).snoc (.send h₁ rfl)).snoc (get_answered h₁ rfl (hverify 1 b₁))).snoc
      (.miss h₀ rfl rfl .kept)).snoc (.send h₀ rfl)).snoc (get_answered h₀ rfl (hverify 0 b₀))

theorem nextPhase_run (hall : ∀ task ∈ tasks, task = .finished) (hnext : ph.next = some ph')
    (henter : plan.enter unsigned ph' cache = .running ph' tasks' cache) :
    Run (PublishStep unsigned id plan conns) (.running ph tasks cache)
      (nextPhase ph ph' tasks tasks' cache) (.running ph' tasks' cache) := by
  have h : PublishStep unsigned id plan conns (.running ph tasks cache) (.next ph)
      (plan.enter unsigned ph' cache) := .next hall hnext
  rw [henter] at h
  exact Run.nil.snoc h

theorem lastStep_run : Run (PublishStep unsigned id plan conns)
    (.running .verifyManifest [.finished] cache) (lastStep plan cache)
    (.ended (.ok (plan.published unsigned))) :=
  Run.nil.snoc (.done fun _ ht => List.mem_singleton.mp ht)

/-- What was just written is read back. -/
theorem read_stored (bytes : Bytes) (files : PackHash → Option Bytes) :
    (stored bytes (some files)).read unsigned (hash bytes) = some bytes := by
  simp [stored, PackCache.read, unsigned]

end

/-- The cache of the run after the first phase and after the third. -/
def cached₁ : PackCache := stored [7] (some fun _ => none)
def cached₂ : PackCache := stored published.manifestBytes cached₁

/-- Both GETs are served by the cache. -/
def cachedTrace : PublishTrace :=
  putPhase .putChunk [7] (some fun _ => none) ++
  nextPhase .putChunk .verifyChunk [.finished] [.queued] cached₁ ++ hitPhase .verifyChunk cached₁ ++
  nextPhase .verifyChunk .putManifest [.finished] [.queued] cached₁ ++
  putPhase .putManifest published.manifestBytes cached₁ ++
  nextPhase .putManifest .verifyManifest [.finished] [.queued] cached₂ ++
  hitPhase .verifyManifest cached₂ ++ lastStep published cached₂

/-- The host serves all GETs, as there is no cache. -/
def servedTrace : PublishTrace :=
  putBoth [7, 8] [9] ++
  nextPhase .putChunk .verifyChunk [.finished, .finished] [.queued, .queued] none ++
  getBoth [7, 8] [9] ++ nextPhase .verifyChunk .putManifest [.finished, .finished] [.queued] none ++
  putPhase .putManifest twoChunks.manifestBytes none ++
  nextPhase .putManifest .verifyManifest [.finished] [.queued] none ++
  getPhase .verifyManifest twoChunks.manifestBytes ++ lastStep twoChunks none

theorem cached_call : PublishCall unsigned id [7] 1024 1 (some fun _ => none) cachedTrace
    (.ok (published.published unsigned)) := by
  have hone : ∀ task ∈ [Task.finished], task = .finished := fun _ => List.mem_singleton.mp
  refine .ran publishPlan_published Nat.one_pos (by decide) ?_
  have h₁ := (putPhase_run published .putChunk [7] (some fun _ => none) Nat.one_pos rfl rfl).trans
    (nextPhase_run published .putChunk .verifyChunk cached₁ hone rfl rfl)
  have h₂ := (h₁.trans (hitPhase_run published .verifyChunk [7] _ Nat.one_pos rfl rfl
    (read_stored _ _))).trans (nextPhase_run published .verifyChunk .putManifest cached₁ hone rfl rfl)
  have h₃ := (h₂.trans (putPhase_run published .putManifest published.manifestBytes _ Nat.one_pos rfl
    rfl)).trans (nextPhase_run published .putManifest .verifyManifest cached₂ hone rfl rfl)
  exact (h₃.trans (hitPhase_run published .verifyManifest _ _ Nat.one_pos rfl rfl (read_stored _ _))).trans
    (lastStep_run published cached₂)

theorem served_run : Run (PublishStep unsigned id twoChunks 2)
    (twoChunks.enter unsigned .putChunk none) servedTrace
    (.ended (.ok (twoChunks.published unsigned))) := by
  have hone : ∀ task ∈ [Task.finished], task = .finished := fun _ => List.mem_singleton.mp
  have hboth : ∀ task ∈ [Task.finished, .finished], task = .finished := by decide
  have hverify : ∀ i bytes, twoChunks.verify unsigned i (hash bytes) bytes .verifyChunk = .ok () :=
    fun i bytes => by simp [PublishPlan.verify, unsigned]
  have h₁ := (putBoth_run twoChunks rfl rfl).trans
    (nextPhase_run twoChunks .putChunk .verifyChunk none hboth rfl rfl)
  have h₂ := (h₁.trans (getBoth_run twoChunks rfl rfl hverify)).trans
    (nextPhase_run twoChunks .verifyChunk .putManifest none hboth rfl rfl)
  have h₃ := (h₂.trans (putPhase_run twoChunks .putManifest twoChunks.manifestBytes none Nat.two_pos rfl
    rfl)).trans (nextPhase_run twoChunks .putManifest .verifyManifest none hone rfl rfl)
  exact (h₃.trans (getPhase_run twoChunks .verifyManifest twoChunks.manifestBytes Nat.two_pos rfl rfl)).trans
    (lastStep_run twoChunks none)

theorem served_typed : ∀ t ∈ servedTrace, ∀ ph i a, t.event ≠ .recv ph i .ok a := by
  simp [servedTrace, putBoth, getBoth, putPhase, nextPhase, getPhase, lastStep]

theorem served_call : PublishCall unsigned id [7, 8, 9] 2 2 none servedTrace
    (.ok (twoChunks.published unsigned)) :=
  .ran publishPlan_twoChunks Nat.two_pos (by decide) served_run

end Sample

/-- Two chunks on two connections, with the host's answers out of order. -/
theorem publish_verified_two :
    PublishVerified Sample.unsigned id Sample.twoChunks (Sample.servedTrace.map (·.event)) :=
  publish_verified Sample.served_call Sample.publishPlan_twoChunks
    (undisturbed_of_uncached Sample.served_run Sample.served_typed)

/-- **The cache written by the PUTs serves the GETs**: a publish that succeeds without
asking the host for anything. -/
theorem publish_unverified :
    PublishCall Sample.unsigned id [7] 1024 1 (some fun _ => none) Sample.cachedTrace
      (.ok (Sample.published.published Sample.unsigned)) ∧
    publishPlan Sample.unsigned [7] 1024 1 = .ok Sample.published ∧
    ¬ PublishVerified Sample.unsigned id Sample.published (Sample.cachedTrace.map (·.event)) := by
  refine ⟨Sample.cached_call, Sample.publishPlan_published, fun h => ?_⟩
  obtain ⟨ack, a, answer, a', -, -, hs⟩ := h.chunks 0 [7] rfl
  have hmem : PublishEvent.send .verifyChunk 0 (.get (Sample.hash [7])) ∈
      Sample.cachedTrace.map (·.event) :=
    hs.subset (List.mem_cons_of_mem _ (List.mem_cons_of_mem _ List.mem_cons_self))
  revert hmem
  decide

end FreenetGit
