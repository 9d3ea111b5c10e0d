/-
# `FreenetGit.Probing` — what a probe concludes from the text of an error

`get_state` says why it failed in a text, and `ProbeOutcome::from_get_state_err` looks in
that text for the two phrases that `get_state` writes itself.  The text of an error of the
connection is part of the message, so it can hold the phrases as well
(`probe_exact_iff`).
-/
import FreenetGit.WsClient
import FreenetGit.Lib.Base58
import FreenetGit.Lib.Text

namespace FreenetGit

open Lib

/-! ## One call of `get_state` -/

/-- What one turn of the receive loop meets; `deadline` is no time left. -/
inductive Turn where
  | response (r : HostResponse)
  | error (e : String)
  | deadline
deriving DecidableEq

/-- What a call meets: whether the request was sent, and the turns of its loop. -/
structure GetCall where
  send : Except String Unit
  turns : List Turn

section

variable (cr : Crypto) (id : ContractId) (timeout : String)

/-- The receive loop of `get_state`; `none` is a call that still waits. -/
def getStateLoop : List Turn → Option GetResult
  | [] => none
  | .deadline :: _ => some (.error (getTimeoutPrefix ++ " after " ++ timeout))
  | .error e :: _ => some (.error ("recv: " ++ e))
  | .response r :: turns =>
      match dispatchGetResponse r id with
      | .state bytes => some (.ok bytes)
      | .notFound => some (.error ("contract " ++ cr.bs58Encode id ++ " " ++ getNotFoundSuffix))
      | .continue_ => getStateLoop turns

/-- `get_state`. -/
def getState (call : GetCall) : Option GetResult :=
  match call.send with
  | .error e => some (.error ("send GET: " ++ e))
  | .ok () => getStateLoop cr id timeout call.turns

end

/-- What `probe_all_keys` records of a result; a state ends the search. -/
def GetResult.probeOutcome : GetResult → Option ProbeOutcome
  | .ok state => if state.isEmpty then some .empty else none
  | .error e => some (ProbeOutcome.fromGetStateErr e)

/-- The walk goes on to the next key. -/
def GetResult.Authoritative (result : GetResult) : Prop :=
  ∃ outcome, result.probeOutcome = some outcome ∧ outcome.retryDisposition = .authoritative

/-- `probe_all_keys` goes by the recorded outcome. -/
theorem probeFrom_recorded {answers : Nat → GetResult} {key : ProbeKey} {keys : List ProbeKey}
    {outcomes : List (String × ProbeOutcome)} {outcome : ProbeOutcome}
    (h : (answers outcomes.length).probeOutcome = some outcome) :
    (probeFrom answers (key :: keys) outcomes).1 =
      if outcome.retryDisposition = .authoritative then
        (probeFrom answers keys (outcomes ++ [(key.label, outcome)])).1
      else .error (outcomes ++ [(key.label, outcome)]) := by
  rw [probeFrom]
  cases hresult : answers outcomes.length with
  | ok state =>
      rw [hresult, GetResult.probeOutcome] at h
      split at h
      · next hempty =>
          cases h
          dsimp only
          rw [hempty]
          rfl
      · cases h
  | error e =>
      rw [hresult] at h
      cases h
      dsimp only
      split <;> rfl

/-! ## Why a call ended -/

/-- The turns that end a call: those that concern its contract, and the failures. -/
def Turn.ends (id : ContractId) : Turn → Bool
  | .response (.notFound nfId) => nfId = id
  | .response (.getResponse gotKey _) => gotKey = id
  | .response _ => false
  | .error _ | .deadline => true

/-- Why a call ended: the request was not sent, or a turn ended it. -/
inductive GetEnd where
  | notSent (e : String)
  | turn (t : Turn)
deriving DecidableEq

/-- The first turn that concerns the call ends it. -/
def GetCall.ending (id : ContractId) (call : GetCall) : Option GetEnd :=
  match call.send with
  | .error e => some (.notSent e)
  | .ok () => (call.turns.find? (·.ends id)).map .turn

/-- What a call returns that ended so. -/
inductive GetEnd.Gives (cr : Crypto) (id : ContractId) (timeout : String) : GetEnd → GetResult → Prop
  | notSent {e : String} : Gives cr id timeout (.notSent e) (.error ("send GET: " ++ e))
  | error {e : String} : Gives cr id timeout (.turn (.error e)) (.error ("recv: " ++ e))
  | deadline :
      Gives cr id timeout (.turn .deadline) (.error (getTimeoutPrefix ++ " after " ++ timeout))
  | notFound : Gives cr id timeout (.turn (.response (.notFound id)))
      (.error ("contract " ++ cr.bs58Encode id ++ " " ++ getNotFoundSuffix))
  | state {bytes : Bytes} :
      Gives cr id timeout (.turn (.response (.getResponse id bytes))) (.ok bytes)

section

variable {cr : Crypto} {id : ContractId} {timeout : String} {result : GetResult}

theorem dispatchGetResponse_continue {r : HostResponse} (h : Turn.ends id (.response r) = false) :
    dispatchGetResponse r id = .continue_ := by
  cases r with
  | notFound nfId => exact if_pos (of_decide_eq_false h)
  | getResponse gotKey state => exact if_pos (of_decide_eq_false h)
  | _ => rfl

/-- A turn that ends the loop gives its result. -/
theorem gives_of_ends (cr : Crypto) (timeout : String) {t : Turn} (ht : t.ends id = true)
    (turns : List Turn) : ∃ result, getStateLoop cr id timeout (t :: turns) = some result ∧
      GetEnd.Gives cr id timeout (.turn t) result := by
  cases t with
  | deadline => exact ⟨_, rfl, .deadline⟩
  | error e => exact ⟨_, rfl, .error⟩
  | response r =>
      cases r with
      | notFound nfId =>
          obtain rfl : nfId = id := of_decide_eq_true ht
          refine ⟨_, ?_, .notFound⟩
          rw [getStateLoop, dispatchGetResponse, if_neg (not_not_intro rfl)]
      | getResponse gotKey state =>
          obtain rfl : gotKey = id := of_decide_eq_true ht
          refine ⟨_, ?_, .state⟩
          rw [getStateLoop, dispatchGetResponse, if_neg (not_not_intro rfl)]
      | _ => cases ht

theorem getStateLoop_ending : ∀ {turns : List Turn},
    getStateLoop cr id timeout turns = some result →
      ∃ t, turns.find? (·.ends id) = some t ∧ GetEnd.Gives cr id timeout (.turn t) result
  | [], h => by cases h
  | t :: turns, h => by
      rw [List.find?_cons]
      cases ht : t.ends id with
      | true =>
          obtain ⟨r, hr, hgives⟩ := gives_of_ends cr timeout ht turns
          cases hr.symm.trans h
          exact ⟨t, rfl, hgives⟩
      | false =>
          cases t with
          | deadline => cases ht
          | error e => cases ht
          | response r =>
              rw [getStateLoop, dispatchGetResponse_continue ht] at h
              exact getStateLoop_ending h

/-- **What a call returns is told by why it ended.** -/
theorem getState_ending {call : GetCall} (h : getState cr id timeout call = some result) :
    ∃ ending, call.ending id = some ending ∧ ending.Gives cr id timeout result := by
  obtain ⟨send, turns⟩ := call
  cases send with
  | error e =>
      cases h
      exact ⟨_, rfl, .notSent⟩
  | ok _ =>
      obtain ⟨t, hfind, hgives⟩ := getStateLoop_ending h
      exact ⟨.turn t, congrArg (Option.map GetEnd.turn) hfind, hgives⟩

/-! ## The two phrases -/

theorem strContains_iff {msg pat : String} :
    strContains msg pat = true ↔ pat.toList <:+: msg.toList :=
  decide_eq_true_iff

/-- The text of an error holds one of the two phrases of `get_state`. -/
def Imitates (e : String) : Prop :=
  strContains e getTimeoutPrefix = true ∨ strContains e getNotFoundSuffix = true

/-- Neither phrase starts in `recv: `. -/
theorem imitates_recv (e : String) : Imitates ("recv: " ++ e) ↔ Imitates e := by
  simp only [Imitates, strContains_iff, String.toList_append]
  have htimeout : getTimeoutPrefix.toList = 't' :: getTimeoutPrefix.toList.tail := rfl
  have hnotFound : getNotFoundSuffix.toList = 'n' :: getNotFoundSuffix.toList.tail := rfl
  rw [htimeout, hnotFound, isInfix_append_of_notMem (by decide),
    isInfix_append_of_notMem (by decide)]

/-- The `n` of `send GET: ` is followed by a `d`. -/
theorem imitates_send (e : String) : Imitates ("send GET: " ++ e) ↔ Imitates e := by
  have hsend : "send GET: ".toList = "se".toList ++ 'n' :: "d GET: ".toList := rfl
  have htimeout : getTimeoutPrefix.toList = 't' :: getTimeoutPrefix.toList.tail := rfl
  have hnotFound : getNotFoundSuffix.toList = 'n' :: 'o' :: getNotFoundSuffix.toList.tail.tail := rfl
  have hd : ¬ ('n' :: 'o' :: getNotFoundSuffix.toList.tail.tail) <+:
      'n' :: ("d GET: ".toList ++ e.toList) := fun h =>
    absurd (List.cons_prefix_cons.mp (List.cons_prefix_cons.mp h).2).1 (by decide)
  simp only [Imitates, strContains_iff, String.toList_append]
  rw [htimeout, isInfix_append_of_notMem (by decide), hnotFound, hsend, List.append_assoc,
    isInfix_append_of_notMem (by decide), List.cons_append, List.infix_cons_iff, or_iff_right hd,
    isInfix_append_of_notMem (by decide)]

/-- The text of a miss is not that of a timeout: the words around `f` are not the same. -/
theorem not_timeout_of_notFound (hid : ' ' ∉ (cr.bs58Encode id).toList) :
    strContains ("contract " ++ cr.bs58Encode id ++ " " ++ getNotFoundSuffix) getTimeoutPrefix =
      false := by
  rw [Bool.eq_false_iff, Ne, strContains_iff]
  intro h
  have hgf : ['g', ' ', 'f'] <:+: getTimeoutPrefix.toList := by decide
  have hend : ¬ ['g', ' ', 'f'] <:+: (" " ++ getNotFoundSuffix).toList := by decide
  have htext := hgf.trans h
  rw [String.append_assoc, String.append_assoc, String.toList_append,
    isInfix_append_of_notMem (by decide), String.toList_append] at htext
  exact not_isInfix_word (by decide) hend hid htext

/-! ## The classification -/

theorem fromGetStateErr_eq_timeout {msg : String} :
    ProbeOutcome.fromGetStateErr msg = .timeout ↔ strContains msg getTimeoutPrefix = true := by
  unfold ProbeOutcome.fromGetStateErr
  split
  · next h => exact ⟨fun _ => h, fun _ => rfl⟩
  · next h =>
      refine ⟨fun heq => ?_, fun h' => absurd h' h⟩
      split at heq <;> cases heq

theorem authoritative_error {msg : String} : GetResult.Authoritative (.error msg) ↔
    strContains msg getTimeoutPrefix = false ∧ strContains msg getNotFoundSuffix = true := by
  have houtcome : GetResult.Authoritative (.error msg) ↔
      ProbeOutcome.fromGetStateErr msg = .notFound := by
    rw [← retryDisposition_fromGetStateErr]
    exact ⟨fun ⟨_, h, h'⟩ => by cases h; exact h', fun h => ⟨_, rfl, h⟩⟩
  rw [houtcome, ProbeOutcome.fromGetStateErr]
  cases strContains msg getTimeoutPrefix <;> cases strContains msg getNotFoundSuffix <;> simp

/-- An error is put down to the connection exactly when its text holds neither phrase. -/
theorem other_iff {msg : String} :
    (¬ GetResult.Authoritative (.error msg) ∧
      GetResult.probeOutcome (.error msg) ≠ some .timeout) ↔ ¬ Imitates msg := by
  have htimeout : GetResult.probeOutcome (.error msg) = some .timeout ↔ _ :=
    Option.some_inj.trans fromGetStateErr_eq_timeout
  rw [Ne, htimeout, authoritative_error, Imitates]
  cases strContains msg getTimeoutPrefix <;> cases strContains msg getNotFoundSuffix <;> simp

/-- The result is classified by why the call ended. -/
def GetResult.Exact (id : ContractId) (call : GetCall) (result : GetResult) : Prop :=
  (result.Authoritative ↔ call.ending id = some (.turn (.response (.notFound id))) ∨
    call.ending id = some (.turn (.response (.getResponse id [])))) ∧
  (result.probeOutcome = some .timeout ↔ call.ending id = some (.turn .deadline))

/-- A call that failed at the connection. -/
theorem exact_failed {call : GetCall} {e msg : String} {ending : GetEnd}
    (hending : call.ending id = some ending)
    (hfailed : ending = .notSent e ∨ ending = .turn (.error e))
    (himitates : Imitates msg ↔ Imitates e) :
    GetResult.Exact id call (.error msg) ↔ ∀ e, call.ending id = some (.notSent e) ∨
      call.ending id = some (.turn (.error e)) → ¬ Imitates e := by
  have hexact : GetResult.Exact id call (.error msg) ↔ ¬ Imitates e := by
    rw [← himitates, ← other_iff, GetResult.Exact, hending]
    rcases hfailed with rfl | rfl <;> simp
  rw [hexact, hending]
  rcases hfailed with rfl | rfl <;> simp

/-- **Probe outcomes are classified by why the call ended, exactly when the connection did
not fail with a text that imitates `get_state`.** -/
theorem probe_exact_iff (hcr : ∀ key, ∀ c ∈ (cr.bs58Encode key).toList, c ∈ base58Alphabet)
    {call : GetCall} (h : getState cr id timeout call = some result) :
    result.Exact id call ↔ ∀ e, call.ending id = some (.notSent e) ∨
      call.ending id = some (.turn (.error e)) → ¬ Imitates e := by
  have hid : ' ' ∉ (cr.bs58Encode id).toList := fun hc => absurd (hcr id ' ' hc) (by decide)
  obtain ⟨ending, hending, hgives⟩ := getState_ending h
  cases hgives with
  | notSent => exact exact_failed hending (.inl rfl) (imitates_send _)
  | error => exact exact_failed hending (.inr rfl) (imitates_recv _)
  | deadline =>
      have htimeout : strContains (getTimeoutPrefix ++ " after " ++ timeout) getTimeoutPrefix =
          true := by
        rw [strContains_iff, String.append_assoc, String.toList_append]
        exact (List.prefix_append _ _).isInfix
      rw [GetResult.Exact, hending, authoritative_error, htimeout]
      simp [GetResult.probeOutcome, fromGetStateErr_eq_timeout, htimeout]
  | notFound =>
      have htimeout := not_timeout_of_notFound hid
      have hnotFound : strContains ("contract " ++ cr.bs58Encode id ++ " " ++ getNotFoundSuffix)
          getNotFoundSuffix = true := by
        rw [strContains_iff, String.toList_append]
        exact (List.suffix_append _ _).isInfix
      rw [GetResult.Exact, hending, authoritative_error, htimeout, hnotFound]
      simp [GetResult.probeOutcome, fromGetStateErr_eq_timeout, htimeout]
  | @state bytes =>
      have hauthoritative : GetResult.Authoritative (.ok bytes) ↔ bytes = [] := by
        cases bytes with
        | nil => exact ⟨fun _ => rfl, fun _ => ⟨_, rfl, rfl⟩⟩
        | cons b bytes => exact ⟨fun ⟨_, h, _⟩ => (nomatch h), nofun⟩
      have htimeout : GetResult.probeOutcome (.ok bytes) ≠ some .timeout := by
        cases bytes <;> simp [GetResult.probeOutcome]
      rw [GetResult.Exact, hending, hauthoritative]
      simp [htimeout]

end

/-! The host refuses the request with a text of its own. -/

namespace Sample

def refused : GetCall := ⟨.ok (), [.error "peer reset: contract not found on the network"]⟩

def missed : GetCall := ⟨.ok (), [.response .ok, .response (.notFound (zeros 32))]⟩

theorem unsigned_base58 (key : PublicKey) :
    ∀ c ∈ (unsigned.bs58Encode key).toList, c ∈ base58Alphabet := by
  have hones : (unsigned.bs58Encode key).toList = List.replicate 32 '1' := by
    show "11111111111111111111111111111111".toList = _
    rfl
  intro c hc
  rw [hones] at hc
  rw [List.eq_of_mem_replicate hc]
  exact one_mem_base58Alphabet

end Sample

theorem probe_exact_missed : GetResult.Exact (zeros 32) Sample.missed
    (.error "contract 11111111111111111111111111111111 not found on the network") :=
  have h : getState Sample.unsigned (zeros 32) "180s" Sample.missed = some _ := rfl
  (probe_exact_iff Sample.unsigned_base58 h).mpr fun e he => by
    rcases he with he | he <;> cases he

theorem probe_imitated :
    getState Sample.unsigned (zeros 32) "180s" Sample.refused =
      some (.error "recv: peer reset: contract not found on the network") ∧
    GetResult.Authoritative (.error "recv: peer reset: contract not found on the network") ∧
    ¬ ∀ call result, getState Sample.unsigned (zeros 32) "180s" call = some result →
      result.Exact (zeros 32) call := by
  have hauthoritative : GetResult.Authoritative
      (.error "recv: peer reset: contract not found on the network") :=
    authoritative_error.mpr ⟨by decide, by decide⟩
  refine ⟨rfl, hauthoritative, fun h => ?_⟩
  rcases (h Sample.refused _ rfl).1.mp hauthoritative with he | he <;> cases he

end FreenetGit
