/-
# `FreenetGit.Legacy` — reading a repo across contract generations

A repo that was published with an older contract lives at another key.
`get_state_with_legacy_fallback` asks the current key and then the keys of the
older generations, newest first.  Only an authoritative miss lets a pass go on to
the next key; a pass that ends in silence is made again, at most
`PROBE_MAX_ATTEMPTS` times in all.

What the calls of `get_state` return is given: `answers k i` is what the `i`-th
call of the `k`-th pass returns.
-/
import FreenetGit.Publish

namespace FreenetGit

open Lib

/-! ## One answer -/

/-- `ContractLineageEntry`. -/
structure ContractLineageEntry where
  generation : UInt32
  codeHash : Vector UInt8 32
deriving DecidableEq

/-- `legacy_instance_id`. -/
def legacyInstanceId (cr : Crypto) (entry : ContractLineageEntry) (paramsBytes : Bytes) :
    ContractId :=
  cr.blake3 (entry.codeHash.toList ++ paramsBytes)

/-- What a call of `get_state` returns: the bytes, or the text of the error. -/
abbrev GetResult := Except String Bytes

/-- `str::contains`. -/
def strContains (msg pat : String) : Bool := decide (List.IsInfix pat.toList msg.toList)

def getTimeoutPrefix : String := "timed out waiting for GET response"

def getNotFoundSuffix : String := "not found on the network"

inductive ProbeOutcome where
  | empty
  | notFound
  | timeout
  | otherError (msg : String)
deriving DecidableEq

inductive RetryDisposition where
  | transient
  | hardError
  | authoritative
deriving DecidableEq

/-- `is_transient_host_error`. -/
def isTransientHostError (msg : String) : Bool :=
  let m := msg.map Char.toLower
  strContains m "queue full" || strContains m "try again later" || strContains m "timed out" ||
    strContains m "timeout"

namespace ProbeOutcome

def fromGetStateErr (msg : String) : ProbeOutcome :=
  if strContains msg getTimeoutPrefix then .timeout
  else if strContains msg getNotFoundSuffix then .notFound
  else .otherError msg

def retryDisposition : ProbeOutcome → RetryDisposition
  | .timeout => .transient
  | .otherError msg => if isTransientHostError msg then .transient else .hardError
  | .notFound | .empty => .authoritative

end ProbeOutcome

/-! ## One pass -/

/-- `GetSource`: where a state was found. -/
inductive GetSource where
  | current
  | legacy (index : Nat) (contract : ContractId)
deriving DecidableEq

structure LegacyAwareGet where
  state : Bytes
  source : GetSource
deriving DecidableEq

/-- A key that is to be asked, with its label in the outcomes. -/
structure ProbeKey where
  label : String
  id : ContractId
  source : GetSource
deriving DecidableEq

/-- One call of `get_state`. -/
structure Probe where
  key : ProbeKey
  result : GetResult

section

variable (cr : Crypto) (currentId : ContractId) (paramsBytes : Bytes)
  (lineage : List ContractLineageEntry)

/-- `lineage[idx].generation`. -/
def generationAt (idx : Nat) : UInt32 := (lineage[idx]?.map (·.generation)).getD 0

/-- The keys of the older generations, newest first; `sort_by_key` is stable. -/
def candidates : List (Nat × ContractId) :=
  (lineage.zipIdx.map fun (entry, idx) => (idx, legacyInstanceId cr entry paramsBytes)).mergeSort
    fun a b => generationAt lineage b.1 ≤ generationAt lineage a.1

/-- The keys of a pass, in the order they are asked. -/
def probeKeys : List ProbeKey :=
  ⟨"current key " ++ cr.bs58Encode currentId, currentId, .current⟩ ::
    (candidates cr paramsBytes lineage).map fun (idx, id) =>
      ⟨"legacy key " ++ toString idx ++ " (" ++ cr.bs58Encode id ++ ")", id, .legacy idx id⟩

/-- The body of `probe_all_keys` for the keys still to be asked, with the calls it
makes.  The outcomes so far are those of the calls so far. -/
def probeFrom (answers : Nat → GetResult) : List ProbeKey → List (String × ProbeOutcome) →
    Except (List (String × ProbeOutcome)) LegacyAwareGet × List Probe
  | [], outcomes => (.error outcomes, [])
  | key :: keys, outcomes =>
      match answers outcomes.length with
      | .ok state =>
          if !state.isEmpty then (.ok ⟨state, key.source⟩, [⟨key, .ok state⟩])
          else
            let (result, probes) := probeFrom answers keys (outcomes ++ [(key.label, .empty)])
            (result, ⟨key, .ok state⟩ :: probes)
      | .error e =>
          let outcome := ProbeOutcome.fromGetStateErr e
          if outcome.retryDisposition = .authoritative then
            let (result, probes) := probeFrom answers keys (outcomes ++ [(key.label, outcome)])
            (result, ⟨key, .error e⟩ :: probes)
          else (.error (outcomes ++ [(key.label, outcome)]), [⟨key, .error e⟩])

/-- `probe_all_keys`. -/
def probeAllKeys (answers : Nat → GetResult) :
    Except (List (String × ProbeOutcome)) LegacyAwareGet × List Probe :=
  probeFrom answers (probeKeys cr currentId paramsBytes lineage) []

/-! ## The passes -/

/-- The loop of `outcomes_worth_retrying`. -/
def worthRetryingFrom : Bool → List (String × ProbeOutcome) → Bool
  | anyTransient, [] => anyTransient
  | anyTransient, (_, outcome) :: outcomes =>
      match outcome.retryDisposition with
      | .hardError => false
      | .transient => worthRetryingFrom true outcomes
      | .authoritative => worthRetryingFrom anyTransient outcomes

def outcomesWorthRetrying (outcomes : List (String × ProbeOutcome)) : Bool :=
  worthRetryingFrom false outcomes

def probeMaxAttempts : Nat := 4

/-- How one outcome reads in the summary of a mixed failure. -/
def outcomeDetail : String × ProbeOutcome → String
  | (label, .empty) => label ++ ": empty response"
  | (label, .notFound) => label ++ ": NotFound"
  | (label, .timeout) => label ++ ": timeout"
  | (label, .otherError msg) => label ++ ": " ++ msg

/-- `format_fallback_failure`; `timeout` is the text of the timeout. -/
def formatFallbackFailure (outcomes : List (String × ProbeOutcome)) (timeout : String) : String :=
  let total := outcomes.length
  let timeouts := outcomes.countP (·.2 = .timeout)
  let notFounds := outcomes.countP (·.2 = .notFound)
  let empties := outcomes.countP (·.2 = .empty)
  let otherErrors := total - timeouts - notFounds - empties
  if timeouts = total then
    "GET timed out on all " ++ toString total ++ " probe(s) after " ++ timeout ++
      " each (current contract key + " ++ toString (total - 1) ++
      " legacy key(s)); gateway or peer routing may be unhealthy — operation aborted, " ++
      "state on the network is unknown"
  else if notFounds + empties = total then
    "no state found at current contract key or any of " ++ toString (total - 1) ++
      " legacy key(s) (" ++ toString notFounds ++ " authoritative NotFound, " ++
      toString empties ++ " empty response)"
  else if otherErrors = total then
    let first := (outcomes.findSome? fun
      | (label, .otherError msg) => some (label ++ ": " ++ msg)
      | _ => none).getD "<no detail>"
    "every probe failed with transport/other error (" ++ toString total ++
      " probe(s)); first failure: " ++ first
  else
    let detail := (outcomes.take 8).map outcomeDetail
    let suffix := if 8 < outcomes.length then
      " (and " ++ toString (outcomes.length - 8) ++ " more)" else ""
    "every probe failed for repo contract — mixed outcomes (" ++ toString timeouts ++
      " timeout, " ++ toString notFounds ++ " NotFound, " ++ toString empties ++ " empty, " ++
      toString otherErrors ++ " transport/other): " ++ "; ".intercalate detail ++ suffix

/-- The loop of `get_state_with_legacy_fallback` from one attempt on, with the passes
it makes. -/
def fallbackFrom (timeout : String) (answers : Nat → Nat → GetResult) (attempt : Nat) :
    Except String LegacyAwareGet × List (List Probe) :=
  match probeAllKeys cr currentId paramsBytes lineage (answers attempt) with
  | (.ok found, probes) => (.ok found, [probes])
  | (.error outcomes, probes) =>
      if probeMaxAttempts ≤ attempt ∨ !outcomesWorthRetrying outcomes then
        (.error (formatFallbackFailure outcomes timeout), [probes])
      else
        let (result, passes) := fallbackFrom timeout answers (attempt + 1)
        (result, probes :: passes)
termination_by probeMaxAttempts - attempt

/-- `get_state_with_legacy_fallback`. -/
def getStateWithLegacyFallback (timeout : String) (answers : Nat → Nat → GetResult) :
    Except String LegacyAwareGet × List (List Probe) :=
  fallbackFrom cr currentId paramsBytes lineage timeout answers 1

end

/-! ## How a pass ends -/

/-- An authoritative miss. -/
def GetResult.Absent : GetResult → Prop
  | .ok state => state = []
  | .error e => ProbeOutcome.fromGetStateErr e = .notFound

theorem retryDisposition_fromGetStateErr {e : String} :
    (ProbeOutcome.fromGetStateErr e).retryDisposition = .authoritative ↔
      ProbeOutcome.fromGetStateErr e = .notFound := by
  unfold ProbeOutcome.fromGetStateErr
  split
  · exact ⟨nofun, nofun⟩
  · split
    · exact ⟨fun _ => rfl, fun _ => rfl⟩
    · refine ⟨fun h => ?_, nofun⟩
      simp only [ProbeOutcome.retryDisposition] at h
      split at h <;> cases h

/-- What is recorded of a call that did not end the search. -/
def Probe.record (p : Probe) : String × ProbeOutcome :=
  (p.key.label, match p.result with
    | .ok _ => .empty
    | .error e => ProbeOutcome.fromGetStateErr e)

/-- A pass asks the keys in order.  It goes on after authoritative misses only. -/
inductive PassEnd : List ProbeKey → Except (List (String × ProbeOutcome)) LegacyAwareGet →
    List Probe → Prop
  | found {missed : List Probe} {key : ProbeKey} {keys : List ProbeKey} {state : Bytes}
      (hmissed : ∀ p ∈ missed, p.result.Absent) (hstate : state ≠ []) :
      PassEnd (missed.map (·.key) ++ key :: keys) (.ok ⟨state, key.source⟩)
        (missed ++ [⟨key, .ok state⟩])
  | unknown {missed : List Probe} {key : ProbeKey} {keys : List ProbeKey} {e : String}
      (hmissed : ∀ p ∈ missed, p.result.Absent)
      (he : (ProbeOutcome.fromGetStateErr e).retryDisposition ≠ .authoritative) :
      PassEnd (missed.map (·.key) ++ key :: keys)
        (.error (missed.map Probe.record ++ [Probe.record ⟨key, .error e⟩]))
        (missed ++ [⟨key, .error e⟩])
  | absent {missed : List Probe} (hmissed : ∀ p ∈ missed, p.result.Absent) :
      PassEnd (missed.map (·.key)) (.error (missed.map Probe.record)) missed

theorem forall_mem_concat {α : Type} {P : α → Prop} {l : List α} {a : α} (hl : ∀ b ∈ l, P b)
    (ha : P a) : ∀ b ∈ l ++ [a], P b := by
  intro b hb
  rcases List.mem_append.mp hb with hb | hb
  · exact hl b hb
  · exact List.mem_singleton.mp hb ▸ ha

theorem passEnd_probeFrom (answers : Nat → GetResult) :
    ∀ (keys : List ProbeKey) (missed : List Probe), (∀ p ∈ missed, p.result.Absent) →
      PassEnd (missed.map (·.key) ++ keys)
        (probeFrom answers keys (missed.map Probe.record)).1
        (missed ++ (probeFrom answers keys (missed.map Probe.record)).2)
  | [], missed, h => by
      rw [probeFrom, List.append_nil, List.append_nil]
      exact .absent h
  | key :: keys, missed, h => by
      -- the walk goes on with this call recorded
      have hon : ∀ {r : GetResult}, r.Absent → PassEnd (missed.map (·.key) ++ key :: keys)
          (probeFrom answers keys (missed.map Probe.record ++ [Probe.record ⟨key, r⟩])).1
          (missed ++ ⟨key, r⟩ ::
            (probeFrom answers keys (missed.map Probe.record ++ [Probe.record ⟨key, r⟩])).2) := by
        intro r hr
        have ih := passEnd_probeFrom answers keys (missed ++ [⟨key, r⟩]) (forall_mem_concat h hr)
        simpa only [List.map_append, List.map_cons, List.map_nil, List.append_assoc,
          List.cons_append, List.nil_append] using ih
      rw [probeFrom]
      cases answers (missed.map Probe.record).length with
      | ok state =>
          dsimp only
          split
          · next hne => exact .found h (by simpa using hne)
          · next hempty => exact hon (r := .ok state) (by simpa [GetResult.Absent] using hempty)
      | error e =>
          dsimp only
          split
          · next hd => exact hon (r := .error e) (retryDisposition_fromGetStateErr.mp hd)
          · next hd => exact .unknown h hd

theorem result_probeFrom (answers : Nat → GetResult) :
    ∀ (keys : List ProbeKey) (outcomes : List (String × ProbeOutcome)) (i : Nat) (p : Probe),
      (probeFrom answers keys outcomes).2[i]? = some p → p.result = answers (outcomes.length + i)
  | [], outcomes, i, p, h => by
      cases h
  | key :: keys, outcomes, i, p, h => by
      have hnext : ∀ {o : String × ProbeOutcome} {r : GetResult}, answers outcomes.length = r →
          (⟨key, r⟩ :: (probeFrom answers keys (outcomes ++ [o])).2)[i]? = some p →
          p.result = answers (outcomes.length + i) := by
        intro o r hr h
        cases i with
        | zero => rw [← Option.some.inj h, Nat.add_zero, hr]
        | succ i =>
            have ih := result_probeFrom answers keys (outcomes ++ [o]) i p h
            rwa [List.length_append, List.length_singleton, Nat.add_assoc, Nat.add_comm 1] at ih
      have hlast : ∀ {r : GetResult}, answers outcomes.length = r →
          ([⟨key, r⟩] : List Probe)[i]? = some p → p.result = answers (outcomes.length + i) := by
        intro r hr h
        cases i with
        | zero => rw [← Option.some.inj h, Nat.add_zero, hr]
        | succ i => cases h
      rw [probeFrom] at h
      cases hr : answers outcomes.length with
      | ok state =>
          rw [hr] at h
          dsimp only at h
          split at h
          · exact hlast hr h
          · exact hnext hr h
      | error e =>
          rw [hr] at h
          dsimp only at h
          split at h
          · exact hnext hr h
          · exact hlast hr h

/-! ## The order of the keys -/

section

variable {cr : Crypto} {currentId : ContractId} {paramsBytes : Bytes}
  {lineage : List ContractLineageEntry}

theorem mem_candidates {idx : Nat} {id : ContractId} :
    (idx, id) ∈ candidates cr paramsBytes lineage ↔
      ∃ entry, lineage[idx]? = some entry ∧ id = legacyInstanceId cr entry paramsBytes := by
  simp only [candidates, List.mem_mergeSort, List.mem_map, Prod.exists, List.mem_zipIdx_iff_getElem?,
    Prod.mk.injEq]
  constructor
  · rintro ⟨entry, n, h, rfl, rfl⟩
    exact ⟨entry, h, rfl⟩
  · rintro ⟨entry, h, rfl⟩
    exact ⟨entry, idx, h, rfl, rfl⟩

theorem pairwise_candidates : (candidates cr paramsBytes lineage).Pairwise fun a b =>
    generationAt lineage b.1 ≤ generationAt lineage a.1 := by
  have h := @List.pairwise_mergeSort _ (fun a b : Nat × ContractId =>
      decide (generationAt lineage b.1 ≤ generationAt lineage a.1)) ?_ ?_
    (lineage.zipIdx.map fun (entry, idx) => (idx, legacyInstanceId cr entry paramsBytes))
  · exact h.imp of_decide_eq_true
  · intro a b c hab hbc
    exact decide_eq_true (UInt32.le_trans (of_decide_eq_true hbc) (of_decide_eq_true hab))
  · intro a b
    simpa using UInt32.le_total _ _

/-- The key of an entry of the lineage. -/
def Covers (lineage : List ContractLineageEntry) (cr : Crypto) (paramsBytes : Bytes) (idx : Nat)
    (id : ContractId) (entry : ContractLineageEntry) : Prop :=
  lineage[idx]? = some entry ∧ id = legacyInstanceId cr entry paramsBytes

theorem mem_probeKeys_legacy {idx : Nat} {id : ContractId} {entry : ContractLineageEntry}
    (h : Covers lineage cr paramsBytes idx id entry) :
    ∃ key ∈ probeKeys cr currentId paramsBytes lineage,
      key.id = id ∧ key.source = .legacy idx id :=
  ⟨_, List.mem_cons_of_mem _ (List.mem_map_of_mem (mem_candidates.mpr ⟨entry, h.1, h.2⟩)), rfl, rfl⟩

/-- What is asked of a key, by its source. -/
theorem of_mem_probeKeys {key : ProbeKey} (h : key ∈ probeKeys cr currentId paramsBytes lineage) :
    (key.source = .current ∧ key.id = currentId) ∨
      ∃ idx entry, Covers lineage cr paramsBytes idx key.id entry ∧
        key.source = .legacy idx key.id := by
  rcases List.mem_cons.mp h with rfl | h
  · exact .inl ⟨rfl, rfl⟩
  · obtain ⟨⟨idx, id⟩, hc, rfl⟩ := List.mem_map.mp h
    obtain ⟨entry, he, hid⟩ := mem_candidates.mp hc
    exact .inr ⟨idx, entry, ⟨he, hid⟩, rfl⟩

/-- Newest first: before the key of a generation come the current key and the keys of
all newer generations. -/
theorem newer_before {before after : List ProbeKey} {key : ProbeKey} {idx : Nat} {id : ContractId}
    {entry : ContractLineageEntry}
    (h : probeKeys cr currentId paramsBytes lineage = before ++ key :: after)
    (hkey : key.source = .legacy idx id) (hentry : lineage[idx]? = some entry) :
    (∃ k ∈ before, k.id = currentId ∧ k.source = .current) ∧
      ∀ j newer, lineage[j]? = some newer → entry.generation < newer.generation →
        ∃ k ∈ before, k.id = legacyInstanceId cr newer paramsBytes ∧
          k.source = .legacy j (legacyInstanceId cr newer paramsBytes) := by
  cases before with
  | nil =>
      rw [← (List.cons.inj h).1] at hkey
      cases hkey
  | cons first before =>
      obtain ⟨rfl, hrest⟩ := List.cons.inj h
      refine ⟨⟨_, List.mem_cons_self, rfl, rfl⟩, fun j newer hj hlt => ?_⟩
      obtain ⟨a, b, hab, rfl, hb⟩ := List.map_eq_append_iff.mp hrest
      obtain ⟨c, b, rfl, rfl, rfl⟩ := List.map_eq_cons_iff.mp hb
      have hidx : c.1 = idx := (GetSource.legacy.inj hkey).1
      have hgen : ∀ {n e}, lineage[n]? = some e → generationAt lineage n = e.generation := by
        intro n e he
        rw [generationAt, he]
        rfl
      have hmem : (j, legacyInstanceId cr newer paramsBytes) ∈ a ++ c :: b :=
        hab ▸ mem_candidates.mpr ⟨newer, hj, rfl⟩
      -- the newer key is neither this one nor a later one
      have hno : ∀ d : Nat × ContractId, generationAt lineage d.1 ≤ generationAt lineage c.1 →
          d ≠ (j, legacyInstanceId cr newer paramsBytes) := by
        rintro d hle rfl
        rw [hidx, hgen hentry, hgen hj] at hle
        exact absurd (UInt32.lt_of_lt_of_le hlt hle) (UInt32.lt_irrefl _)
      have hord := (List.pairwise_append.mp (hab ▸ pairwise_candidates)).2.1
      rcases List.mem_append.mp hmem with hmem | hmem
      · exact ⟨_, List.mem_cons_of_mem _ (List.mem_map_of_mem hmem), rfl, rfl⟩
      · rcases List.mem_cons.mp hmem with heq | hmem
        · exact absurd heq.symm (hno c (UInt32.le_refl _))
        · exact absurd rfl (hno _ ((List.pairwise_cons.mp hord).1 _ hmem))

end

/-! ## The summary of a failure -/

theorem forall_of_countP_add {α : Type} {p q : α → Bool} {l : List α}
    (hpq : ∀ a, q a = true → p a = false) (h : l.countP p + l.countP q = l.length) :
    ∀ a ∈ l, p a = true ∨ q a = true := by
  have hrest : (l.filter fun a => !p a).countP q = (l.filter fun a => !p a).length := by
    rw [List.countP_filter, ← List.countP_eq_length_filter]
    have hlen := List.length_eq_countP_add_countP p (l := l)
    have hq : l.countP (fun a => q a && !p a) = l.countP q :=
      List.countP_congr fun a _ => by
        cases hqa : q a with
        | false => rfl
        | true => rw [hpq a hqa]; rfl
    have hnp : l.countP (fun a => decide ¬p a = true) = l.countP (fun a => !p a) :=
      List.countP_congr fun a _ => by cases p a <;> rfl
    omega
  intro a ha
  cases hp : p a with
  | true => exact .inl rfl
  | false =>
      exact .inr (List.countP_eq_length.mp hrest a (List.mem_filter.mpr ⟨ha, by rw [hp]; rfl⟩))

/-- The failure that reports absence. -/
def NoStateFound (msg : String) : Prop :=
  List.IsPrefix "no state found at current contract key".toList msg.toList

theorem not_noStateFound {first rest : String} {c : Char} (hc : first.toList.head? = some c)
    (hn : c ≠ 'n') : ¬ NoStateFound (first ++ rest) := by
  intro h
  unfold NoStateFound at h
  rw [String.toList_append, List.eq_cons_of_mem_head? hc] at h
  exact hn (List.cons_prefix_cons.mp h).1.symm

/-- Absence is reported only when every key that was asked missed. -/
theorem missed_of_noStateFound {outcomes : List (String × ProbeOutcome)} {timeout : String}
    (h : NoStateFound (formatFallbackFailure outcomes timeout)) :
    ∀ o ∈ outcomes, o.2.retryDisposition = .authoritative := by
  unfold formatFallbackFailure at h
  simp only [String.append_assoc] at h
  split at h
  · exact absurd h (not_noStateFound (c := 'G') rfl (by decide))
  · split at h
    · next hmiss =>
        have hpq : ∀ o : String × ProbeOutcome, decide (o.2 = .empty) = true →
            decide (o.2 = .notFound) = false := fun o ho => by
          rw [of_decide_eq_true ho]
          rfl
        intro o ho
        rcases forall_of_countP_add hpq hmiss o ho with h | h
        · rw [of_decide_eq_true h]
          rfl
        · rw [of_decide_eq_true h]
          rfl
    · split at h
      · exact absurd h (not_noStateFound (c := 'e') rfl (by decide))
      · exact absurd h (not_noStateFound (c := 'e') rfl (by decide))

/-- A failed pass is made again when some outcome may clear and none is final. -/
theorem worthRetryingFrom_eq_true {any : Bool} : ∀ {outcomes : List (String × ProbeOutcome)},
    worthRetryingFrom any outcomes = true ↔
      (any = true ∨ ∃ o ∈ outcomes, o.2.retryDisposition = .transient) ∧
        ∀ o ∈ outcomes, o.2.retryDisposition ≠ .hardError
  | [] => by simp [worthRetryingFrom]
  | (label, outcome) :: outcomes => by
      rw [worthRetryingFrom]
      cases hd : outcome.retryDisposition with
      | hardError => simp [hd]
      | transient =>
          dsimp only
          rw [worthRetryingFrom_eq_true]
          simp [hd]
      | authoritative =>
          dsimp only
          rw [worthRetryingFrom_eq_true]
          simp [hd]

/-! ## The promise -/

/-- In this pass the key of a source was asked, and this was the answer. -/
def Asked (pass : List Probe) (id : ContractId) (source : GetSource) (r : GetResult) : Prop :=
  ∃ p ∈ pass, p.key.id = id ∧ p.key.source = source ∧ p.result = r

/-- In this pass the key of a source was authoritatively missed. -/
def Missed (pass : List Probe) (id : ContractId) (source : GetSource) : Prop :=
  ∃ r, Asked pass id source r ∧ r.Absent

/-- A pass that is worth making again ended in an answer that may clear. -/
def EndedTransient (pass : List Probe) : Prop :=
  ∃ p e, pass.getLast? = some p ∧ p.result = .error e ∧
    (ProbeOutcome.fromGetStateErr e).retryDisposition = .transient

/-- The result of the loop comes from its last pass, and each pass before it was worth
making again. -/
structure FallbackEnd (cr : Crypto) (currentId : ContractId) (paramsBytes : Bytes)
    (lineage : List ContractLineageEntry) (timeout : String) (answers : Nat → Nat → GetResult)
    (attempt : Nat) (result : Except String LegacyAwareGet) (passes : List (List Probe)) : Prop where
  length : passes.length + attempt ≤ probeMaxAttempts + 1
  pass : ∀ n pass, passes[n]? = some pass →
    pass = (probeAllKeys cr currentId paramsBytes lineage (answers (attempt + n))).2
  again : ∀ n, n + 1 < passes.length → ∃ outcomes,
    (probeAllKeys cr currentId paramsBytes lineage (answers (attempt + n))).1 = .error outcomes ∧
      outcomesWorthRetrying outcomes = true
  last : ∃ n, passes[n]? =
      some (probeAllKeys cr currentId paramsBytes lineage (answers (attempt + n))).2 ∧
    result = (probeAllKeys cr currentId paramsBytes lineage (answers (attempt + n))).1.mapError
      fun outcomes => formatFallbackFailure outcomes timeout

section

variable {cr : Crypto} {currentId : ContractId} {paramsBytes : Bytes}
  {lineage : List ContractLineageEntry} {timeout : String} {answers : Nat → Nat → GetResult}
  {attempt : Nat}

/-- The last pass. -/
theorem FallbackEnd.one (ha : attempt ≤ probeMaxAttempts) :
    FallbackEnd cr currentId paramsBytes lineage timeout answers attempt
      ((probeAllKeys cr currentId paramsBytes lineage (answers attempt)).1.mapError
        fun outcomes => formatFallbackFailure outcomes timeout)
      [(probeAllKeys cr currentId paramsBytes lineage (answers attempt)).2] where
  length := by
    rw [List.length_singleton]
    omega
  pass n pass h := by
    cases n with
    | zero => exact (Option.some.inj h).symm
    | succ n => cases h
  again n h := by
    rw [List.length_singleton] at h
    omega
  last := ⟨0, rfl, rfl⟩

/-- A pass that is made again. -/
theorem FallbackEnd.cons {outcomes : List (String × ProbeOutcome)}
    {result : Except String LegacyAwareGet} {passes : List (List Probe)}
    (hpass : (probeAllKeys cr currentId paramsBytes lineage (answers attempt)).1 = .error outcomes)
    (hworth : outcomesWorthRetrying outcomes = true)
    (h : FallbackEnd cr currentId paramsBytes lineage timeout answers (attempt + 1) result passes) :
    FallbackEnd cr currentId paramsBytes lineage timeout answers attempt result
      ((probeAllKeys cr currentId paramsBytes lineage (answers attempt)).2 :: passes) where
  length := by
    have := h.length
    rw [List.length_cons]
    omega
  pass n pass hn := by
    cases n with
    | zero => exact (Option.some.inj hn).symm
    | succ n =>
        have := h.pass n pass hn
        rwa [Nat.add_right_comm] at this
  again n hn := by
    cases n with
    | zero => exact ⟨outcomes, hpass, hworth⟩
    | succ n =>
        have := h.again n (by rw [List.length_cons] at hn; omega)
        rwa [Nat.add_right_comm] at this
  last := by
    obtain ⟨n, hn, hresult⟩ := h.last
    rw [Nat.add_right_comm] at hn hresult
    exact ⟨n + 1, hn, hresult⟩

theorem fallbackEnd (ha : attempt ≤ probeMaxAttempts) :
    FallbackEnd cr currentId paramsBytes lineage timeout answers attempt
      (fallbackFrom cr currentId paramsBytes lineage timeout answers attempt).1
      (fallbackFrom cr currentId paramsBytes lineage timeout answers attempt).2 := by
  have hone := @FallbackEnd.one cr currentId paramsBytes lineage timeout answers attempt ha
  fun_induction fallbackFrom cr currentId paramsBytes lineage timeout answers attempt with
  | case1 attempt found probes h =>
      rw [h] at hone
      exact hone
  | case2 attempt outcomes probes h _ =>
      rw [h] at hone
      exact hone
  | case3 attempt outcomes probes h hgo result passes hrec ih =>
      rw [not_or, not_le, Bool.not_eq_true, Bool.not_eq_false'] at hgo
      have hnext := ih hgo.1 (FallbackEnd.one hgo.1)
      have hcons := FallbackEnd.cons (congrArg Prod.fst h) hgo.2 hnext
      rw [h, hrec] at hcons
      exact hcons

theorem exists_passEnd (n : Nat) :
    PassEnd (probeKeys cr currentId paramsBytes lineage)
      (probeAllKeys cr currentId paramsBytes lineage (answers n)).1
      (probeAllKeys cr currentId paramsBytes lineage (answers n)).2 :=
  passEnd_probeFrom (answers n) (probeKeys cr currentId paramsBytes lineage) [] nofun

/-- A hit: the key that answered, and the keys asked before it. -/
theorem PassEnd.hit {keys : List ProbeKey} {state : Bytes} {source : GetSource}
    {pass : List Probe} (h : PassEnd keys (.ok ⟨state, source⟩) pass) :
    state ≠ [] ∧ ∃ before key after, keys = before ++ key :: after ∧ key.source = source ∧
      Asked pass key.id source (.ok state) ∧ ∀ k ∈ before, Missed pass k.id k.source := by
  cases h with
  | @found missed key keys state hmissed hstate =>
      refine ⟨hstate, _, key, keys, rfl, rfl, ⟨_, List.mem_append_right _ (List.mem_singleton_self _),
        rfl, rfl, rfl⟩, fun k hk => ?_⟩
      obtain ⟨p, hp, rfl⟩ := List.mem_map.mp hk
      exact ⟨p.result, ⟨p, List.mem_append_left _ hp, rfl, rfl, rfl⟩, hmissed p hp⟩

theorem PassEnd.hit_current {state : Bytes} {pass : List Probe}
    (h : PassEnd (probeKeys cr currentId paramsBytes lineage) (.ok ⟨state, .current⟩) pass) :
    state ≠ [] ∧ Asked pass currentId .current (.ok state) := by
  obtain ⟨hne, before, key, after, hkeys, hsource, hasked, -⟩ := h.hit
  refine ⟨hne, ?_⟩
  rcases of_mem_probeKeys (hkeys ▸ List.mem_append_right _ List.mem_cons_self) with
    ⟨-, hid⟩ | ⟨_, _, -, hl⟩
  · exact hid ▸ hasked
  · rw [hsource] at hl
    cases hl

theorem PassEnd.hit_legacy {state : Bytes} {idx : Nat} {id : ContractId} {pass : List Probe}
    (h : PassEnd (probeKeys cr currentId paramsBytes lineage) (.ok ⟨state, .legacy idx id⟩) pass) :
    state ≠ [] ∧ ∃ entry, lineage[idx]? = some entry ∧ id = legacyInstanceId cr entry paramsBytes ∧
      Asked pass id (.legacy idx id) (.ok state) ∧ Missed pass currentId .current ∧
      ∀ j newer, lineage[j]? = some newer → entry.generation < newer.generation →
        Missed pass (legacyInstanceId cr newer paramsBytes)
          (.legacy j (legacyInstanceId cr newer paramsBytes)) := by
  obtain ⟨hne, before, key, after, hkeys, hsource, hasked, hbefore⟩ := h.hit
  refine ⟨hne, ?_⟩
  rcases of_mem_probeKeys (hkeys ▸ List.mem_append_right _ List.mem_cons_self) with
    ⟨hc, -⟩ | ⟨n, entry, ⟨hentry, hid⟩, hl⟩
  · rw [hsource] at hc
    cases hc
  · rw [hsource] at hl
    obtain ⟨rfl, rfl⟩ := GetSource.legacy.inj hl
    obtain ⟨⟨k, hk, hkid, hks⟩, hnewer⟩ := newer_before hkeys hsource hentry
    refine ⟨entry, hentry, hid, hasked, hkid ▸ hks ▸ hbefore k hk, fun j newer hj hlt => ?_⟩
    obtain ⟨k, hk, hkid, hks⟩ := hnewer j newer hj hlt
    have hmissed := hbefore k hk
    rwa [hkid, hks] at hmissed

/-- A pass whose outcomes are all authoritative has asked every key. -/
theorem PassEnd.absent_of_authoritative {keys : List ProbeKey}
    {outcomes : List (String × ProbeOutcome)} {pass : List Probe}
    (h : PassEnd keys (.error outcomes) pass)
    (hall : ∀ o ∈ outcomes, o.2.retryDisposition = .authoritative) :
    ∀ k ∈ keys, Missed pass k.id k.source := by
  cases h with
  | unknown _ he =>
      exact absurd (hall _ (List.mem_append_right _ (List.mem_singleton_self _))) he
  | absent hmissed =>
      intro k hk
      obtain ⟨p, hp, rfl⟩ := List.mem_map.mp hk
      exact ⟨p.result, ⟨p, hp, rfl, rfl, rfl⟩, hmissed p hp⟩

theorem GetResult.Absent.authoritative {p : Probe} (h : p.result.Absent) :
    p.record.2.retryDisposition = .authoritative := by
  obtain ⟨key, result⟩ := p
  cases result with
  | ok state => rfl
  | error e => exact retryDisposition_fromGetStateErr.mpr h

/-- A pass that is worth making again ended in an answer that may clear. -/
theorem PassEnd.endedTransient {keys : List ProbeKey} {outcomes : List (String × ProbeOutcome)}
    {pass : List Probe} (h : PassEnd keys (.error outcomes) pass)
    (hworth : outcomesWorthRetrying outcomes = true) : EndedTransient pass := by
  obtain ⟨htransient, hnohard⟩ := worthRetryingFrom_eq_true.mp hworth
  have htransient := htransient.resolve_left nofun
  cases h with
  | @unknown missed key keys e hmissed he =>
      refine ⟨_, e, List.getLast?_concat, rfl, ?_⟩
      have hhard := hnohard _ (List.mem_append_right _ (List.mem_singleton_self _))
      cases hd : (ProbeOutcome.fromGetStateErr e).retryDisposition with
      | transient => rfl
      | hardError => exact absurd hd hhard
      | authoritative => exact absurd hd he
  | absent hmissed =>
      obtain ⟨o, ho, hd⟩ := htransient
      obtain ⟨p, hp, rfl⟩ := List.mem_map.mp ho
      rw [(hmissed p hp).authoritative] at hd
      cases hd

end

theorem mapError_eq_ok {ε ε' α : Type} {f : ε → ε'} {x : Except ε α} {a : α} :
    x.mapError f = .ok a ↔ x = .ok a := by
  cases x <;> simp [Except.mapError]

theorem mapError_eq_error {ε ε' α : Type} {f : ε → ε'} {x : Except ε α} {e : ε'} :
    x.mapError f = .error e ↔ ∃ d, x = .error d ∧ f d = e := by
  cases x <;> simp [Except.mapError]

/-- What the passes and the result of a call have to do with each other. -/
structure FallbackSound (cr : Crypto) (currentId : ContractId) (paramsBytes : Bytes)
    (lineage : List ContractLineageEntry) (answers : Nat → Nat → GetResult)
    (result : Except String LegacyAwareGet) (passes : List (List Probe)) : Prop where
  /-- The calls of a pass get the answers of that pass in turn. -/
  answered : ∀ n pass i p, passes[n]? = some pass → pass[i]? = some p →
    p.result = answers (n + 1) i
  current : ∀ state, result = .ok ⟨state, .current⟩ →
    state ≠ [] ∧ ∃ pass ∈ passes, Asked pass currentId .current (.ok state)
  /-- An older generation is read only past the newer ones. -/
  legacy : ∀ state idx id, result = .ok ⟨state, .legacy idx id⟩ → state ≠ [] ∧
    ∃ entry, lineage[idx]? = some entry ∧ id = legacyInstanceId cr entry paramsBytes ∧
      ∃ pass ∈ passes, Asked pass id (.legacy idx id) (.ok state) ∧
        Missed pass currentId .current ∧
        ∀ j newer, lineage[j]? = some newer → entry.generation < newer.generation →
          Missed pass (legacyInstanceId cr newer paramsBytes)
            (.legacy j (legacyInstanceId cr newer paramsBytes))
  /-- Absence is reported only if one pass missed every key. -/
  absent : ∀ msg, result = .error msg → NoStateFound msg →
    ∃ pass ∈ passes, Missed pass currentId .current ∧
      ∀ j entry, lineage[j]? = some entry →
        Missed pass (legacyInstanceId cr entry paramsBytes)
          (.legacy j (legacyInstanceId cr entry paramsBytes))
  attempts : passes.length ≤ 4
  retried : ∀ n pass, n + 1 < passes.length → passes[n]? = some pass → EndedTransient pass

/-- **Legacy probing never rolls a repo back and never concludes absence from silence.** -/
theorem legacyFallback_sound (cr : Crypto) (currentId : ContractId) (paramsBytes : Bytes)
    (lineage : List ContractLineageEntry) (timeout : String) (answers : Nat → Nat → GetResult) :
    FallbackSound cr currentId paramsBytes lineage answers
      (getStateWithLegacyFallback cr currentId paramsBytes lineage timeout answers).1
      (getStateWithLegacyFallback cr currentId paramsBytes lineage timeout answers).2 := by
  have hend := @fallbackEnd cr currentId paramsBytes lineage timeout answers 1 (by decide)
  rw [← getStateWithLegacyFallback] at hend
  generalize getStateWithLegacyFallback cr currentId paramsBytes lineage timeout answers = run at *
  obtain ⟨last, hlast, hresult⟩ := hend.last
  have hmem := List.mem_of_getElem? hlast
  have hpass := @exists_passEnd cr currentId paramsBytes lineage answers
  have hok : ∀ {found}, run.1 = .ok found →
      PassEnd (probeKeys cr currentId paramsBytes lineage) (.ok found)
        (probeAllKeys cr currentId paramsBytes lineage (answers (1 + last))).2 := by
    intro found h
    rw [← mapError_eq_ok.mp (hresult.symm.trans h)]
    exact hpass (1 + last)
  refine ⟨fun n pass i p hn hi => ?_, fun state h => ?_, fun state idx id h => ?_,
    fun msg h hmsg => ?_, Nat.le_of_succ_le_succ hend.length, fun n pass hn hp => ?_⟩
  · rw [hend.pass n pass hn] at hi
    have := result_probeFrom _ _ _ _ _ hi
    rwa [List.length_nil, Nat.zero_add, Nat.add_comm 1] at this
  · obtain ⟨hne, hasked⟩ := (hok h).hit_current
    exact ⟨hne, _, hmem, hasked⟩
  · obtain ⟨hne, entry, hentry, hid, hasked, hmissed⟩ := (hok h).hit_legacy
    exact ⟨hne, entry, hentry, hid, _, hmem, hasked, hmissed⟩
  · obtain ⟨outcomes, hr, rfl⟩ := mapError_eq_error.mp (hresult.symm.trans h)
    have hall := (hr ▸ hpass (1 + last)).absent_of_authoritative (missed_of_noStateFound hmsg)
    refine ⟨_, hmem, hall _ List.mem_cons_self, fun j entry hj => ?_⟩
    obtain ⟨k, hk, hid, hsource⟩ := mem_probeKeys_legacy ⟨hj, rfl⟩
    have hmissed := hall k hk
    rwa [hid, hsource] at hmissed
  · obtain ⟨outcomes, hr, hworth⟩ := hend.again n hn
    have hlast := hpass (1 + n)
    rw [hr, ← hend.pass n pass hp] at hlast
    exact hlast.endedTransient hworth

end FreenetGit
