/-
# `FreenetGit.Concurrent` — pushes that race for one contract

Holders of the owner's key push at the same time.  Each reads the contract,
builds a delta with the next sequence number of what it read, and sends it; the
contract applies deltas as they arrive (`PushStep`).  There is no
compare-and-swap: when two pushes chose the same number, the one with the lower
signature stays, the update of the other one succeeds all the same, and its
`ok` line is printed.  `push_landed_iff` says at which applications that
happens.
-/
import FreenetGit.Lib.Run
import FreenetGit.Push
import FreenetGit.Sample
import FreenetGit.Sync

namespace FreenetGit

open Lib

variable {ι : Type} [DecidableEq ι]

/-- The contract, and the deltas on their way to it. -/
structure PushSystem (ι : Type) where
  contract : RepoState
  holding : ι → Option PushAcc

inductive PushEvent (ι : Type) where
  /-- A run reads the contract and builds its delta. -/
  | read (i : ι)
  /-- The contract applies the delta of a run, which then reports. -/
  | apply (i : ι) (acc : PushAcc)
  /-- A run gives up. -/
  | drop (i : ι)

/-- One step of the pushers and the contract; refspecs, settings, git and the
network are arbitrary at every read. -/
inductive PushStep (cr : Crypto) (params : RepoParams) (key : SigningKey) :
    PushSystem ι → PushEvent ι → PushSystem ι → Prop
  | read {c : PushSystem ι} {i : ι} {host : PushHost} {env : PushEnv} {pushes : List String}
      {delta : RepoState} {acc : PushAcc}
      (h : handlePush cr params key host env c.contract pushes = .ok (some delta, acc)) :
      PushStep cr params key c (.read i) { c with holding := Function.update c.holding i (some acc) }
  | apply {c : PushSystem ι} {i : ι} {acc : PushAcc} {s' : RepoState}
      (hi : c.holding i = some acc) (h : updateState cr params c.contract acc.delta = .ok s') :
      PushStep cr params key c (.apply i acc) ⟨s', Function.update c.holding i none⟩
  | drop {c : PushSystem ι} {i : ι} :
      PushStep cr params key c (.drop i) { c with holding := Function.update c.holding i none }

/-- Whatever a run holds reports every ref of its delta. -/
def HoldsReported (c : PushSystem ι) : Prop :=
  ∀ i acc, c.holding i = some acc → ∀ (dst : RefName) (e : RefEntry),
    acc.delta.refs[dst]? = some e → "ok " ++ dst ∈ acc.okLines

section

variable {cr : Crypto} {params : RepoParams} {key : SigningKey}

theorem holdsReported_step (c : PushSystem ι) (ev : PushEvent ι) (c' : PushSystem ι)
    (hc : HoldsReported c) (hstep : PushStep cr params key c ev c') : HoldsReported c' := by
  intro j acc hj
  cases hstep with
  | read h =>
      dsimp only at hj
      rw [Function.update_apply] at hj
      split at hj
      · cases hj
        exact buildDelta_okLines (handlePush_eq_ok h).1
      · exact hc j acc hj
  | apply | drop =>
      dsimp only at hj
      rw [Function.update_apply] at hj
      split at hj
      · cases hj
      · exact hc j acc hj

/-- After the update, each pushed ref that is reported `ok` has the pushed
target or a higher sequence number. -/
def Landed (acc : PushAcc) (after : RepoState) : Prop :=
  ∀ (dst : RefName) (e : RefEntry), "ok " ++ dst ∈ acc.okLines → acc.delta.refs[dst]? = some e →
    ∃ cur, after.refs[dst]? = some cur ∧ (cur.target = e.target ∨ e.updateSeq < cur.updateSeq)

/-- Before the update, the contract has an entry for a pushed ref with the same
number, another target and a signature that is not greater. -/
def Beaten (acc : PushAcc) (before : RepoState) : Prop :=
  ∃ (dst : RefName) (e cur : RefEntry), acc.delta.refs[dst]? = some e ∧
    before.refs[dst]? = some cur ∧ cur.updateSeq = e.updateSeq ∧
    (compare cur.signature e.signature).isLE = true ∧ cur.target ≠ e.target

/-- What an update leaves of a pushed entry. -/
theorem landed_ref_iff {s : RepoState} {acc : PushAcc} {dst : RefName} {e : RefEntry}
    (he : acc.delta.refs[dst]? = some e) :
    (∃ cur, (mergeState s acc.delta).refs[dst]? = some cur ∧
        (cur.target = e.target ∨ e.updateSeq < cur.updateSeq)) ↔
      ∀ cur, s.refs[dst]? = some cur → cur.updateSeq = e.updateSeq →
        (compare cur.signature e.signature).isLE = true → cur.target = e.target := by
  have hm : (mergeState s acc.delta).refs[dst]? =
      (Slot.ref dst).picker.pickOpt s.refs[dst]? (some e) := he ▸ mergeState_at s acc.delta (.ref dst)
  rw [hm]
  cases hs : s.refs[dst]? with
  | none =>
      refine ⟨fun _ => nofun, fun _ => ⟨e, rfl, .inl rfl⟩⟩
  | some cur =>
      have hpick : (Slot.ref dst).picker.pickOpt (some cur) (some e) =
          some (pickRefEntry cur e) := rfl
      simp only [hpick, Option.some.injEq, exists_eq_left', forall_eq', pickRefEntry]
      by_cases hw : pickHigherSeq cur.updateSeq cur.signature e.updateSeq e.signature = true
      · rw [if_pos hw]
        rcases pickHigherSeq_iff.mp hw with hlt | ⟨heq, hle⟩
        · refine ⟨fun _ heq => ?_, fun _ => .inr hlt⟩
          exact absurd hlt (heq ▸ UInt64.lt_irrefl _)
        · constructor
          · rintro (h | h) _ _
            · exact h
            · exact absurd h (heq ▸ UInt64.lt_irrefl _)
          · intro h
            exact .inl (h heq hle)
      · rw [if_neg hw]
        refine ⟨fun _ heq hle => ?_, fun _ => .inl rfl⟩
        exact absurd (pickHigherSeq_iff.mpr (.inr ⟨heq, hle⟩)) hw

/-- **No acknowledged push is lost**, over every run, exactly when no delta
arrives beaten. -/
theorem push_landed_iff {c₀ c : PushSystem ι} {tr : List (Transition (PushSystem ι) (PushEvent ι))}
    (h₀ : ∀ i, c₀.holding i = none) (hrun : Run (PushStep cr params key) c₀ tr c) :
    (∀ t ∈ tr, ∀ i acc, t.event = .apply i acc → Landed acc t.after.contract) ↔
      ∀ t ∈ tr, ∀ i acc, t.event = .apply i acc → ¬ Beaten acc t.before.contract := by
  refine Run.forall_mem_iff HoldsReported ?_ holdsReported_step ?_ hrun
  · intro i acc hi
    rw [h₀] at hi
    cases hi
  · rintro ⟨before, event, after⟩ hinv hstep
    refine forall₃_congr fun i acc hev => ?_
    cases hev
    change PushStep cr params key before (.apply i acc) after at hstep
    change HoldsReported before at hinv
    cases hstep with
    | apply hi hup =>
        rw [(updateState_eq_ok.mp hup).1]
        constructor
        · rintro hl ⟨dst, e, cur, he, hcur, hseq, hle, hne⟩
          exact hne ((landed_ref_iff he).mp (hl dst e (hinv i acc hi dst e he) he) cur hcur hseq hle)
        · intro hb dst e _ he
          refine (landed_ref_iff he).mpr fun cur hcur hseq hle => ?_
          by_contra hne
          exact hb ⟨dst, e, cur, he, hcur, hseq, hle, hne⟩

end

/-! Two runs read the empty state and push two commits to `refs/heads/main`;
the second delta arrives beaten. -/

namespace Sample

/-- A pack that is told from others by its first byte. -/
def packOf (n : UInt8) : Bytes := n :: List.replicate 31 0

def bundleOf (n : UInt8) : ObjectBundle := .singlePack (hash (packOf n)) 32

def tipKey (n : UInt8) : String := bundleTipExtensionKey ((bundleOf n).id unsigned)

/-- What two pushes of the commits 1 and 2 sign. -/
def pushTable : List (Statement × Signature) :=
  [(.ref main (sha 1) 1 0, sig 1), (.ref main (sha 2) 1 0, sig 2),
    (.bundle (bundleOf 1) 0, sig 3), (.bundle (bundleOf 2) 0, sig 4),
    (.extension (tipKey 1) (sha 1).toList 1, sig 5),
    (.extension (tipKey 2) (sha 2).toList 1, sig 6)]

def pushCrypto : Crypto := crypto pushTable

/-- The owner's key: the signature the table has for a payload. -/
def pushKey : SigningKey where
  verifyingKey := owner
  sign p := ((pushTable.find? fun e =>
    e.1.payload unsigned (paramsRepoKey unsigned params owner) = some p).map (·.2)).getD (zeros 64)

/-- A repository whose only ref is the commit `n`. -/
def pushHost (n : UInt8) : PushHost where
  resolveRef _ := .ok (hexEncode (sha n).toList)
  commitExists _ := .ok false
  revPack _ _ := .ok (packOf n)
  putPack _ := .ok ()
  publishChunked _ := .error (.err "")

def pushEnv : PushEnv := ⟨1048576, none⟩

def pushAcc (n : UInt8) : PushAcc :=
  match buildDelta pushCrypto params pushKey (pushHost n) pushEnv RepoState.default
    ["refs/heads/main:refs/heads/main"] with
  | .ok acc => acc
  | .error _ => ⟨RepoState.default, [], []⟩

def idle : PushSystem Bool := ⟨RepoState.default, fun _ => none⟩

/-- The delta of the push of the commit `n`. -/
def pushed (n : UInt8) : RepoState :=
  threeEntries main ⟨sha n, 1, owner, 0, sig n⟩ ((bundleOf n).id unsigned)
    ⟨bundleOf n, owner, 0, sig (n + 2)⟩ ⟨(sha n).toList, 1, sig (n + 4)⟩

theorem pushTable_sigs : (pushTable.map (·.2)).Nodup :=
  nodup_sigs (l := [1, 2, 3, 4, 5, 6]) (by decide)

theorem pushTable_payloads : (pushTable.map fun e =>
    e.1.payload unsigned (paramsRepoKey unsigned params owner)).Nodup := by decide

/-- The owner's key gives each statement of the table its signature. -/
theorem pushKey_signs {st : Statement} {σ : Signature} (h : (st, σ) ∈ pushTable)
    (hst : st.WithinLimits) :
    signWith pushCrypto params pushKey (fun k => st.payload pushCrypto k) = some σ := by
  obtain ⟨p, hp⟩ := hst.exists_payload unsigned (paramsRepoKey unsigned params owner)
  have hpayload : st.payload pushCrypto (signatureDomainKey pushCrypto params owner) = some p := by
    cases st <;> exact hp
  have hfound := find_of_mem pushTable_payloads h
  rw [hp] at hfound
  exact Option.map_eq_some_iff.mpr ⟨p, hpayload, by rw [pushKey]; dsimp only; rw [hfound]; rfl⟩

/-- A pack within the chunk size is the bundle of its hash. -/
theorem publish_packOf {cr : Crypto} {host : PushHost} (hcr : cr.blake3 = hash)
    (hput : ∀ bs, host.putPack bs = .ok ()) (k : UInt8) :
    publishBundle cr host pushEnv (packOf k) = .ok (bundleOf k) := by
  rw [publishBundle, if_pos (by simp [packOf, pushEnv]), hput, hcr]
  rfl

section

variable {n : UInt8} (hn : n = 1 ∨ n = 2)

include hn

theorem pushTable_ref : (.ref main (sha n) 1 0, sig n) ∈ pushTable := by
  rcases hn with rfl | rfl <;> simp [pushTable]

theorem pushTable_bundle : (.bundle (bundleOf n) 0, sig (n + 2)) ∈ pushTable := by
  rcases hn with rfl | rfl <;> simp [pushTable]

theorem pushTable_tip : (.extension (tipKey n) (sha n).toList 1, sig (n + 4)) ∈ pushTable := by
  rcases hn with rfl | rfl <;> simp [pushTable]

theorem buildDelta_sample :
    buildDelta pushCrypto params pushKey (pushHost n) pushEnv
      RepoState.default ["refs/heads/main:refs/heads/main"] =
        .ok ⟨pushed n, ["ok refs/heads/main"], []⟩ := by
  have hspec : parsePushSpec "refs/heads/main:refs/heads/main" =
      .ok (false, main, main) := by decide
  have hnone : RepoState.default.refs[main]? = none := Std.ExtTreeMap.getElem?_empty
  have hseq : seenSeq RepoState.default main + 1 = 1 := by
    rw [seenSeq, hnone]
    rfl
  have hrecord := pushKey_signs (pushTable_bundle hn) trivial
  have hentry := pushKey_signs (pushTable_ref hn)
    (by decide : (utf8 main).length ≤ limits.maxRefNameBytes)
  have htip := pushKey_signs (pushTable_tip hn)
    ⟨length_bundleTipExtensionKey _, Vector.length_toList.trans_le (by decide)⟩
  have hpack : buildPack (pushHost n) ((RepoState.default.refs[main]?).map fun e =>
      hexEncode e.target.toList) (hexEncode (sha n).toList) false = .ok (packOf n) := by
    rw [hnone]
    rfl
  refine buildDelta_one (c := sha n) hspec (by decide) rfl ?_ hpack
    (publish_packOf rfl (fun _ => rfl) n) (congrArg (Option.map _) hrecord) ?_
    (congrArg (Option.map _) htip) rfl
  · rw [hnone]
    rfl
  · rw [hseq]
    exact congrArg (Option.map _) hentry

theorem pushAcc_eq : pushAcc n = ⟨pushed n, ["ok refs/heads/main"], []⟩ := by
  have h := buildDelta_sample hn
  unfold pushAcc
  split
  · next heq => exact Except.ok.inj (heq.symm.trans h)
  · next heq => cases heq.symm.trans h

end

/-- The contract after the first delta, and after both. -/
def first : RepoState := mergeState RepoState.default (pushAcc 1).delta

def both : RepoState := mergeState first (pushAcc 2).delta

theorem pushed_accepted {n : UInt8} (hn : n = 1 ∨ n = 2) :
    Accepted pushCrypto params (pushed n) := by
  refine accepted_of_table pushTable_sigs rfl (fun st σ hs => ?_) (fun m e h => ?_) fun id r h => ?_
  · cases hs with
    | ref h =>
        obtain ⟨rfl, rfl⟩ := single_eq h
        exact ⟨pushTable_ref hn, (by decide : (utf8 main).length ≤ limits.maxRefNameBytes)⟩
    | bundle h =>
        obtain ⟨-, rfl⟩ := single_eq h
        exact ⟨pushTable_bundle hn, trivial⟩
    | extension h =>
        obtain ⟨rfl, rfl⟩ := single_eq h
        exact ⟨pushTable_tip hn, length_bundleTipExtensionKey _,
          Vector.length_toList.trans_le (by decide)⟩
    | name h | description h | defaultBranch h | forcePushAllowed h | acl h | upgrade h => cases h
  · exact (single_eq h).2 ▸ rfl
  · obtain ⟨rfl, rfl⟩ := single_eq h
    exact ⟨rfl, rfl⟩

theorem pushed_ref (n : UInt8) : (pushed n).refs[main]? = some ⟨sha n, 1, owner, 0, sig n⟩ :=
  getElem?_insert_eq.trans (if_pos rfl)

theorem idle_accepted : Accepted pushCrypto params RepoState.default :=
  (table_prefixOk pushTable).accepted

/-- The owner's state accepts either delta. -/
theorem update_pushed {n : UInt8} (hn : n = 1 ∨ n = 2) {s : RepoState}
    (hs : Accepted pushCrypto params s) (howner : s.owner = owner) :
    updateState pushCrypto params s (pushAcc n).delta = .ok (mergeState s (pushAcc n).delta) := by
  rw [pushAcc_eq hn]
  exact updateState_kept hs (pushed_accepted hn) howner ⟨fun _ _ he => he, fun _ _ hr => hr⟩

theorem handlePush_sample {n : UInt8} (hn : n = 1 ∨ n = 2) :
    handlePush pushCrypto params pushKey (pushHost n) pushEnv RepoState.default
      ["refs/heads/main:refs/heads/main"] = .ok (some (pushAcc n).delta, pushAcc n) := by
  have hu := update_pushed hn idle_accepted rfl
  rw [pushAcc_eq hn] at hu ⊢
  exact handlePush_of_updateState (buildDelta_sample hn) (pushed_ref n) hu

theorem update_first :
    updateState pushCrypto params RepoState.default (pushAcc 1).delta = .ok first :=
  update_pushed (.inl rfl) idle_accepted rfl

theorem update_both : updateState pushCrypto params first (pushAcc 2).delta = .ok both :=
  update_pushed (.inr rfl) (updateState_eq_ok.mp update_first).2 (mergeState_owner _ _)

def hold₁ : PushSystem Bool := ⟨RepoState.default, Function.update idle.holding true (some (pushAcc 1))⟩

def hold₂ : PushSystem Bool :=
  ⟨RepoState.default, Function.update hold₁.holding false (some (pushAcc 2))⟩

def applied₁ : PushSystem Bool := ⟨first, Function.update hold₂.holding true none⟩

def applied₂ : PushSystem Bool := ⟨both, Function.update applied₁.holding false none⟩

/-- The trace of the race. -/
def raceTrace : List (Transition (PushSystem Bool) (PushEvent Bool)) :=
  [⟨idle, .read true, hold₁⟩, ⟨hold₁, .read false, hold₂⟩,
    ⟨hold₂, .apply true (pushAcc 1), applied₁⟩, ⟨applied₁, .apply false (pushAcc 2), applied₂⟩]

theorem race_run : Run (PushStep pushCrypto params pushKey) idle raceTrace applied₂ :=
  (((Run.nil.snoc (.read (handlePush_sample (.inl rfl)))).snoc
    (.read (handlePush_sample (.inr rfl)))).snoc (.apply rfl update_first)).snoc
    (.apply rfl update_both)

end Sample

theorem push_landed_iff_race :
    (∀ t ∈ Sample.raceTrace, ∀ i acc, t.event = .apply i acc → Landed acc t.after.contract) ↔
      ∀ t ∈ Sample.raceTrace, ∀ i acc, t.event = .apply i acc → ¬ Beaten acc t.before.contract :=
  push_landed_iff (fun _ => rfl) Sample.race_run

/-- The second push is acknowledged and its target is nowhere in the contract. -/
theorem push_lost :
    validateState Sample.pushCrypto Sample.params Sample.idle.contract = .ok () ∧
    Run (PushStep Sample.pushCrypto Sample.params Sample.pushKey) Sample.idle Sample.raceTrace
      Sample.applied₂ ∧
    "ok refs/heads/main" ∈ (Sample.pushAcc 2).okLines ∧
    ¬ ∀ t ∈ Sample.raceTrace, ∀ i acc, t.event = .apply i acc → Landed acc t.after.contract := by
  have hfirst : Sample.first.refs[Sample.main]? =
      some ⟨Sample.sha 1, 1, Sample.owner, 0, Sample.sig 1⟩ := by
    have hempty : RepoState.default.at (.ref Sample.main) = none := RepoState.default_at _
    refine (mergeState_at _ _ (.ref Sample.main)).trans ?_
    rw [hempty, Picker.pickOpt_none_left, Sample.pushAcc_eq (.inl rfl)]
    exact Sample.pushed_ref 1
  have hsent : (Sample.pushAcc 2).delta.refs[Sample.main]? =
      some ⟨Sample.sha 2, 1, Sample.owner, 0, Sample.sig 2⟩ := by
    rw [Sample.pushAcc_eq (.inr rfl)]
    exact Sample.pushed_ref 2
  have hok : "ok refs/heads/main" ∈ (Sample.pushAcc 2).okLines := by
    rw [Sample.pushAcc_eq (.inr rfl)]
    exact List.mem_singleton_self _
  refine ⟨validateState_eq_ok.mpr Sample.idle_accepted, Sample.race_run, hok, fun h => ?_⟩
  have hlast := h ⟨Sample.applied₁, .apply false (Sample.pushAcc 2), Sample.applied₂⟩
    (by simp [Sample.raceTrace]) false (Sample.pushAcc 2) rfl
  -- the signature of the first push is the lower one
  have hle : (compare (Sample.sig 1) (Sample.sig 2)).isLE = true := by decide +kernel
  have hstays := (landed_ref_iff hsent).mp (hlast Sample.main _ hok hsent) _ hfirst rfl hle
  exact absurd hstays (by decide)

end FreenetGit
