/-
# `FreenetGit.RescueLoop` — the bundles of a rescue, a few at a time

`rescue` spawns a task for each bundle of its set and keeps a number of them in
flight.  The tasks end in any order: with an outcome, with a panic, or
cancelled.  Each is counted when it ends, and the rescue fails if one of them
failed.
-/
import FreenetGit.Rescue
import FreenetGit.Lib.Refill

namespace FreenetGit

open Lib

/-- `BundleOutcome`. -/
inductive BundleOutcome where
  | ok (label kindLabel : String) (chunksRescued : Nat)
  | err (label kind error : String)
deriving DecidableEq

/-- How a spawned task ends: it returns, or there is a `JoinError` with this text. -/
inductive JoinResult where
  | returned (outcome : BundleOutcome)
  | panicked (joinErr : String)
  | cancelled (joinErr : String)
deriving DecidableEq

def JoinResult.outcome : JoinResult → BundleOutcome
  | .returned outcome => outcome
  | .panicked joinErr => .err "<bundle-unknown>" "panic"
      ("rescue task panicked: " ++ joinErr ++
        ". Re-run with RUST_BACKTRACE=1 to identify the bundle.")
  | .cancelled joinErr => .err "<bundle-unknown>" "cancelled"
      ("rescue task cancelled: " ++ joinErr)

def JoinResult.succeeds (result : JoinResult) : Bool :=
  match result.outcome with
  | .ok _ _ _ => true
  | .err _ _ _ => false

/-- What the loop counts and prints. -/
structure RescueReport where
  bundleCount : Nat
  chunkCount : Nat
  errors : List String
  printed : List String
deriving DecidableEq

namespace RescueReport

def empty : RescueReport := ⟨0, 0, [], []⟩

/-- The end of the loop's body. -/
def count (report : RescueReport) (joinResult : JoinResult) : RescueReport :=
  match joinResult.outcome with
  | .ok label kindLabel chunksRescued =>
      { report with
        bundleCount := report.bundleCount + 1
        chunkCount := report.chunkCount + chunksRescued
        printed := report.printed ++ ["ok " ++ label ++ " (" ++ kindLabel ++ ")"] }
  | .err label kind error =>
      { report with errors := report.errors ++ ["  " ++ label ++ " (" ++ kind ++ "): " ++ error] }

/-- What `rescue` returns. -/
def result (report : RescueReport) : Except String Unit :=
  if report.errors.isEmpty then .ok ()
  else .error (toString report.errors.length ++ " bundle(s) failed to rescue")

variable {report : RescueReport} {results : List JoinResult}

theorem count_cases (report : RescueReport) (r : JoinResult) :
    (r.succeeds = true ∧ (report.count r).bundleCount = report.bundleCount + 1 ∧
        (report.count r).errors = report.errors) ∨
      (r.succeeds = false ∧ (report.count r).bundleCount = report.bundleCount ∧
        (report.count r).errors.length = report.errors.length + 1) := by
  rw [count, JoinResult.succeeds]
  cases r.outcome with
  | ok => exact .inl ⟨rfl, rfl, rfl⟩
  | err => exact .inr ⟨rfl, rfl, List.length_append⟩

/-- Each result is counted once, as a success or as a failure. -/
theorem foldl_count (report : RescueReport) (results : List JoinResult) :
    (results.foldl count report).bundleCount =
        report.bundleCount + results.countP JoinResult.succeeds ∧
      (results.foldl count report).errors.length =
        report.errors.length + results.countP (fun r => ¬ r.succeeds) := by
  induction results generalizing report with
  | nil => exact ⟨rfl, rfl⟩
  | cons r results ih =>
      obtain ⟨hbundles, herrors⟩ := ih (report.count r)
      rw [List.foldl_cons, hbundles, herrors, List.countP_cons, List.countP_cons]
      rcases count_cases report r with ⟨hr, hb, he⟩ | ⟨hr, hb, he⟩
      · rw [hb, he, hr]
        simp
        omega
      · rw [hb, he, hr]
        simp
        omega

theorem result_eq_ok : report.result = .ok () ↔ report.errors.length = 0 := by
  rw [result]
  cases report.errors with
  | nil => simp
  | cons e errors => simp

end RescueReport

abbrev RescueLoop := Refill.Loop (ObjectBundleId × ObjectBundleRecord) RescueReport

abbrev RescueEvent := Refill.Event (ObjectBundleId × ObjectBundleRecord) JoinResult

abbrev RescueTrace := List (Transition RescueLoop RescueEvent)

/-- The steps of the admission loop; a limit of zero is taken for one. -/
abbrev RescueStep (parallelBundles : Nat) : RescueLoop → RescueEvent → RescueLoop → Prop :=
  Refill.Step (max parallelBundles 1) RescueReport.count

/-- Every bundle was started once and completed once, each completion was counted once, and
the rescue succeeded if every task did. -/
structure RescueComplete (bundles : List (ObjectBundleId × ObjectBundleRecord)) (tr : RescueTrace)
    (report : RescueReport) : Prop where
  started : Refill.started tr = bundles
  completed : ((Refill.completed tr).map (·.1)).Perm bundles
  succeeded : report.bundleCount = (Refill.completed tr).countP (·.2.succeeds)
  total : report.bundleCount + report.errors.length = bundles.length
  result : report.result = .ok () ↔ ∀ c ∈ Refill.completed tr, c.2.succeeds = true

/-- Never more than the limit in flight, and an end after so many steps, where the rescue
is complete. -/
structure RescueAccounts (parallelBundles : Nat)
    (bundles : List (ObjectBundleId × ObjectBundleRecord)) (tr : RescueTrace) (s : RescueLoop) :
    Prop where
  bound : ∀ t ∈ tr, t.after.inFlight.length ≤ max parallelBundles 1
  steps : tr.length ≤ 3 * bundles.length + 2
  progress : s.point = .ended ∨ ∃ e s', RescueStep parallelBundles s e s'
  ended : s.point = .ended → RescueComplete bundles tr s.acc

variable {parallelBundles : Nat} {bundles : List (ObjectBundleId × ObjectBundleRecord)}
  {tr : RescueTrace} {s : RescueLoop}

theorem rescueComplete_of_accounts
    (h : Refill.Accounts (max parallelBundles 1) RescueReport.count .empty bundles tr s)
    (hended : s.point = .ended) : RescueComplete bundles tr s.acc := by
  obtain ⟨hstarted, hperm, hacc⟩ := h.ended hended
  obtain ⟨hbundles, herrors⟩ :=
    RescueReport.foldl_count .empty ((Refill.completed tr).map (·.2))
  have hbundles : s.acc.bundleCount =
      ((Refill.completed tr).map (·.2)).countP JoinResult.succeeds := by
    rw [hacc, hbundles]
    exact Nat.zero_add _
  have herrors : s.acc.errors.length =
      ((Refill.completed tr).map (·.2)).countP (fun r => ¬ r.succeeds) := by
    rw [hacc, herrors]
    exact Nat.zero_add _
  refine ⟨hstarted, hperm, ?_, ?_, ?_⟩
  · rw [hbundles, List.countP_map]
    rfl
  · rw [hbundles, herrors, ← List.length_eq_countP_add_countP, List.length_map, ← hperm.length_eq,
      List.length_map]
  · rw [RescueReport.result_eq_ok, herrors, List.countP_eq_zero, List.forall_mem_map]
    simp only [decide_eq_true_eq, not_not]

/-- **The rescue neither drops nor repeats a bundle**, in whatever order and way its tasks
end. -/
theorem rescue_accounts
    (hrun : Run (RescueStep parallelBundles) (Refill.begin bundles .empty) tr s) :
    RescueAccounts parallelBundles bundles tr s := by
  have hlimit : 0 < max parallelBundles 1 :=
    Nat.lt_of_lt_of_le Nat.one_pos (Nat.le_max_right _ _)
  constructor
  · exact Refill.run_bound hrun
  · have hle := hrun.length_add_le (μ := Refill.stepsLeft) fun _ _ _ => Refill.stepsLeft_step
    have hbegin : Refill.stepsLeft (Refill.begin bundles RescueReport.empty) =
        3 * bundles.length + 2 := rfl
    omega
  · exact Refill.exists_step s ⟨.cancelled ""⟩
  · exact rescueComplete_of_accounts (Refill.run_accounts hlimit hrun)

namespace Sample

/-- Two bundles to rescue. -/
def lost₁ : ObjectBundleId × ObjectBundleRecord :=
  (zeros 32, ⟨.singlePack (zeros 32) 0, owner, 0, sig 0⟩)

def lost₂ : ObjectBundleId × ObjectBundleRecord :=
  ((zeros 32).set 0 1 hash_pos,
    ⟨.singlePack ((zeros 32).set 0 1 hash_pos) 0, owner, 0, sig 1⟩)

/-- The second task returns, and then the first panics. -/
def rescueReport : RescueReport :=
  (RescueReport.empty.count (.returned (.ok "bundle 01" "single pack" 0))).count
    (.panicked "task 1 panicked")

theorem rescue_run : ∃ tr, Run (RescueStep 2) (Refill.begin [lost₁, lost₂] .empty) tr
    ⟨.ended, [], [], rescueReport⟩ := by
  have hstart : Run (RescueStep 2) (Refill.begin [lost₁, lost₂] .empty) _ _ :=
    ((Run.nil.snoc (.start Nat.two_pos)).snoc (.start Nat.one_lt_two)).snoc (.filled (.inr rfl))
  have hsecond := (hstart.snoc (@Refill.Step.complete _ _ _ _ _ lost₂
    (JoinResult.returned (.ok "bundle 01" "single pack" 0)) [] [lost₁] [] _)).snoc
    (.filled (.inr rfl))
  have hfirst := (hsecond.snoc (@Refill.Step.complete _ _ _ _ _ lost₁
    (JoinResult.panicked "task 1 panicked") [] [] [] _)).snoc (.filled (.inr rfl))
  exact ⟨_, hfirst.snoc .finish⟩

end Sample

theorem rescue_accounts_panicked : ∃ tr s, s.point = .ended ∧ s.acc.errors.length = 1 ∧
    RescueAccounts 2 [Sample.lost₁, Sample.lost₂] tr s := by
  obtain ⟨tr, hrun⟩ := Sample.rescue_run
  exact ⟨tr, _, rfl, rfl, rescue_accounts hrun⟩

/-! ## The bundles of a rescue set -/

/-- A rescue set names each bundle once. -/
theorem rescueSet_nodup {state : RepoState} {onlyCurrentTips rescueAll : Bool}
    {kept : List (ObjectBundleId × ObjectBundleRecord)} {skipped : Nat}
    (h : rescueSet state onlyCurrentTips rescueAll = .ok (kept, skipped)) :
    (kept.map (·.1)).Nodup := by
  have hnodup : (state.objectIndex.toList.map (·.1)).Nodup := by
    rw [Std.ExtTreeMap.map_fst_toList_eq_keys]
    exact Std.ExtTreeMap.nodup_keys
  have hsub : kept.Sublist state.objectIndex.toList := by
    unfold rescueSet at h
    dsimp only at h
    split at h
    · cases h
    · obtain ⟨hkept, -⟩ := Prod.mk.inj (Except.ok.inj h)
      rw [← hkept]
      cases effectiveOnlyCurrentTips state onlyCurrentTips rescueAll with
      | true =>
          rw [partition_eq]
          exact List.filter_sublist
      | false => exact List.Sublist.refl _
  exact hnodup.sublist (hsub.map _)

/-- **A rescue starts no bundle twice** and completes none twice. -/
theorem rescue_once {state : RepoState} {onlyCurrentTips rescueAll : Bool} {skipped : Nat}
    (hset : rescueSet state onlyCurrentTips rescueAll = .ok (bundles, skipped))
    (h : RescueComplete bundles tr s.acc) :
    ((Refill.started tr).map (·.1)).Nodup ∧ ((Refill.completed tr).map (·.1.1)).Nodup := by
  have hnodup := rescueSet_nodup hset
  refine ⟨h.started ▸ hnodup, ?_⟩
  have hperm := (h.completed.map (·.1)).nodup_iff.mpr hnodup
  rwa [List.map_map] at hperm

end FreenetGit
