/-
# `Lib.Workers` — programs that run a few at a time

A refill loop whose tasks are programs.  The tasks in flight act in any order, and each
leaves a log under its key; a task that is over is counted with what it returned, or with the
way it died.  `run_inv` carries the specifications of the tasks over to every run: what each
log is at any time, and what a counted result says about the log behind it.  Conversely a task
in flight can act out any of its logs (`run_acts`).
-/
import FreenetGit.Lib.Behaviour
import FreenetGit.Lib.Refill

namespace Lib.Workers

structure State (α β κ ε : Type) where
  loop : Refill.Loop α β
  logs : κ → List ε

inductive Event (α ρ κ ε : Type) where
  | loop (e : Refill.Event α ρ)
  | act (k : κ) (e : ε)

abbrev Trace (α β ρ κ ε : Type) : Type := List (Transition (State α β κ ε) (Event α ρ κ ε))

variable {α β γ ρ κ ε : Type}

def begin (work : List α) (init : β) : State α β κ ε := ⟨Refill.begin work init, fun _ => []⟩

def looped? (t : Transition (State α β κ ε) (Event α ρ κ ε)) :
    Option (Transition (Refill.Loop α β) (Refill.Event α ρ)) :=
  match t.event with
  | .loop e => some ⟨t.before.loop, e, t.after.loop⟩
  | .act _ _ => none

/-- The steps of the loop. -/
def loopTrace (tr : Trace α β ρ κ ε) : List (Transition (Refill.Loop α β) (Refill.Event α ρ)) :=
  tr.filterMap looped?

variable {limit : Nat} {count : β → ρ → β} {key : α → κ} {task : α → Behaviour ε γ}
  {Joins : Option γ → ρ → Prop} {S : α → List ε → Option γ → Prop} {work : List α} {init : β}
  {tr : Trace α β ρ κ ε} {s s' : State α β κ ε}

theorem loopTrace_snoc (t : Transition (State α β κ ε) (Event α ρ κ ε)) :
    loopTrace (tr ++ [t]) = loopTrace tr ++ (looped? t).toList := by
  rw [loopTrace, List.filterMap_append]
  rfl

variable [DecidableEq κ]

/-- One step: of the loop, of a task in flight, or the end of a task.  `Joins` is how the end
of a task is reported, with what it has returned, if it has. -/
inductive Step (limit : Nat) (count : β → ρ → β) (key : α → κ) (task : α → Behaviour ε γ)
    (Joins : Option γ → ρ → Prop) : State α β κ ε → Event α ρ κ ε → State α β κ ε → Prop
  | loop {s e loop'} (h : Refill.Step limit count s.loop e loop') (he : e.completed? = none) :
      Step limit count key task Joins s (.loop e) ⟨loop', s.logs⟩
  | act {s a e} (ha : a ∈ s.loop.inFlight) (h : task a (s.logs (key a) ++ [e]) none) :
      Step limit count key task Joins s (.act (key a) e)
        ⟨s.loop, Function.update s.logs (key a) (s.logs (key a) ++ [e])⟩
  | complete {s a r res loop'} (h : Refill.Step limit count s.loop (.complete a res) loop')
      (hlog : task a (s.logs (key a)) r) (hr : Joins r res) :
      Step limit count key task Joins s (.loop (.complete a res)) ⟨loop', s.logs⟩

def Event.acted? (k : κ) : Event α ρ κ ε → Option ε
  | .loop _ => none
  | .act k' e => if k' = k then some e else none

/-- The log under a key. -/
def logOf (k : κ) (tr : Trace α β ρ κ ε) : List ε := tr.filterMap fun t => t.event.acted? k

theorem logOf_snoc (k : κ) (t : Transition (State α β κ ε) (Event α ρ κ ε)) :
    logOf k (tr ++ [t]) = logOf k tr ++ (t.event.acted? k).toList := by
  rw [logOf, List.filterMap_append]
  rfl

/-- An event is that of a task in flight. -/
theorem Step.acted {k : κ} {e : ε} (h : Step limit count key task Joins s (.act k e) s') :
    ∃ a ∈ s.loop.inFlight, key a = k ∧ task a (s.logs k ++ [e]) none := by
  cases h with
  | act ha hlog => exact ⟨_, ha, rfl, hlog⟩

/-! ## The invariant -/

/-- The loop runs as it does alone, the logs are what the run says, each meets the
specification of its task, and a counted result is about the log as it is. -/
structure Inv (limit : Nat) (count : β → ρ → β) (key : α → κ) (Joins : Option γ → ρ → Prop)
    (S : α → List ε → Option γ → Prop) (work : List α) (init : β) (tr : Trace α β ρ κ ε)
    (s : State α β κ ε) : Prop where
  loop : Run (Refill.Step limit count) (Refill.begin work init) (loopTrace tr) s.loop
  logs : ∀ k, s.logs k = logOf k tr
  spec : ∀ a ∈ work, ∃ r, S a (s.logs (key a)) r
  completed : ∀ c ∈ Refill.completed (loopTrace tr), ∃ r, S c.1 (s.logs (key c.1)) r ∧ Joins r c.2

theorem Inv.begin (hnil : ∀ a, S a [] none) :
    Inv (ρ := ρ) limit count key Joins S work init [] (begin work init) where
  loop := .nil
  logs _ := rfl
  spec a _ := ⟨none, hnil a⟩
  completed _ hc := absurd hc List.not_mem_nil

/-- A task in flight is one of the work, and it is not counted yet. -/
theorem Inv.in_flight (hlimit : 0 < limit) (hwork : (work.map key).Nodup)
    (h : Inv limit count key Joins S work init tr s) {a : α} (ha : a ∈ s.loop.inFlight) :
    a ∈ work ∧ ∀ c ∈ Refill.completed (loopTrace tr), key c.1 ≠ key a := by
  have hacc := Refill.run_accounts hlimit h.loop
  have hstarted : ∀ {x}, x ∈ Refill.started (loopTrace tr) → x ∈ work := fun hx =>
    hacc.left ▸ List.mem_append_left _ hx
  have hmem : a ∈ work :=
    hstarted (hacc.inFlight.mem_iff.mp (List.mem_append_right _ ha))
  refine ⟨hmem, fun c hc heq => ?_⟩
  have hc₁ : c.1 ∈ (Refill.completed (loopTrace tr)).map (·.1) := List.mem_map_of_mem hc
  have hcwork : c.1 ∈ work :=
    hstarted (hacc.inFlight.mem_iff.mp (List.mem_append_left _ hc₁))
  have hca : c.1 = a := List.inj_on_of_nodup_map hwork hcwork hmem heq
  have hnodup : (Refill.started (loopTrace tr)).Nodup := by
    have hnodup := List.Nodup.of_map key hwork
    rw [← hacc.left] at hnodup
    exact hnodup.of_append_left
  exact List.disjoint_of_nodup_append (hacc.inFlight.nodup_iff.mpr hnodup) (hca ▸ hc₁) ha

theorem Inv.step (hlimit : 0 < limit) (hwork : (work.map key).Nodup)
    (htask : ∀ a, (task a).Meets (S a)) (h : Inv limit count key Joins S work init tr s)
    {e : Event α ρ κ ε} (hs : Step limit count key task Joins s e s') :
    Inv limit count key Joins S work init (tr ++ [⟨s, e, s'⟩]) s' := by
  cases hs with
  | @loop e loop' hstep he =>
      have htrace : loopTrace (tr ++ [⟨s, .loop e, ⟨loop', s.logs⟩⟩]) =
          loopTrace tr ++ [⟨s.loop, e, loop'⟩] := loopTrace_snoc _
      constructor
      · rw [htrace]
        exact h.loop.snoc hstep
      · intro k
        rw [logOf_snoc]
        exact (h.logs k).trans (List.append_nil _).symm
      · exact h.spec
      · intro c hc
        rw [htrace, Refill.completed_snoc, he, Option.toList_none, List.append_nil] at hc
        exact h.completed c hc
  | @act a e ha hlog =>
      obtain ⟨hmem, hcounted⟩ := h.in_flight hlimit hwork ha
      have htrace : ∀ s', loopTrace (tr ++ [⟨s, .act (key a) e, s'⟩]) = loopTrace tr := fun s' =>
        (loopTrace_snoc _).trans (List.append_nil _)
      constructor
      · rw [htrace]
        exact h.loop
      · intro k
        rw [logOf_snoc]
        dsimp only
        by_cases hk : key a = k
        · subst hk
          rw [Function.update_self, h.logs, Event.acted?, if_pos rfl]
          rfl
        · rw [Function.update_of_ne (Ne.symm hk), h.logs, Event.acted?, if_neg hk,
            Option.toList_none, List.append_nil]
      · intro a' ha'
        dsimp only
        by_cases hk : key a' = key a
        · cases List.inj_on_of_nodup_map hwork ha' hmem hk
          refine ⟨none, ?_⟩
          rw [Function.update_self]
          exact htask _ _ _ hlog
        · rw [Function.update_of_ne hk]
          exact h.spec a' ha'
      · intro c hc
        rw [htrace] at hc
        dsimp only
        rw [Function.update_of_ne (hcounted c hc)]
        exact h.completed c hc
  | @complete a r res loop' hstep hlog hr =>
      have htrace : loopTrace (tr ++ [⟨s, .loop (.complete a res), ⟨loop', s.logs⟩⟩]) =
          loopTrace tr ++ [⟨s.loop, .complete a res, loop'⟩] := loopTrace_snoc _
      constructor
      · rw [htrace]
        exact h.loop.snoc hstep
      · intro k
        rw [logOf_snoc]
        exact (h.logs k).trans (List.append_nil _).symm
      · exact h.spec
      · intro c hc
        rw [htrace, Refill.completed_snoc] at hc
        rcases List.mem_append.mp hc with hc | hc
        · exact h.completed c hc
        · cases List.mem_singleton.mp hc
          exact ⟨r, htask a _ _ hlog, hr⟩

/-- **The specifications of the tasks hold in every run.** -/
theorem run_inv (hlimit : 0 < limit) (hwork : (work.map key).Nodup)
    (htask : ∀ a, (task a).Meets (S a)) (hnil : ∀ a, S a [] none)
    (hrun : Run (Step limit count key task Joins) (begin work init) tr s) :
    Inv limit count key Joins S work init tr s :=
  hrun.history (Inv limit count key Joins S work init) (Q := fun _ => True) (.begin hnil)
    (fun _ _ _ _ h hs _ => h.step hlimit hwork htask hs) fun _ _ => trivial

/-- **An event of a task** goes on with the log that the task has left before. -/
theorem run_acted (hlimit : 0 < limit) (hwork : (work.map key).Nodup)
    (htask : ∀ a, (task a).Meets (S a)) (hnil : ∀ a, S a [] none)
    (hrun : Run (Step limit count key task Joins) (begin work init) tr s)
    {before after : Trace α β ρ κ ε} {t : Transition (State α β κ ε) (Event α ρ κ ε)}
    (htr : tr = before ++ t :: after) {k : κ} {e : ε} (ht : t.event = .act k e) :
    ∃ a ∈ work, key a = k ∧ S a (logOf k before ++ [e]) none := by
  obtain ⟨hbefore, hs, -⟩ := hrun.split htr
  have hinv := run_inv hlimit hwork htask hnil hbefore
  rw [ht] at hs
  obtain ⟨a, ha, rfl, hlog⟩ := hs.acted
  refine ⟨a, (hinv.in_flight hlimit hwork ha).1, rfl, ?_⟩
  rw [← hinv.logs]
  exact htask _ _ _ hlog

theorem Step.of_log {a : α} {e : ε} {log : List ε} (ha : a ∈ s.loop.inFlight)
    (hs : s.logs (key a) = log) (h : task a (log ++ [e]) none) :
    Step limit count key task Joins s (.act (key a) e)
      ⟨s.loop, Function.update s.logs (key a) (log ++ [e])⟩ := by
  subst hs
  exact .act ha h

/-- **A task can act out any of its logs** while it is in flight. -/
theorem run_acts {a : α} {log : List ε} {r : Option γ} (ha : a ∈ s.loop.inFlight)
    (hclosed : (task a).PrefixClosed) (h : task a (s.logs (key a) ++ log) r) :
    ∃ tr, Run (Step limit count key task Joins) s tr
      ⟨s.loop, Function.update s.logs (key a) (s.logs (key a) ++ log)⟩ := by
  induction log using List.reverseRecOn generalizing r with
  | nil =>
      rw [List.append_nil, Function.update_eq_self]
      exact ⟨[], .nil⟩
  | append_singleton log e ih =>
      rw [← List.append_assoc] at h ⊢
      obtain ⟨tr, hrun⟩ := ih (hclosed _ _ _ h)
      have hrunning : task a (s.logs (key a) ++ log ++ [e]) none :=
        hclosed _ [] r ((List.append_nil _).symm ▸ h)
      have hstep : Step limit count key task Joins
          ⟨s.loop, Function.update s.logs (key a) (s.logs (key a) ++ log)⟩ (.act (key a) e)
          ⟨s.loop, Function.update (Function.update s.logs (key a) (s.logs (key a) ++ log)) (key a)
            (s.logs (key a) ++ log ++ [e])⟩ :=
        .of_log ha (Function.update_self ..) hrunning
      rw [Function.update_idem] at hstep
      exact ⟨_, hrun.snoc hstep⟩

end Lib.Workers
