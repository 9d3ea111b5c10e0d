/-
# `Lib.Refill` — refill loops over a bounded set of tasks

The loop takes tasks from a list while there is room, then awaits any one of
the tasks in flight and counts its result, until nothing is in flight.  The
invariant `Accounts` ties the loop to the transitions it has made: what was
started and what is left make up the list, what was completed and what is in
flight make up what was started.
-/
import FreenetGit.Lib.Run

namespace Lib.Refill

inductive Point where
  | fill
  | await
  | ended
deriving DecidableEq

structure Loop (α β : Type) where
  point : Point
  iter : List α
  inFlight : List α
  acc : β

inductive Event (α ρ : Type) where
  | start (a : α)
  | filled
  | complete (a : α) (r : ρ)
  | finish

variable {α β ρ : Type} {limit : Nat} {count : β → ρ → β} {init : β} {work : List α}
  {s s' : Loop α β} {e : Event α ρ} {tr : List (Transition (Loop α β) (Event α ρ))}

/-- One step: the tasks in flight end in any order and with any result. -/
inductive Step (limit : Nat) (count : β → ρ → β) : Loop α β → Event α ρ → Loop α β → Prop
  | start {a iter inFlight acc} (hroom : inFlight.length < limit) :
      Step limit count ⟨.fill, a :: iter, inFlight, acc⟩ (.start a)
        ⟨.fill, iter, inFlight ++ [a], acc⟩
  | filled {iter inFlight acc} (hfull : limit ≤ inFlight.length ∨ iter = []) :
      Step limit count ⟨.fill, iter, inFlight, acc⟩ .filled ⟨.await, iter, inFlight, acc⟩
  | complete {a r iter before after acc} :
      Step limit count ⟨.await, iter, before ++ a :: after, acc⟩ (.complete a r)
        ⟨.fill, iter, before ++ after, count acc r⟩
  | finish {iter acc} :
      Step limit count ⟨.await, iter, [], acc⟩ .finish ⟨.ended, iter, [], acc⟩

/-- The loop at its start. -/
def begin (work : List α) (init : β) : Loop α β := ⟨.fill, work, [], init⟩

/-! ## What a run has done -/

def Event.started? : Event α ρ → Option α
  | .start a => some a
  | _ => none

def Event.completed? : Event α ρ → Option (α × ρ)
  | .complete a r => some (a, r)
  | _ => none

/-- The tasks that were started, in order. -/
def started (tr : List (Transition (Loop α β) (Event α ρ))) : List α :=
  tr.filterMap fun t => t.event.started?

/-- The tasks that were completed, in order, with their results. -/
def completed (tr : List (Transition (Loop α β) (Event α ρ))) : List (α × ρ) :=
  tr.filterMap fun t => t.event.completed?

theorem started_snoc (t : Transition (Loop α β) (Event α ρ)) :
    started (tr ++ [t]) = started tr ++ t.event.started?.toList := by
  rw [started, List.filterMap_append]
  rfl

theorem completed_snoc (t : Transition (Loop α β) (Event α ρ)) :
    completed (tr ++ [t]) = completed tr ++ t.event.completed?.toList := by
  rw [completed, List.filterMap_append]
  rfl

/-! ## The invariant -/

/-- What the loop knows where it is: it awaits with room only if the list has run dry, and
it ends with nothing left. -/
def AtPoint (limit : Nat) (s : Loop α β) : Prop :=
  match s.point with
  | .fill => True
  | .await => limit ≤ s.inFlight.length ∨ s.iter = []
  | .ended => s.iter = [] ∧ s.inFlight = []

structure Accounts (limit : Nat) (count : β → ρ → β) (init : β) (work : List α)
    (tr : List (Transition (Loop α β) (Event α ρ))) (s : Loop α β) : Prop where
  left : started tr ++ s.iter = work
  inFlight : ((completed tr).map (·.1) ++ s.inFlight).Perm (started tr)
  counted : s.acc = ((completed tr).map (·.2)).foldl count init
  point : AtPoint limit s

theorem Accounts.begin : Accounts limit count init work [] (begin work init) where
  left := rfl
  inFlight := .nil
  counted := rfl
  point := trivial

/-- A step that neither starts nor completes a task. -/
theorem Accounts.silent (h : Accounts limit count init work tr s) (hstart : e.started? = none)
    (hcomplete : e.completed? = none) (hiter : s'.iter = s.iter)
    (hinFlight : s'.inFlight = s.inFlight) (hacc : s'.acc = s.acc) (hpoint : AtPoint limit s') :
    Accounts limit count init work (tr ++ [⟨s, e, s'⟩]) s' := by
  have hs : started (tr ++ [⟨s, e, s'⟩]) = started tr := by
    rw [started_snoc, hstart, Option.toList_none, List.append_nil]
  have hc : completed (tr ++ [⟨s, e, s'⟩]) = completed tr := by
    rw [completed_snoc, hcomplete, Option.toList_none, List.append_nil]
  constructor
  · rw [hs, hiter]
    exact h.left
  · rw [hs, hc, hinFlight]
    exact h.inFlight
  · rw [hc, hacc]
    exact h.counted
  · exact hpoint

theorem Accounts.step (hlimit : 0 < limit) (h : Accounts limit count init work tr s)
    (hs : Step limit count s e s') : Accounts limit count init work (tr ++ [⟨s, e, s'⟩]) s' := by
  cases hs with
  | @start a iter inFlight acc hroom =>
      constructor
      · rw [started_snoc, List.append_assoc]
        exact h.left
      · simp only [started_snoc, completed_snoc, Event.started?, Event.completed?,
          Option.toList_none, Option.toList_some, List.append_nil]
        rw [← List.append_assoc]
        exact h.inFlight.append_right [a]
      · simp only [completed_snoc, Event.completed?, Option.toList_none, List.append_nil]
        exact h.counted
      · trivial
  | filled hfull => exact h.silent rfl rfl rfl rfl rfl hfull
  | @complete a r iter before after acc =>
      constructor
      · simp only [started_snoc, Event.started?, Option.toList_none, List.append_nil]
        exact h.left
      · simp only [started_snoc, completed_snoc, Event.started?, Event.completed?,
          Option.toList_none, Option.toList_some, List.append_nil, List.map_append, List.map_cons,
          List.map_nil]
        -- the task moves from those in flight to those completed
        have hmove : ((completed tr).map (fun c => c.1) ++ [a] ++ (before ++ after)).Perm
            ((completed tr).map (fun c => c.1) ++ (before ++ a :: after)) := by
          rw [List.append_assoc, List.singleton_append]
          exact List.perm_middle.symm.append_left _
        exact hmove.trans h.inFlight
      · simp only [completed_snoc, Event.completed?, Option.toList_some, List.map_append,
          List.map_cons, List.map_nil, List.foldl_append, List.foldl_cons, List.foldl_nil]
        rw [← h.counted]
      · trivial
  | @finish iter acc =>
      have hdry : iter = [] := by
        rcases h.point with hfull | hdry
        · exact absurd hfull hlimit.not_ge
        · exact hdry
      exact h.silent rfl rfl rfl rfl rfl ⟨hdry, rfl⟩

/-- **The accounts of a run.** -/
theorem run_accounts (hlimit : 0 < limit)
    (hrun : Run (Step limit count) (begin work init) tr s) :
    Accounts limit count init work tr s :=
  hrun.history (Accounts limit count init work) (Q := fun _ => True) .begin
    (fun _ _ _ _ h hs _ => h.step hlimit hs) fun _ _ => trivial

/-- **A loop that has ended** has started every task of the list once, in order, and has
counted the result of each once. -/
theorem Accounts.ended (h : Accounts limit count init work tr s) (hended : s.point = .ended) :
    started tr = work ∧ ((completed tr).map (·.1)).Perm work ∧
      s.acc = ((completed tr).map (·.2)).foldl count init := by
  obtain ⟨hiter, hflight⟩ : s.iter = [] ∧ s.inFlight = [] := by
    have hpoint := h.point
    rwa [AtPoint, hended] at hpoint
  have hleft := h.left
  have hperm := h.inFlight
  rw [hiter, List.append_nil] at hleft
  rw [hflight, List.append_nil, hleft] at hperm
  exact ⟨hleft, hperm, h.counted⟩

/-- A step keeps the number of tasks in flight within the limit. -/
theorem bound_step (h : s.inFlight.length ≤ limit) (hs : Step limit count s e s') :
    s'.inFlight.length ≤ limit := by
  cases hs with
  | start hroom =>
      rw [List.length_append]
      exact hroom
  | filled | finish => exact h
  | @complete a r iter before after acc =>
      rw [List.length_append, List.length_cons] at h
      show (before ++ after).length ≤ limit
      rw [List.length_append]
      omega

/-- **The tasks in flight** are never more than the limit. -/
theorem run_bound (hrun : Run (Step limit count) (begin work init) tr s) :
    ∀ t ∈ tr, t.after.inFlight.length ≤ limit := by
  intro t ht
  obtain ⟨hbound, hs⟩ := @Run.mem _ _ _ _ _ _ (fun s : Loop α β => s.inFlight.length ≤ limit)
    (Nat.zero_le _) (fun _ _ _ => bound_step) hrun _ ht
  exact bound_step hbound hs

/-! ## Progress -/

/-- The steps that are left. -/
def stepsLeft (s : Loop α β) : Nat :=
  3 * s.iter.length + 2 * s.inFlight.length +
    match s.point with
    | .fill => 2
    | .await => 1
    | .ended => 0

theorem stepsLeft_step (hs : Step limit count s e s') : stepsLeft s' < stepsLeft s := by
  cases hs <;> simp only [stepsLeft, List.length_append, List.length_cons, List.length_nil] <;>
    omega

/-- The loop takes a step until it has ended. -/
theorem exists_step (s : Loop α β) (hρ : Nonempty ρ) :
    s.point = .ended ∨ ∃ e s', Step (ρ := ρ) limit count s e s' := by
  obtain ⟨point, iter, inFlight, acc⟩ := s
  cases point with
  | fill =>
      refine .inr ?_
      cases iter with
      | nil => exact ⟨_, _, .filled (.inr rfl)⟩
      | cons a iter =>
          rcases Nat.lt_or_ge inFlight.length limit with hroom | hfull
          · exact ⟨_, _, .start hroom⟩
          · exact ⟨_, _, .filled (.inl hfull)⟩
  | await =>
      refine .inr ?_
      obtain ⟨r⟩ := hρ
      cases inFlight with
      | nil => exact ⟨_, _, .finish⟩
      | cons a inFlight => exact ⟨.complete a r, _, @Step.complete _ _ _ _ _ a r iter [] inFlight acc⟩
  | ended => exact .inl rfl

end Lib.Refill
