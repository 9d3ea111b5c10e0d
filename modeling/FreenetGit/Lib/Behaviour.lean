/-
# `Lib.Behaviour` — programs as the logs they may leave

A program that calls its surroundings is taken as the set of the logs it may leave: the
events so far, and the result once it has returned.  The surroundings answer as they like,
so a call has a log for every answer.  Tasks that run side by side leave an interleaving of
their logs.  `Meets` says that every log meets a specification, at every point and at the
end; `PrefixClosed` says that the program was running at every earlier point of a log.  There
is one rule for each way to build a program.
-/
import Mathlib.Data.List.Forall2

namespace Lib

/-- The logs a program may leave, each with what it has returned, if it has. -/
def Behaviour (ε α : Type) : Type := List ε → Option α → Prop

namespace Behaviour

variable {ε η α β : Type}

inductive Returns (a : α) : List ε → Option α → Prop
  | running : Returns a [] none
  | done : Returns a [] (some a)

inductive Then (b : Behaviour ε α) (f : α → Behaviour ε β) : List ε → Option β → Prop
  | first {log} (hb : b log none) : Then b f log none
  | second {log log' a r} (hb : b log (some a)) (hf : f a log' r) : Then b f (log ++ log') r

instance monad : Monad (Behaviour ε) where
  pure := Returns
  bind := Then

/-- One event, which brings the answer. -/
inductive Observe (seen : α → ε) : List ε → Option α → Prop
  | idle : Observe seen [] none
  | seen (a : α) {r : Option α} (hr : r = none ∨ r = some a) : Observe seen [seen a] r

/-- An event when the call is made, and one when it is answered. -/
inductive Call (made : ε) (answered : α → ε) : List ε → Option α → Prop
  | idle : Call made answered [] none
  | waiting : Call made answered [made] none
  | answered (a : α) {r : Option α} (hr : r = none ∨ r = some a) :
      Call made answered [made, answered a] r

/-- An event that needs no answer. -/
def emit (e : ε) : Behaviour ε Unit := Observe fun _ => e

def observe (seen : α → ε) : Behaviour ε α := Observe seen

def call (made : ε) (answered : α → ε) : Behaviour ε α := Call made answered

/-! ## Side by side -/

/-- The events of all the logs, each log in its order. -/
inductive Interleaves : List (List ε) → List ε → Prop
  | done {logs : List (List ε)} (h : ∀ l ∈ logs, l = []) : Interleaves logs []
  | step {logs : List (List ε)} {i : Nat} {e : ε} {l log : List ε} (hi : logs[i]? = some (e :: l))
      (h : Interleaves (logs.set i l) log) : Interleaves logs (e :: log)

/-- What one task has done: its own log, and its result. -/
abbrev Part (ε η α : Type) : Type := List ε × Option (Except η α)

structure SideBySide (tasks : List (Behaviour ε (Except η α))) (parts : List (Part ε η α))
    (log : List ε) : Prop where
  ran : List.Forall₂ (fun task part => task part.1 part.2) tasks parts
  merged : Interleaves (parts.map (·.1)) log

/-- Tasks that run side by side until one of them fails; the others are then left where they
are.  The results are in the order of the tasks. -/
inductive TryEach (tasks : List (Behaviour ε (Except η α))) :
    List ε → Option (Except η (List α)) → Prop
  | running {parts log} (hparts : SideBySide tasks parts log) : TryEach tasks log none
  | failed {parts log e} (hparts : SideBySide tasks parts log)
      (he : some (.error e) ∈ parts.map (·.2)) : TryEach tasks log (some (.error e))
  | done {parts log results} (hparts : SideBySide tasks parts log)
      (hall : parts.map (·.2) = results.map fun a => some (.ok a)) :
      TryEach tasks log (some (.ok results))

def tryEach (tasks : List (Behaviour ε (Except η α))) : Behaviour ε (Except η (List α)) :=
  TryEach tasks

/-! ## Specifications -/

/-- Every log meets the specification. -/
def Meets (b : Behaviour ε α) (Q : List ε → Option α → Prop) : Prop := ∀ log r, b log r → Q log r

variable {b : Behaviour ε α} {f : α → Behaviour ε β} {P Q : List ε → Option α → Prop}
  {R : List ε → Option β → Prop}

theorem Meets.mono (h : Meets b P) (himp : ∀ log r, P log r → Q log r) : Meets b Q :=
  fun log r hb => himp log r (h log r hb)

theorem meets_pure {a : α} (hrunning : Q [] none) (hdone : Q [] (some a)) :
    Meets (pure a : Behaviour ε α) Q := by
  intro log r h
  cases h with
  | running => exact hrunning
  | done => exact hdone

/-- **One program after another.** -/
theorem Meets.bind (hb : Meets b P) (hfirst : ∀ log, P log none → R log none)
    (hsecond : ∀ log a, P log (some a) → Meets (f a) fun log' r => R (log ++ log') r) :
    Meets (b >>= f) R := by
  intro log r h
  cases h with
  | first h => exact hfirst log (hb log none h)
  | second h hf => exact hsecond _ _ (hb _ _ h) _ _ hf

theorem meets_observe {seen : α → ε} (hidle : Q [] none)
    (hseen : ∀ a r, (r = none ∨ r = some a) → Q [seen a] r) : Meets (observe seen) Q := by
  intro log r h
  cases h with
  | idle => exact hidle
  | seen a hr => exact hseen a r hr

theorem meets_call {made : ε} {answered : α → ε} (hidle : Q [] none) (hwaiting : Q [made] none)
    (hanswered : ∀ a r, (r = none ∨ r = some a) → Q [made, answered a] r) :
    Meets (call made answered) Q := by
  intro log r h
  cases h with
  | idle => exact hidle
  | waiting => exact hwaiting
  | answered a hr => exact hanswered a r hr

/-! ## Logs of a program -/

theorem Then.of_pure {a : α} {log : List ε} {r : Option β} (h : f a log r) :
    Then (pure a : Behaviour ε α) f log r :=
  show Then _ f ([] ++ log) r from .second .done h

theorem Then.of_observe {seen : α → ε} {a : α} {log : List ε} {r : Option β} (h : f a log r) :
    Then (observe seen) f (seen a :: log) r :=
  show Then _ f ([seen a] ++ log) r from .second (.seen a (.inr rfl)) h

theorem Then.of_call {made : ε} {answered : α → ε} {a : α} {log : List ε} {r : Option β}
    (h : f a log r) : Then (call made answered) f (made :: answered a :: log) r :=
  show Then _ f ([made, answered a] ++ log) r from .second (.answered a (.inr rfl)) h

theorem Then.of_returned {a : α} {log : List ε} {r : Option β} (h : b log (some a))
    (hf : f a [] r) : Then b f log r := by
  have hthen : Then b f (log ++ []) r := .second h hf
  rwa [List.append_nil] at hthen

/-! ## Interleavings -/

/-- The events of an interleaving are those of its logs. -/
theorem Interleaves.mem_iff {logs : List (List ε)} {log : List ε} (h : Interleaves logs log)
    {x : ε} : x ∈ log ↔ ∃ l ∈ logs, x ∈ l := by
  induction h with
  | done hempty =>
      refine iff_of_false List.not_mem_nil ?_
      rintro ⟨l, hl, hx⟩
      rw [hempty l hl] at hx
      exact List.not_mem_nil hx
  | @step logs i e l log hi _ ih =>
      have hlt : i < logs.length := (List.getElem?_eq_some_iff.mp hi).1
      rw [List.mem_cons, ih]
      constructor
      · rintro (rfl | ⟨l', hl', hx⟩)
        · exact ⟨_, List.mem_of_getElem? hi, List.mem_cons_self⟩
        · rcases List.mem_or_eq_of_mem_set hl' with hl' | rfl
          · exact ⟨l', hl', hx⟩
          · exact ⟨_, List.mem_of_getElem? hi, List.mem_cons_of_mem _ hx⟩
      · rintro ⟨l', hl', hx⟩
        obtain ⟨j, hj⟩ := List.mem_iff_getElem?.mp hl'
        by_cases hij : i = j
        · subst hij
          cases hi.symm.trans hj
          rcases List.mem_cons.mp hx with rfl | hx
          · exact .inl rfl
          · exact .inr ⟨l, List.mem_iff_getElem?.mpr ⟨i, List.getElem?_set_self hlt⟩, hx⟩
        · refine .inr ⟨l', List.mem_iff_getElem?.mpr ⟨j, ?_⟩, hx⟩
          rw [List.getElem?_set_ne hij]
          exact hj

/-- A log that is made up of what each task has done. -/
structure Parts (S : Nat → List ε → Option (Except η α) → Prop) (n : Nat) (log : List ε)
    (parts : List (Part ε η α)) : Prop where
  length : parts.length = n
  spec : ∀ i part, parts[i]? = some part → S i part.1 part.2
  mem_iff : ∀ e, e ∈ log ↔ ∃ part ∈ parts, e ∈ part.1

theorem SideBySide.parts {tasks : List (Behaviour ε (Except η α))}
    {S : Nat → List ε → Option (Except η α) → Prop} {parts : List (Part ε η α)} {log : List ε}
    (htasks : ∀ i task, tasks[i]? = some task → Meets task (S i))
    (h : SideBySide tasks parts log) : Parts S tasks.length log parts where
  length := h.ran.length_eq.symm
  spec i part hpart := by
    obtain ⟨hlt, heq⟩ := List.getElem?_eq_some_iff.mp hpart
    have hlt' : i < tasks.length := h.ran.length_eq ▸ hlt
    have hran := h.ran.get hlt' hlt
    rw [List.get_eq_getElem, List.get_eq_getElem, heq] at hran
    exact htasks i _ (List.getElem?_eq_getElem hlt') _ _ hran
  mem_iff e := by
    rw [h.merged.mem_iff]
    constructor
    · rintro ⟨l, hl, he⟩
      obtain ⟨part, hpart, rfl⟩ := List.mem_map.mp hl
      exact ⟨part, hpart, he⟩
    · rintro ⟨part, hpart, he⟩
      exact ⟨part.1, List.mem_map_of_mem hpart, he⟩

/-- **Tasks side by side**: the log is made up of what the tasks have done, and if the whole
has succeeded, every task has. -/
theorem meets_tryEach {tasks : List (Behaviour ε (Except η α))}
    {S : Nat → List ε → Option (Except η α) → Prop}
    (htasks : ∀ i task, tasks[i]? = some task → Meets task (S i)) :
    Meets (tryEach tasks) fun log r => ∃ parts, Parts S tasks.length log parts ∧
      ∀ results, r = some (.ok results) → results.length = tasks.length ∧
        ∀ part ∈ parts, ∃ a, part.2 = some (.ok a) := by
  intro log r h
  cases h with
  | running hparts => exact ⟨_, hparts.parts htasks, fun results hr => by cases hr⟩
  | failed hparts he => exact ⟨_, hparts.parts htasks, fun results hr => by cases hr⟩
  | done hparts hall =>
      refine ⟨_, hparts.parts htasks, fun results hr => ?_⟩
      cases hr
      constructor
      · have hlen := congrArg List.length hall
        rw [List.length_map, List.length_map] at hlen
        rw [← hlen, hparts.ran.length_eq]
      · intro part hpart
        have hmem := List.mem_map_of_mem (f := fun part => part.2) hpart
        rw [hall] at hmem
        obtain ⟨a, -, ha⟩ := List.mem_map.mp hmem
        exact ⟨a, ha.symm⟩

/-! ## Prefixes

What a program has done, it has done event by event: at every earlier point it was running. -/

/-- Every beginning of a log is a log of the running program. -/
def PrefixClosed (b : Behaviour ε α) : Prop := ∀ log log' r, b (log ++ log') r → b log none

theorem prefixClosed_pure (a : α) : PrefixClosed (pure a : Behaviour ε α) := by
  intro log log' r h
  generalize hl : log ++ log' = l at h
  have hlog : log = [] := by
    cases h with
    | running | done => exact (List.append_eq_nil_iff.mp hl).1
  exact hlog ▸ .running

theorem PrefixClosed.bind (hb : PrefixClosed b) (hf : ∀ a, PrefixClosed (f a)) :
    PrefixClosed (b >>= f) := by
  intro log log' r h
  generalize hl : log ++ log' = l at h
  cases h with
  | first h => exact .first (hb log log' none (hl ▸ h))
  | @second l₁ l₂ a r h hfa =>
      rcases List.append_eq_append_iff.mp hl with ⟨m, hm, -⟩ | ⟨m, rfl, hm⟩
      · exact .first (hb log m _ (hm ▸ h))
      · exact .second h (hf a m log' r (hm ▸ hfa))

theorem prefixClosed_observe (seen : α → ε) : PrefixClosed (observe seen) := by
  intro log log' r h
  generalize hl : log ++ log' = l at h
  cases h with
  | idle => exact (List.append_eq_nil_iff.mp hl).1 ▸ .idle
  | seen a _ =>
      rcases List.append_eq_singleton_iff.mp hl with ⟨rfl, -⟩ | ⟨rfl, -⟩
      · exact .idle
      · exact .seen a (.inl rfl)

theorem prefixClosed_call (made : ε) (answered : α → ε) : PrefixClosed (call made answered) := by
  intro log log' r h
  generalize hl : log ++ log' = l at h
  cases h with
  | idle => exact (List.append_eq_nil_iff.mp hl).1 ▸ .idle
  | waiting =>
      rcases List.append_eq_singleton_iff.mp hl with ⟨rfl, -⟩ | ⟨rfl, -⟩
      · exact .idle
      · exact .waiting
  | answered a _ =>
      rcases log with _ | ⟨e, log⟩
      · exact .idle
      obtain ⟨rfl, htail⟩ := List.cons_eq_cons.mp hl
      rcases List.append_eq_singleton_iff.mp htail with ⟨rfl, -⟩ | ⟨rfl, -⟩
      · exact .waiting
      · exact .answered a (.inl rfl)

/-- The beginning of an interleaving is an interleaving of beginnings. -/
theorem Interleaves.of_append {logs : List (List ε)} {log log' : List ε}
    (h : Interleaves logs (log ++ log')) :
    ∃ begun, List.Forall₂ (fun l' l => ∃ rest, l = l' ++ rest) begun logs ∧ Interleaves begun log := by
  induction log generalizing logs with
  | nil =>
      refine ⟨logs.map fun _ => [], ?_, .done fun l hl => ?_⟩
      · rw [List.forall₂_map_left_iff]
        exact List.forall₂_same.mpr fun l _ => ⟨l, rfl⟩
      · obtain ⟨_, -, rfl⟩ := List.mem_map.mp hl
        rfl
  | cons e log ih =>
      cases h with
      | @step _ i _ l _ hi h =>
          obtain ⟨begun, hbegun, hmerged⟩ := ih h
          have hlt : i < logs.length := (List.getElem?_eq_some_iff.mp hi).1
          have hlen : begun.length = logs.length := hbegun.length_eq.trans List.length_set
          have hlt' : i < begun.length := hlen ▸ hlt
          refine ⟨begun.set i (e :: begun[i]), ?_,
            .step (l := begun[i]) (List.getElem?_set_self hlt') ?_⟩
          · rw [List.forall₂_iff_get] at hbegun ⊢
            refine ⟨by rw [List.length_set, hlen], fun j hj hj' => ?_⟩
            have hget := hbegun.2 j (by simpa using hj) (by simpa using hj')
            simp only [List.get_eq_getElem, List.getElem_set] at hget ⊢
            by_cases hij : i = j
            · subst hij
              rw [if_pos rfl] at hget ⊢
              obtain ⟨rest, hrest⟩ := hget
              refine ⟨rest, ?_⟩
              rw [(List.getElem?_eq_some_iff.mp hi).2, hrest]
              rfl
            · rw [if_neg hij] at hget ⊢
              exact hget
          · rw [List.set_set, List.set_getElem_self]
            exact hmerged

/-- Tasks side by side, each of which was running before. -/
theorem SideBySide.of_append {tasks : List (Behaviour ε (Except η α))} {parts : List (Part ε η α)}
    {log log' : List ε} (htasks : ∀ task ∈ tasks, PrefixClosed task)
    (h : SideBySide tasks parts (log ++ log')) : ∃ parts', SideBySide tasks parts' log := by
  obtain ⟨begun, hbegun, hmerged⟩ := h.merged.of_append
  refine ⟨begun.map fun l => (l, none), ?_, ?_⟩
  · have hlen := h.ran.length_eq
    have hlen' := hbegun.length_eq
    rw [List.length_map] at hlen'
    rw [List.forall₂_iff_get]
    refine ⟨by rw [List.length_map, hlen', hlen], fun i hi hi' => ?_⟩
    have hparts : i < parts.length := hlen ▸ hi
    have hran := h.ran.get hi hparts
    obtain ⟨rest, hrest⟩ := hbegun.get (by simpa using hi') (by simpa using hparts)
    simp only [List.get_eq_getElem, List.getElem_map] at hran hrest ⊢
    rw [hrest] at hran
    exact htasks _ (List.getElem_mem hi) _ _ _ hran
  · rw [List.map_map]
    exact (List.map_id _).symm ▸ hmerged

theorem prefixClosed_tryEach {tasks : List (Behaviour ε (Except η α))}
    (htasks : ∀ task ∈ tasks, PrefixClosed task) : PrefixClosed (tryEach tasks) := by
  intro log log' r h
  have hparts : ∃ parts, SideBySide tasks parts (log ++ log') := by
    cases h with
    | running hparts | failed hparts _ | done hparts _ => exact ⟨_, hparts⟩
  obtain ⟨parts, hparts⟩ := hparts
  obtain ⟨parts', hparts'⟩ := hparts.of_append htasks
  exact .running hparts'

end Behaviour

end Lib
