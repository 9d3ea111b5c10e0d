/-
# `FreenetGit.Helper` — the remote helper's conversation with git

`git-remote-freenet` reads commands line by line.  Fetches and pushes come in batches that a
blank line ends, or the end of the input.  `run` does each command when it has read it; the
requests that a text stands for are a notion of their own (`Conversation`), and
`helper_follows` says that the helper does these requests, in their order, and no others: no
line is dropped or taken twice, and a batch that is not whole is not begun.
-/
import FreenetGit.Listing
import FreenetGit.Fetch

namespace FreenetGit

open Lib

/-! ## The helper -/

/-- The standard input: its text, and the error that reading on ends with, if any. -/
structure Stdin where
  text : List Char
  fault : Option String

/-- What `read_line` returns, one line after another.  A line that an error cuts short is not
returned. -/
def Stdin.lines (stdin : Stdin) : List (List Char) :=
  let (ls, last) := readLines stdin.text
  if stdin.fault = none ∧ last ≠ [] then ls ++ [last] else ls

def Stdin.ending (stdin : Stdin) : Outcome String Unit :=
  match stdin.fault with
  | none => .ok ()
  | some e => .error (.err e)

/-- `split_fetch`. -/
def splitFetch (args : List Char) : Outcome String (String × String) :=
  match splitOnce ' ' args with
  | none => .error (.err "fetch missing name")
  | some (sha, name) => .ok (String.ofList sha, String.ofList name)

/-- The handlers, with all that they work on: each returns what it writes, or its error. -/
structure HelperHost (σ : Type) where
  list : σ → Outcome String (List Char) × σ
  fetch : List (String × String) → σ → Outcome String (List Char) × σ
  push : List String → σ → Outcome String (List Char) × σ

/-- How a conversation ends. -/
structure HelperRun (σ : Type) where
  output : List Char
  result : Outcome String Unit
  world : σ

/-- The batch that is being read, if any. -/
inductive Reading where
  | command
  | fetching (wants : List (String × String))
  | pushing (pushes : List String)

def capabilitiesText : List Char := "fetch\npush\n\n".toList

section

variable {σ : Type}

/-- An answer is written, and the conversation goes on; an error ends it. -/
def HelperRun.after (answer : Outcome String (List Char) × σ) (rest : σ → HelperRun σ) :
    HelperRun σ :=
  match answer with
  | (.error e, w) => ⟨[], .error e, w⟩
  | (.ok out, w) => { rest w with output := out ++ (rest w).output }

/-- A line where a command is expected: what it adds to, or that it is unknown. -/
inductive CommandLine where
  | blank
  | capabilities
  | list (forPush : Bool)
  | fetch (want : String × String)
  | push (spec : String)

/-- The tests of the outer loop, in their order. -/
def commandLine (line : List Char) : Outcome String CommandLine :=
  if line = [] then .ok .blank
  else if line = "capabilities".toList then .ok .capabilities
  else if line = "list".toList then .ok (.list false)
  else if line = "list for-push".toList then .ok (.list true)
  else
    match line.dropPrefix? "fetch ".toList with
    | some args => (splitFetch args).map .fetch
    | none =>
        match line.dropPrefix? "push ".toList with
        | some args => .ok (.push (String.ofList args))
        | none =>
            .error (.err ("unknown remote helper command: " ++ debug line))

/-- A line of a batch that has begun, which is not blank. -/
def batchFetch (line : List Char) : Outcome String (String × String) :=
  match line.dropPrefix? "fetch ".toList with
  | some args => splitFetch args
  | none => .error (.err ("expected fetch line, got " ++ debug line))

def batchPush (line : List Char) : Outcome String String :=
  match line.dropPrefix? "push ".toList with
  | some args => .ok (String.ofList args)
  | none => .error (.err ("expected push line, got " ++ debug line))

/-- The loops of `run`, on the lines that are still to come. -/
def serve (host : HelperHost σ) (ending : Outcome String Unit) :
    Reading → List (List Char) → σ → HelperRun σ
  | .command, [], w => ⟨[], ending, w⟩
  | .command, line :: rest, w =>
      match commandLine line with
      | .error e => ⟨[], .error e, w⟩
      | .ok .blank => serve host ending .command rest w
      | .ok .capabilities => .after (.ok capabilitiesText, w) (serve host ending .command rest)
      | .ok (.list _) => .after (host.list w) (serve host ending .command rest)
      | .ok (.fetch want) => serve host ending (.fetching [want]) rest w
      | .ok (.push spec) => serve host ending (.pushing [spec]) rest w
  | .fetching wants, [], w =>
      match ending with
      | .error e => ⟨[], .error e, w⟩
      | .ok () => .after (host.fetch wants w) fun w => ⟨[], .ok (), w⟩
  | .fetching wants, line :: rest, w =>
      if line = [] then .after (host.fetch wants w) (serve host ending .command rest)
      else
        match batchFetch line with
        | .error e => ⟨[], .error e, w⟩
        | .ok want => serve host ending (.fetching (wants ++ [want])) rest w
  | .pushing pushes, [], w =>
      match ending with
      | .error e => ⟨[], .error e, w⟩
      | .ok () => .after (host.push pushes w) fun w => ⟨[], .ok (), w⟩
  | .pushing pushes, line :: rest, w =>
      if line = [] then .after (host.push pushes w) (serve host ending .command rest)
      else
        match batchPush line with
        | .error e => ⟨[], .error e, w⟩
        | .ok spec => serve host ending (.pushing (pushes ++ [spec])) rest w

/-- `run`, once it has its environment. -/
def helperRun (host : HelperHost σ) (stdin : Stdin) (w : σ) : HelperRun σ :=
  serve host stdin.ending .command stdin.lines w

/-! ## Requests -/

/-- A command of git. -/
inductive Request where
  | capabilities
  | list (forPush : Bool)
  | fetch (wants : List (String × String))
  | push (pushes : List String)
deriving DecidableEq

/-- The answer to a request. -/
def Request.answer (host : HelperHost σ) : Request → σ → Outcome String (List Char) × σ
  | .capabilities, w => (.ok capabilitiesText, w)
  | .list _, w => host.list w
  | .fetch wants, w => host.fetch wants w
  | .push pushes, w => host.push pushes w

/-- The requests are answered in their order, up to the first that fails. -/
def follow (host : HelperHost σ) (ending : Outcome String Unit) : List Request → σ → HelperRun σ
  | [], w => ⟨[], ending, w⟩
  | r :: rs, w => .after (r.answer host w) (follow host ending rs)

/-- The requests that the lines stand for, and how reading them ends. -/
def requests (ending : Outcome String Unit) :
    Reading → List (List Char) → List Request × Outcome String Unit
  | .command, [] => ([], ending)
  | .command, line :: rest =>
      match commandLine line with
      | .error e => ([], .error e)
      | .ok .blank => requests ending .command rest
      | .ok .capabilities =>
          let (rs, e) := requests ending .command rest
          (.capabilities :: rs, e)
      | .ok (.list forPush) =>
          let (rs, e) := requests ending .command rest
          (.list forPush :: rs, e)
      | .ok (.fetch want) => requests ending (.fetching [want]) rest
      | .ok (.push spec) => requests ending (.pushing [spec]) rest
  | .fetching wants, [] =>
      match ending with
      | .error e => ([], .error e)
      | .ok () => ([.fetch wants], .ok ())
  | .fetching wants, line :: rest =>
      if line = [] then
        let (rs, e) := requests ending .command rest
        (.fetch wants :: rs, e)
      else
        match batchFetch line with
        | .error e => ([], .error e)
        | .ok want => requests ending (.fetching (wants ++ [want])) rest
  | .pushing pushes, [] =>
      match ending with
      | .error e => ([], .error e)
      | .ok () => ([.push pushes], .ok ())
  | .pushing pushes, line :: rest =>
      if line = [] then
        let (rs, e) := requests ending .command rest
        (.push pushes :: rs, e)
      else
        match batchPush line with
        | .error e => ([], .error e)
        | .ok spec => requests ending (.pushing (pushes ++ [spec])) rest

end

/-! ## What a text says -/

def fetchLine (want : String × String) : List Char :=
  "fetch ".toList ++ (want.1.toList ++ ' ' :: want.2.toList)

def pushLine (spec : String) : List Char := "push ".toList ++ spec.toList

/-- The lines of a request. -/
def Request.lines : Request → List (List Char)
  | .capabilities => ["capabilities".toList]
  | .list false => ["list".toList]
  | .list true => ["list for-push".toList]
  | .fetch wants => wants.map fetchLine
  | .push pushes => pushes.map pushLine

/-- A request whose lines a blank one ends. -/
inductive Request.Batch : Request → Prop
  | fetch {wants : List (String × String)} (hne : wants ≠ [])
      (hsha : ∀ want ∈ wants, ' ' ∉ want.1.toList) : Request.Batch (.fetch wants)
  | push {pushes : List String} (hne : pushes ≠ []) : Request.Batch (.push pushes)

/-- A batch, and a line that cannot be in it. -/
inductive Request.Refuses : Request → List Char → Fault String → Prop
  | fetch {wants : List (String × String)} {line : List Char} {e : Fault String}
      (h : batchFetch line = .error e) : Request.Refuses (.fetch wants) line e
  | push {pushes : List String} {line : List Char} {e : Fault String}
      (h : batchPush line = .error e) : Request.Refuses (.push pushes) line e

/-- A conversation: the lines, the requests they make, and how it ends.  A batch that is not
whole is no request. -/
inductive Conversation (ending : Outcome String Unit) :
    List (List Char) → List Request → Outcome String Unit → Prop
  | done : Conversation ending [] [] ending
  | blank {ls rs e} (rest : Conversation ending ls rs e) : Conversation ending ([] :: ls) rs e
  | capabilities {ls rs e} (rest : Conversation ending ls rs e) :
      Conversation ending (Request.capabilities.lines ++ ls) (.capabilities :: rs) e
  | list {ls rs e} (forPush : Bool) (rest : Conversation ending ls rs e) :
      Conversation ending ((Request.list forPush).lines ++ ls) (.list forPush :: rs) e
  | batch {r ls rs e} (hr : Request.Batch r) (rest : Conversation ending ls rs e) :
      Conversation ending (r.lines ++ [] :: ls) (r :: rs) e
  | last {r} (hr : Request.Batch r) (h : ending = .ok ()) :
      Conversation ending r.lines [r] (.ok ())
  | cut {r e} (hr : Request.Batch r) (h : ending = .error e) :
      Conversation ending r.lines [] (.error e)
  | unknown {line ls e} (h : commandLine line = .error e) :
      Conversation ending (line :: ls) [] (.error e)
  | refused {r line ls e} (hr : Request.Batch r) (hline : line ≠ [])
      (h : Request.Refuses r line e) : Conversation ending (r.lines ++ line :: ls) [] (.error e)

/-! ## One line -/

theorem batchFetch_fetchLine {want : String × String} (h : ' ' ∉ want.1.toList) :
    batchFetch (fetchLine want) = .ok want := by
  rw [batchFetch, fetchLine, dropPrefix?_eq.mpr rfl]
  change splitFetch _ = _
  rw [splitFetch, splitOnce_append h]
  simp only [String.ofList_toList]

theorem batchPush_pushLine (spec : String) : batchPush (pushLine spec) = .ok spec := by
  rw [batchPush, pushLine, dropPrefix?_eq.mpr rfl]
  simp only [String.ofList_toList]

theorem splitFetch_eq_ok {args : List Char} {want : String × String}
    (h : splitFetch args = .ok want) :
    ' ' ∉ want.1.toList ∧ args = want.1.toList ++ ' ' :: want.2.toList := by
  rw [splitFetch] at h
  cases hs : splitOnce ' ' args with
  | none =>
      rw [hs] at h
      cases h
  | some p =>
      rw [hs] at h
      cases h
      obtain ⟨hargs, hsha⟩ := splitOnce_eq_some.mp hs
      simp only [String.toList_ofList]
      exact ⟨hsha, hargs⟩

theorem batchFetch_eq_ok {line : List Char} {want : String × String}
    (h : batchFetch line = .ok want) : ' ' ∉ want.1.toList ∧ line = fetchLine want := by
  rw [batchFetch] at h
  cases hd : line.dropPrefix? "fetch ".toList with
  | none =>
      rw [hd] at h
      cases h
  | some args =>
      rw [hd] at h
      obtain ⟨hsha, hargs⟩ := splitFetch_eq_ok h
      exact ⟨hsha, by rw [dropPrefix?_eq.mp hd, hargs, fetchLine]⟩

theorem batchPush_eq_ok {line : List Char} {spec : String} (h : batchPush line = .ok spec) :
    line = pushLine spec := by
  rw [batchPush] at h
  cases hd : line.dropPrefix? "push ".toList with
  | none =>
      rw [hd] at h
      cases h
  | some args =>
      rw [hd] at h
      cases h
      rw [dropPrefix?_eq.mp hd, pushLine]
      exact congrArg _ String.toList_ofList.symm

/-- What each kind of line is. -/
def CommandLine.Is (line : List Char) : CommandLine → Prop
  | .blank => line = []
  | .capabilities => Request.capabilities.lines = [line]
  | .list forPush => (Request.list forPush).lines = [line]
  | .fetch want => ' ' ∉ want.1.toList ∧ line = fetchLine want
  | .push spec => line = pushLine spec

theorem commandLine_eq_ok {line : List Char} {c : CommandLine} (h : commandLine line = .ok c) :
    c.Is line := by
  unfold commandLine at h
  split at h
  · next hl =>
      cases h
      exact hl
  · split at h
    · next hl =>
        cases h
        exact congrArg (fun l => [l]) hl.symm
    · split at h
      · next hl =>
          cases h
          exact congrArg (fun l => [l]) hl.symm
      · split at h
        · next hl =>
            cases h
            exact congrArg (fun l => [l]) hl.symm
        · split at h
          · next args hd =>
              cases hs : splitFetch args with
              | error e =>
                  rw [hs] at h
                  cases h
              | ok want =>
                  rw [hs] at h
                  cases h
                  obtain ⟨hsha, hargs⟩ := splitFetch_eq_ok hs
                  refine ⟨hsha, ?_⟩
                  rw [dropPrefix?_eq.mp hd, hargs, fetchLine]
          · split at h
            · next args hd =>
                cases h
                change line = pushLine _
                rw [dropPrefix?_eq.mp hd]
                exact congrArg _ String.toList_ofList.symm
            · cases h

theorem commandLine_fetchLine {want : String × String} (h : ' ' ∉ want.1.toList) :
    commandLine (fetchLine want) = .ok (.fetch want) := by
  have hd : (fetchLine want).dropPrefix? "fetch ".toList =
      some (want.1.toList ++ ' ' :: want.2.toList) := dropPrefix?_eq.mpr rfl
  have hs : splitFetch (want.1.toList ++ ' ' :: want.2.toList) = .ok want := by
    rw [splitFetch, splitOnce_append h]
    simp only [String.ofList_toList]
  rw [commandLine, if_neg (by simp [fetchLine]), if_neg (by simp [fetchLine]),
    if_neg (by simp [fetchLine]), if_neg (by simp [fetchLine]), hd]
  change (splitFetch _).map _ = _
  rw [hs]
  rfl

theorem commandLine_pushLine (spec : String) : commandLine (pushLine spec) = .ok (.push spec) := by
  have hd : (pushLine spec).dropPrefix? "push ".toList = some spec.toList := dropPrefix?_eq.mpr rfl
  have hfetch : (pushLine spec).dropPrefix? "fetch ".toList = none :=
    dropPrefix?_eq_none (by simp [pushLine])
  rw [commandLine, if_neg (by simp [pushLine]), if_neg (by simp [pushLine]),
    if_neg (by simp [pushLine]), if_neg (by simp [pushLine]), hfetch, hd]
  simp only [String.ofList_toList]

/-! ## The requests of a conversation -/

/-- The batch that has been read. -/
def Reading.request : Reading → Option Request
  | .command => none
  | .fetching wants => some (.fetch wants)
  | .pushing pushes => some (.push pushes)

theorem requests_fetching (ending : Outcome String Unit) {more : List (String × String)}
    (hsha : ∀ want ∈ more, ' ' ∉ want.1.toList) (wants : List (String × String))
    (ls : List (List Char)) :
    requests ending (.fetching wants) (more.map fetchLine ++ ls) =
      requests ending (.fetching (wants ++ more)) ls := by
  induction more generalizing wants with
  | nil => rw [List.map_nil, List.nil_append, List.append_nil]
  | cons want more ih =>
      rw [List.map_cons, List.cons_append, requests, if_neg (by simp [fetchLine]),
        batchFetch_fetchLine (hsha want List.mem_cons_self)]
      refine (ih (fun w hw => hsha w (List.mem_cons_of_mem _ hw)) _).trans ?_
      rw [List.append_assoc, List.singleton_append]

theorem requests_pushing (ending : Outcome String Unit) (more pushes : List String)
    (ls : List (List Char)) :
    requests ending (.pushing pushes) (more.map pushLine ++ ls) =
      requests ending (.pushing (pushes ++ more)) ls := by
  induction more generalizing pushes with
  | nil => rw [List.map_nil, List.nil_append, List.append_nil]
  | cons spec more ih =>
      rw [List.map_cons, List.cons_append, requests, if_neg (by simp [pushLine]),
        batchPush_pushLine]
      refine (ih _).trans ?_
      rw [List.append_assoc, List.singleton_append]

/-- **The lines of a batch** are read into it. -/
theorem requests_batch (ending : Outcome String Unit) {r : Request} (hr : r.Batch)
    (ls : List (List Char)) : ∃ rd : Reading, rd.request = some r ∧
      requests ending .command (r.lines ++ ls) = requests ending rd ls := by
  cases hr with
  | @fetch wants hne hsha =>
      refine ⟨.fetching wants, rfl, ?_⟩
      cases wants with
      | nil => exact absurd rfl hne
      | cons want wants =>
          rw [Request.lines, List.map_cons, List.cons_append, requests,
            commandLine_fetchLine (hsha want List.mem_cons_self)]
          exact requests_fetching ending (fun w hw => hsha w (List.mem_cons_of_mem _ hw)) [want] ls
  | @push pushes hne =>
      refine ⟨.pushing pushes, rfl, ?_⟩
      cases pushes with
      | nil => exact absurd rfl hne
      | cons spec pushes =>
          rw [Request.lines, List.map_cons, List.cons_append, requests, commandLine_pushLine]
          exact requests_pushing ending pushes [spec] ls

theorem Reading.request_eq {rd : Reading} {r : Request} (h : rd.request = some r) :
    (∃ wants, rd = .fetching wants ∧ r = .fetch wants) ∨
      ∃ pushes, rd = .pushing pushes ∧ r = .push pushes := by
  cases rd with
  | command => cases h
  | fetching wants => exact .inl ⟨wants, rfl, (Option.some.inj h).symm⟩
  | pushing pushes => exact .inr ⟨pushes, rfl, (Option.some.inj h).symm⟩

/-- A conversation has the requests that are read from it. -/
theorem Conversation.requests_eq {ending : Outcome String Unit} {ls : List (List Char)}
    {rs : List Request} {e : Outcome String Unit} (h : Conversation ending ls rs e) :
    requests ending .command ls = (rs, e) := by
  induction h with
  | done => rfl
  | blank _ ih => exact ih
  | @capabilities ls rs e _ ih =>
      change (Request.capabilities :: (requests ending .command ls).1,
        (requests ending .command ls).2) = _
      rw [ih]
  | @list ls rs e forPush _ ih =>
      have heq : requests ending .command ((Request.list forPush).lines ++ ls) =
          (.list forPush :: (requests ending .command ls).1, (requests ending .command ls).2) := by
        cases forPush <;> rfl
      rw [heq, ih]
  | batch hr _ ih =>
      obtain ⟨rd, hrd, heq⟩ := requests_batch ending hr ([] :: _)
      rw [heq]
      rcases rd.request_eq hrd with ⟨wants, rfl, rfl⟩ | ⟨pushes, rfl, rfl⟩
      · rw [requests, if_pos rfl, ih]
      · rw [requests, if_pos rfl, ih]
  | @last r hr hok =>
      obtain ⟨rd, hrd, heq⟩ := requests_batch ending hr []
      rw [List.append_nil] at heq
      rw [heq, hok]
      rcases rd.request_eq hrd with ⟨wants, rfl, rfl⟩ | ⟨pushes, rfl, rfl⟩
      · rfl
      · rfl
  | cut hr herr =>
      obtain ⟨rd, hrd, heq⟩ := requests_batch ending hr []
      rw [List.append_nil] at heq
      rw [heq, herr]
      rcases rd.request_eq hrd with ⟨wants, rfl, rfl⟩ | ⟨pushes, rfl, rfl⟩
      · rfl
      · rfl
  | unknown herr => rw [requests, herr]
  | refused hr hline herr =>
      obtain ⟨rd, hrd, heq⟩ := requests_batch ending hr (_ :: _)
      rw [heq]
      cases herr with
      | fetch herr =>
          rcases rd.request_eq hrd with ⟨wants, rfl, hr⟩ | ⟨pushes, rfl, hr⟩
          · rw [requests, if_neg hline, herr]
          · cases hr
      | push herr =>
          rcases rd.request_eq hrd with ⟨wants, rfl, hr⟩ | ⟨pushes, rfl, hr⟩
          · cases hr
          · rw [requests, if_neg hline, herr]

/-- The lines of the batch that has been read. -/
def Reading.lines (rd : Reading) : List (List Char) := rd.request.elim [] Request.lines

/-- What is read from these lines is a conversation, whatever batch has been begun before. -/
def Converses (ending : Outcome String Unit) (ls : List (List Char)) : Prop :=
  ∀ rd : Reading, (∀ r, rd.request = some r → r.Batch) →
    Conversation ending (rd.lines ++ ls) (requests ending rd ls).1 (requests ending rd ls).2

theorem converses_nil (ending : Outcome String Unit) : Converses ending [] := by
  intro rd hrd
  rw [List.append_nil]
  cases rd with
  | command => exact .done
  | fetching wants =>
      cases ending with
      | ok u => exact .last (hrd _ rfl) rfl
      | error e => exact .cut (hrd _ rfl) rfl
  | pushing pushes =>
      cases ending with
      | ok u => exact .last (hrd _ rfl) rfl
      | error e => exact .cut (hrd _ rfl) rfl

section

variable {ending : Outcome String Unit} {ls : List (List Char)}

theorem Converses.rest (h : Converses ending ls) :
    Conversation ending ls (requests ending .command ls).1 (requests ending .command ls).2 :=
  h .command fun r hr => by cases hr

/-- A line where a command is expected. -/
theorem Converses.command (h : Converses ending ls) (line : List Char) :
    Conversation ending (line :: ls) (requests ending .command (line :: ls)).1
      (requests ending .command (line :: ls)).2 := by
  rw [requests]
  cases hc : commandLine line with
  | error e => exact .unknown hc
  | ok c =>
      have hline := commandLine_eq_ok hc
      cases c with
      | blank =>
          rw [show line = [] from hline]
          exact .blank h.rest
      | capabilities =>
          rw [← show Request.capabilities.lines ++ ls = line :: ls from
            congrArg (· ++ ls) hline]
          exact .capabilities h.rest
      | list forPush =>
          rw [← show (Request.list forPush).lines ++ ls = line :: ls from
            congrArg (· ++ ls) hline]
          exact .list forPush h.rest
      | fetch want =>
          rw [hline.2]
          refine h (.fetching [want]) fun r hr => ?_
          cases hr
          exact .fetch (List.cons_ne_nil _ _) fun w hw => List.mem_singleton.mp hw ▸ hline.1
      | push spec =>
          rw [show line = pushLine spec from hline]
          refine h (.pushing [spec]) fun r hr => ?_
          cases hr
          exact .push (List.cons_ne_nil _ _)

/-- A line of a fetch batch, or its end. -/
theorem Converses.fetching (h : Converses ending ls) (line : List Char)
    {wants : List (String × String)} (hbatch : Request.Batch (.fetch wants)) :
    Conversation ending ((Request.fetch wants).lines ++ line :: ls)
      (requests ending (.fetching wants) (line :: ls)).1
      (requests ending (.fetching wants) (line :: ls)).2 := by
  rw [requests]
  by_cases hline : line = []
  · rw [if_pos hline, hline]
    exact .batch hbatch h.rest
  · rw [if_neg hline]
    cases hb : batchFetch line with
    | error e => exact .refused hbatch hline (.fetch hb)
    | ok want =>
        obtain ⟨hsha, rfl⟩ := batchFetch_eq_ok hb
        have hmore := h (.fetching (wants ++ [want])) fun r hr => by
          cases hr
          cases hbatch with
          | fetch hne hall =>
              exact .fetch (by simp) fun w hw => (List.mem_append.mp hw).elim (hall w)
                fun hw => List.mem_singleton.mp hw ▸ hsha
        have hlines : (Reading.fetching (wants ++ [want])).lines ++ ls =
            (Request.fetch wants).lines ++ fetchLine want :: ls := by
          change (wants ++ [want]).map fetchLine ++ ls = wants.map fetchLine ++ _
          rw [List.map_append, List.append_assoc]
          rfl
        rwa [hlines] at hmore

/-- A line of a push batch, or its end. -/
theorem Converses.pushing (h : Converses ending ls) (line : List Char) {pushes : List String}
    (hbatch : Request.Batch (.push pushes)) :
    Conversation ending ((Request.push pushes).lines ++ line :: ls)
      (requests ending (.pushing pushes) (line :: ls)).1
      (requests ending (.pushing pushes) (line :: ls)).2 := by
  rw [requests]
  by_cases hline : line = []
  · rw [if_pos hline, hline]
    exact .batch hbatch h.rest
  · rw [if_neg hline]
    cases hb : batchPush line with
    | error e => exact .refused hbatch hline (.push hb)
    | ok spec =>
        obtain rfl := batchPush_eq_ok hb
        have hmore := h (.pushing (pushes ++ [spec])) fun r hr => by
          cases hr
          exact .push (by simp)
        have hlines : (Reading.pushing (pushes ++ [spec])).lines ++ ls =
            (Request.push pushes).lines ++ pushLine spec :: ls := by
          change (pushes ++ [spec]).map pushLine ++ ls = pushes.map pushLine ++ _
          rw [List.map_append, List.append_assoc]
          rfl
        rwa [hlines] at hmore

end

/-- **What is read is a conversation**, on any lines. -/
theorem conversation_requests (ending : Outcome String Unit) (ls : List (List Char)) :
    Converses ending ls := by
  induction ls with
  | nil => exact converses_nil ending
  | cons line ls ih =>
      intro rd hrd
      cases rd with
      | command => exact ih.command line
      | fetching wants => exact ih.fetching line (hrd _ rfl)
      | pushing pushes => exact ih.pushing line (hrd _ rfl)

/-- **One conversation**: the lines make exactly these requests. -/
theorem conversation_iff {ending e : Outcome String Unit} {ls : List (List Char)}
    {rs : List Request} :
    Conversation ending ls rs e ↔ requests ending .command ls = (rs, e) := by
  refine ⟨fun h => h.requests_eq, fun h => ?_⟩
  have hc := (conversation_requests ending ls).rest
  rw [h] at hc
  exact hc

section

variable {σ : Type} (host : HelperHost σ)

/-- **The loops** do the requests that they read. -/
theorem serve_eq_follow (ending : Outcome String Unit) (ls : List (List Char)) :
    ∀ (rd : Reading) (w : σ), serve host ending rd ls w =
      follow host (requests ending rd ls).2 (requests ending rd ls).1 w := by
  induction ls with
  | nil =>
      intro rd w
      cases rd with
      | command => rfl
      | fetching wants => cases ending <;> rfl
      | pushing pushes => cases ending <;> rfl
  | cons line ls ih =>
      intro rd w
      have hrest : ∀ answer, HelperRun.after answer (serve host ending .command ls) =
          .after answer (follow host (requests ending .command ls).2
            (requests ending .command ls).1) := fun answer =>
        congrArg (HelperRun.after answer) (funext (ih .command))
      cases rd with
      | command =>
          rw [serve, requests]
          cases commandLine line with
          | error e => rfl
          | ok c =>
              cases c with
              | blank => exact ih .command w
              | capabilities => exact hrest _
              | list forPush => exact hrest _
              | fetch want => exact ih (.fetching [want]) w
              | push spec => exact ih (.pushing [spec]) w
      | fetching wants =>
          rw [serve, requests]
          by_cases hline : line = []
          · rw [if_pos hline, if_pos hline]
            exact hrest _
          · rw [if_neg hline, if_neg hline]
            cases batchFetch line with
            | error e => rfl
            | ok want => exact ih (.fetching (wants ++ [want])) w
      | pushing pushes =>
          rw [serve, requests]
          by_cases hline : line = []
          · rw [if_pos hline, if_pos hline]
            exact hrest _
          · rw [if_neg hline, if_neg hline]
            cases batchPush line with
            | error e => rfl
            | ok spec => exact ih (.pushing (pushes ++ [spec])) w

end

/-- **The helper follows the conversation**: any text makes one conversation, in one way, and the
helper does its requests, in their order, up to the first that fails, and ends as it does. -/
theorem helper_follows (stdin : Stdin) : ∃ rs e,
    (∀ rs' e', Conversation stdin.ending stdin.lines rs' e' ↔ rs' = rs ∧ e' = e) ∧
      ∀ (σ : Type) (host : HelperHost σ) (w : σ), helperRun host stdin w = follow host e rs w := by
  refine ⟨(requests stdin.ending .command stdin.lines).1,
    (requests stdin.ending .command stdin.lines).2, fun rs' e' => ?_, fun σ host w => ?_⟩
  · rw [conversation_iff, Prod.ext_iff]
    exact ⟨fun h => ⟨h.1.symm, h.2.symm⟩, fun h => ⟨h.1.symm, h.2.symm⟩⟩
  · exact serve_eq_follow host stdin.ending stdin.lines .command w

/-! ## A fetch of listed refs -/

namespace Sample

end Sample

end FreenetGit
