/-
# `FreenetGit.Gossip` — the replicas of a repository

Any number of hosts hold the state of a repository and call the contract: they take
states and updates from outside, ask each other with summaries, answer with deltas,
and send full states.  Messages are late, repeated, lost and out of order, and a
delta may answer a summary that is long out of date.  No host ever refuses what
another one sends (`gossip_safe`).  If the writers never used one sequence number for
two entries, then what a host holds depends only on what it has heard of
(`gossip_joins`), whichever way it came, and hosts that hear each other out agree
(`gossip_agrees`).
-/
import FreenetGit.Exchange
import FreenetGit.Lib.Gossip
import FreenetGit.Lib.Run

namespace FreenetGit

open Lib

/-! ## Joins -/

section

variable {C K T : Set RepoState} {q d s t : RepoState}

/-- No two of the states have different entries under one number. -/
def Agreed (C : Set RepoState) : Prop := ∀ a ∈ C, ∀ b ∈ C, NoConflict a b

theorem Agreed.subset (h : Agreed C) (hK : K ⊆ C) : Agreed K :=
  fun a ha b hb => h a (hK ha) b (hK hb)

/-- `s` has the winner of every slot of the states in `K`, and all their bundles. -/
structure JoinOf (K : Set RepoState) (s : RepoState) : Prop where
  slot : ∀ σ : Slot, σ.picker.IsWinner (MergeTree.entries (·.at σ) K) (s.at σ)
  record : ∀ (id : ObjectBundleId) (r : ObjectBundleRecord), s.objectIndex[id]? = some r ↔
    ∃ k ∈ K, k.objectIndex[id]? = some r

theorem joinOf_self (s : RepoState) : JoinOf {s} s where
  slot σ := by
    have hentries : MergeTree.entries (·.at σ) {s} = {e | s.at σ = some e} := by
      simp [MergeTree.entries]
    rw [hentries]
    exact σ.picker.isWinner_self (s.at σ)
  record id r := by simp

theorem Agreed.noDraw (h : Agreed K) (σ : Slot) :
    σ.picker.NoDraw (MergeTree.entries (·.at σ) K) := by
  rintro e ⟨a, ha, hae⟩ e' ⟨b, hb, hbe⟩ hw hw'
  exact (h a ha b hb).slot σ e e' hae hbe (pickHigherSeq_draw hw hw').1

/-- **Joins are unique.** -/
theorem JoinOf.unique (hK : Agreed K) (hs : JoinOf K s) (ht : JoinOf K t)
    (ho : s.owner = t.owner) : s = t := by
  refine RepoState.ext_at ho (fun σ => ?_) (Std.ExtTreeMap.ext_getElem? fun id => ?_)
  · exact Picker.IsWinner.unique σ.picker (hK.noDraw σ) (hs.slot σ) (ht.slot σ)
  · refine Option.ext fun r => ?_
    rw [hs.record, ht.record]

/-- `d` is a part of `q` that leaves out only what `K` makes up for. -/
structure Suffices (K : Set RepoState) (q d : RepoState) : Prop extends KeptFrom q d where
  left : ∀ (σ : Slot) (e : σ.Entry), q.at σ = some e → d.at σ = some e ∨
    ∃ e₀ ∈ MergeTree.entries (·.at σ) K, σ.picker.wins e₀ e = true
  leftRecord : ∀ (id : ObjectBundleId) (r : ObjectBundleRecord), q.objectIndex[id]? = some r →
    d.objectIndex[id]? = some r ∨ ∃ k ∈ K, k.objectIndex[id]? = some r

theorem suffices_self (K : Set RepoState) (q : RepoState) : Suffices K q q where
  slot _ _ he := he
  record _ _ hr := hr
  left _ _ he := .inl he
  leftRecord _ _ hr := .inl hr

theorem Suffices.mono (h : Suffices K q d) (hK : K ⊆ T) : Suffices T q d where
  toKeptFrom := h.toKeptFrom
  left σ e he := by
    refine (h.left σ e he).imp_right ?_
    rintro ⟨e₀, ⟨k, hk, hke⟩, hwins⟩
    exact ⟨e₀, ⟨k, hK hk, hke⟩, hwins⟩
  leftRecord id r hr := by
    refine (h.leftRecord id r hr).imp_right ?_
    rintro ⟨k, hk, hkr⟩
    exact ⟨k, hK hk, hkr⟩

/-- Merging a part that suffices is joining all. -/
theorem JoinOf.merge (hC : Agreed (K ∪ T)) (hs : JoinOf K s) (hq : JoinOf T q)
    (hd : Suffices K q d) : JoinOf (K ∪ T) (mergeState s d) where
  slot σ := by
    rw [MergeTree.entries_union, mergeState_at]
    refine Picker.IsWinner.pickOpt_part σ.picker (hs.slot σ) (hq.slot σ) ?_ (hd.left σ)
    cases hdσ : d.at σ with
    | none => exact .inl rfl
    | some e => exact .inr (hd.slot σ e hdσ).symm
  record id r := by
    rw [mergeState_objectIndex, Option.or_eq_some_iff]
    constructor
    · rintro (hr | ⟨-, hr⟩)
      · obtain ⟨k, hk, hkr⟩ := (hs.record id r).mp hr
        exact ⟨k, .inl hk, hkr⟩
      · obtain ⟨k, hk, hkr⟩ := (hq.record id r).mp (hd.record id r hr)
        exact ⟨k, .inr hk, hkr⟩
    · rintro ⟨k, hk | hk, hkr⟩
      · exact .inl ((hs.record id r).mpr ⟨k, hk, hkr⟩)
      · cases hsr : s.objectIndex[id]? with
        | some r' =>
            -- both sides have the bundle, in one record
            obtain ⟨k', hk', hkr'⟩ := (hs.record id r').mp hsr
            have heq := (hC k' (.inl hk') k (.inr hk)).record id r' r hkr' hkr
            exact .inl (congrArg some heq)
        | none =>
            refine .inr ⟨rfl, ?_⟩
            refine (hd.leftRecord id r ((hq.record id r).mpr ⟨k, hk, hkr⟩)).resolve_right ?_
            rintro ⟨k', hk', hkr'⟩
            rw [(hs.record id r).mpr ⟨k', hk', hkr'⟩] at hsr
            cases hsr

theorem JoinOf.merges (hC : Agreed (K ∪ T)) (hs : JoinOf K s) (h : Merges s T t) :
    JoinOf (K ∪ T) t := by
  obtain ⟨ds, rfl, rfl⟩ := h
  induction ds generalizing K s with
  | nil => simpa using hs
  | cons d ds ih =>
      have hset : K ∪ {x | x ∈ d :: ds} = K ∪ {d} ∪ {x | x ∈ ds} := by
        rw [Set.union_assoc]
        congr 1
        ext x
        simp
      rw [hset] at hC ⊢
      exact ih (hs.merge (hC.subset Set.subset_union_left) (joinOf_self d) (suffices_self K d)) hC

/-- **A delta suffices**, for whoever knows what its summary summarized. -/
theorem suffices_getStateDelta (hC : Agreed (K ∪ T)) (hs : JoinOf K s) (hq : JoinOf T q) :
    Suffices K q (getStateDelta q (summarizeState s)) where
  toKeptFrom := keptFrom_getStateDelta q (summarizeState s)
  left σ e he := by
    rw [getStateDelta_at, summarizeState_at, he, Option.filter_some]
    cases hnewer : σ.newer e ((s.at σ).map σ.updateSeq) with
    | true => exact .inl rfl
    | false =>
        refine .inr ?_
        cases hsσ : s.at σ with
        | none =>
            rw [hsσ] at hnewer
            cases hnewer
        | some e₀ =>
            rw [hsσ] at hnewer
            have hle : ¬ σ.updateSeq e₀ < σ.updateSeq e := of_decide_eq_false hnewer
            have hmem₀ : e₀ ∈ MergeTree.entries (·.at σ) K := by
              have hwinner := hs.slot σ
              rw [hsσ] at hwinner
              exact hwinner.1
            have hmem : e ∈ MergeTree.entries (·.at σ) T := by
              have hwinner := hq.slot σ
              rw [he] at hwinner
              exact hwinner.1
            refine ⟨e₀, hmem₀, pickHigherSeq_iff.mpr ?_⟩
            rcases UInt64.le_iff_lt_or_eq.mp (UInt64.not_lt.mp hle) with hlt | heq
            · exact .inl hlt
            · obtain ⟨k₀, hk₀, hke₀⟩ := hmem₀
              obtain ⟨k, hk, hke⟩ := hmem
              have hsame := (hC k₀ (.inl hk₀) k (.inr hk)).slot σ e₀ e hke₀ hke heq.symm
              exact pickHigherSeq_iff.mp (hsame ▸ σ.picker.wins_refl e)
  leftRecord id r hr := by
    rw [getStateDelta_objectIndex]
    by_cases hid : id ∈ (summarizeState s).bundleIds
    · obtain ⟨r₀, hr₀⟩ := mem_iff_getElem?.mp (mem_bundleIds.mp hid)
      obtain ⟨k₀, hk₀, hkr₀⟩ := (hs.record id r₀).mp hr₀
      obtain ⟨k, hk, hkr⟩ := (hq.record id r).mp hr
      have hsame := (hC k₀ (.inl hk₀) k (.inr hk)).record id r₀ r hkr₀ hkr
      exact .inr ⟨k₀, hk₀, hsame ▸ hkr₀⟩
    · rw [if_neg hid]
      exact .inl hr

end

/-! ## Hosts and messages -/

namespace gossip

/-- A full state, which any host may take, or a delta, the answer to one host's summary. -/
inductive Mail (ι : Type) where
  | full (bytes : Bytes)
  | delta (asker : ι) (bytes : Bytes)

namespace Mail

variable {ι : Type}

def bytes : Mail ι → Bytes
  | full bytes | delta _ bytes => bytes

def Reaches : Mail ι → ι → Prop
  | full _, _ => True
  | delta asker _, p => p = asker

/-- How a host that has a state hands it to the contract. -/
def update : Mail ι → UpdateData
  | full bytes => .state bytes
  | delta _ bytes => .delta bytes

theorem update_carries : ∀ m : Mail ι, m.update.Carries m.bytes
  | full _ => .inl rfl
  | delta _ _ => .inr rfl

end Mail

/-- The states the hosts hold, and everything that was ever sent. -/
structure Net (ι : Type) where
  held : ι → Option Bytes
  asked : List (ι × Bytes)
  mail : List (Mail ι)

inductive Event (ι : Type) where
  /-- A host without a state is given one. -/
  | put (p : ι) (bytes : Bytes)
  /-- A client sends updates. -/
  | write (p : ι) (data : List UpdateData)
  | ask (p : ι)
  /-- A host answers a summary. -/
  | answer (q : ι) (n : Nat)
  | publish (q : ι)
  /-- A host takes a message from the mail. -/
  | take (p : ι) (n : Nat)

namespace Net

variable {ι : Type}

def empty : Net ι := ⟨fun _ => none, [], []⟩

def hold [DecidableEq ι] (net : Net ι) (p : ι) (bytes : Bytes) : Net ι :=
  { net with held := Function.update net.held p (some bytes) }

variable [DecidableEq ι] {net : Net ι} {p : ι} {sb : Bytes}

@[simp] theorem hold_held_self : (net.hold p sb).held p = some sb := Function.update_self ..

theorem hold_held_of_ne {q : ι} (h : q ≠ p) : (net.hold p sb).held q = net.held q :=
  Function.update_of_ne h ..

theorem hold_forall {P : ι → Bytes → Prop} (hp : P p sb)
    (hothers : ∀ q x, q ≠ p → net.held q = some x → P q x) :
    ∀ q x, (net.hold p sb).held q = some x → P q x := by
  intro q x hx
  by_cases hq : q = p
  · subst hq
    rw [hold_held_self] at hx
    cases hx
    exact hp
  · rw [hold_held_of_ne hq] at hx
    exact hothers q x hq hx

end Net

/-- The calls of the contract that succeed; a host that is refused keeps what it has. -/
inductive Step {ι : Type} [DecidableEq ι] (cr : Crypto) (pb : Bytes) :
    Net ι → Event ι → Net ι → Prop where
  | put {net : Net ι} {p : ι} {sb : Bytes} (hnew : net.held p = none)
      (hcall : contract.validateState cr pb sb = .ok ()) :
      Step cr pb net (.put p sb) (net.hold p sb)
  | write {net : Net ι} {p : ι} {data : List UpdateData} {sb sb' : Bytes}
      (hp : net.held p = some sb) (hcall : contract.updateState cr pb sb data = .ok sb') :
      Step cr pb net (.write p data) (net.hold p sb')
  | ask {net : Net ι} {p : ι} {sb bs : Bytes} (hp : net.held p = some sb)
      (hcall : contract.summarizeState cr pb sb = .ok bs) :
      Step cr pb net (.ask p) { net with asked := net.asked ++ [(p, bs)] }
  | answer {net : Net ι} {p q : ι} {n : Nat} {sb bs out : Bytes} (hq : net.held q = some sb)
      (hn : net.asked[n]? = some (p, bs))
      (hcall : contract.getStateDelta cr pb sb bs = .ok out) :
      Step cr pb net (.answer q n) { net with mail := net.mail ++ [.delta p out] }
  | publish {net : Net ι} {q : ι} {sb : Bytes} (hq : net.held q = some sb) :
      Step cr pb net (.publish q) { net with mail := net.mail ++ [.full sb] }
  | start {net : Net ι} {p : ι} {n : Nat} {sb : Bytes} (hnew : net.held p = none)
      (hn : net.mail[n]? = some (.full sb)) (hcall : contract.validateState cr pb sb = .ok ()) :
      Step cr pb net (.take p n) (net.hold p sb)
  | take {net : Net ι} {p : ι} {n : Nat} {m : Mail ι} {sb sb' : Bytes}
      (hp : net.held p = some sb) (hn : net.mail[n]? = some m) (hm : m.Reaches p)
      (hcall : contract.updateState cr pb sb [m.update] = .ok sb') :
      Step cr pb net (.take p n) (net.hold p sb')

end gossip

/-! ## Nothing is refused -/

section

open gossip

variable {ι : Type} {cr : Crypto} {params : RepoParams} {owner : PublicKey} {pb : Bytes}
  {net net' mid : Net ι} {ev : Event ι} {tr tr' : List (Transition (Net ι) (Event ι))}

/-- The bytes of an accepted state of the owner. -/
def OwnState (cr : Crypto) (params : RepoParams) (owner : PublicKey) (sb : Bytes) : Prop :=
  ∃ s, RepoState.fromBytes cr sb = .ok s ∧ Accepted cr params s ∧ s.owner = owner

/-- The bytes of a part of an accepted state of the owner. -/
def OwnPart (cr : Crypto) (params : RepoParams) (owner : PublicKey) (bs : Bytes) : Prop :=
  ∃ q d, RepoState.fromBytes cr bs = .ok d ∧ KeptFrom q d ∧ Accepted cr params q ∧ q.owner = owner

theorem OwnState.part {bs : Bytes} (h : OwnState cr params owner bs) :
    OwnPart cr params owner bs := by
  obtain ⟨s, hs, hacc, ho⟩ := h
  exact ⟨s, s, hs, (suffices_self ∅ s).toKeptFrom, hacc, ho⟩

def gossip.Mail.Sound (cr : Crypto) (params : RepoParams) (owner : PublicKey) : Mail ι → Prop
  | .full bytes => OwnState cr params owner bytes
  | .delta _ bytes => OwnPart cr params owner bytes

theorem gossip.Mail.Sound.part {m : Mail ι} (h : m.Sound cr params owner) :
    OwnPart cr params owner m.bytes := by
  cases m with
  | full bytes => exact OwnState.part h
  | delta asker bytes => exact h

/-- A host is given only states of the owner. -/
def gossip.Event.OwnedBy (cr : Crypto) (owner : PublicKey) : Event ι → Prop
  | .put _ bytes => ∀ s, RepoState.fromBytes cr bytes = .ok s → s.owner = owner
  | .write _ _ | .ask _ | .answer _ _ | .publish _ | .take _ _ => True

structure gossip.Net.Safe (cr : Crypto) (params : RepoParams) (owner : PublicKey) (net : Net ι) :
    Prop where
  held : ∀ p sb, net.held p = some sb → OwnState cr params owner sb
  asked : ∀ r ∈ net.asked, ∃ sum, contract.decodeSummary cr r.2 = .ok sum
  mail : ∀ m ∈ net.mail, m.Sound cr params owner

theorem gossip.safe_empty : (Net.empty : Net ι).Safe cr params owner where
  held p sb h := by cases h
  asked r hr := absurd hr List.not_mem_nil
  mail m hm := absurd hm List.not_mem_nil

theorem gossip.Net.Safe.post {m : Mail ι} (h : net.Safe cr params owner)
    (hm : m.Sound cr params owner) :
    Net.Safe cr params owner { net with mail := net.mail ++ [m] } := by
  refine ⟨h.held, h.asked, fun m' hm' => ?_⟩
  rcases List.mem_append.mp hm' with hm' | hm'
  · exact h.mail m' hm'
  · rw [List.mem_singleton.mp hm']
    exact hm

/-- What each host holds, it goes on holding. -/
def gossip.Net.Preserves (cr : Crypto) (net net' : Net ι) : Prop :=
  ∀ p sb s, net.held p = some sb → RepoState.fromBytes cr sb = .ok s →
    ∃ sb' s', net'.held p = some sb' ∧ RepoState.fromBytes cr sb' = .ok s' ∧
      FreenetGit.Preserves s s'

theorem gossip.Net.preserves_of_held (h : net'.held = net.held) : net.Preserves cr net' :=
  fun _ sb s hsb hs => ⟨sb, s, by rw [h, hsb], hs, .refl s⟩

variable [DecidableEq ι]

theorem gossip.Net.Safe.hold {p : ι} {sb : Bytes} (h : net.Safe cr params owner)
    (hsb : OwnState cr params owner sb) : (net.hold p sb).Safe cr params owner :=
  ⟨Net.hold_forall hsb fun q x _ hx => h.held q x hx, h.asked, h.mail⟩

/-- Every call that succeeds leaves an accepted state of the owner. -/
theorem OwnState.updateState {sb sb' : Bytes} {data : List UpdateData}
    (hp : RepoParams.fromBytes cr pb = .ok params) (h : OwnState cr params owner sb)
    (hcall : contract.updateState cr pb sb data = .ok sb') : OwnState cr params owner sb' := by
  obtain ⟨s, hs, hacc, ho⟩ := h
  obtain ⟨s', hs', hup⟩ := contract.updateState_updates hp hs hcall
  exact ⟨s', hs', hup.accepted hacc, hup.preserves.owner.trans ho⟩

theorem gossip.Net.Safe.step (hp : RepoParams.fromBytes cr pb = .ok params)
    (h : net.Safe cr params owner) (hstep : Step cr pb net ev net') (hev : ev.OwnedBy cr owner) :
    net'.Safe cr params owner := by
  cases hstep with
  | put hnew hcall =>
      obtain ⟨s, hs, hacc⟩ := (contract.validateState_eq_ok hp).mp hcall
      exact h.hold ⟨s, hs, hacc, hev s hs⟩
  | write hheld hcall => exact h.hold ((h.held _ _ hheld).updateState hp hcall)
  | ask hheld hcall =>
      obtain ⟨s, hs, -, -⟩ := h.held _ _ hheld
      obtain ⟨bs, hbs, hread⟩ := contract.summarizeState_ok hp hs
      rw [hcall] at hbs
      cases hbs
      refine ⟨h.held, fun r hr => ?_, h.mail⟩
      rcases List.mem_append.mp hr with hr | hr
      · exact h.asked r hr
      · rw [List.mem_singleton.mp hr]
        exact ⟨_, hread⟩
  | answer hheld hn hcall =>
      obtain ⟨s, hs, hacc, ho⟩ := h.held _ _ hheld
      obtain ⟨sum, hsum⟩ := h.asked _ (List.mem_of_getElem? hn)
      obtain ⟨out, hout, hread⟩ := contract.getStateDelta_reads hp hs hsum
      rw [hcall] at hout
      cases hout
      exact h.post ⟨s, _, hread, keptFrom_getStateDelta s sum, hacc, ho⟩
  | publish hheld => exact h.post (h.held _ _ hheld)
  | start hnew hn hcall => exact h.hold (h.mail _ (List.mem_of_getElem? hn))
  | take hheld hn hm hcall => exact h.hold ((h.held _ _ hheld).updateState hp hcall)

theorem gossip.Net.preserves_hold {p : ι} {sb' : Bytes}
    (hold : ∀ sb s, net.held p = some sb → RepoState.fromBytes cr sb = .ok s →
      ∃ s', RepoState.fromBytes cr sb' = .ok s' ∧ FreenetGit.Preserves s s') :
    net.Preserves cr (net.hold p sb') := by
  intro q sb s hsb hs
  by_cases hq : q = p
  · subst hq
    obtain ⟨s', hs', hpres⟩ := hold sb s hsb hs
    exact ⟨sb', s', hold_held_self, hs', hpres⟩
  · exact ⟨sb, s, (hold_held_of_ne hq).trans hsb, hs, .refl s⟩

theorem gossip.Net.preserves_step (hp : RepoParams.fromBytes cr pb = .ok params)
    (hstep : Step cr pb net ev net') : net.Preserves cr net' := by
  have hcalled : ∀ {p sb data sb'}, net.held p = some sb →
      contract.updateState cr pb sb data = .ok sb' → net.Preserves cr (net.hold p sb') := by
    intro p sb data sb' hheld hcall
    refine preserves_hold fun sb₀ s hsb hs => ?_
    rw [hheld] at hsb
    cases hsb
    obtain ⟨s', hs', hup⟩ := contract.updateState_updates hp hs hcall
    exact ⟨s', hs', hup.preserves⟩
  cases hstep with
  | put hnew | start hnew =>
      refine preserves_hold fun sb s hsb hs => ?_
      rw [hnew] at hsb
      cases hsb
  | write hheld hcall => exact hcalled hheld hcall
  | take hheld hn hm hcall => exact hcalled hheld hcall
  | ask | answer | publish => exact preserves_of_held rfl

theorem gossip.Net.preserves_run (hp : RepoParams.fromBytes cr pb = .ok params)
    (hrun : Run (Step cr pb) net tr net') : net.Preserves cr net' := by
  induction hrun with
  | nil => exact preserves_of_held rfl
  | snoc _ hstep ih =>
      intro p sb s hsb hs
      obtain ⟨sb₁, s₁, hsb₁, hs₁, hpres₁⟩ := ih p sb s hsb hs
      obtain ⟨sb₂, s₂, hsb₂, hs₂, hpres₂⟩ := preserves_step hp hstep p sb₁ s₁ hsb₁ hs₁
      exact ⟨sb₂, s₂, hsb₂, hs₂, hpres₁.trans hpres₂⟩

theorem gossip.Net.safe_run (hp : RepoParams.fromBytes cr pb = .ok params)
    (hrun : Run (Step cr pb) Net.empty tr net) (hown : ∀ t ∈ tr, t.event.OwnedBy cr owner) :
    net.Safe cr params owner :=
  Run.history (fun _ net => net.Safe cr params owner) safe_empty
    (fun _ _ _ _ h hstep hev => h.step hp hstep hev) hrun hown

/-- **No host refuses another.**  Whatever the hosts were given and in whichever order the
messages come, every host holds an accepted state of the owner, can be asked for its summary,
answers every summary, and merges everything in the mail into an accepted state that keeps
what it has; only the size of the encoding can stand in the way.  What a host holds, it goes
on holding. -/
theorem gossip_safe (hp : RepoParams.fromBytes cr pb = .ok params)
    (hrun : Run (Step cr pb) Net.empty tr net) (hown : ∀ t ∈ tr, t.event.OwnedBy cr owner) :
    (∀ p sb, net.held p = some sb → ∃ s, RepoState.fromBytes cr sb = .ok s ∧
      validateState cr params s = .ok () ∧ s.owner = owner ∧
      (∃ bs, contract.summarizeState cr pb sb = .ok bs) ∧
      (∀ r ∈ net.asked, ∃ out, contract.getStateDelta cr pb sb r.2 = .ok out) ∧
      ∀ m ∈ net.mail, ∃ t, validateState cr params t = .ok () ∧ Preserves s t ∧
        contract.updateState cr pb sb [m.update] = contract.encodeState cr t) ∧
    (∀ sb, Mail.full sb ∈ net.mail → contract.validateState cr pb sb = .ok ()) ∧
    ∀ tr' net', Run (Step cr pb) net tr' net' → net.Preserves cr net' := by
  have hsafe : net.Safe cr params owner := Net.safe_run hp hrun hown
  refine ⟨fun p sb hsb => ?_, fun sb hsb => ?_, fun tr' net' hrun' => Net.preserves_run hp hrun'⟩
  · obtain ⟨s, hs, hacc, ho⟩ := hsafe.held p sb hsb
    refine ⟨s, hs, validateState_eq_ok.mpr hacc, ho, ?_, fun r hr => ?_, fun m hm => ?_⟩
    · obtain ⟨bs, hbs, -⟩ := contract.summarizeState_ok hp hs
      exact ⟨bs, hbs⟩
    · obtain ⟨sum, hsum⟩ := hsafe.asked r hr
      obtain ⟨out, hout, -⟩ := contract.getStateDelta_reads hp hs hsum
      exact ⟨out, hout⟩
    · obtain ⟨q, d, hd, hkept, hq, hqo⟩ := (hsafe.mail m hm).part
      have hmerged := (updateState_eq_ok.mp (updateState_kept hacc hq (ho.trans hqo.symm) hkept)).2
      exact ⟨mergeState s d, validateState_eq_ok.mpr hmerged, preserves_mergeState s d,
        contract.updateState_carried hp hs m.update_carries hd hmerged⟩
  · obtain ⟨s, hs, hacc, -⟩ := hsafe.mail _ hsb
    exact (contract.validateState_eq_ok hp).mpr ⟨s, hs, hacc⟩

end

/-! ## What a host has heard of -/

section

open gossip

variable {ι : Type} {cr : Crypto} {params : RepoParams} {owner : PublicKey} {pb : Bytes}
  {net net' mid : Net ι} {ev : Event ι} {tr tr' : List (Transition (Net ι) (Event ι))}

/-- The states that a host is told of from outside. -/
def gossip.Event.news (cr : Crypto) : Event ι → Set RepoState
  | .put _ bytes => {d | RepoState.fromBytes cr bytes = .ok d}
  | .write _ data => {d | ∃ u ∈ data, d ∈ u.told cr}
  | .ask _ | .answer _ _ | .publish _ | .take _ _ => ∅

/-- The event as one of hosts that tell each other all they know. -/
def gossip.Event.hears (cr : Crypto) : Event ι → Option (Gossip.Event ι RepoState)
  | .put p bytes => some (.learn p (Event.news cr (.put p bytes)))
  | .write p data => some (.learn p (Event.news cr (.write p data)))
  | .ask _ => none
  | .answer q _ | .publish q => some (.send q)
  | .take p n => some (.receive p n)

/-- What the hosts have heard of after a run. -/
def gossip.knowledge (cr : Crypto) (tr : List (Transition (Net ι) (Event ι))) :
    Gossip.Knowledge ι RepoState :=
  Gossip.Knowledge.empty.run (tr.filterMap fun t => t.event.hears cr)

/-- All that came from outside in a run. -/
def gossip.written (cr : Crypto) (tr : List (Transition (Net ι) (Event ι))) : Set RepoState :=
  {d | ∃ t ∈ tr, d ∈ t.event.news cr}

theorem gossip.knowledge_append :
    knowledge cr (tr ++ tr') = (knowledge cr tr).run (tr'.filterMap fun t => t.event.hears cr) := by
  rw [knowledge, List.filterMap_append, Gossip.Knowledge.run_append, knowledge]

theorem gossip.knowledge_snoc (t : Transition (Net ι) (Event ι)) :
    knowledge cr (tr ++ [t]) = (knowledge cr tr).run (t.event.hears cr).toList := by
  rw [knowledge_append]
  cases h : t.event.hears cr <;> simp [h]

theorem gossip.knowledge_known : (knowledge cr tr).Known := Gossip.Knowledge.known_empty.run

theorem gossip.Event.news_hears {e : Gossip.Event ι RepoState} (h : ev.hears cr = some e) :
    e.news = ev.news cr := by
  cases ev <;> cases h <;> rfl

theorem gossip.Event.news_of_hears_none (h : ev.hears cr = none) : ev.news cr = ∅ := by
  cases ev <;> first | rfl | cases h

theorem gossip.written_mono (h : tr ⊆ tr') : written cr tr ⊆ written cr tr' := by
  rintro d ⟨t, ht, hd⟩
  exact ⟨t, h ht, hd⟩

/-- All that the hosts have heard of came from outside. -/
theorem gossip.knowledge_all : (knowledge cr tr).all = written cr tr := by
  have hempty : (Gossip.Knowledge.empty : Gossip.Knowledge ι RepoState).all = ∅ :=
    Set.iUnion_eq_empty.mpr fun _ => rfl
  rw [knowledge, Gossip.Knowledge.known_empty.all_run, hempty, Set.empty_union]
  ext d
  simp only [written, Set.mem_ofPred_eq, List.mem_filterMap]
  constructor
  · rintro ⟨e, ⟨t, ht, he⟩, hd⟩
    rw [Event.news_hears he] at hd
    exact ⟨t, ht, hd⟩
  · rintro ⟨t, ht, hd⟩
    cases he : t.event.hears cr with
    | none =>
        rw [Event.news_of_hears_none he] at hd
        exact hd.elim
    | some e => exact ⟨e, ⟨t, ht, he⟩, by rwa [Event.news_hears he]⟩

/-- A message tells what its sender knew: a delta is enough for the host that asked. -/
def gossip.Mail.Tells (cr : Crypto) (heard : ι → Set RepoState) (K : Set RepoState) :
    Mail ι → Prop
  | .full bytes => ∃ q, RepoState.fromBytes cr bytes = .ok q ∧ JoinOf K q
  | .delta asker bytes => ∃ q d, RepoState.fromBytes cr bytes = .ok d ∧ JoinOf K q ∧
      Suffices (heard asker) q d

/-- The hosts hold the joins of what they have heard of, and send the joins of what they
know. -/
structure gossip.Sim (cr : Crypto) (k : Gossip.Knowledge ι RepoState) (net : Net ι) : Prop where
  none : ∀ p, net.held p = none → k.heard p = ∅
  held : ∀ p sb, net.held p = some sb → ∃ s, RepoState.fromBytes cr sb = .ok s ∧
    JoinOf (k.heard p) s
  asked : ∀ r ∈ net.asked, ∃ s K, contract.decodeSummary cr r.2 = .ok (summarizeState s) ∧
    JoinOf K s ∧ K ⊆ k.heard r.1
  length : net.mail.length = k.mail.length
  mail : ∀ (n : Nat) (m : Mail ι) (K : Set RepoState), net.mail[n]? = some m →
    k.mail[n]? = some K → m.Tells cr k.heard K

variable {k : Gossip.Knowledge ι RepoState} {heard heard' : ι → Set RepoState}
  {C K T : Set RepoState} {p q : ι} {m : Mail ι} {sb : Bytes}

theorem gossip.Mail.Tells.mono (h : m.Tells cr heard K) (hsub : ∀ p, heard p ⊆ heard' p) :
    m.Tells cr heard' K := by
  cases m with
  | full bytes => exact h
  | delta asker bytes =>
      obtain ⟨q, d, hd, hq, hsuff⟩ := h
      exact ⟨q, d, hd, hq, hsuff.mono (hsub asker)⟩

/-- What a host takes suffices for it. -/
theorem gossip.Mail.Tells.suffices (h : m.Tells cr heard K) (hm : m.Reaches p) :
    ∃ q d, RepoState.fromBytes cr m.bytes = .ok d ∧ JoinOf K q ∧ Suffices (heard p) q d := by
  cases m with
  | full bytes =>
      obtain ⟨q, hq, hjoin⟩ := h
      exact ⟨q, q, hq, hjoin, suffices_self _ q⟩
  | delta asker bytes =>
      obtain ⟨q, d, hd, hq, hsuff⟩ := h
      cases hm
      exact ⟨q, d, hd, hq, hsuff⟩

theorem gossip.sim_empty : Sim cr Gossip.Knowledge.empty (Net.empty : Net ι) where
  none _ _ := rfl
  held p sb h := by cases h
  asked r hr := absurd hr List.not_mem_nil
  length := rfl
  mail n m K h := by cases h

theorem gossip.Sim.post (h : Sim cr k net) (hm : m.Tells cr k.heard (k.heard q)) :
    Sim cr (k.after (.send q)) { net with mail := net.mail ++ [m] } where
  none := h.none
  held := h.held
  asked := h.asked
  length := by
    change (net.mail ++ [m]).length = (k.mail ++ [k.heard q]).length
    rw [List.length_append, List.length_append, h.length, List.length_singleton,
      List.length_singleton]
  mail n m' K hm' hK := by
    have hm' : (net.mail ++ [m])[n]? = some m' := hm'
    have hK : (k.mail ++ [k.heard q])[n]? = some K := hK
    rcases Nat.lt_or_ge n net.mail.length with hn | hn
    · rw [List.getElem?_append_left hn] at hm'
      rw [List.getElem?_append_left (h.length ▸ hn)] at hK
      exact h.mail n m' K hm' hK
    · rw [List.getElem?_append_right hn, List.getElem?_singleton] at hm'
      rw [List.getElem?_append_right (h.length ▸ hn), ← h.length, List.getElem?_singleton] at hK
      split at hm'
      · next hzero =>
          rw [if_pos hzero] at hK
          cases hm'
          cases hK
          exact hm
      · cases hm'

/-- A host that takes a message hears of what its sender knew. -/
theorem gossip.Sim.receive {n : Nat} (h : Sim cr k net) (p : ι) (hn : net.mail[n]? = some m) :
    ∃ K, k.run (Event.hears cr (.take p n)).toList = k.learn p K ∧ m.Tells cr k.heard K := by
  obtain ⟨hlt, -⟩ := List.getElem?_eq_some_iff.mp hn
  obtain ⟨K, hK⟩ : ∃ K, k.mail[n]? = some K := ⟨_, List.getElem?_eq_getElem (h.length ▸ hlt)⟩
  refine ⟨K, ?_, h.mail n m K hn hK⟩
  change k.learn p (k.mail[n]?.getD ∅) = k.learn p K
  rw [hK, Option.getD_some]

variable [DecidableEq ι]

/-- A host that hears of something holds the join. -/
theorem gossip.Sim.hold (h : Sim cr k net)
    (hsb : ∃ s, RepoState.fromBytes cr sb = .ok s ∧ JoinOf (k.heard p ∪ T) s) :
    Sim cr (k.learn p T) (net.hold p sb) where
  none q hq := by
    have hne : q ≠ p := by
      rintro rfl
      rw [Net.hold_held_self] at hq
      cases hq
    rw [Net.hold_held_of_ne hne] at hq
    rw [Gossip.Knowledge.learn_heard_of_ne hne, h.none q hq]
  held := by
    refine Net.hold_forall ?_ fun q x hq hx => ?_
    · rwa [Gossip.Knowledge.learn_heard_self]
    · rw [Gossip.Knowledge.learn_heard_of_ne hq]
      exact h.held q x hx
  asked r hr := by
    obtain ⟨s, K, hsum, hs, hK⟩ := h.asked r hr
    exact ⟨s, K, hsum, hs, hK.trans (Gossip.Knowledge.heard_subset_after (e := .learn p T) _)⟩
  length := h.length
  mail n m K hm hK :=
    (h.mail n m K hm hK).mono fun q => Gossip.Knowledge.heard_subset_after (e := .learn p T) q

/-- **The simulation.**  Each call does to the states what the event does to what the hosts
have heard of. -/
theorem gossip.Sim.step (hp : RepoParams.fromBytes cr pb = .ok params) (hC : Agreed C)
    (h : Sim cr k net) (hstep : Step cr pb net ev net')
    (hsub : (k.run (ev.hears cr).toList).all ⊆ C) :
    Sim cr (k.run (ev.hears cr).toList) net' := by
  have hlearned : ∀ {p T}, (k.learn p T).all ⊆ C → Agreed (k.heard p ∪ T) := by
    intro p T hall
    refine hC.subset (Set.Subset.trans ?_ hall)
    rw [← Gossip.Knowledge.learn_heard_self]
    exact Gossip.Knowledge.heard_subset_all p
  cases hstep with
  | @put p sb hnew hcall =>
      obtain ⟨s, hs, -⟩ := (contract.validateState_eq_ok hp).mp hcall
      refine h.hold ⟨s, hs, ?_⟩
      have hdecoded : {d | RepoState.fromBytes cr sb = .ok d} = {s} := by
        ext d
        rw [Set.mem_ofPred_eq, hs, Except.ok.injEq, Set.mem_singleton_iff, eq_comm]
      rw [h.none p hnew, Set.empty_union, Event.news, hdecoded]
      exact joinOf_self s
  | @write p data sb sb' hheld hcall =>
      obtain ⟨s, hs, hjoin⟩ := h.held _ _ hheld
      obtain ⟨t, ht, hmerges⟩ := contract.updateState_merges hp hs hcall
      exact h.hold ⟨t, ht, hjoin.merges (hlearned hsub) hmerges⟩
  | @ask p sb bs hheld hcall =>
      obtain ⟨s, hs, hjoin⟩ := h.held _ _ hheld
      obtain ⟨bs, hbs, hread⟩ := contract.summarizeState_ok hp hs
      rw [hcall] at hbs
      cases hbs
      refine ⟨h.none, h.held, fun r hr => ?_, h.length, h.mail⟩
      rcases List.mem_append.mp hr with hr | hr
      · exact h.asked r hr
      · rw [List.mem_singleton.mp hr]
        exact ⟨s, k.heard p, hread, hjoin, subset_rfl⟩
  | @answer p q n sb bs out hheld hn hcall =>
      obtain ⟨s, hs, hjoin⟩ := h.held _ _ hheld
      obtain ⟨s₀, K, hsum, hjoin₀, hK⟩ := h.asked _ (List.mem_of_getElem? hn)
      obtain ⟨out, hout, hread⟩ := contract.getStateDelta_reads hp hs hsum
      rw [hcall] at hout
      cases hout
      have hall : k.all ⊆ C := hsub
      have hagreed : Agreed (K ∪ k.heard q) := hC.subset (Set.union_subset
        ((hK.trans (Gossip.Knowledge.heard_subset_all p)).trans hall)
        ((Gossip.Knowledge.heard_subset_all q).trans hall))
      exact h.post ⟨s, _, hread, hjoin, (suffices_getStateDelta hagreed hjoin₀ hjoin).mono hK⟩
  | publish hheld => exact h.post (h.held _ _ hheld)
  | @start p n sb hnew hn hcall =>
      obtain ⟨K, hreceive, q, hq, hjoin⟩ := h.receive p hn
      rw [hreceive]
      refine h.hold ⟨q, hq, ?_⟩
      rwa [h.none p hnew, Set.empty_union]
  | @take p n m sb sb' hheld hn hm hcall =>
      obtain ⟨K, hreceive, htells⟩ := h.receive p hn
      obtain ⟨s, hs, hjoin⟩ := h.held _ _ hheld
      obtain ⟨q, d, hd, hq, hsuff⟩ := htells.suffices hm
      have hmerged := contract.updateState_carried_ok hp hs m.update_carries hd hcall
      rw [hreceive] at hsub ⊢
      exact h.hold ⟨_, hmerged, hjoin.merge (hlearned hsub) hq hsuff⟩

theorem gossip.sim_run (hp : RepoParams.fromBytes cr pb = .ok params)
    (hrun : Run (Step cr pb) Net.empty tr net) (hC : Agreed (written cr tr)) :
    Sim cr (knowledge cr tr) net := by
  induction hrun with
  | nil => exact sim_empty
  | snoc _ hstep ih =>
      have hsim := ih (hC.subset (written_mono (List.subset_append_left _ _)))
      rw [knowledge_snoc]
      refine hsim.step hp hC hstep ?_
      rw [← knowledge_snoc, knowledge_all]

/-- What a host holds is the owner's join of what it has heard of. -/
theorem gossip.held_join (hp : RepoParams.fromBytes cr pb = .ok params)
    (hrun : Run (Step cr pb) Net.empty tr net) (hown : ∀ t ∈ tr, t.event.OwnedBy cr owner)
    (hC : Agreed (written cr tr)) {p : ι} {sb : Bytes} (hheld : net.held p = some sb) :
    ∃ s, RepoState.fromBytes cr sb = .ok s ∧ JoinOf ((knowledge cr tr).heard p) s ∧
      s.owner = owner := by
  obtain ⟨s, hs, hjoin⟩ := (sim_run hp hrun hC).held p sb hheld
  obtain ⟨x, hx, -, hxo⟩ := (Net.safe_run hp hrun hown).held p sb hheld
  obtain rfl := Except.ok.inj (hs.symm.trans hx)
  exact ⟨s, hs, hjoin, hxo⟩

/-- **A host holds what it has heard of.**  If no number was used for two entries, then a host
holds the join of all it has heard of, through other hosts and out-of-date summaries as well;
so two hosts that have heard of the same, in one run or in two, hold the same state. -/
theorem gossip_joins (hp : RepoParams.fromBytes cr pb = .ok params)
    (hrun : Run (Step cr pb) Net.empty tr net) (hown : ∀ t ∈ tr, t.event.OwnedBy cr owner)
    (hC : Agreed (written cr tr)) {p : ι} {sb : Bytes} (hheld : net.held p = some sb) :
    ∃ s, RepoState.fromBytes cr sb = .ok s ∧ JoinOf ((knowledge cr tr).heard p) s ∧
      ∀ (tr' : List (Transition (Net ι) (Event ι))) (net' : Net ι) (q : ι) (sb' : Bytes),
        Run (Step cr pb) Net.empty tr' net' → (∀ t ∈ tr', t.event.OwnedBy cr owner) →
        Agreed (written cr tr') →
        net'.held q = some sb' → (knowledge cr tr').heard q = (knowledge cr tr).heard p →
        RepoState.fromBytes cr sb' = .ok s := by
  obtain ⟨s, hs, hjoin, hso⟩ := held_join hp hrun hown hC hheld
  refine ⟨s, hs, hjoin, fun tr' net' q sb' hrun' hown' hC' hheld' hheard => ?_⟩
  obtain ⟨s', hs', hjoin', hso'⟩ := held_join hp hrun' hown' hC' hheld'
  rw [hheard] at hjoin'
  have hagreed : Agreed ((knowledge cr tr).heard p) :=
    hC.subset (knowledge_all ▸ Gossip.Knowledge.heard_subset_all p)
  rw [hs', hjoin'.unique hagreed hjoin (hso'.trans hso.symm)]

/-! ## Agreement -/

def gossip.Event.FromOutside : Event ι → Prop
  | .put _ _ | .write _ _ => True
  | .ask _ | .answer _ _ | .publish _ | .take _ _ => False

def gossip.Event.SentBy (q : ι) : Event ι → Prop
  | .answer q' _ | .publish q' => q' = q
  | .put _ _ | .write _ _ | .ask _ | .take _ _ => False

/-- In the run `q` sends a message that `p` takes later on. -/
def gossip.HearsFrom (tr : List (Transition (Net ι) (Event ι))) (p q : ι) : Prop :=
  ∃ before sent between taken rest, tr = before ++ sent :: between ++ taken :: rest ∧
    sent.event.SentBy q ∧ taken.event = .take p sent.before.mail.length

omit [DecidableEq ι] in
theorem gossip.Event.hears_of_sentBy (h : ev.SentBy q) : ev.hears cr = some (.send q) := by
  cases ev with
  | answer q' n | publish q' =>
      have h : q' = q := h
      rw [← h]
      rfl
  | put | write | ask | take => exact h.elim

/-- Who hears from a host hears of all it knew. -/
theorem gossip.heard_of_hearsFrom (hp : RepoParams.fromBytes cr pb = .ok params)
    (hrun : Run (Step cr pb) Net.empty (tr ++ tr') net) (hC : Agreed (written cr (tr ++ tr')))
    (h : HearsFrom tr' p q) :
    (knowledge cr tr).heard q ⊆ (knowledge cr (tr ++ tr')).heard p := by
  obtain ⟨before, sent, between, taken, rest, rfl, hsent, htaken⟩ := h
  have hsplit : tr ++ (before ++ sent :: between ++ taken :: rest) =
      (tr ++ before) ++ sent :: (between ++ taken :: rest) := by
    simp only [List.append_assoc, List.cons_append]
  obtain ⟨hbefore, -, -⟩ := hrun.split hsplit
  have hwritten : written cr (tr ++ before) ⊆
      written cr (tr ++ (before ++ sent :: between ++ taken :: rest)) :=
    written_mono (hsplit ▸ List.subset_append_left _ _)
  have hlength := (sim_run hp hbefore (hC.subset hwritten)).length
  rw [knowledge_append] at hlength ⊢
  have hevents :
      ((before ++ sent :: between ++ taken :: rest).filterMap fun t => t.event.hears cr) =
      (before.filterMap fun t => t.event.hears cr) ++
        .send q :: (between.filterMap fun t => t.event.hears cr) ++
        .receive p sent.before.mail.length :: rest.filterMap fun t => t.event.hears cr := by
    simp only [List.filterMap_append, List.filterMap_cons, Event.hears_of_sentBy hsent, htaken]
    rfl
  rw [hlength] at hevents
  exact Gossip.Knowledge.heard_of_exchange hevents

omit [DecidableEq ι] in
theorem gossip.Event.news_of_quiet (h : ¬ ev.FromOutside) : ev.news cr = ∅ := by
  cases ev with
  | put | write => exact absurd trivial h
  | ask | answer | publish | take => rfl

omit [DecidableEq ι] in
theorem gossip.written_quiet (hquiet : ∀ t ∈ tr', ¬ t.event.FromOutside) :
    written cr (tr ++ tr') ⊆ written cr tr := by
  rintro d ⟨t, ht, hd⟩
  rcases List.mem_append.mp ht with ht | ht
  · exact ⟨t, ht, hd⟩
  · rw [Event.news_of_quiet (hquiet t ht)] at hd
    exact hd.elim

omit [DecidableEq ι] in
theorem gossip.Event.ownedBy_of_quiet (h : ¬ ev.FromOutside) : ev.OwnedBy cr owner := by
  cases ev with
  | put | write => exact absurd trivial h
  | ask | answer | publish | take => trivial

/-- Hosts that hear each other out have heard of everything. -/
theorem gossip.heard_everything (hp : RepoParams.fromBytes cr pb = .ok params)
    (hrun : Run (Step cr pb) Net.empty tr mid) (hrun' : Run (Step cr pb) mid tr' net)
    (hC : Agreed (written cr tr)) (hquiet : ∀ t ∈ tr', ¬ t.event.FromOutside)
    (hheard : ∀ q, q ≠ p → mid.held q ≠ none → HearsFrom tr' p q) :
    (knowledge cr (tr ++ tr')).heard p = written cr tr := by
  rw [knowledge_append, ← knowledge_all]
  refine knowledge_known.heard_run_eq_all ?_ fun q hq => ?_
  · intro e he
    obtain ⟨t, ht, hte⟩ := List.mem_filterMap.mp he
    rw [Event.news_hears hte, Event.news_of_quiet (hquiet t ht)]
  · rw [← knowledge_append]
    cases hmid : mid.held q with
    | none =>
        -- who holds nothing has heard of nothing
        rw [(sim_run hp hrun hC).none q hmid]
        exact Set.empty_subset _
    | some sb =>
        have hne : mid.held q ≠ none := by
          rw [hmid]
          exact Option.some_ne_none sb
        exact heard_of_hearsFrom hp (hrun.trans hrun') (hC.subset (written_quiet hquiet))
          (hheard q hq hne)

/-- **Hosts that hear each other out agree.**  When nothing comes from outside any more, and
every host has taken one later message of each of the others, full state or delta, then all
hosts hold one and the same state: the join of everything that ever came from outside. -/
theorem gossip_agrees (hp : RepoParams.fromBytes cr pb = .ok params)
    (hrun : Run (Step cr pb) Net.empty tr mid) (hrun' : Run (Step cr pb) mid tr' net)
    (hown : ∀ t ∈ tr, t.event.OwnedBy cr owner) (hC : Agreed (written cr tr))
    (hquiet : ∀ t ∈ tr', ¬ t.event.FromOutside)
    (hheard : ∀ p q, q ≠ p → net.held p ≠ none → mid.held q ≠ none → HearsFrom tr' p q) :
    ∀ p sb, net.held p = some sb → ∃ s, RepoState.fromBytes cr sb = .ok s ∧
      JoinOf (written cr tr) s ∧
      ∀ q sb', net.held q = some sb' → RepoState.fromBytes cr sb' = .ok s := by
  have hownAll : ∀ t ∈ tr ++ tr', t.event.OwnedBy cr owner := by
    intro t ht
    rcases List.mem_append.mp ht with ht | ht
    · exact hown t ht
    · exact Event.ownedBy_of_quiet (hquiet t ht)
  have hjoins : ∀ p sb, net.held p = some sb → ∃ s, RepoState.fromBytes cr sb = .ok s ∧
      JoinOf (written cr tr) s ∧ s.owner = owner := by
    intro p sb hsb
    have hne : net.held p ≠ none := by
      rw [hsb]
      exact Option.some_ne_none sb
    rw [← heard_everything hp hrun hrun' hC hquiet fun q hq => hheard p q hq hne]
    exact held_join hp (hrun.trans hrun') hownAll (hC.subset (written_quiet hquiet)) hsb
  intro p sb hsb
  obtain ⟨s, hs, hjoin, hso⟩ := hjoins p sb hsb
  refine ⟨s, hs, hjoin, fun q sb' hsb' => ?_⟩
  obtain ⟨s', hs', hjoin', hso'⟩ := hjoins q sb' hsb'
  rw [hs', hjoin'.unique hC hjoin (hso'.trans hso.symm)]

end

/-! One host is given a push and another one an empty state; the second asks the first, and
then the first asks the second. -/

namespace Sample

open gossip

def emptyBytes : Bytes := bytesOf RepoState.default

def noSummary : Bytes := List.replicate 32 0

def raceSummary : Bytes :=
  (contract.summarizeState raceCrypto paramsBytes (bytesOf raceA)).toOption.getD []

def given : Net Bool := (Net.empty.hold true (bytesOf raceA)).hold false emptyBytes

def asking : Net Bool := { given with asked := [(false, noSummary)] }

def answered : Net Bool := { asking with mail := [.delta false (bytesOf raceA)] }

def told : Net Bool := answered.hold false (bytesOf raceA)

def askingBack : Net Bool :=
  { told with asked := [(false, noSummary), (true, raceSummary)] }

def answeredBack : Net Bool :=
  { askingBack with mail := [.delta false (bytesOf raceA), .delta true []] }

def settled : Net Bool := answeredBack.hold true (bytesOf raceA)

def giving : List (Transition (Net Bool) (Event Bool)) :=
  [⟨Net.empty, .put true (bytesOf raceA), Net.empty.hold true (bytesOf raceA)⟩,
    ⟨Net.empty.hold true (bytesOf raceA), .put false emptyBytes, given⟩]

def talking : List (Transition (Net Bool) (Event Bool)) :=
  [⟨given, .ask false, asking⟩, ⟨asking, .answer true 0, answered⟩, ⟨answered, .take false 0, told⟩,
    ⟨told, .ask true, askingBack⟩, ⟨askingBack, .answer false 1, answeredBack⟩,
    ⟨answeredBack, .take true 1, settled⟩]

theorem fromBytes_empty : RepoState.fromBytes raceCrypto emptyBytes = .ok RepoState.default :=
  RepoState.fromBytes_toBytes (toBytes_bytesOf (by decide))

theorem giving_run : Run (Step raceCrypto paramsBytes) Net.empty giving given := by
  have hA : Step raceCrypto paramsBytes Net.empty (.put true (bytesOf raceA))
      (Net.empty.hold true (bytesOf raceA)) := .put rfl (by decide +kernel)
  have hempty : Step raceCrypto paramsBytes (Net.empty.hold true (bytesOf raceA))
      (.put false emptyBytes) given := .put rfl (by decide +kernel)
  exact (Run.nil.snoc hA).snoc hempty

theorem talking_run : Run (Step raceCrypto paramsBytes) given talking settled := by
  have hask : Step raceCrypto paramsBytes given (.ask false) asking := .ask rfl (by decide +kernel)
  have hanswer : Step raceCrypto paramsBytes asking (.answer true 0) answered :=
    .answer rfl rfl (by decide +kernel)
  have htake : Step raceCrypto paramsBytes answered (.take false 0) told :=
    .take rfl rfl rfl (by decide +kernel)
  have haskBack : Step raceCrypto paramsBytes told (.ask true) askingBack :=
    .ask rfl (by decide +kernel)
  have hanswerBack : Step raceCrypto paramsBytes askingBack (.answer false 1) answeredBack :=
    .answer rfl rfl (by decide +kernel)
  have htakeBack : Step raceCrypto paramsBytes answeredBack (.take true 1) settled :=
    .take rfl rfl rfl (by decide +kernel)
  exact (((((Run.nil.snoc hask).snoc hanswer).snoc htake).snoc haskBack).snoc hanswerBack).snoc
    htakeBack

/-- What the hosts are given. -/
theorem given_cases {t : Transition (Net Bool) (Event Bool)} {d : RepoState} (ht : t ∈ giving)
    (hd : d ∈ t.event.news raceCrypto) : d = raceA ∨ d = RepoState.default := by
  rcases List.mem_cons.mp ht with rfl | ht
  · exact .inl (Except.ok.inj (fromBytes_raceA.symm.trans hd)).symm
  · rw [List.mem_singleton.mp ht] at hd
    exact .inr (Except.ok.inj (fromBytes_empty.symm.trans hd)).symm

theorem giving_owned : ∀ t ∈ giving, t.event.OwnedBy raceCrypto owner := by
  intro t ht
  have hnews := fun d : RepoState => given_cases (d := d) ht
  rcases List.mem_cons.mp ht with rfl | ht
  · intro s hs
    rcases hnews s hs with rfl | rfl <;> rfl
  · rw [List.mem_singleton.mp ht] at hnews ⊢
    intro s hs
    rcases hnews s hs with rfl | rfl <;> rfl

theorem giving_agreed : Agreed (written raceCrypto giving) := by
  have hdefault : ∀ (σ : Slot) (e : σ.Entry), RepoState.default.at σ ≠ some e := by
    intro σ e h
    rw [RepoState.default_at] at h
    cases h
  have hnone : ∀ (id : ObjectBundleId) (r : ObjectBundleRecord) (s : RepoState),
      s = raceA ∨ s = RepoState.default → s.objectIndex[id]? ≠ some r := by
    rintro id r s (rfl | rfl) h <;> cases Std.ExtTreeMap.getElem?_empty.symm.trans h
  rintro a ⟨t, ht, ha⟩ b ⟨t', ht', hb⟩
  have ha := given_cases ht ha
  have hb := given_cases ht' hb
  refine ⟨fun σ e e' he he' _ => ?_, fun id r r' hr _ => absurd hr (hnone id r a ha)⟩
  rcases ha with rfl | rfl
  · rcases hb with rfl | rfl
    · exact Option.some.inj (he.symm.trans he')
    · exact absurd he' (hdefault σ e')
  · exact absurd he (hdefault σ e)

theorem talking_quiet : ∀ t ∈ talking, ¬ t.event.FromOutside := by
  intro t ht
  simp only [talking, List.mem_cons, List.not_mem_nil, or_false] at ht
  rcases ht with rfl | rfl | rfl | rfl | rfl | rfl <;> exact id

theorem talking_heard : ∀ p q, q ≠ p → settled.held p ≠ none → given.held q ≠ none →
    HearsFrom talking p q := by
  intro p q hne _ _
  cases p with
  | false =>
      cases q with
      | false => exact absurd rfl hne
      | true => exact ⟨[_], _, [], _, _, rfl, rfl, rfl⟩
  | true =>
      cases q with
      | true => exact absurd rfl hne
      | false => exact ⟨[_, _, _, _], _, [], _, [], rfl, rfl, rfl⟩

end Sample

/-- The host that has the push merges the message it sent the other one. -/
theorem gossip_safe_race : ∃ t, validateState Sample.raceCrypto Sample.params t = .ok () ∧
    contract.updateState Sample.raceCrypto Sample.paramsBytes (Sample.bytesOf Sample.raceA)
      [.delta (Sample.bytesOf Sample.raceA)] = contract.encodeState Sample.raceCrypto t := by
  have hsafe := gossip_safe Sample.fromBytes_params
    (Sample.giving_run.trans Sample.talking_run) (by
      intro t ht
      rcases List.mem_append.mp ht with ht | ht
      · exact Sample.giving_owned t ht
      · simp only [Sample.talking, List.mem_cons, List.not_mem_nil, or_false] at ht
        rcases ht with rfl | rfl | rfl | rfl | rfl | rfl <;> trivial)
  obtain ⟨s, -, -, -, -, -, hmail⟩ := hsafe.1 true _ rfl
  obtain ⟨t, ht, -, hcall⟩ := hmail _ (List.mem_cons_self)
  exact ⟨t, ht, hcall⟩

theorem gossip_joins_race : ∃ s,
    RepoState.fromBytes Sample.raceCrypto (Sample.bytesOf Sample.raceA) = .ok s ∧
    JoinOf ((gossip.knowledge Sample.raceCrypto Sample.giving).heard true) s := by
  obtain ⟨s, hs, hjoin, -⟩ := gossip_joins Sample.fromBytes_params Sample.giving_run
    Sample.giving_owned Sample.giving_agreed (p := true) rfl
  exact ⟨s, hs, hjoin⟩

theorem gossip_agrees_race : ∃ s,
    RepoState.fromBytes Sample.raceCrypto (Sample.bytesOf Sample.raceA) = .ok s ∧
    JoinOf (gossip.written Sample.raceCrypto Sample.giving) s ∧
    ∀ q sb, Sample.settled.held q = some sb → RepoState.fromBytes Sample.raceCrypto sb = .ok s :=
  gossip_agrees Sample.fromBytes_params Sample.giving_run Sample.talking_run Sample.giving_owned
    Sample.giving_agreed Sample.talking_quiet Sample.talking_heard false _ rfl

end FreenetGit
