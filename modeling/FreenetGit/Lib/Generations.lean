/-
# `Lib.Generations` — a value that moves from key to key

Each release of a program keeps the value under a key of its own.  A newer release
that finds nothing under its key reads the newest older one and sends the value
there; what it sends arrives late, again or never.  Nobody begins to use a release
once a newer one is in use.  A reader asks the keys one after another while others
act, so each answer is of another moment, and newer releases may come into use before
the last one.  Still it reads no less than there was when it began, and a copy that
arrives late undoes nothing (`Inv.found`, `Inv.step`).

"No less" is a preorder: `a ≤ b` when `b` preserves all of `a`.
-/
import Mathlib.Order.MinMax
import Mathlib.Logic.Function.Basic

namespace Lib.Generations

variable {α : Type}

/-- What is under the keys of the releases, and the newest release in use. -/
@[ext] structure Snapshot (α : Type) where
  held : Nat → Option α
  version : Nat

namespace Snapshot

/-- The value of the newest release that has one. -/
structure Newest (p : Snapshot α) (k : Nat) (s : α) : Prop where
  held : p.held k = some s
  none_above : ∀ j, k < j → p.held j = none

variable {p q : Snapshot α} {j k k' v : Nat} {s s' t x : α}

theorem Newest.le_of_held (h : p.Newest k s) (hj : p.held j = some t) : j ≤ k := by
  by_contra hlt
  rw [h.none_above j (Nat.lt_of_not_le hlt)] at hj
  cases hj

theorem Newest.unique (h : p.Newest k s) (h' : p.Newest k' s') : k = k' ∧ s = s' := by
  have hk : k = k' := Nat.le_antisymm (h'.le_of_held h.held) (h.le_of_held h'.held)
  subst hk
  exact ⟨rfl, Option.some.inj (h.held.symm.trans h'.held)⟩

def put (q : Snapshot α) (k : Nat) (x : α) (version : Nat) : Snapshot α :=
  ⟨Function.update q.held k (some x), version⟩

theorem put_held_self : (q.put v x k).held v = some x := Function.update_self ..

theorem put_held_of_ne (h : j ≠ v) : (q.put v x k).held j = q.held j := Function.update_of_ne h ..

/-- Which key is the newest one afterwards. -/
theorem Newest.put (h : q.Newest k s) :
    (q.put v x k').Newest (max k v) (if v < k then s else x) := by
  constructor
  · split
    · next hlt =>
        rw [max_eq_left hlt.le, put_held_of_ne (Nat.ne_of_gt hlt)]
        exact h.held
    · next hge =>
        rw [max_eq_right (Nat.le_of_not_lt hge), put_held_self]
  · intro j hj
    rw [put_held_of_ne (Nat.ne_of_gt (lt_of_le_of_lt (le_max_right k v) hj))]
    exact h.none_above j (lt_of_le_of_lt (le_max_left k v) hj)

variable [Preorder α]

/-- `q` comes after `p`: no value is lost, what came to newer keys is no less, and as long
as the release in use at `p` has nothing under its key, nothing was added. -/
structure Precedes (p q : Snapshot α) : Prop where
  version : p.version ≤ q.version
  stays : ∀ {j s}, p.held j = some s → ∃ s', q.held j = some s'
  below : ∀ {k s j s'}, p.Newest k s → k ≤ j → q.held j = some s' → s ≤ s'
  above : ∀ {j s k s'}, p.held j = some s → q.Newest k s' → s ≤ s'
  still : ∀ {k s k' s'}, p.Newest k s → q.Newest k' s' → k' < p.version → s' ≤ s

end Snapshot

open Snapshot

/-- Everything so far, and the copies that were sent to a release's key. -/
structure World (α : Type) where
  past : List (Snapshot α)
  now : Snapshot α
  sent : List (Nat × α)

namespace World

variable {w w' : World α} {p q : Snapshot α} {before after : List (Snapshot α)} {v k : Nat}
  {s t x : α}

def all (w : World α) : List (Snapshot α) := w.past ++ [w.now]

def move (w : World α) (q : Snapshot α) : World α := ⟨w.all, q, w.sent⟩

theorem now_mem : w.now ∈ w.all := List.mem_append_right _ (List.mem_singleton_self _)

theorem mem_move {q' : Snapshot α} : q ∈ (w.move q').all ↔ q ∈ w.all ∨ q = q' := by
  rw [all, List.mem_append, List.mem_singleton]
  rfl

/-- A reader of release `v` that begins at `p`, when that is the release in use, finds `t`:
under its own key or an older one, after it has found nothing under the newer keys; each at
some moment since. -/
structure Found (p : Snapshot α) (after : List (Snapshot α)) (v : Nat) (t : α) : Prop where
  begun : p.version = v
  found : ∃ k ≤ v, (∃ q ∈ p :: after, q.held k = some t) ∧
    ∀ j, k < j → j ≤ v → ∃ q ∈ p :: after, q.held j = none

variable [Preorder α]

/-- The value goes up. -/
inductive Step : World α → World α → Prop where
  | adopt {w : World α} {v : Nat} (hv : w.now.version ≤ v) :
      Step w (w.move { w.now with version := v })
  | write {w : World α} {v : Nat} {s x : α} (hv : w.now.version ≤ v) (hs : w.now.held v = some s)
      (hle : s ≤ x) : Step w (w.move (w.now.put v x v))
  | send {w : World α} {before after : List (Snapshot α)} {p : Snapshot α} {v : Nat} {t : α}
      (hall : w.all = before ++ p :: after) (hfound : Found p after v t) :
      Step w { w with sent := w.sent ++ [(v, t)] }
  | arrive {w : World α} {v : Nat} {t : α} (hsent : (v, t) ∈ w.sent) (hnone : w.now.held v = none) :
      Step w (w.move (w.now.put v t w.now.version))
  | join {w : World α} {v : Nat} {s t x : α} (hsent : (v, t) ∈ w.sent)
      (hs : w.now.held v = some s) (hle : s ≤ x) (hleast : ∀ c, s ≤ c → t ≤ c → x ≤ c) :
      Step w (w.move (w.now.put v x w.now.version))

/-- A copy is no more than there is, and for whoever it comes first it is no less than there
was. -/
structure Copy (w : World α) (v : Nat) (t : α) : Prop where
  version : v ≤ w.now.version
  le : ∀ {k s}, w.now.Newest k s → t ≤ s
  ge : ∀ {p k s}, p ∈ w.all → p.Newest k s → k < v → s ≤ t

structure Inv (w : World α) : Prop where
  newest : ∀ p ∈ w.all, ∃ k s, p.Newest k s ∧ k ≤ p.version
  precedes : ∀ p ∈ w.all, p.Precedes p
  order : w.all.Pairwise Precedes
  copies : ∀ v t, (v, t) ∈ w.sent → w.Copy v t

/-- Everything so far precedes what is now. -/
theorem Inv.precedes_now (h : w.Inv) (hp : p ∈ w.all) : p.Precedes w.now := by
  rcases List.mem_append.mp hp with hpast | hnow
  · exact (List.pairwise_append.mp h.order).2.2 p hpast w.now (List.mem_singleton_self _)
  · rw [List.mem_singleton.mp hnow] at hp ⊢
    exact h.precedes w.now hp

theorem Inv.precedes_of_split (h : w.Inv) (hall : w.all = before ++ p :: after) :
    (∀ q ∈ before, q.Precedes p) ∧ ∀ q ∈ p :: after, p.Precedes q := by
  have hmem : ∀ q ∈ p :: after, q ∈ w.all := fun q hq => hall ▸ List.mem_append_right _ hq
  have horder := h.order
  rw [hall] at horder
  obtain ⟨-, hafter, hbefore⟩ := List.pairwise_append.mp horder
  refine ⟨fun q hq => hbefore q hq p List.mem_cons_self, fun q hq => ?_⟩
  rcases List.mem_cons.mp hq with rfl | hq
  · exact h.precedes q (hmem q List.mem_cons_self)
  · exact (List.pairwise_cons.mp hafter).1 q hq

/-- **No less than when it began.** -/
theorem Inv.found (h : w.Inv) (hall : w.all = before ++ p :: after)
    (hfound : Found p after v t) (hp : p.Newest k s) : s ≤ t := by
  obtain ⟨g, hg, ⟨q, hq, hqt⟩, hmissed⟩ := hfound.found
  obtain ⟨-, hsince⟩ := h.precedes_of_split hall
  have hmem : p ∈ w.all := hall ▸ List.mem_append_right _ List.mem_cons_self
  refine (hsince q hq).below hp ?_ hqt
  by_contra hlt
  -- the newest key when it began would have been asked, and found
  obtain ⟨k', s', hp', hk'⟩ := h.newest p hmem
  obtain ⟨rfl, rfl⟩ := hp.unique hp'
  have hkv : k ≤ v := hfound.begun ▸ hk'
  obtain ⟨q', hq', hnone⟩ := hmissed k (Nat.lt_of_not_le hlt) hkv
  obtain ⟨s', hs'⟩ := (hsince q' hq').stays hp.held
  rw [hnone] at hs'
  cases hs'

/-! ## Every step keeps the invariant -/

/-- What a release may put under its key: no less than there was for it, and no more than
there is, unless it is the release in use. -/
structure Puts (w : World α) (v : Nat) (x : α) (version : Nat) : Prop where
  le : v ≤ version
  version : w.now.version ≤ version
  earlier : ∀ {p k s}, p ∈ w.all → p.Newest k s → k ≤ v → s ≤ x
  now : ∀ {k s}, w.now.Newest k s → x ≤ s ∨ v = k ∧ w.now.version ≤ v

theorem Puts.le_newest {version : Nat} (h : Puts w v x version) (hw : w.now.Newest k s) :
    s ≤ if v < k then s else x := by
  split
  · exact le_rfl
  · next hge => exact h.earlier now_mem hw (Nat.le_of_not_lt hge)

theorem precedes_self (hp : p.Newest k s) (h : ∀ j t, p.held j = some t → t ≤ s) :
    p.Precedes p where
  version := Nat.le_refl _
  stays hj := ⟨_, hj⟩
  below hk hle hj := by
    obtain ⟨rfl, rfl⟩ := hk.unique hp
    obtain rfl := Nat.le_antisymm hle (hp.le_of_held hj)
    exact (Option.some.inj (hp.held.symm.trans hj)).le
  above hj hk := by
    obtain ⟨rfl, rfl⟩ := hk.unique hp
    exact h _ _ hj
  still hk hk' _ := by
    obtain ⟨-, rfl⟩ := hk.unique hk'
    exact le_rfl

/-- What was, precedes what is put. -/
theorem Puts.precedes {version : Nat} (h : w.Inv) (hput : Puts w v x version) (hp : p ∈ w.all) :
    p.Precedes (w.now.put v x version) := by
  have hnow := h.precedes_now hp
  obtain ⟨k, s, hw, -⟩ := h.newest w.now now_mem
  refine ⟨Nat.le_trans hnow.version hput.version, fun {j sj} hj => ?_,
    fun {kp sp j sj} hk hle hj => ?_, fun {j sj k' s'} hj hk' => ?_,
    fun {kp sp k' s'} hk hk' hlt => ?_⟩
  · by_cases hjv : j = v
    · subst hjv
      exact ⟨x, put_held_self⟩
    · rw [put_held_of_ne hjv]
      exact hnow.stays hj
  · by_cases hjv : j = v
    · subst hjv
      rw [put_held_self] at hj
      cases hj
      exact hput.earlier hp hk hle
    · rw [put_held_of_ne hjv] at hj
      exact hnow.below hk hle hj
  · obtain ⟨-, rfl⟩ := hk'.unique hw.put
    exact (hnow.above hj hw).trans (hput.le_newest hw)
  · obtain ⟨rfl, rfl⟩ := hk'.unique hw.put
    have hks : s ≤ sp := hnow.still hk hw (lt_of_le_of_lt (le_max_left k v) hlt)
    split
    · exact hks
    · rcases hput.now hw with hxs | ⟨-, hversion⟩
      · exact hxs.trans hks
      · -- the release in use puts under its own key
        have hvlt := lt_of_le_of_lt (le_max_right k v) hlt
        exact absurd (Nat.le_trans hnow.version hversion) (Nat.not_le_of_lt hvlt)

theorem Puts.precedes_self {version : Nat} (h : w.Inv) (hput : Puts w v x version) :
    (w.now.put v x version).Precedes (w.now.put v x version) := by
  obtain ⟨k, s, hw, -⟩ := h.newest w.now now_mem
  refine World.precedes_self hw.put fun j t hj => ?_
  by_cases hjv : j = v
  · subst hjv
    rw [put_held_self] at hj
    cases hj
    split
    · next hlt =>
        refine (hput.now hw).resolve_right fun heq => ?_
        exact absurd heq.1 (Nat.ne_of_lt hlt)
    · exact le_rfl
  · rw [put_held_of_ne hjv] at hj
    exact ((h.precedes_now now_mem).above hj hw).trans (hput.le_newest hw)

theorem Inv.put {version : Nat} (h : w.Inv) (hput : Puts w v x version) :
    (w.move (w.now.put v x version)).Inv := by
  obtain ⟨k, s, hw, hk⟩ := h.newest w.now now_mem
  refine ⟨fun p hp => ?_, fun p hp => ?_, ?_, fun v' t hsent => ?_⟩
  · rcases mem_move.mp hp with hp | rfl
    · exact h.newest p hp
    · exact ⟨_, _, hw.put, max_le (Nat.le_trans hk hput.version) hput.le⟩
  · rcases mem_move.mp hp with hp | rfl
    · exact h.precedes p hp
    · exact hput.precedes_self h
  · refine List.pairwise_append.mpr ⟨h.order, List.pairwise_singleton _ _, fun p hp q hq => ?_⟩
    rw [List.mem_singleton.mp hq]
    exact hput.precedes h hp
  · have hcopy := h.copies v' t hsent
    refine ⟨Nat.le_trans hcopy.version hput.version, fun hnew => ?_, fun hp hnew hlt => ?_⟩
    · obtain ⟨-, rfl⟩ := hnew.unique hw.put
      exact (hcopy.le hw).trans (hput.le_newest hw)
    · rcases mem_move.mp hp with hp | rfl
      · exact hcopy.ge hp hnew hlt
      · obtain ⟨rfl, rfl⟩ := hnew.unique hw.put
        have hst : s ≤ t := hcopy.ge now_mem hw (lt_of_le_of_lt (le_max_left k v) hlt)
        split
        · exact hst
        · rcases hput.now hw with hxs | ⟨-, hversion⟩
          · exact hxs.trans hst
          · -- no copy was sent to a newer key than that of the release in use
            have hvlt := lt_of_le_of_lt (le_max_right k v) hlt
            exact absurd (Nat.le_trans hcopy.version hversion) (Nat.not_le_of_lt hvlt)

theorem Inv.adopt (h : w.Inv) (hv : w.now.version ≤ v) :
    (w.move { w.now with version := v }).Inv := by
  have hnewest : ∀ {k s}, Newest { w.now with version := v } k s → w.now.Newest k s :=
    fun hnew => ⟨hnew.held, hnew.none_above⟩
  obtain ⟨k, s, hw, hk⟩ := h.newest w.now now_mem
  refine ⟨fun p hp => ?_, fun p hp => ?_, ?_, fun v' t hsent => ?_⟩
  · rcases mem_move.mp hp with hp | rfl
    · exact h.newest p hp
    · exact ⟨k, s, ⟨hw.held, hw.none_above⟩, Nat.le_trans hk hv⟩
  · rcases mem_move.mp hp with hp | rfl
    · exact h.precedes p hp
    · exact World.precedes_self ⟨hw.held, hw.none_above⟩ fun j t hj =>
        (h.precedes_now now_mem).above hj hw
  · refine List.pairwise_append.mpr ⟨h.order, List.pairwise_singleton _ _, fun p hp q hq => ?_⟩
    rw [List.mem_singleton.mp hq]
    have hnow := h.precedes_now hp
    exact ⟨Nat.le_trans hnow.version hv, hnow.stays, hnow.below,
      fun hj hnew => hnow.above hj (hnewest hnew),
      fun hk hnew => hnow.still hk (hnewest hnew)⟩
  · have hcopy := h.copies v' t hsent
    refine ⟨Nat.le_trans hcopy.version hv, fun hnew => hcopy.le (hnewest hnew),
      fun hp hnew hlt => ?_⟩
    rcases mem_move.mp hp with hp | rfl
    · exact hcopy.ge hp hnew hlt
    · exact hcopy.ge now_mem (hnewest hnew) hlt

/-- What a reader has found may be sent to its key. -/
theorem Inv.copy (h : w.Inv) (hall : w.all = before ++ p :: after) (hfound : Found p after v t) :
    w.Copy v t := by
  have hmem : ∀ q ∈ p :: after, q ∈ w.all := fun q hq => hall ▸ List.mem_append_right _ hq
  have hp := hmem p List.mem_cons_self
  obtain ⟨k, s, hnew, -⟩ := h.newest p hp
  obtain ⟨hbefore, hafter⟩ := h.precedes_of_split hall
  have hst : s ≤ t := h.found hall hfound hnew
  refine ⟨hfound.begun ▸ (h.precedes_now hp).version, fun hw => ?_,
    fun {q k' s'} hq hk' hlt => ?_⟩
  · obtain ⟨g, -, ⟨q, hq, hqt⟩, -⟩ := hfound.found
    exact (h.precedes_now (hmem q hq)).above hqt hw
  · rw [hall] at hq
    rcases List.mem_append.mp hq with hq | hq
    · exact ((hbefore q hq).above hk'.held hnew).trans hst
    · exact ((hafter q hq).still hnew hk' (hfound.begun ▸ hlt)).trans hst

theorem Inv.step (h : w.Inv) (hstep : Step w w') : w'.Inv := by
  obtain ⟨k, s, hw, hk⟩ := h.newest w.now now_mem
  have hnow := h.precedes_now now_mem
  cases hstep with
  | adopt hv => exact h.adopt hv
  | @write v s₀ x hv hs hle =>
      have hvk : v = k := Nat.le_antisymm (hw.le_of_held hs) (Nat.le_trans hk hv)
      subst hvk
      obtain rfl := Option.some.inj (hw.held.symm.trans hs)
      refine h.put ⟨Nat.le_refl _, hv, fun hp hnew _ => ?_, fun hnew => ?_⟩
      · exact ((h.precedes_now hp).above hnew.held hw).trans hle
      · exact .inr ⟨(hnew.unique hw).1.symm, hv⟩
  | @send before after p v t hall hfound =>
      refine ⟨h.newest, h.precedes, h.order, fun v' t' hsent => ?_⟩
      have hcopy : w.Copy v' t' := by
        rcases List.mem_append.mp hsent with hsent | hsent
        · exact h.copies v' t' hsent
        · cases List.mem_singleton.mp hsent
          exact h.copy hall hfound
      exact ⟨hcopy.version, hcopy.le, hcopy.ge⟩
  | @arrive v t hsent hnone =>
      have hcopy := h.copies v t hsent
      refine h.put ⟨hcopy.version, Nat.le_refl _, fun {p k' s'} hp hnew hle => ?_,
        fun hnew => .inl (hcopy.le hnew)⟩
      refine hcopy.ge hp hnew (lt_of_le_of_ne hle ?_)
      rintro rfl
      obtain ⟨_, hs⟩ := (h.precedes_now hp).stays hnew.held
      rw [hnone] at hs
      cases hs
  | @join v s₀ t x hsent hs hle hleast =>
      have hcopy := h.copies v t hsent
      refine h.put ⟨hcopy.version, Nat.le_refl _, fun hp hnew hkv => ?_,
        fun hnew => .inl (hleast _ (hnow.above hs hnew) (hcopy.le hnew))⟩
      exact ((h.precedes_now hp).below hnew hkv hs).trans hle

/-- **A reader gets all there was when it began.** -/
theorem Inv.found_all (h : w.Inv) (hall : w.all = before ++ p :: after)
    (hfound : Found p after v t) {j : Nat} (hq : q ∈ before ++ [p]) (hj : q.held j = some x) :
    x ≤ t := by
  have hp : p ∈ w.all := hall ▸ List.mem_append_right _ List.mem_cons_self
  obtain ⟨k, s, hnew, -⟩ := h.newest p hp
  have hst : s ≤ t := h.found hall hfound hnew
  rcases List.mem_append.mp hq with hq | hq
  · exact (((h.precedes_of_split hall).1 q hq).above hj hnew).trans hst
  · rw [List.mem_singleton.mp hq] at hj
    exact ((h.precedes p hp).above hj hnew).trans hst

/-- **Nothing is lost.** -/
theorem Inv.kept (h : w.Inv) : ∃ k s, w.now.held k = some s ∧
    ∀ q ∈ w.all, ∀ j x, q.held j = some x → x ≤ s := by
  obtain ⟨k, s, hnew, -⟩ := h.newest w.now now_mem
  exact ⟨k, s, hnew.held, fun q hq j x hj => (h.precedes_now hq).above hj hnew⟩

/-- At first there is one value. -/
theorem Inv.start (hp : p.held k = some s) (hk : k ≤ p.version)
    (hothers : ∀ j, j ≠ k → p.held j = none) : Inv ⟨[], p, []⟩ := by
  have hnew : p.Newest k s := ⟨hp, fun j hj => hothers j (Nat.ne_of_gt hj)⟩
  have hself : p.Precedes p := by
    refine precedes_self hnew fun j t hj => ?_
    by_cases hjk : j = k
    · subst hjk
      exact (Option.some.inj (hj.symm.trans hp)).le
    · rw [hothers j hjk] at hj
      cases hj
  refine ⟨fun q hq => ?_, fun q hq => ?_, List.pairwise_singleton _ _,
    fun v t hsent => absurd hsent List.not_mem_nil⟩
  · rw [List.mem_singleton.mp hq]
    exact ⟨k, s, hnew, hk⟩
  · rw [List.mem_singleton.mp hq]
    exact hself

end World

end Lib.Generations
