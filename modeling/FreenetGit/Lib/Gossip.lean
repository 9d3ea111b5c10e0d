/-
# `Lib.Gossip` — who has heard what

Replicas hear of things from outside, send what they know, and receive what was
sent.  Nothing is taken out of the mail, so a message may arrive late, twice or
never, and anywhere.  What a replica knows is a set that only grows
(`Knowledge.heard_subset_run`).  Once nothing comes from outside any more, a
replica that has received something from every other one knows all there is
(`Knowledge.Known.heard_run_eq_all`).
-/
import Mathlib.Data.Set.Lattice

namespace Lib.Gossip

variable {ι κ : Type}

inductive Event (ι κ : Type) where
  /-- Something comes from outside. -/
  | learn (p : ι) (news : Set κ)
  | send (p : ι)
  /-- A replica receives a message, by its place in the mail. -/
  | receive (p : ι) (n : Nat)

/-- What an event brings from outside. -/
def Event.news : Event ι κ → Set κ
  | learn _ news => news
  | send _ | receive _ _ => ∅

/-- What each replica has heard of, and what each message in the mail tells. -/
structure Knowledge (ι κ : Type) where
  heard : ι → Set κ
  mail : List (Set κ)

namespace Knowledge

def empty : Knowledge ι κ := ⟨fun _ => ∅, []⟩

def learn (k : Knowledge ι κ) (p : ι) (news : Set κ) : Knowledge ι κ :=
  { k with heard := fun q => k.heard q ∪ {x | q = p ∧ x ∈ news} }

def after (k : Knowledge ι κ) : Event ι κ → Knowledge ι κ
  | .learn p news => k.learn p news
  | .send p => { k with mail := k.mail ++ [k.heard p] }
  | .receive p n => k.learn p (k.mail[n]?.getD ∅)

def run (k : Knowledge ι κ) (es : List (Event ι κ)) : Knowledge ι κ := es.foldl after k

variable {k : Knowledge ι κ} {p q : ι} {news : Set κ} {e : Event ι κ} {es : List (Event ι κ)}

@[simp] theorem learn_heard_self : (k.learn p news).heard p = k.heard p ∪ news := by
  simp [learn]

theorem learn_heard_of_ne (h : q ≠ p) : (k.learn p news).heard q = k.heard q := by
  simp [learn, h]

theorem after_receive (n : Nat) :
    k.after (.receive p n) = k.learn p (k.mail[n]?.getD ∅) := rfl

@[simp] theorem run_nil : k.run [] = k := rfl

@[simp] theorem run_cons : k.run (e :: es) = (k.after e).run es := rfl

theorem run_append (es' : List (Event ι κ)) : k.run (es ++ es') = (k.run es).run es' :=
  List.foldl_append

/-! ## Knowledge grows -/

theorem heard_subset_after (p : ι) : k.heard p ⊆ (k.after e).heard p := by
  cases e with
  | learn q news => exact Set.subset_union_left
  | send q => exact subset_rfl
  | receive q n => exact Set.subset_union_left

theorem heard_subset_run (p : ι) : k.heard p ⊆ (k.run es).heard p := by
  induction es generalizing k with
  | nil => exact subset_rfl
  | cons e es ih => exact heard_subset_after p |>.trans ih

theorem mail_of_after {n : Nat} {m : Set κ} (h : k.mail[n]? = some m) :
    (k.after e).mail[n]? = some m := by
  cases e with
  | learn q news => exact h
  | send q =>
      obtain ⟨hn, -⟩ := List.getElem?_eq_some_iff.mp h
      exact (List.getElem?_append_left hn).trans h
  | receive q n => exact h

theorem mail_of_run {n : Nat} {m : Set κ} (h : k.mail[n]? = some m) :
    (k.run es).mail[n]? = some m := by
  induction es generalizing k with
  | nil => exact h
  | cons e es ih => exact ih (mail_of_after h)

/-- What was sent is known where it has been received. -/
theorem heard_of_exchange {before between rest : List (Event ι κ)}
    (hes : es = before ++ .send q :: between ++ .receive p (k.run before).mail.length :: rest) :
    k.heard q ⊆ (k.run es).heard p := by
  have hstart : k.heard q ⊆ (k.run before).heard q := heard_subset_run q
  have hsent : ((k.run before).after (.send q)).mail[(k.run before).mail.length]? =
      some ((k.run before).heard q) := List.getElem?_concat_length
  have hmail : (((k.run before).after (.send q)).run between).mail[(k.run before).mail.length]? =
      some ((k.run before).heard q) := mail_of_run hsent
  rw [hes, run_append, run_append, run_cons, run_cons, after_receive, hmail]
  refine hstart.trans (Set.Subset.trans ?_ (heard_subset_run p))
  rw [Option.getD_some, learn_heard_self]
  exact Set.subset_union_right

/-! ## Nothing from outside -/

/-- All that any replica has heard of. -/
def all (k : Knowledge ι κ) : Set κ := ⋃ p, k.heard p

theorem heard_subset_all (p : ι) : k.heard p ⊆ k.all := Set.subset_iUnion k.heard p

/-- A message tells what some replica knows. -/
def Known (k : Knowledge ι κ) : Prop := ∀ m ∈ k.mail, m ⊆ k.all

theorem known_empty : (empty : Knowledge ι κ).Known := fun _ hm => absurd hm List.not_mem_nil

theorem all_learn : (k.learn p news).all = k.all ∪ news := by
  refine Set.Subset.antisymm (Set.iUnion_subset fun q => ?_) (Set.union_subset ?_ ?_)
  · exact Set.union_subset_union (heard_subset_all q) fun x hx => hx.2
  · exact Set.iUnion_mono fun q => Set.subset_union_left
  · exact (learn_heard_self ▸ Set.subset_union_right).trans (heard_subset_all p)

theorem Known.getD (h : k.Known) (n : Nat) : k.mail[n]?.getD ∅ ⊆ k.all := by
  cases hn : k.mail[n]? with
  | none => exact Set.empty_subset _
  | some m => exact h m (List.mem_of_getElem? hn)

theorem Known.after (h : k.Known) : (k.after e).Known := by
  cases e with
  | learn q news => exact fun m hm => (h m hm).trans (all_learn ▸ Set.subset_union_left)
  | receive q n => exact fun m hm => (h m hm).trans (all_learn ▸ Set.subset_union_left)
  | send q =>
      intro m hm
      rcases List.mem_append.mp hm with hm | hm
      · exact h m hm
      · rw [List.mem_singleton.mp hm]
        exact heard_subset_all q

theorem Known.run (h : k.Known) : (k.run es).Known := by
  induction es generalizing k with
  | nil => exact h
  | cons e es ih => exact ih h.after

theorem Known.all_after (h : k.Known) : (k.after e).all = k.all ∪ e.news := by
  cases e with
  | learn q news => exact all_learn
  | send q => exact (Set.union_empty _).symm
  | receive q n =>
      rw [after_receive, all_learn, Event.news, Set.union_empty]
      exact Set.union_eq_self_of_subset_right (h.getD n)

/-- All that is known was known before, or came from outside. -/
theorem Known.all_run (h : k.Known) : (k.run es).all = k.all ∪ {x | ∃ e ∈ es, x ∈ e.news} := by
  induction es generalizing k with
  | nil => simp
  | cons e es ih =>
      rw [run_cons, ih h.after, h.all_after, Set.union_assoc]
      congr 1
      ext x
      simp

/-- **Everybody knows.**  When nothing comes from outside, a replica that has received a
message from each of the others knows all there is. -/
theorem Known.heard_run_eq_all (h : k.Known) (hes : ∀ e ∈ es, e.news = ∅)
    (hheard : ∀ q, q ≠ p → k.heard q ⊆ (k.run es).heard p) : (k.run es).heard p = k.all := by
  have hnews : {x | ∃ e ∈ es, x ∈ e.news} = ∅ := by
    refine Set.eq_empty_of_forall_notMem ?_
    rintro x ⟨e, he, hx⟩
    rw [hes e he] at hx
    exact hx
  refine Set.Subset.antisymm ?_ (Set.iUnion_subset fun q => ?_)
  · rw [← Set.union_empty k.all, ← hnews, ← h.all_run]
    exact heard_subset_all p
  · by_cases hq : q = p
    · subst hq
      exact heard_subset_run q
    · exact hheard q hq

end Knowledge

end Lib.Gossip
