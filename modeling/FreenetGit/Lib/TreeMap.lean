/-
# `Lib.TreeMap` — loops over ordered maps, read key by key

An ordered map (`BTreeMap`) is `Std.ExtTreeMap`, whose equality is equality of
lookups.  A loop

    for (k, v) in m { step(&mut out, k, v) }

visits each key of `m` once, so if `step` touches `out` only at the key it is
given (`ActsAt`), the result can be read off key by key.  `getElem?_foldl` is
that fact; the loops that insert, insert-if-new or replace are its instances.
-/
import Mathlib

namespace Lib

open Std

variable {K V W : Type} [Ord K] [TransOrd K]

theorem mem_iff_getElem? {m : ExtTreeMap K V} {k : K} : k ∈ m ↔ ∃ v, m[k]? = some v := by
  rw [ExtTreeMap.mem_iff_isSome_getElem?, Option.isSome_iff_exists]

/-! ## Steps that act at one key -/

/-- A step of a loop acts only at the key it is given, by `g`. -/
def ActsAt (step : ExtTreeMap K W → K → V → ExtTreeMap K W)
    (g : K → V → Option W → Option W) : Prop :=
  ∀ out k v k', (step out k v)[k']? = if compare k k' = .eq then g k v out[k']? else out[k']?

/-- `out.insert(k, f(k, v))` for the entries the test keeps. -/
theorem actsAt_insertIf (p : K → V → Bool) (f : K → V → W) :
    ActsAt (fun (o : ExtTreeMap K W) k v => if p k v then o.insert k (f k v) else o)
      (fun k v e => if p k v then some (f k v) else e) := by
  intro out k v k'
  by_cases hp : p k v <;> simp [hp, ExtTreeMap.getElem?_insert]

theorem foldl_not_mem {step : ExtTreeMap K W → K → V → ExtTreeMap K W}
    {g : K → V → Option W → Option W} (hs : ActsAt step g) (k : K) :
    ∀ (l : List (K × V)) (out : ExtTreeMap K W), (∀ p ∈ l, ¬ compare p.1 k = .eq) →
      (l.foldl (fun o p => step o p.1 p.2) out)[k]? = out[k]?
  | [], _, _ => rfl
  | p :: l, out, h => by
      rw [List.foldl_cons, foldl_not_mem hs k l _ (fun q hq => h q (List.mem_cons_of_mem _ hq)),
        hs, if_neg (h p List.mem_cons_self)]

variable [LawfulEqOrd K]

/-- `out.entry(k).or_insert(v)`. -/
theorem actsAt_insertIfNew :
    ActsAt (fun (o : ExtTreeMap K V) k v => o.insertIfNew k v) (fun _ v e => some (e.getD v)) := by
  intro out k v k'
  rw [ExtTreeMap.getElem?_insertIfNew]
  by_cases hk : compare k k' = .eq
  · have hkk : k = k' := compare_eq_iff_eq.mp hk
    subst hkk
    by_cases hm : k ∈ out
    · rw [if_neg (fun h => h.2 hm), if_pos hk]
      obtain ⟨w, hw⟩ := mem_iff_getElem?.mp hm
      simp [hw]
    · rw [if_pos ⟨hk, hm⟩, if_pos hk, ExtTreeMap.getElem?_eq_none hm]
      rfl
  · rw [if_neg (fun h => hk h.1), if_neg hk]

/-- `let e = out.remove(k); out.insert(k, f(e, v))`. -/
theorem actsAt_replace (f : Option W → V → W) :
    ActsAt (fun (o : ExtTreeMap K W) k v => (o.erase k).insert k (f o[k]? v))
      (fun _ v e => some (f e v)) := by
  intro out k v k'
  rw [ExtTreeMap.getElem?_insert]
  by_cases hk : compare k k' = .eq
  · have hkk : k = k' := compare_eq_iff_eq.mp hk
    subst hkk
    simp
  · rw [if_neg hk, if_neg hk, ExtTreeMap.getElem?_erase, if_neg hk]

/-! ## The loop -/

theorem foldl_mem {step : ExtTreeMap K W → K → V → ExtTreeMap K W}
    {g : K → V → Option W → Option W} (hs : ActsAt step g) (k : K) (v : V) :
    ∀ (l : List (K × V)) (out : ExtTreeMap K W),
      l.Pairwise (fun a b => ¬ compare a.1 b.1 = .eq) → (k, v) ∈ l →
      (l.foldl (fun o p => step o p.1 p.2) out)[k]? = g k v out[k]?
  | [], _, _, h => absurd h List.not_mem_nil
  | p :: l, out, hd, h => by
      obtain ⟨hp, hd⟩ := List.pairwise_cons.mp hd
      rw [List.foldl_cons]
      rcases List.mem_cons.mp h with rfl | h
      · rw [foldl_not_mem hs k l _ fun q hq he => hp q hq (OrientedCmp.eq_symm he), hs,
          if_pos ReflOrd.compare_self]
      · rw [foldl_mem hs k v l _ hd h, hs, if_neg (hp (k, v) h)]

/-- **A loop over a map, key by key.** -/
theorem getElem?_foldl {step : ExtTreeMap K W → K → V → ExtTreeMap K W}
    {g : K → V → Option W → Option W} (hs : ActsAt step g) (m : ExtTreeMap K V)
    (out : ExtTreeMap K W) (k : K) :
    (m.foldl step out)[k]? =
      match m[k]? with
      | none => out[k]?
      | some v => g k v out[k]? := by
  rw [ExtTreeMap.foldl_eq_foldl_toList]
  cases h : m[k]? with
  | none =>
      refine foldl_not_mem hs k _ _ fun p hp he => ?_
      have hm : m[p.1]? = some p.2 := ExtTreeMap.mem_toList_iff_getElem?_eq_some.mp hp
      rw [compare_eq_iff_eq.mp he, h] at hm
      cases hm
  | some v =>
      exact foldl_mem hs k v _ _ ExtTreeMap.distinct_keys_toList
        (ExtTreeMap.mem_toList_iff_getElem?_eq_some.mpr h)

/-- A map with more keys has more entries. -/
theorem size_le_of_forall {m : ExtTreeMap K V} {m' : ExtTreeMap K W}
    (h : ∀ (k : K) (v : V), m[k]? = some v → ∃ v' : W, m'[k]? = some v') : m.size ≤ m'.size := by
  rw [← ExtTreeMap.length_keys, ← ExtTreeMap.length_keys]
  refine (ExtTreeMap.nodup_keys.subperm fun k hk => ?_).length_le
  rcases mem_iff_getElem?.mp (ExtTreeMap.mem_keys.mp hk) with ⟨v, hv⟩
  exact ExtTreeMap.mem_keys.mpr (mem_iff_getElem?.mpr (h k v hv))

theorem getElem?_insert_eq [DecidableEq K] {m : ExtTreeMap K V} {k k' : K} {v : V} :
    (m.insert k v)[k']? = if k = k' then some v else m[k']? := by
  rw [ExtTreeMap.getElem?_insert]
  exact if_congr compare_eq_iff_eq rfl rfl

/-- A map with one entry has no other. -/
theorem single_eq {k k' : K} {v v' : V}
    (h : ((∅ : ExtTreeMap K V).insert k v)[k']? = some v') : k' = k ∧ v' = v := by
  rw [ExtTreeMap.getElem?_insert] at h
  split at h
  · next heq => exact ⟨(compare_eq_iff_eq.mp heq).symm, (Option.some.inj h).symm⟩
  · cases h

omit [LawfulEqOrd K] in
theorem values_eq (m : ExtTreeMap K V) : m.values = m.toList.map Prod.snd := by
  have h : m.values = m.foldr (fun _ v l => v :: l) [] := by
    obtain ⟨⟨q⟩⟩ := m
    induction q using Quotient.inductionOn
    rfl
  rw [h, ExtTreeMap.foldr_eq_foldr_toList]
  induction m.toList with
  | nil => rfl
  | cons p l ih => rw [List.foldr_cons, ih, List.map_cons]

theorem mem_values {m : ExtTreeMap K V} {v : V} : v ∈ m.values ↔ ∃ k : K, m[k]? = some v := by
  rw [values_eq, List.mem_map]
  constructor
  · rintro ⟨p, hp, rfl⟩
    exact ⟨p.1, ExtTreeMap.mem_toList_iff_getElem?_eq_some.mp hp⟩
  · rintro ⟨k, hk⟩
    exact ⟨(k, v), ExtTreeMap.mem_toList_iff_getElem?_eq_some.mpr hk, rfl⟩

/-! ## Collecting entries -/

/-- `for a in l { if let Some((k, w)) = f(a) { out.insert(k, w); } }`, from an
empty map: of the entries of one key the last one stays. -/
def collect {α : Type} (f : α → Option (K × W)) (l : List α) : ExtTreeMap K W :=
  l.foldl (fun out a => match f a with
    | none => out
    | some e => out.insert e.1 e.2) ∅

omit [LawfulEqOrd K] in
theorem collect_concat {α : Type} (f : α → Option (K × W)) (l : List α) (a : α) :
    collect f (l ++ [a]) = match f a with
      | none => collect f l
      | some e => (collect f l).insert e.1 e.2 := by
  rw [collect, List.foldl_append]
  rfl

/-- What was collected is an entry of the list. -/
theorem of_collect {α : Type} {f : α → Option (K × W)} {l : List α} {k : K} {w : W}
    (h : (collect f l)[k]? = some w) : ∃ a ∈ l, f a = some (k, w) := by
  induction l using List.reverseRecOn with
  | nil =>
      change (∅ : ExtTreeMap K W)[k]? = some w at h
      rw [ExtTreeMap.getElem?_empty] at h
      cases h
  | append_singleton l a ih =>
      have hlast : a ∈ l ++ [a] := List.mem_append_right _ (List.mem_singleton_self a)
      have hold : (collect f l)[k]? = some w → ∃ b ∈ l ++ [a], f b = some (k, w) := fun h => by
        rcases ih h with ⟨b, hb, hf⟩
        exact ⟨b, List.mem_append_left _ hb, hf⟩
      rw [collect_concat] at h
      cases hf : f a with
      | none =>
          rw [hf] at h
          exact hold h
      | some e =>
          rw [hf] at h
          dsimp only at h
          rw [ExtTreeMap.getElem?_insert] at h
          split at h
          · next hk =>
              cases h
              exact ⟨a, hlast, by rw [hf, ← compare_eq_iff_eq.mp hk]⟩
          · exact hold h

omit [LawfulEqOrd K] in
/-- The key of every entry was collected. -/
theorem exists_collect {α : Type} {f : α → Option (K × W)} {l : List α} {a : α} {k : K} {w : W}
    (ha : a ∈ l) (hf : f a = some (k, w)) : ∃ w', (collect f l)[k]? = some w' := by
  induction l using List.reverseRecOn with
  | nil => cases ha
  | append_singleton l b ih =>
      rw [collect_concat]
      rcases List.mem_append.mp ha with ha | ha
      · rcases ih ha with ⟨w', hw'⟩
        cases hb : f b with
        | none => exact ⟨w', hw'⟩
        | some e =>
            dsimp only
            rw [ExtTreeMap.getElem?_insert]
            split
            · exact ⟨_, rfl⟩
            · exact ⟨w', hw'⟩
      · rw [← List.mem_singleton.mp ha, hf]
        exact ⟨w, ExtTreeMap.getElem?_insert_self⟩

/-- The last entry of a key stays. -/
theorem collect_last {α : Type} {f : α → Option (K × W)} {l l' : List α} {a : α} {k : K} {w : W}
    (ha : f a = some (k, w)) (hl' : ∀ b ∈ l', ∀ w', f b ≠ some (k, w')) :
    (collect f (l ++ a :: l'))[k]? = some w := by
  induction l' using List.reverseRecOn with
  | nil =>
      rw [collect_concat, ha]
      exact ExtTreeMap.getElem?_insert_self
  | append_singleton l' b ih =>
      have ih := ih fun c hc => hl' c (List.mem_append_left _ hc)
      have hb := hl' b (List.mem_append_right _ (List.mem_singleton_self b))
      rw [← List.cons_append, ← List.append_assoc, collect_concat]
      cases hfb : f b with
      | none => exact ih
      | some e =>
          dsimp only
          rw [ExtTreeMap.getElem?_insert, if_neg]
          · exact ih
          · intro he
            exact hb e.2 (by rw [hfb, ← compare_eq_iff_eq.mp he])

end Lib
