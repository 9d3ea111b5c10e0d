/-
# `FreenetGit.Unambiguous` — one reading for what is hashed and signed

Everything that a hash or a signature stands for is first written as bytes: a bundle
as canonical CBOR, an entry as a payload with length prefixes, the repository itself
as the input of its signature domain key.  Each of the three forms can be read in one
way only.  So a bundle id names one bundle (`canonical_encoding_unambiguous`), and a
signature authorises one entry of one repository (`payload_injective`).
-/
import FreenetGit.Encoding.Deterministic
import FreenetGit.Sample

namespace FreenetGit

open Lib canonical signed

/-! ## Bundle ids -/

/-- **Ids name bundles**, of both variants, where the hash does not collide on their
encodings. -/
theorem ObjectBundle.id_injOn {cr : Crypto} {S : Set ObjectBundle}
    (hcr : (ObjectBundle.encoding '' S).InjOn cr.blake3) : S.InjOn (ObjectBundle.id cr) := by
  intro b hb c hc h
  exact id_inj hcr (Set.mem_image_of_mem _ hb) (Set.mem_image_of_mem _ hc) h

/-- **Canonical CBOR has one reading.**  No encoding is a proper prefix of another, values with
equal encodings are equal, the order of insertion leaves no trace, the encoding is the one that
the rules of deterministic CBOR allow, and bundle ids are injective where the hash is. -/
theorem canonical_encoding_unambiguous :
    (∀ {v w : Value}, Constructed v → Constructed w → v.encode <+: w.encode → v = w) ∧
    (∀ {v w : Value}, Constructed v → Constructed w → v.encode = w.encode → v = w) ∧
    (∀ {l l' : List (Value × Value)} (b : MapBuilder), l.Perm l' →
      (∀ e ∈ l, Constructed e.1) → (l.map (·.1)).Nodup →
      (l.foldl (fun b e => b.entry e.1 e.2) b).build.encode =
        (l'.foldl (fun b e => b.entry e.1 e.2) b).build.encode) ∧
    (∀ {v : Value}, Constructed v → ∀ bs : Bytes, Deterministic v bs ↔ bs = v.encode) ∧
    (∀ (cr : Crypto) (S : Set ObjectBundle), (ObjectBundle.encoding '' S).InjOn cr.blake3 →
      S.InjOn (ObjectBundle.id cr)) := by
  refine ⟨fun hv hw h => hv.encode_prefix hw h, fun hv hw h => ?_, fun b hl hkeys hnodup => ?_,
    fun hv => hv.deterministic_iff, fun cr S hcr => ObjectBundle.id_injOn hcr⟩
  · exact hv.built.encode_inj hw.built h
  · rw [foldl_entry_perm b hl hkeys hnodup]

/-! ## Payloads -/

/-- **A signature authorises one entry.**  The payloads of two statements of any kinds, for any
two repositories, can be built where the fields are shorter than 4 GiB; they are equal only for
one repository, one kind and the same arguments.  The signature domain key is the hash of bytes
that only one prefix and owner have. -/
theorem Statement.payload_injective (cr : Crypto) (k k' : RepoKey) {st st' : Statement}
    (h : st.FieldsFit) (h' : st'.FieldsFit) :
    (∃ p p', st.payload cr k = some p ∧ st'.payload cr k' = some p' ∧
      (p = p' → k = k' ∧ SameArguments cr st st')) ∧
    ∀ (params params' : RepoParams) (owner owner' : PublicKey),
      signatureDomainKey cr params owner = cr.blake3 (repoKeyInput params owner) ∧
      (repoKeyInput params owner = repoKeyInput params' owner' →
        params = params' ∧ owner = owner') := by
  obtain ⟨p, hp⟩ := h.exists_payload cr k
  obtain ⟨p', hp'⟩ := h'.exists_payload cr k'
  refine ⟨⟨p, p', hp, hp', fun e => ?_⟩, fun params params' owner owner' => ⟨rfl, repoKeyInput_inj⟩⟩
  exact payload_sameArguments hp (e ▸ hp')

/-- One text as the name and as the description of a repository. -/
theorem Statement.payload_injective_name_description :
    ∃ p p', (Statement.name "demo" 1).payload Sample.unsigned (zeros 32) = some p ∧
      (Statement.description "demo" 1).payload Sample.unsigned (zeros 32) = some p' ∧ p ≠ p' := by
  have hname : (name "demo" 1).FieldsFit := (by decide : (utf8 "demo").length < 2 ^ 32)
  have hdescription : (description "demo" 1).FieldsFit :=
    (by decide : (utf8 "demo").length < 2 ^ 32)
  obtain ⟨⟨p, p', hp, hp', h⟩, -⟩ :=
    payload_injective Sample.unsigned (zeros 32) (zeros 32) hname hdescription
  refine ⟨p, p', hp, hp', fun e => ?_⟩
  have hsame := (h e).2
  simp [SameArguments] at hsame

end FreenetGit
