/-
# `FreenetGit.Sample` — an owner with a table of signatures

An instance of `Crypto` that can be evaluated: the owner is the all-zero key,
whose base58 is a row of ones, the hash is the end of its input, and the
signatures that verify are those of a table of statements.  Each signature
stands for the payload of its first statement in the table, so that it verifies
for no other (`sample_onePayload`).
-/
import FreenetGit.Validate

namespace FreenetGit

open Lib

/-- One signature verifies under one key for at most one payload. -/
def OnePayload (cr : Crypto) : Prop :=
  ∀ pk p p' sig, cr.verify pk p sig = true → cr.verify pk p' sig = true → p = p'

namespace Sample

/-- The last 32 bytes of the input, last byte first. -/
def hash (bs : Bytes) : Vector UInt8 32 :=
  ⟨((bs.reverse ++ List.replicate 32 0).take 32).toArray, by simp⟩

def owner : PublicKey := zeros 32

def params : RepoParams := ⟨"1111"⟩

/-- A signature that is told from others by its first byte. -/
def sig (n : UInt8) : Signature := (zeros 64).set 0 n

/-- The functions of other packages, without signatures. -/
def unsigned : Crypto where
  blake3 := hash
  verify _ _ _ := false
  bs58Encode _ := "11111111111111111111111111111111"
  bs58Decodes _ := true
  bincodeError _ := ""

/-- The payload a signature of the table stands for. -/
def signedBy (table : List (Statement × Signature)) (σ : Signature) : Option Bytes :=
  (table.find? fun e => e.2 = σ).bind fun e =>
    e.1.payload unsigned (paramsRepoKey unsigned params owner)

/-- The functions of other packages, with the owner's signatures of the table. -/
def crypto (table : List (Statement × Signature)) : Crypto :=
  { unsigned with verify := fun pk p σ => pk = owner ∧ signedBy table σ = some p }

end Sample

theorem sample_onePayload (table : List (Statement × Signature)) :
    OnePayload (Sample.crypto table) := by
  intro pk p p' σ h h'
  have h := (of_decide_eq_true h).2
  have h' := (of_decide_eq_true h').2
  exact Option.some.inj (h.symm.trans h')

/-! ## What the table accepts -/

namespace Sample

theorem sig_inj {m n : UInt8} (h : sig m = sig n) : m = n := by
  have h := congrArg (fun v : Signature => v[0]) h
  simpa [sig] using h

theorem nodup_sigs {l : List UInt8} (h : l.Nodup) : (l.map sig).Nodup := h.map fun _ _ => sig_inj

theorem table_prefixOk (table : List (Statement × Signature)) :
    PrefixOk (crypto table) params owner := by
  have h : pubkeyPrefix unsigned owner (utf8 params.prefixStr).length = params.prefixStr := by
    decide
  exact ⟨by decide, by decide, rfl, h⟩

/-- What tells the elements of a list apart finds each of them. -/
theorem find_of_mem {α β : Type} [DecidableEq β] {f : α → β} {l : List α} (hnodup : (l.map f).Nodup)
    {a : α} (h : a ∈ l) : (l.find? fun b => f b = f a) = some a := by
  have hfound : (l.find? fun b => f b = f a).isSome = true :=
    List.find?_isSome.mpr ⟨a, h, decide_eq_true rfl⟩
  obtain ⟨b, hb⟩ := Option.isSome_iff_exists.mp hfound
  have heq : f b = f a := by simpa using List.find?_some hb
  rw [hb, List.inj_on_of_nodup_map hnodup (List.mem_of_find?_eq_some hb) h heq]

section

variable {table : List (Statement × Signature)} (hnodup : (table.map (·.2)).Nodup)

include hnodup

/-- A signature of the table verifies for its statement. -/
theorem signed_of_mem {st : Statement} {σ : Signature} (h : (st, σ) ∈ table)
    (hst : st.WithinLimits) : Signed (crypto table) params owner st σ := by
  obtain ⟨p, hp⟩ := hst.exists_payload unsigned (paramsRepoKey unsigned params owner)
  have hby : signedBy table σ = some p := by
    rw [signedBy, find_of_mem hnodup h]
    exact hp
  have hpayload : st.payload (crypto table) (paramsRepoKey (crypto table) params owner) =
      some p := by
    cases st <;> exact hp
  exact ⟨p, hpayload, decide_eq_true ⟨rfl, hby⟩⟩

/-- **A state of the owner is accepted** if the table has what its entries say. -/
theorem accepted_of_table {s : RepoState} (howner : s.owner = owner)
    (hentry : ∀ st σ, Says s st σ → (st, σ) ∈ table ∧ st.WithinLimits)
    (hrefs : ∀ (n : RefName) (e : RefEntry), s.refs[n]? = some e → e.updater = owner)
    (hrecords : ∀ (id : ObjectBundleId) (r : ObjectBundleRecord), s.objectIndex[id]? = some r →
      r.bundle.id unsigned = id ∧ r.addedBy = owner) :
    Accepted (crypto table) params s where
  prefixOk := howner ▸ table_prefixOk table
  nameLen _ hf := (hentry _ _ (.name hf)).2
  descriptionLen _ hf := (hentry _ _ (.description hf)).2
  defaultBranchLen _ hf := (hentry _ _ (.defaultBranch hf)).2
  refOk n e he := ⟨(hentry _ _ (.ref he)).2, (hrefs n e he).trans howner.symm⟩
  bundleOk id r hr := (hrecords id r hr).imp_right fun h => h.trans howner.symm
  extensionOk _ _ he := (hentry _ _ (.extension he)).2
  signed st σ h := howner ▸ signed_of_mem hnodup (hentry st σ h).1 (hentry st σ h).2

end

end Sample

end FreenetGit
