/-
# `FreenetGit.Git` — the git commands that the helper runs

Each question to the repository is a process: it may fail to start, and ends
with a status and two byte streams.  What a repository `db` answers is a
parameter (`Git`); here are the helper's functions around the commands, with
their texts.  `git_commit_parents` reads the `parent` headers of a commit from
lossily decoded text and stops at the first empty line.
-/
import FreenetGit.Lib.Text
import FreenetGit.Lib.Hex
import FreenetGit.Types

namespace FreenetGit

open Lib

/-- How a process ended (`std::process::Output`), with the text of its status. -/
structure CmdOutput where
  code : Option Int
  status : String
  stdout : Bytes
  stderr : Bytes

def CmdOutput.success (out : CmdOutput) : Bool := out.code == some 0

/-- What the commands do in a repository with object database `db`; `none` is a
process that did not start. -/
structure Git (D : Type) where
  /-- `git rev-parse --verify --quiet <rev>`. -/
  revParse : D → String → Option CmdOutput
  /-- `git cat-file -e <sha>`. -/
  catFileExists : D → String → Option CmdOutput
  /-- `git cat-file commit <sha>`. -/
  catFileCommit : D → String → Option CmdOutput
  /-- `git index-pack --stdin --keep`, fed with a pack; the error is the text of
  a failing start, write or wait. -/
  indexPack : D → Bytes → Except String CmdOutput × D

variable {D : Type} (git : Git D) (db : D)

/-! ## Yes or no -/

/-- `{:?}` of an exit code. -/
def debugCode : Option Int → String
  | none => "None"
  | some n => "Some(" ++ toString n ++ ")"

def trimmedLossy (bs : Bytes) : String := String.ofList (trim (lossy bs))

/-- Status 0 is yes and status 1 is no. -/
def askGit (cmd what : String) : Option CmdOutput → Outcome String Bool
  | none => .error (.err ("spawn " ++ cmd))
  | some out =>
      if out.success then .ok true
      else if out.code = some 1 then .ok false
      else .error (.err ("git " ++ what ++ " failed (status=" ++ debugCode out.code ++ "): " ++
        trimmedLossy out.stderr))

/-- `commit_exists`. -/
def commitExists (sha : String) : Outcome String Bool :=
  askGit "git rev-parse" ("rev-parse " ++ sha ++ "^{commit}") (git.revParse db (sha ++ "^{commit}"))

/-- `any_object_exists`. -/
def anyObjectExists (sha : String) : Outcome String Bool :=
  askGit "git cat-file -e" ("cat-file -e " ++ sha) (git.catFileExists db sha)

/-! ## The parents of a commit -/

/-- The hash of a header, two characters at a time.  A slice of two bytes that
cuts a character panics, one that is a single character is no number. -/
def parentBytes (sha : List Char) : List Char → Outcome String Bytes
  | [] => .ok []
  | [c] => if c.utf8Size = 2 then invalid else .error .panicked
  | c :: d :: cs =>
      if c.utf8Size = 1 then
        if d.utf8Size = 1 then
          match radixPair c d with
          | none => invalid
          | some n => do
              let bytes ← parentBytes sha cs
              .ok (UInt8.ofNat n :: bytes)
        else .error .panicked
      else if c.utf8Size = 2 then invalid
      else .error .panicked
where
  invalid : Outcome String Bytes :=
    .error (.err ("git cat-file emitted invalid parent hex " ++ String.ofList sha ++
      ": invalid digit found in string"))

/-- The value of a `parent` header; its length is counted in bytes. -/
def parentHash (sha : List Char) : Outcome String CommitHash :=
  if (sha.map Char.utf8Size).sum ≠ 40 then
    .error (.err ("git cat-file emitted a parent header with a non-40-char sha: " ++
      debug sha))
  else do
    let bytes ← parentBytes sha sha
    match toArray? 20 bytes with
    | none => .error .panicked
    | some p => .ok p

/-- The headers up to the first empty line. -/
def parentLines : List (List Char) → Outcome String (List CommitHash)
  | [] => .ok []
  | line :: rest =>
      if line = [] then .ok []
      else if "parent ".toList.isPrefixOf line then do
        let p ← parentHash (trim (line.drop 7))
        let ps ← parentLines rest
        .ok (p :: ps)
      else parentLines rest

/-- `git_commit_parents`. -/
def gitCommitParents (sha : String) : Outcome String (List CommitHash) :=
  match git.catFileCommit db sha with
  | none => .error (.err "spawn git cat-file commit")
  | some out =>
      if out.success then parentLines (lines (lossy out.stdout))
      else .error (.err ("git cat-file commit " ++ sha ++ " failed: " ++ trimmedLossy out.stderr))

/-! ## Installing a pack -/

/-- `install_pack`. -/
def installPack (pack : Bytes) : Outcome String D :=
  match git.indexPack db pack with
  | (.error e, _) => .error (.err e)
  | (.ok out, db') =>
      if out.success then .ok db' else .error (.err ("git index-pack failed: " ++ out.status))

/-- `hex_encode_commit`. -/
def hexEncodeCommit (c : CommitHash) : String := hexEncode c.toList

section

variable {git : Git D} {db : D}

theorem askGit_yes {cmd what : String} {out : CmdOutput} (h : out.code = some 0) :
    askGit cmd what (some out) = .ok true := by
  rw [askGit, CmdOutput.success, h]
  rfl

theorem askGit_no {cmd what : String} {out : CmdOutput} (h : out.code = some 1) :
    askGit cmd what (some out) = .ok false := by
  rw [askGit, CmdOutput.success, h]
  rfl

/-- Installing a pack leaves the database that `index-pack` made. -/
theorem installPack_eq_ok {pack : Bytes} {db' : D} (h : installPack git db pack = .ok db') :
    db' = (git.indexPack db pack).2 := by
  rw [installPack] at h
  split at h
  · cases h
  · next heq =>
      split at h
      · cases h
        rw [heq]
      · cases h

end

end FreenetGit
