import FreenetGit.Lib.Bytes
import FreenetGit.Lib.TreeMap
import FreenetGit.Lib.Framing
import FreenetGit.Lib.Lww
import FreenetGit.Types
import FreenetGit.Encoding.Canonical
import FreenetGit.Encoding.Deterministic
import FreenetGit.Encoding.Signed
import FreenetGit.Payload
import FreenetGit.Lib.Checks
import FreenetGit.Validate
import FreenetGit.Merge
import FreenetGit.Sample
import FreenetGit.Convergence
import FreenetGit.Lib.Codec
import FreenetGit.Signer
import FreenetGit.Sync
import FreenetGit.Bincode
import FreenetGit.Contract
import FreenetGit.Lib.Hex
import FreenetGit.Signing
import FreenetGit.TipKeys
import FreenetGit.Push
import FreenetGit.Lib.Run
import FreenetGit.Concurrent
import FreenetGit.Lib.Text
import FreenetGit.Url
import FreenetGit.Git
import FreenetGit.Objects
import FreenetGit.Lib.Loop
import FreenetGit.Lib.Worklist
import FreenetGit.Lib.Gossip
import FreenetGit.Lib.Generations
import FreenetGit.Walk
import FreenetGit.Frontier
import FreenetGit.Fetch
import FreenetGit.Lib.Refill
import FreenetGit.Rescue
import FreenetGit.RescueLoop
import FreenetGit.Complete
import FreenetGit.Rounds
import FreenetGit.Chunked
import FreenetGit.Publish
import FreenetGit.PackCache
import FreenetGit.DiskCache
import FreenetGit.Legacy
import FreenetGit.WsClient
import FreenetGit.Probing
import FreenetGit.ChunkedFetch
import FreenetGit.Manifest
import FreenetGit.Bundling
import FreenetGit.Wire
import FreenetGit.PushRun
import FreenetGit.PushFetch
import FreenetGit.LinearHistory
import FreenetGit.LocalPack
import FreenetGit.Rescuing
import FreenetGit.Restored
import FreenetGit.Reconstruct
import FreenetGit.LineFetch
import FreenetGit.RefTips
import FreenetGit.Lib.Files
import FreenetGit.Lib.Directory
import FreenetGit.Lib.Behaviour
import FreenetGit.Lib.Workers
import FreenetGit.Identity
import FreenetGit.Create
import FreenetGit.Sealing
import FreenetGit.Opening
import FreenetGit.PackContract
import FreenetGit.Monotone
import FreenetGit.Bootstrap
import FreenetGit.Exchange
import FreenetGit.Gossip
import FreenetGit.Migration
import FreenetGit.PushEffect
import FreenetGit.Unambiguous
import FreenetGit.Dangling
import FreenetGit.Listing
import FreenetGit.Helper
