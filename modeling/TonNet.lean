import TonNet.Proof.Theorems.Merkle
import TonNet.Cell.Dict
import TonNet.Tlb.Block
import TonNet.Tlb.Account
import TonNet.Tlb.Shard
import TonNet.Proof.Account
import TonNet.Cell.Theorems.Same
import TonNet.Cell.Theorems.Dict
import TonNet.Tlb.Theorems.Same
import TonNet.Proof.Theorems.Covered
import TonNet.Proof.Theorems.Account
import TonNet.Lib.Keyed
import TonNet.Proof.Validators
import TonNet.Proof.Chain
import TonNet.Proof.Theorems.Weight
import TonNet.Proof.Theorems.Validators
import TonNet.Proof.Theorems.Chain
import TonNet.Proof.Theorems.Agreement
import TonNet.Client.Error
import TonNet.Client.Sync
import TonNet.Client.Theorems.Sync
import TonNet.Boc.Plan
import TonNet.Boc.Theorems.Waves
import TonNet.Lib.Settle
import TonNet.Boc.Theorems.Plan
import TonNet.Boc.Theorems.Header
import TonNet.Boc.Theorems.View
import TonNet.Boc.Theorems.Area
import TonNet.Boc.Lazy
import TonNet.Boc.Theorems.Lazy
import TonNet.Boc.Serialize
import TonNet.Boc.Theorems.Topological
import TonNet.Boc.Theorems.Written
import TonNet.Boc.Theorems.Bag
import TonNet.Boc.Theorems.RoundTrip
import TonNet.Cell.Dict.Shape
import TonNet.Lib.Radix
import TonNet.Cell.Dict.Aug
import TonNet.Cell.Dict.Plain
import TonNet.Cell.Dict.Prefix
import TonNet.Cell.Dict.Theorems.Label
import TonNet.Cell.Dict.Theorems.Tree
import TonNet.Boc.Theorems.Formed
import TonNet.Cell.Dict.Theorems.Edit
import TonNet.Cell.Theorems.Cut
import TonNet.Client.Theorems.Bounds
import TonNet.Proof.Theorems.Heights
import TonNet.Proof.Theorems.Members
import TonNet.Tlb.Theorems.Shard
import TonNet.Boc.Theorems.History
import TonNet.Cell.Theorems.Combine
import TonNet.Cell.Dict.Theorems.Bulk
import TonNet.Cell.Dict.Theorems.Listing
import TonNet.Cell.Dict.Theorems.Prefix
import TonNet.Cell.Dict.Theorems.PrefixFree
import TonNet.Adnl.Connection
import TonNet.Adnl.Theorems.Connection
import TonNet.Cell.Codec
import TonNet.Cell.Dict.Floor
import TonNet.Cell.Dict.Theorems.Aug
import TonNet.Cell.Dict.Theorems.Floor
import TonNet.Cell.Dict.Theorems.Merge
import TonNet.Cell.Dict.Theorems.Retain
import TonNet.Cell.Dict.Theorems.Subdict
import TonNet.Cell.Dict.Theorems.Traverse
import TonNet.Cell.Dict.Theorems.Validate
import TonNet.Cell.Loads
import TonNet.Cell.Stores
import TonNet.Cell.Theorems.Atomic
import TonNet.Cell.Theorems.Codec
import TonNet.Cell.Theorems.Either
import TonNet.Cell.Theorems.Ops
import TonNet.Cell.Theorems.Window
import TonNet.Codec
import TonNet.Theorems.Codec
import TonNet.Address
import TonNet.Boc.Large
import TonNet.Boc.Theorems.Checksum
import TonNet.Boc.Theorems.Large
import TonNet.Boc.Theorems.Reached
import TonNet.Cell.Dict.Theorems.Linked
import TonNet.Cell.Dict.Theorems.Rewrite
import TonNet.Theorems.Address
import TonNet.Cell.Dict.Theorems.Pruned
import TonNet.Adnl.Theorems.Answers
import TonNet.Boc.Compress
import TonNet.Boc.Theorems.Compress
import TonNet.Cell.Tracing
import TonNet.Client.Net
import TonNet.Client.Theorems.Connect
import TonNet.Proof.Theorems.Replay
