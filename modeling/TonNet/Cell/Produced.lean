import TonNet.Boc.Parse
import TonNet.Cell.Usage

namespace TonNet

variable [Sha256]

-- Every way to come by a cell. A slice and a Merkle update hand out references of cells or build
-- cells over them, so nothing else is needed.
inductive Produced : Cell → Prop
  | parsed {bytes : Bytes} {options : ParseOptions} {roots : List Cell} {c : Cell}
      (parse : parseBocWith bytes options = .ok roots) (root : c ∈ roots) : Produced c
  | reference {c r : Cell} (holder : Produced c) (held : r ∈ c.refs) : Produced r
  | built {builder : Builder} {c : Cell} (refs : ∀ r ∈ builder.refs, Produced r)
      (build : builder.build = .ok c) : Produced c
  | rebuilt {cell c : Cell} {refs : List Cell} (cell_produced : Produced cell)
      (refs_produced : ∀ r ∈ refs, Produced r) (rebuild : rebuildWithRefs cell refs = .ok c) :
      Produced c
  | proof {content c : Cell} (content_produced : Produced content)
      (create : createProof content = .ok c) : Produced c
  | update {old new c : Cell} (old_produced : Produced old) (new_produced : Produced new)
      (create : createUpdate old new = .ok c) : Produced c
  | pruned {tree : UsageTree} {c : Cell} (root : Produced tree.root) (prune : tree.prune = .ok c) :
      Produced c

end TonNet
