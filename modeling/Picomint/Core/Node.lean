/-
Node identities, mint sizes and the opaque byte strings shared by all layers.

Hashes, keys and signatures are big-endian integers without a width bound, so
that an injective hash function exists; their order is the byte order.
-/

import Picomint.Lib.VirtualVoting

namespace Picomint

/-- A `sha256::Hash` as a big-endian integer. -/
abbrev Hash := Nat

/-- A `schnorr::Signature` as a big-endian integer. -/
abbrev Signature := Nat

abbrev NodeId := Nat

/-- `NumNodes` stores `f`, so every derived quantity is one multiplication or
addition. -/
structure NumNodes where
  maxEvil : Nat
deriving DecidableEq, Repr

namespace NumNodes

def total (n : NumNodes) : Nat := 3 * n.maxEvil + 1

def oneHonest (n : NumNodes) : Nat := n.maxEvil + 1

def threshold (n : NumNodes) : Nat := 2 * n.maxEvil + 1

def nodeIds (n : NumNodes) : List NodeId := List.range n.total

theorem mem_nodeIds (n : NumNodes) (node : NodeId) : node ∈ n.nodeIds ↔ node < n.total :=
  List.mem_range

/-- The nodes of a mint with the given Byzantine ones. -/
def committee (n : NumNodes) (byzantine : Finset NodeId) (bound : byzantine.card ≤ n.maxEvil) :
    VirtualVoting.Committee NodeId where
  members := Finset.range n.total
  faulty := byzantine
  tolerance := n.maxEvil
  size := Finset.card_range n.total
  faultyBound := bound

@[simp] theorem committee_quorum (n : NumNodes) (byzantine : Finset NodeId)
    (bound : byzantine.card ≤ n.maxEvil) : (n.committee byzantine bound).quorum = n.threshold := rfl

end NumNodes

end Picomint
