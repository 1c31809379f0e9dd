import MachineEmulator.BackMerkleTree.Basic

namespace cartesi
namespace back_merkle_tree

variable {Hash : Type}

/-- `depth` in the source, `log2_root_size - log2_leaf_size`, as a height. -/
def depth (t : back_merkle_tree Hash) : Nat := (t.log2_root_size - t.log2_leaf_size).toNat

variable [Inhabited Hash] (H : Hash → Hash → Hash)

/-- The spine invariant: for every bit `i ≤ depth` set in the number of pushed
    leaves, `context[i]` holds the hash of the `2 ^ i` leaves that start where bits
    `0 .. i` of that number are cleared. Entries under clear bits are free. -/
def Spine (leaves context : List Hash) (depth : Nat) : Prop :=
  ∀ i ≤ depth, leaves.length.testBit i = true →
    context[i]? = some (merkleRoot H i
      ((leaves.drop (leaves.length - leaves.length % 2 ^ (i + 1))).take (2 ^ i)))

/-- What holds of a tree into which `leaves` were pushed since its construction: the
    sizes the constructor checked, the members it sized, the count and the spine. -/
structure Represents (t : back_merkle_tree Hash) (leaves : List Hash) : Prop where
  leaf_size_nonneg : 0 ≤ t.log2_leaf_size
  leaf_le_root : t.log2_leaf_size ≤ t.log2_root_size
  root_lt_digits : t.log2_root_size < address_type_digits
  pristine_root : t.pristine_hashes.log2_root_size = t.log2_root_size
  pristine_word_le : t.pristine_hashes.log2_word_size ≤ t.log2_leaf_size
  max_leaves_eq : t.max_leaves = 2 ^ t.depth
  context_length : t.context.length = t.depth + 1
  leaf_count_eq : t.leaf_count = leaves.length
  length_le : leaves.length ≤ 2 ^ t.depth
  spine : Spine H leaves t.context t.depth

namespace Represents

variable {H} {t : back_merkle_tree Hash} {leaves : List Hash}

theorem root_eq (hrep : Represents H t leaves) :
    t.log2_root_size = t.log2_leaf_size + t.depth := by
  have := hrep.leaf_le_root
  unfold depth
  omega

theorem depth_lt (hrep : Represents H t leaves) : t.depth < address_type_digits := by
  have := hrep.root_eq
  have := hrep.root_lt_digits
  have := hrep.leaf_size_nonneg
  unfold address_type_digits at *
  omega

/-- `int depth = m_log2_root_size - m_log2_leaf_size` does not overflow. -/
theorem intSub_eq (hrep : Represents H t leaves) :
    intSub t.log2_root_size t.log2_leaf_size = .ok t.depth := by
  have := hrep.root_eq
  have := hrep.depth_lt
  unfold intSub address_type_digits at *
  rw [if_pos (by omega), show t.log2_root_size - t.log2_leaf_size = t.depth by omega]

/-- Every pristine height from the leaf size to the root size is in the table. -/
theorem get_hash_eq (hrep : Represents H t leaves) {i : Nat} (hi : i ≤ t.depth) :
    t.pristine_hashes.get_hash (t.log2_leaf_size + i) =
      .ok (t.pristine_hashes.hashes (t.log2_leaf_size.toNat + i)) := by
  have := hrep.root_eq
  have := hrep.leaf_size_nonneg
  have := hrep.pristine_word_le
  have := hrep.pristine_root
  rw [show t.log2_leaf_size + i = ((t.log2_leaf_size.toNat + i : Nat) : Int) by omega]
  exact pristine_merkle_tree.get_hash_of_le (by omega) (by omega)

end Represents

end back_merkle_tree
end cartesi
