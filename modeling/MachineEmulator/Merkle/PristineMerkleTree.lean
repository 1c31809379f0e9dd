import MachineEmulator.Cxx

namespace cartesi

/-- Modelled from the spec: `pristine_merkle_tree`, whose code is not among this
    repository's sources. It holds the hashes of all-zero subtrees of every height
    from `log2_word_size` to `log2_root_size`; `hashes h` is the entry for height
    `h`, and the model takes the table's contents as given. -/
structure pristine_merkle_tree (Hash : Type) where
  log2_root_size : Int
  log2_word_size : Int
  hashes : Nat → Hash

namespace pristine_merkle_tree

variable {Hash : Type}

/-- Modelled from the spec: `get_hash(log2_size)` fails its bounds check outside
    `[log2_word_size, log2_root_size]`. -/
def get_hash (p : pristine_merkle_tree Hash) (log2_size : Int) : Except Error Hash :=
  if log2_size < p.log2_word_size ∨ p.log2_root_size < log2_size then
    .error (.out_of_range "log2_size is out of range")
  else .ok (p.hashes log2_size.toNat)

/-- The doubling law of the table over the heights it holds:
    `pristine[h + 1] = H(pristine[h], pristine[h])`. -/
def Doubling (H : Hash → Hash → Hash) (p : pristine_merkle_tree Hash) : Prop :=
  ∀ h : Nat, p.log2_word_size ≤ h → h < p.log2_root_size →
    p.hashes (h + 1) = H (p.hashes h) (p.hashes h)

theorem get_hash_of_le {p : pristine_merkle_tree Hash} {h : Nat}
    (hlow : p.log2_word_size ≤ h) (hhigh : h ≤ p.log2_root_size) :
    p.get_hash h = .ok (p.hashes h) := by
  simp only [get_hash, Int.toNat_ofNat]
  rw [if_neg (by omega)]

end pristine_merkle_tree

end cartesi
