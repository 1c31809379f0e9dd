import MachineEmulator.Cxx
import MachineEmulator.Merkle.Root

namespace cartesi

/-- Modelled from the spec: `merkle_tree_proof`, whose code is not among this
    repository's sources. It stores the target's address and hash, the root hash,
    and one sibling hash per level between the target and the root, nearest the
    target first. -/
@[ext] structure merkle_tree_proof (Hash : Type) where
  log2_root_size : Int
  log2_target_size : Int
  target_address : Nat
  target_hash : Hash
  root_hash : Hash
  sibling_hashes : List Hash

namespace merkle_tree_proof

variable {Hash : Type}

/-- Modelled from the spec: `proof_type{log2_root_size, log2_target_size}`, with
    one value-initialised sibling per level. -/
def new [Inhabited Hash] (log2_root_size log2_target_size : Int) : merkle_tree_proof Hash where
  log2_root_size := log2_root_size
  log2_target_size := log2_target_size
  target_address := 0
  target_hash := default
  root_hash := default
  sibling_hashes := List.replicate (log2_root_size - log2_target_size).toNat default

/-- Modelled from the spec: the plain setters. -/
def set_target_address (p : merkle_tree_proof Hash) (target_address : Nat) :
    merkle_tree_proof Hash := { p with target_address }

def set_target_hash (p : merkle_tree_proof Hash) (target_hash : Hash) :
    merkle_tree_proof Hash := { p with target_hash }

def set_root_hash (p : merkle_tree_proof Hash) (root_hash : Hash) :
    merkle_tree_proof Hash := { p with root_hash }

/-- Modelled from the spec: `set_sibling_hash(hash, log2_size)` stores the sibling
    of the subtree of size `2 ^ log2_size`, at index `log2_size - log2_target_size`. -/
def set_sibling_hash (p : merkle_tree_proof Hash) (hash : Hash) (log2_size : Int) :
    Except Error (merkle_tree_proof Hash) := do
  let sibling_hashes ← vectorSet p.sibling_hashes (log2_size - p.log2_target_size) hash
  return { p with sibling_hashes }

theorem set_sibling_hash_of_lt {p : merkle_tree_proof Hash} {i : Nat} (hash : Hash)
    (hi : i < p.sibling_hashes.length) :
    p.set_sibling_hash hash (p.log2_target_size + i) =
      .ok { p with sibling_hashes := p.sibling_hashes.set i hash } := by
  simp only [set_sibling_hash, show p.log2_target_size + i - p.log2_target_size = i by omega,
    vectorSet_of_lt hash hi, bind, Except.bind, pure, Except.pure]

variable [Inhabited Hash] (H : Hash → Hash → Hash)

/-- Modelled from the spec: `bubble_up(h, new_target_hash)` folds a target hash
    through the siblings, bit `i` of `target_address >> log2_target_size` putting
    sibling `i` on the left. -/
def bubble_up (p : merkle_tree_proof Hash) (new_target_hash : Hash) : Hash :=
  foldPath H (p.target_address >>> p.log2_target_size.toNat)
    (fun i => p.sibling_hashes.getD i default)
    (p.log2_root_size - p.log2_target_size).toNat new_target_hash

/-- A proof for position `index` of size `2 ^ log2_target_size` bubbles a hash up the
    path of `index` through the siblings it stores. -/
theorem bubble_up_eq (p : merkle_tree_proof Hash) {index depth : Nat} {sibling : Nat → Hash}
    (haddress : p.target_address = index * 2 ^ p.log2_target_size.toNat)
    (hdepth : (p.log2_root_size - p.log2_target_size).toNat = depth)
    (hsiblings : p.sibling_hashes = (List.range depth).map sibling) (x : Hash) :
    p.bubble_up H x = foldPath H index sibling depth x := by
  rw [bubble_up, haddress, hdepth, Nat.shiftRight_eq_div_pow,
    Nat.mul_div_cancel _ (Nat.two_pow_pos _)]
  exact foldPath_congr H (fun i hi => by simp [List.getD_eq_getElem?_getD, hsiblings, hi]) x

/-- Modelled from the spec: `verify(h)` re-folds the target hash and compares it
    with the root hash. -/
def verify [DecidableEq Hash] (p : merkle_tree_proof Hash) : Bool :=
  p.bubble_up H p.target_hash = p.root_hash

end merkle_tree_proof

end cartesi
