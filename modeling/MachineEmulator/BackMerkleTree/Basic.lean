import MachineEmulator.Merkle.PristineMerkleTree
import MachineEmulator.Merkle.MerkleTreeProof

namespace cartesi

/-- The data members of a `back_merkle_tree`. -/
structure back_merkle_tree (Hash : Type) where
  log2_root_size : Int
  log2_leaf_size : Int
  leaf_count : Nat
  max_leaves : Nat
  context : List Hash
  pristine_hashes : pristine_merkle_tree Hash

/-- The object's state after a member call, whether the call returned or threw. -/
def stateAfter {ε σ α : Type} : EStateM.Result ε σ α → σ
  | .ok _ s => s
  | .error _ s => s

namespace back_merkle_tree

/-- The body of the constructor: its range checks, in source order. -/
def check_sizes (log2_root_size log2_leaf_size log2_word_size : Int) : Except Error Unit := do
  if log2_root_size < 0 then
    throw (.out_of_range "log2_root_size is negative")
  if log2_leaf_size < 0 then
    throw (.out_of_range "log2_leaf_size is negative")
  if log2_word_size < 0 then
    throw (.out_of_range "log2_word_size is negative")
  if log2_leaf_size > log2_root_size then
    throw (.out_of_range "log2_leaf_size is greater than log2_root_size")
  if log2_word_size > log2_leaf_size then
    throw (.out_of_range "log2_word_size is greater than log2_word_size")
  if log2_root_size ≥ address_type_digits then
    throw (.out_of_range "tree is too large for address type")

variable {Hash : Type} [Inhabited Hash]

/-- `back_merkle_tree(log2_root_size, log2_leaf_size, log2_word_size)`: the member
    initialisers run first, in declaration order, then the body's checks. The
    pristine table's construction is not among the sources; its contents are the
    parameter `hashes`. -/
def new (hashes : Nat → Hash) (log2_root_size log2_leaf_size log2_word_size : CInt) :
    Except Error (back_merkle_tree Hash) := do
  let max_leaves ← shiftLeft 1 (← intSub log2_root_size.val log2_leaf_size.val)
  let context_size ← intAdd (← intSub log2_root_size.val log2_leaf_size.val) 1
  let pristine_hashes : pristine_merkle_tree Hash :=
    ⟨log2_root_size.val, log2_word_size.val, hashes⟩
  check_sizes log2_root_size.val log2_leaf_size.val log2_word_size.val
  return { log2_root_size := log2_root_size.val, log2_leaf_size := log2_leaf_size.val,
           leaf_count := 0, max_leaves,
           context := List.replicate (max 1 context_size).toNat default, pristine_hashes }

variable (H : Hash → Hash → Hash)

/-- The loop of `push_back`: iteration `i` of `for (int i = 0; i <= depth; ++i)`
    with `k` iterations left. It returns the loop variables `(i, right, context)`
    as the loop leaves them: `i ≤ depth` after the `break`, `depth + 1` when the
    loop condition fails. -/
def push_back_loop (leaf_count : Nat) :
    Nat → Nat → Hash → List Hash → Except Error (Nat × Hash × List Hash)
  | i, 0, right, context => .ok (i, right, context)
  | i, k + 1, right, context => do
    if leaf_count &&& (← shiftLeft 1 i) ≠ 0 then
      let left ← vectorAt context i
      push_back_loop leaf_count (i + 1) k (H left right) context
    else
      let context ← vectorSet context i right
      return (i, right, context)

/-- `push_back(leaf_hash)`. A mutating member: the result carries the object's
    state whether the call returns or throws. -/
def push_back (leaf_hash : Hash) : EStateM Error (back_merkle_tree Hash) Unit := fun t =>
  let right := leaf_hash
  if t.leaf_count ≥ t.max_leaves then
    .error (.out_of_range "too many leaves") t
  else
    match (do
        let depth ← intSub t.log2_root_size t.log2_leaf_size
        push_back_loop H t.leaf_count 0 (depth + 1).toNat right t.context) with
    | .ok (_, _, context) =>
      .ok () { t with context, leaf_count := (t.leaf_count + 1) % 2 ^ address_type_digits }
    | .error e => .error e t

/-- Calls `push_back` with each leaf in order, each call on the state the previous
    one left, as a caller that catches its exceptions does. -/
def pushBackEach (t : back_merkle_tree Hash) : List Hash → back_merkle_tree Hash
  | [] => t
  | leaf :: rest => pushBackEach (stateAfter (push_back H leaf t)) rest

/-- The loop of `get_root_hash`: iteration `i` of `for (int i = 0; i < depth; ++i)`
    with `k` iterations left and the running hash `root`. -/
def get_root_hash_loop (t : back_merkle_tree Hash) : Nat → Nat → Hash → Except Error Hash
  | _, 0, root => .ok root
  | i, k + 1, root => do
    if t.leaf_count &&& (← shiftLeft 1 i) ≠ 0 then
      let left ← vectorAt t.context i
      get_root_hash_loop t (i + 1) k (H left root)
    else
      let right ← t.pristine_hashes.get_hash (t.log2_leaf_size + i)
      get_root_hash_loop t (i + 1) k (H root right)

/-- `get_root_hash()`, in a build where `assert` is checked. -/
def get_root_hash (t : back_merkle_tree Hash) : Except Error Hash := do
  if ¬ t.leaf_count ≤ t.max_leaves then
    throw (.assertion_failure "m_leaf_count <= m_max_leaves")
  let depth ← intSub t.log2_root_size t.log2_leaf_size
  if t.leaf_count < t.max_leaves then
    let root ← t.pristine_hashes.get_hash t.log2_leaf_size
    get_root_hash_loop H t 0 depth.toNat root
  else
    vectorAt t.context depth

/-- The loop of `get_next_leaf_proof`: the traversal of `get_root_hash_loop`, also
    recording each sibling in the proof. -/
def get_next_leaf_proof_loop (t : back_merkle_tree Hash) :
    Nat → Nat → Hash → merkle_tree_proof Hash →
      Except Error (Hash × merkle_tree_proof Hash)
  | _, 0, hash, proof => .ok (hash, proof)
  | i, k + 1, hash, proof => do
    if t.leaf_count &&& (← shiftLeft 1 i) ≠ 0 then
      let left ← vectorAt t.context i
      let proof ← proof.set_sibling_hash left (t.log2_leaf_size + i)
      get_next_leaf_proof_loop t (i + 1) k (H left hash) proof
    else
      let right ← t.pristine_hashes.get_hash (t.log2_leaf_size + i)
      let proof ← proof.set_sibling_hash right (t.log2_leaf_size + i)
      get_next_leaf_proof_loop t (i + 1) k (H hash right) proof

/-- `get_next_leaf_proof()`, in a build without `NDEBUG`, so that the produced proof
    is verified before it is returned. -/
def get_next_leaf_proof [DecidableEq Hash] (t : back_merkle_tree Hash) :
    Except Error (merkle_tree_proof Hash) := do
  let depth ← intSub t.log2_root_size t.log2_leaf_size
  if t.leaf_count ≥ t.max_leaves then
    throw (.out_of_range "tree is full")
  let proof : merkle_tree_proof Hash := .new t.log2_root_size t.log2_leaf_size
  let proof := proof.set_target_address (← shiftLeft t.leaf_count t.log2_leaf_size)
  let proof := proof.set_target_hash (← t.pristine_hashes.get_hash t.log2_leaf_size)
  let hash ← t.pristine_hashes.get_hash t.log2_leaf_size
  let (hash, proof) ← get_next_leaf_proof_loop H t 0 depth.toNat hash proof
  let proof := proof.set_root_hash hash
  if !proof.verify H then
    throw (.runtime_error "produced invalid proof")
  return proof

end back_merkle_tree

end cartesi
