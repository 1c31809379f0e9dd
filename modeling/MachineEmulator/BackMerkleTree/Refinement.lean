import MachineEmulator.BackMerkleTree.Safety

namespace cartesi
namespace back_merkle_tree

/-- The leaves of the full tree of height `depth` that pushing `leaves` stands for: those
    that fit, then pristine leaves. -/
def padLeaves {Hash : Type} (depth : Nat) (pristine : Hash) (leaves : List Hash) : List Hash :=
  leaves.take (2 ^ depth) ++ List.replicate (2 ^ depth - leaves.length) pristine

/-- What a back Merkle tree is for, said without the carry chain: the leaves appended so
    far to a tree of `2 ^ depth` leaves whose other positions hold `pristine`. -/
structure Accumulator (Hash : Type) where
  depth : Nat
  pristine : Hash
  leaves : List Hash
  length_le : leaves.length ≤ 2 ^ depth

namespace Accumulator

variable {Hash : Type}

/-- Appending fails on a full accumulator. -/
def push (a : Accumulator Hash) (leaf : Hash) : Option (Accumulator Hash) :=
  if hroom : a.leaves.length < 2 ^ a.depth then
    some { a with
      leaves := a.leaves ++ [leaf]
      length_le := by rw [List.length_append, List.length_singleton]; omega }
  else none

/-- Appends the leaves in order, a failed append leaving the accumulator as it was. -/
def pushEach (a : Accumulator Hash) : List Hash → Accumulator Hash
  | [] => a
  | leaf :: rest => ((a.push leaf).getD a).pushEach rest

/-- The root of the full tree over the leaves followed by pristine leaves. -/
def root [Inhabited Hash] (H : Hash → Hash → Hash) (a : Accumulator Hash) : Hash :=
  merkleRoot H a.depth (a.leaves ++ List.replicate (2 ^ a.depth - a.leaves.length) a.pristine)

private theorem pushEach_leaves (a : Accumulator Hash) (more : List Hash) :
    (a.pushEach more).leaves = a.leaves ++ more.take (2 ^ a.depth - a.leaves.length) := by
  induction more generalizing a with
  | nil => simp [pushEach]
  | cons leaf more ih =>
    have hle := a.length_le
    by_cases hroom : a.leaves.length < 2 ^ a.depth
    · simp only [pushEach, push, dif_pos hroom, Option.getD_some, ih, List.length_append,
        List.length_singleton]
      rw [show 2 ^ a.depth - a.leaves.length = 2 ^ a.depth - (a.leaves.length + 1) + 1 by omega,
        List.take_succ_cons, List.append_assoc, List.singleton_append]
    · simp only [pushEach, push, dif_neg hroom, Option.getD_none, ih,
        show 2 ^ a.depth - a.leaves.length = 0 by omega, List.take_zero]

private theorem push_getD (a : Accumulator Hash) (leaf : Hash) :
    ((a.push leaf).getD a).depth = a.depth ∧ ((a.push leaf).getD a).pristine = a.pristine := by
  unfold push
  split <;> exact ⟨rfl, rfl⟩

@[simp] private theorem pushEach_depth (a : Accumulator Hash) (more : List Hash) :
    (a.pushEach more).depth = a.depth := by
  induction more generalizing a with
  | nil => rfl
  | cons leaf more ih => rw [pushEach, ih, (push_getD a leaf).1]

@[simp] private theorem pushEach_pristine (a : Accumulator Hash) (more : List Hash) :
    (a.pushEach more).pristine = a.pristine := by
  induction more generalizing a with
  | nil => rfl
  | cons leaf more ih => rw [pushEach, ih, (push_getD a leaf).2]

/-- The leaves of the full tree the accumulator stands for: its leaves, then pristine
    leaves up to `2 ^ depth`. -/
def fullLeaves (a : Accumulator Hash) : List Hash :=
  a.leaves ++ List.replicate (2 ^ a.depth - a.leaves.length) a.pristine

private theorem length_fullLeaves (a : Accumulator Hash) : a.fullLeaves.length = 2 ^ a.depth := by
  have := a.length_le
  simp only [fullLeaves, List.length_append, List.length_replicate]
  omega

private theorem fullLeaves_pushEach (depth : Nat) (pristine : Hash) (more : List Hash) :
    (pushEach ⟨depth, pristine, [], Nat.zero_le _⟩ more).fullLeaves =
      padLeaves depth pristine more := by
  simp only [fullLeaves, padLeaves, pushEach_leaves, pushEach_depth, pushEach_pristine,
    List.nil_append, List.length_nil, Nat.sub_zero, List.length_take]
  congr 2
  omega

variable [Inhabited Hash] [DecidableEq Hash] (H : Hash → Hash → Hash)

/-- The root is binding: two accumulators of one height with the same root stand for the
    same full tree, or `findCollision` returns a collision of `H` between their trees. -/
theorem root_binding {a b : Accumulator Hash} (hdepth : a.depth = b.depth)
    (hroot : a.root H = b.root H) :
    a.fullLeaves = b.fullLeaves ∨
      ∃ c, findCollision H a.depth a.fullLeaves b.fullLeaves = some c ∧ IsCollision H c := by
  have hb := b.length_fullLeaves
  have hfull : merkleRoot H a.depth a.fullLeaves = merkleRoot H b.depth b.fullLeaves := hroot
  rw [← hdepth] at hb hfull
  exact merkleRoot_binding H a.length_fullLeaves hb hfull

/-- Openings of the root are binding: folding `x` up the path of position `k` through any
    siblings to the root means that `x` is the leaf at `k`, or `findOpeningCollision`
    returns a collision of `H` on that path. -/
theorem opening_binding (a : Accumulator Hash) (sibling : Nat → Hash) (x : Hash) {k : Nat}
    (hk : k < 2 ^ a.depth) (hfold : foldPath H k sibling a.depth x = a.root H) :
    a.fullLeaves[k]? = some x ∨
      ∃ c, findOpeningCollision H k sibling x a.depth a.fullLeaves = some c ∧
        IsCollision H c := by
  simpa only [Nat.mod_eq_of_lt hk] using foldPath_binding H k sibling x a.length_fullLeaves hfold

end Accumulator

variable {Hash : Type} [Inhabited Hash] (H : Hash → Hash → Hash)

/-- The refinement relation: the tree has the accumulator's height and pristine leaf,
    its pristine table obeys the doubling law, and it represents the accumulator's
    leaves. -/
structure Refines (t : back_merkle_tree Hash) (a : Accumulator Hash) : Prop where
  represents : Represents H t a.leaves
  depth_eq : t.depth = a.depth
  pristine_eq : t.pristine_hashes.hashes t.log2_leaf_size.toNat = a.pristine
  doubling : t.pristine_hashes.Doubling H

variable {H} {t : back_merkle_tree Hash} {a : Accumulator Hash}

/-- One `push_back` refines one append: it returns when the append succeeds, and
    throws with the tree untouched when the append fails. -/
theorem Refines.push_back (h : Refines H t a) (leaf : Hash) :
    match a.push leaf with
    | some a' => ∃ t', push_back H leaf t = .ok () t' ∧ Refines H t' a'
    | none => push_back H leaf t = .error (.out_of_range "too many leaves") t := by
  have hle := h.represents.length_le
  rw [h.depth_eq] at hle
  by_cases hroom : a.leaves.length < 2 ^ a.depth
  · simp only [Accumulator.push, dif_pos hroom]
    obtain ⟨j, carry, hpush, hrep⟩ :=
      push_back_of_room h.represents (by rw [h.depth_eq]; exact hroom) leaf
    exact ⟨_, hpush, hrep, h.depth_eq, h.pristine_eq, h.doubling⟩
  · simp only [Accumulator.push, dif_neg hroom]
    exact push_back_of_full h.represents (by rw [h.depth_eq]; omega) leaf

/-- `get_root_hash` refines `root`. -/
theorem Refines.get_root_hash (h : Refines H t a) : get_root_hash H t = .ok (a.root H) := by
  rw [h.represents.get_root_hash_eq h.doubling, Accumulator.root, h.depth_eq, h.pristine_eq]

/-- A run of `push_back` calls refines the run of appends. -/
theorem Refines.pushBackEach (h : Refines H t a) (more : List Hash) :
    Refines H (back_merkle_tree.pushBackEach H t more) (a.pushEach more) := by
  induction more generalizing t a with
  | nil => exact h
  | cons leaf more ih =>
    have hstep := h.push_back leaf
    simp only [back_merkle_tree.pushBackEach, Accumulator.pushEach]
    split at hstep
    next a' hpush =>
      obtain ⟨t', ht', h'⟩ := hstep
      rw [ht', hpush]
      exact ih h'
    next hpush =>
      rw [hstep, hpush]
      exact ih h

section run

variable {hashes : Nat → Hash} {r l w : CInt}

/-- A constructed tree refines the empty accumulator of its height and pristine leaf. -/
theorem new_refines (hnew : new hashes r l w = .ok t)
    (hdouble : ∀ h : Nat, w.val ≤ h → h < r.val →
      hashes (h + 1) = H (hashes h) (hashes h)) :
    Refines H t ⟨t.depth, hashes l.val.toNat, [], Nat.zero_le _⟩ := by
  obtain ⟨hvalid, rfl⟩ := new_eq_ok_iff.mp hnew
  exact ⟨initial_represents H hvalid, rfl, rfl, hdouble⟩

/-- The tree refines the accumulator along every run from construction, pushes past
    the capacity included: after any sequence of `push_back` calls, `get_root_hash`
    returns the root of the accumulator after the same appends. -/
theorem get_root_hash_refines (hnew : new hashes r l w = .ok t)
    (hdouble : ∀ h : Nat, w.val ≤ h → h < r.val → hashes (h + 1) = H (hashes h) (hashes h))
    (leaves : List Hash) :
    get_root_hash H (pushBackEach H t leaves) =
      .ok ((Accumulator.pushEach ⟨t.depth, hashes l.val.toNat, [], Nat.zero_le _⟩ leaves).root
        H) :=
  ((new_refines hnew hdouble).pushBackEach leaves).get_root_hash

/-- Three leaves pushed into a depth-one tree of sums: the root is that of the first
    two. -/
theorem get_root_hash_refines_three :
    get_root_hash Nat.add (pushBackEach Nat.add (initial (fun h => 2 ^ h) 1 0 0) [3, 5, 7]) =
      .ok 8 :=
  get_root_hash_refines new_sums_one (fun h _ _ => sums_double h) [3, 5, 7]

variable [DecidableEq Hash]

/-- The root hash binds the pushed leaves: two runs from one constructed tree that end
    with the same `get_root_hash` pushed the same leaves, up to the calls past the capacity
    and trailing leaves equal to the pristine leaf, or `findCollision` returns a collision
    of `H` between the two full trees. Proved on the accumulator and carried over by the
    refinement. -/
theorem get_root_hash_binding (hnew : new hashes r l w = .ok t)
    (hdouble : ∀ h : Nat, w.val ≤ h → h < r.val → hashes (h + 1) = H (hashes h) (hashes h))
    (leaves leaves' : List Hash)
    (hroot : get_root_hash H (pushBackEach H t leaves) = get_root_hash H (pushBackEach H t leaves')) :
    padLeaves t.depth (hashes l.val.toNat) leaves = padLeaves t.depth (hashes l.val.toNat) leaves' ∨
      ∃ c, findCollision H t.depth (padLeaves t.depth (hashes l.val.toNat) leaves)
          (padLeaves t.depth (hashes l.val.toNat) leaves') = some c ∧ IsCollision H c := by
  rw [((new_refines hnew hdouble).pushBackEach leaves).get_root_hash,
    ((new_refines hnew hdouble).pushBackEach leaves').get_root_hash, Except.ok.injEq] at hroot
  simpa only [Accumulator.fullLeaves_pushEach, Accumulator.pushEach_depth] using
    Accumulator.root_binding H (by simp only [Accumulator.pushEach_depth]) hroot

/-- Over the sum "hash", a depth-one tree of `[3, 5]` and one of `[5, 3]` share the root `8`,
    and `findCollision` returns the pairs `(3, 5)` and `(5, 3)`. -/
theorem get_root_hash_binding_sum :
    get_root_hash Nat.add (pushBackEach Nat.add (initial (fun h => 2 ^ h) 1 0 0) [3, 5]) =
        get_root_hash Nat.add (pushBackEach Nat.add (initial (fun h => 2 ^ h) 1 0 0) [5, 3]) ∧
      ∃ c, findCollision Nat.add 1 [3, 5] [5, 3] = some c ∧ IsCollision Nat.add c :=
  have hroot : get_root_hash Nat.add (pushBackEach Nat.add (initial (fun h => 2 ^ h) 1 0 0) [3, 5]) =
      get_root_hash Nat.add (pushBackEach Nat.add (initial (fun h => 2 ^ h) 1 0 0) [5, 3]) := rfl
  ⟨hroot, (get_root_hash_binding new_sums_one (fun h _ _ => sums_double h) [3, 5] [5, 3]
    hroot).resolve_left (by decide)⟩

/-- Inclusion proofs against the tree's root are sound. After any run from construction,
    a proof with the tree's sizes for a position `k` below `2 ^ depth`, whose root hash is
    what `get_root_hash` returns and which verifies, has as target the hash at position `k`
    of the pushed leaves padded with pristine leaves, or `findOpeningCollision` returns a
    collision of `H` on the proof's path. -/
theorem get_root_hash_proof_binding (hnew : new hashes r l w = .ok t)
    (hdouble : ∀ h : Nat, w.val ≤ h → h < r.val → hashes (h + 1) = H (hashes h) (hashes h))
    (leaves : List Hash) (q : merkle_tree_proof Hash) (hroot_size : q.log2_root_size = r.val)
    (htarget_size : q.log2_target_size = l.val) (k : Nat) (hk : k < 2 ^ t.depth)
    (haddress : q.target_address = k * 2 ^ l.val.toNat)
    (hroot : get_root_hash H (pushBackEach H t leaves) = .ok q.root_hash)
    (hverify : q.verify H = true) :
    (padLeaves t.depth (hashes l.val.toNat) leaves)[k]? = some q.target_hash ∨
      ∃ c, findOpeningCollision H k (fun i => q.sibling_hashes.getD i default) q.target_hash
          t.depth (padLeaves t.depth (hashes l.val.toNat) leaves) = some c ∧ IsCollision H c := by
  obtain ⟨-, hr, hl, -⟩ :=
    represents_of_new H hnew (show ([] : List Hash).length ≤ 2 ^ t.depth from Nat.zero_le _)
  have hdepth : (q.log2_root_size - q.log2_target_size).toNat = t.depth := by
    rw [hroot_size, htarget_size, ← hr, ← hl]
    rfl
  rw [((new_refines hnew hdouble).pushBackEach leaves).get_root_hash, Except.ok.injEq] at hroot
  have hfold : foldPath H k (fun i => q.sibling_hashes.getD i default) t.depth q.target_hash =
      q.root_hash := by
    have hbubble : q.bubble_up H q.target_hash = q.root_hash := of_decide_eq_true hverify
    rwa [merkle_tree_proof.bubble_up, hdepth, haddress, htarget_size, Nat.shiftRight_eq_div_pow,
      Nat.mul_div_cancel _ (Nat.two_pow_pos _)] at hbubble
  simpa only [Accumulator.fullLeaves_pushEach, Accumulator.pushEach_depth] using
    Accumulator.opening_binding H (Accumulator.pushEach ⟨t.depth, _, [], Nat.zero_le _⟩ leaves) _ _
      (by rwa [Accumulator.pushEach_depth])
      (by rw [Accumulator.pushEach_depth]; exact hfold.trans hroot.symm)

/-- Over the sum "hash", a proof for position 0 of a depth-one tree with target `5` and
    sibling `3` verifies against the root `8` of `[3, 5]`, though leaf 0 is `3`:
    `findOpeningCollision` returns the pairs `(5, 3)` and `(3, 5)`. -/
theorem get_root_hash_proof_binding_sum :
    get_root_hash Nat.add (pushBackEach Nat.add (initial (fun h => 2 ^ h) 1 0 0) [3, 5]) =
        .ok 8 ∧
      (⟨1, 0, 0, 5, 8, [3]⟩ : merkle_tree_proof Nat).verify Nat.add = true ∧
      ∃ c, findOpeningCollision Nat.add 0 (fun i => [3].getD i 0) 5 1 [3, 5] = some c ∧
        IsCollision Nat.add c :=
  have hroot : get_root_hash Nat.add
      (pushBackEach Nat.add (initial (fun h => 2 ^ h) 1 0 0) [3, 5]) = .ok 8 := rfl
  have hverify : (⟨1, 0, 0, 5, 8, [3]⟩ : merkle_tree_proof Nat).verify Nat.add = true := rfl
  ⟨hroot, hverify, (get_root_hash_proof_binding new_sums_one (fun h _ _ => sums_double h) [3, 5]
    ⟨1, 0, 0, 5, 8, [3]⟩ rfl rfl 0 (by decide) rfl hroot hverify).resolve_left (by decide)⟩

end run

end back_merkle_tree
end cartesi
