import MachineEmulator.BackMerkleTree.RootHash

namespace cartesi
namespace back_merkle_tree

variable {Hash : Type} [Inhabited Hash] {H : Hash → Hash → Hash}
variable {t : back_merkle_tree Hash} {leaves : List Hash}

/-- The loop of `get_next_leaf_proof` hashes up the path of the leaf count as the
    loop of `get_root_hash` does, and records the sibling of every level it passes
    at that level's index in the proof. -/
theorem Represents.get_next_leaf_proof_loop_eq (hrep : Represents H t leaves)
    {sib : Nat → Hash} (hsib : ReadsSiblings t leaves sib) (x : Hash) :
    ∀ k i (proof : merkle_tree_proof Hash), i + k = t.depth →
      proof.log2_target_size = t.log2_leaf_size → proof.sibling_hashes.length = t.depth →
      ∃ siblings, get_next_leaf_proof_loop H t i k (foldPath H leaves.length sib i x) proof =
          .ok (foldPath H leaves.length sib t.depth x,
            { proof with sibling_hashes := siblings }) ∧
        siblings.length = t.depth ∧
        ∀ j < t.depth,
          siblings[j]? = if j < i then proof.sibling_hashes[j]? else some (sib j) := by
  intro k
  induction k with
  | zero =>
    intro i proof hi _ hlen
    refine ⟨proof.sibling_hashes, ?_, hlen, fun j hj => by rw [if_pos (by omega)]⟩
    rw [show i = t.depth by omega]
    rfl
  | succ k ih =>
    intro i proof hi htarget hlen
    have hset : proof.set_sibling_hash (sib i) (t.log2_leaf_size + i) =
        .ok { proof with sibling_hashes := proof.sibling_hashes.set i (sib i) } := by
      rw [← htarget]
      exact merkle_tree_proof.set_sibling_hash_of_lt _ (by omega)
    obtain ⟨siblings, hloop, hsibs, hat⟩ := ih (i + 1)
      { proof with sibling_hashes := proof.sibling_hashes.set i (sib i) } (by omega) htarget
      (by simpa using hlen)
    refine ⟨siblings, ?_, hsibs, fun j hj => ?_⟩
    · rw [get_next_leaf_proof_loop, hrep.level_step_eq hsib (by omega)]
      cases hbit : leaves.length.testBit i <;>
        simpa [hset, bind, Except.bind, foldPath, hbit] using hloop
    · rw [hat j hj]
      rcases Nat.lt_trichotomy j i with hji | rfl | hji
      · simp [hji, show j < i + 1 by omega, List.getElem?_set_ne (show i ≠ j by omega)]
      · simp [List.getElem?_set_self (show j < proof.sibling_hashes.length by omega)]
      · simp [show ¬ j < i by omega, show ¬ j < i + 1 by omega]

private theorem Represents.next_address_lt (hrep : Represents H t leaves)
    (hroom : leaves.length < 2 ^ t.depth) :
    leaves.length * 2 ^ t.log2_leaf_size.toNat < 2 ^ t.log2_root_size.toNat := by
  have := hrep.root_eq
  have := hrep.leaf_size_nonneg
  rw [show t.log2_root_size.toNat = t.depth + t.log2_leaf_size.toNat by omega, Nat.pow_add]
  exact Nat.mul_lt_mul_of_pos_right hroom (Nat.two_pow_pos _)

private theorem Represents.shiftLeft_leaf_count (hrep : Represents H t leaves)
    (hroom : leaves.length < 2 ^ t.depth) :
    shiftLeft leaves.length t.log2_leaf_size =
      .ok (leaves.length * 2 ^ t.log2_leaf_size.toNat) := by
  have hlt := hrep.next_address_lt hroom
  have := hrep.root_lt_digits
  have := hrep.leaf_le_root
  have := hrep.leaf_size_nonneg
  have hroot := Nat.pow_le_pow_right (show 0 < 2 by decide)
    (show t.log2_root_size.toNat ≤ address_type_digits by unfold address_type_digits at *; omega)
  have hl := (Int.toNat_of_nonneg hrep.leaf_size_nonneg).symm
  conv => lhs; rw [hl]
  rw [shiftLeft_of_lt (by unfold address_type_digits at *; omega), Nat.mod_eq_of_lt (by omega)]

variable [DecidableEq Hash]

/-- While the tree has room, `get_next_leaf_proof` returns the proof of the next
    position: the pristine leaf hash as target, the subtrees hanging off that
    position's path as siblings, and the pristine leaf folded up the path as root.
    The debug self-check passes. -/
theorem Represents.get_next_leaf_proof_eq (hrep : Represents H t leaves) {sib : Nat → Hash}
    (hsib : ReadsSiblings t leaves sib) (hroom : leaves.length < 2 ^ t.depth) :
    ∃ p, get_next_leaf_proof H t = .ok p ∧
      p.log2_root_size = t.log2_root_size ∧ p.log2_target_size = t.log2_leaf_size ∧
      p.target_address = leaves.length * 2 ^ t.log2_leaf_size.toNat ∧
      p.target_hash = t.pristine_hashes.hashes t.log2_leaf_size.toNat ∧
      p.root_hash = foldPath H leaves.length sib t.depth
        (t.pristine_hashes.hashes t.log2_leaf_size.toNat) ∧
      p.sibling_hashes = (List.range t.depth).map sib := by
  obtain ⟨siblings, hloop, hlength, hat⟩ := hrep.get_next_leaf_proof_loop_eq hsib
    (t.pristine_hashes.hashes t.log2_leaf_size.toNat) t.depth 0
    (((merkle_tree_proof.new t.log2_root_size t.log2_leaf_size).set_target_address
      (leaves.length * 2 ^ t.log2_leaf_size.toNat)).set_target_hash
      (t.pristine_hashes.hashes t.log2_leaf_size.toNat)) (by omega) rfl
    (by simp [merkle_tree_proof.new, merkle_tree_proof.set_target_address,
      merkle_tree_proof.set_target_hash, depth])
  have hsiblings : siblings = (List.range t.depth).map sib := by
    refine List.ext_getElem? fun j => ?_
    by_cases hj : j < t.depth
    · simpa [hj] using hat j hj
    · rw [List.getElem?_eq_none (by omega),
        List.getElem?_eq_none (by simp only [List.length_map, List.length_range]; omega)]
  subst hsiblings
  let p : merkle_tree_proof Hash :=
    { log2_root_size := t.log2_root_size, log2_target_size := t.log2_leaf_size,
      target_address := leaves.length * 2 ^ t.log2_leaf_size.toNat,
      target_hash := t.pristine_hashes.hashes t.log2_leaf_size.toNat,
      root_hash := foldPath H leaves.length sib t.depth
        (t.pristine_hashes.hashes t.log2_leaf_size.toNat),
      sibling_hashes := (List.range t.depth).map sib }
  have hverify : p.bubble_up H p.target_hash = p.root_hash :=
    merkle_tree_proof.bubble_up_eq H p rfl rfl rfl _
  refine ⟨p, ?_, rfl, rfl, rfl, rfl, rfl, rfl⟩
  rw [foldPath_zero] at hloop
  simp only [p] at hverify
  simp only [merkle_tree_proof.new, merkle_tree_proof.set_target_address,
    merkle_tree_proof.set_target_hash] at hloop
  simp only [get_next_leaf_proof, hrep.intSub_eq, hrep.leaf_count_eq, hrep.max_leaves_eq, ge_iff_le,
    bind, Except.bind, pure, Except.pure, hrep.shiftLeft_leaf_count hroom, hrep.get_hash_leaf,
    Int.toNat_ofNat, hloop, merkle_tree_proof.set_root_hash, merkle_tree_proof.verify,
    merkle_tree_proof.new, merkle_tree_proof.set_target_address, merkle_tree_proof.set_target_hash,
    hverify, decide_True, Bool.not_true, Bool.false_eq_true, if_false]
  rw [if_neg (by omega)]

section run

variable {hashes : Nat → Hash} {r l w : CInt}

/-- Soundness of the next-leaf proof along every run from construction: while the tree
    has room, `get_next_leaf_proof` returns, so its self-check never throws. The proof
    is for address `n << log2_leaf_size`, computed without wrapping, of the pristine
    leaf; its root is what `get_root_hash` returns; its siblings fold the target hash
    to that root, sibling `i` on the left when bit `i` of the target's index is set. -/
theorem get_next_leaf_proof_sound (hnew : new hashes r l w = .ok t)
    (hdouble : ∀ h : Nat, w.val ≤ h → h < r.val → hashes (h + 1) = H (hashes h) (hashes h))
    (leaves : List Hash) (hroom : leaves.length < 2 ^ t.depth) :
    ∃ p, get_next_leaf_proof H (pushBackEach H t leaves) = .ok p ∧
      p.log2_root_size = r.val ∧ p.log2_target_size = l.val ∧
      shiftLeft leaves.length l.val = .ok p.target_address ∧
      p.target_address = leaves.length * 2 ^ l.val.toNat ∧
      p.target_address < 2 ^ r.val.toNat ∧
      p.target_hash = hashes l.val.toNat ∧
      get_root_hash H (pushBackEach H t leaves) = .ok p.root_hash ∧
      foldPath H (p.target_address >>> l.val.toNat) (fun i => p.sibling_hashes.getD i default)
        t.depth p.target_hash = p.root_hash ∧
      p.verify H = true := by
  obtain ⟨hrep, hr, hl, hp⟩ := represents_of_new H hnew hroom.le
  have hdouble' : (pushBackEach H t leaves).pristine_hashes.Doubling H := by rw [hp]; exact hdouble
  have hroom' : leaves.length < 2 ^ (pushBackEach H t leaves).depth := by simpa using hroom
  obtain ⟨p, hproof, hr', hl', haddress, htarget, hroot, hsib⟩ :=
    hrep.get_next_leaf_proof_eq (hrep.readsSiblings_next hdouble') hroom'
  have hfold : p.bubble_up H p.target_hash = p.root_hash := by
    rw [merkle_tree_proof.bubble_up_eq H p (by rw [hl']; exact haddress)
      (by rw [hr', hl']; rfl) hsib, hroot, htarget]
  refine ⟨p, hproof, hr'.trans hr, hl'.trans hl, ?_, haddress.trans (by rw [hl]), ?_,
    htarget.trans (by rw [hp, hl]),
    hroot ▸ hrep.get_root_hash_of_room (hrep.readsSiblings_next hdouble') hroom', ?_, ?_⟩
  · rw [← hl, haddress]; exact hrep.shiftLeft_leaf_count hroom'
  · rw [← hr, haddress]; exact hrep.next_address_lt hroom'
  · rw [← hl, ← depth_pushBackEach t leaves, ← hl', ← hfold, merkle_tree_proof.bubble_up,
      hr', hl']
    rfl
  · simp only [merkle_tree_proof.verify, hfold, decide_True]

/-- After three leaves in a depth-two tree of sums, the proof of position 3 passes
    its self-check. -/
theorem get_next_leaf_proof_sound_three :
    ∃ p, get_next_leaf_proof Nat.add
        (pushBackEach Nat.add (initial (fun h => 2 ^ h) 2 0 0) [3, 5, 7]) = .ok p ∧
      p.target_address = 3 ∧ p.verify Nat.add = true := by
  obtain ⟨p, hproof, -, -, -, haddress, -, -, -, -, hverify⟩ :=
    get_next_leaf_proof_sound new_sums_two (fun h _ _ => sums_double h) [3, 5, 7] (by decide)
  exact ⟨p, hproof, haddress, hverify⟩

/-- The next-leaf proof witnesses the append: folding any leaf hash through the proof's
    siblings along the bits of the count gives the root after `push_back` of that leaf,
    so the proof's root and this fold are the roots before and after the append. -/
theorem get_next_leaf_proof_bubble_up (hnew : new hashes r l w = .ok t)
    (hdouble : ∀ h : Nat, w.val ≤ h → h < r.val → hashes (h + 1) = H (hashes h) (hashes h))
    (leaves : List Hash) (hroom : leaves.length < 2 ^ t.depth) (leaf : Hash) :
    ∃ p s, get_next_leaf_proof H (pushBackEach H t leaves) = .ok p ∧
      push_back H leaf (pushBackEach H t leaves) = .ok () s ∧
      get_root_hash H s =
        .ok (foldPath H leaves.length (fun i => p.sibling_hashes.getD i default) t.depth leaf) := by
  obtain ⟨hrep, -, -, hp⟩ := represents_of_new H hnew hroom.le
  have hdouble' : (pushBackEach H t leaves).pristine_hashes.Doubling H := by rw [hp]; exact hdouble
  have hroom' : leaves.length < 2 ^ (pushBackEach H t leaves).depth := by simpa using hroom
  obtain ⟨p, hproof, -, -, -, -, -, hsib⟩ :=
    hrep.get_next_leaf_proof_eq (hrep.readsSiblings_next hdouble') hroom'
  obtain ⟨j, carry, hpush, hrep'⟩ := push_back_of_room hrep hroom' leaf
  refine ⟨p, _, hproof, hpush, ?_⟩
  have hfold : foldPath H leaves.length (fun i => p.sibling_hashes.getD i default) t.depth leaf =
      foldPath H leaves.length (nextSibling H (pushBackEach H t leaves) leaves)
        (pushBackEach H t leaves).depth leaf := by
    rw [depth_pushBackEach]
    exact foldPath_congr H (fun i hi => by simp [List.getD_eq_getElem?_getD, hsib, hi]) leaf
  rw [hrep'.get_root_hash_eq hdouble', hfold, foldPath_nextSibling hroom' leaf]
  simp

/-- Appending `9` to three leaves in a depth-two tree of sums: the fold of `9` through
    the next-leaf proof is the root after the push. -/
theorem get_next_leaf_proof_bubble_up_three :
    ∃ p s, get_next_leaf_proof Nat.add
        (pushBackEach Nat.add (initial (fun h => 2 ^ h) 2 0 0) [3, 5, 7]) = .ok p ∧
      push_back Nat.add 9 (pushBackEach Nat.add (initial (fun h => 2 ^ h) 2 0 0) [3, 5, 7]) =
        .ok () s ∧
      get_root_hash Nat.add s = .ok (foldPath Nat.add 3
        (fun i => p.sibling_hashes.getD i default) (initial (fun h => 2 ^ h) 2 0 0).depth 9) :=
  get_next_leaf_proof_bubble_up new_sums_two (fun h _ _ => sums_double h) [3, 5, 7] (by decide) 9

end run

end back_merkle_tree
end cartesi
