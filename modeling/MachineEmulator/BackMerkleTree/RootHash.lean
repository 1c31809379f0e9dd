import MachineEmulator.BackMerkleTree.Reachable

namespace cartesi
namespace back_merkle_tree

variable {Hash : Type} [Inhabited Hash] {H : Hash → Hash → Hash}

/-- The pushed leaves followed by enough pristine leaves to fill the tree. -/
def padded (t : back_merkle_tree Hash) (leaves : List Hash) : List Hash :=
  leaves ++ List.replicate (2 ^ t.depth) (t.pristine_hashes.hashes t.log2_leaf_size.toNat)

/-- The subtree of the padded leaves that is the sibling at level `i` of the path
    to the next leaf. -/
def nextSibling (H : Hash → Hash → Hash) (t : back_merkle_tree Hash) (leaves : List Hash)
    (i : Nat) : Hash :=
  merkleRoot H i ((padded t leaves).drop (siblingStart leaves.length i))

/-- `sib` agrees, below `depth`, with the siblings the loops of `get_root_hash` and
    `get_next_leaf_proof` read: `m_context[i]` under a set bit of the count, the
    pristine hash of level `i` under a clear one. -/
structure ReadsSiblings (t : back_merkle_tree Hash) (leaves : List Hash) (sib : Nat → Hash) :
    Prop where
  left : ∀ i < t.depth, leaves.length.testBit i = true → t.context[i]? = some (sib i)
  right : ∀ i < t.depth, leaves.length.testBit i = false →
    t.pristine_hashes.hashes (t.log2_leaf_size.toNat + i) = sib i

variable {t : back_merkle_tree Hash} {leaves : List Hash}

private theorem Represents.context_eq_nextSibling (hrep : Represents H t leaves) {i : Nat}
    (hi : i ≤ t.depth) (hbit : leaves.length.testBit i = true) :
    t.context[i]? = some (nextSibling H t leaves i) := by
  have hmod := mod_two_pow_succ leaves.length i
  have hle := Nat.mod_le leaves.length (2 ^ (i + 1))
  simp only [hbit, if_true] at hmod
  rw [hrep.spine i hi hbit, nextSibling, siblingStart, if_pos hbit, merkleRoot_take H _ le_rfl,
    padded, show leaves.length - leaves.length % 2 ^ i - 2 ^ i =
      leaves.length - leaves.length % 2 ^ (i + 1) by omega,
    merkleRoot_drop_append H _ (by omega)]

private theorem Represents.pristine_eq_nextSibling (hrep : Represents H t leaves)
    (hdouble : t.pristine_hashes.Doubling H) {i : Nat} (hi : i < t.depth)
    (hbit : leaves.length.testBit i = false) :
    t.pristine_hashes.hashes (t.log2_leaf_size.toNat + i) = nextSibling H t leaves i := by
  have hpos := Nat.two_pow_pos i
  have hlt := Nat.mod_lt leaves.length hpos
  have hle := Nat.mod_le leaves.length (2 ^ i)
  have hpow := Nat.pow_le_pow_right (show 0 < 2 by decide) (show i + 1 ≤ t.depth by omega)
  have hsucc : 2 ^ (i + 1) = 2 ^ i * 2 := Nat.pow_succ 2 i
  have := hrep.root_eq
  have := hrep.leaf_size_nonneg
  have := hrep.pristine_word_le
  have := hrep.pristine_root
  have hpad := merkleRoot_drop_pad H
    (fun j => t.pristine_hashes.hashes (t.log2_leaf_size.toNat + j))
    leaves (fun j hj => by
      dsimp only
      rw [← Nat.add_assoc]
      exact hdouble _ (by omega) (by omega))
    (show leaves.length ≤ leaves.length - leaves.length % 2 ^ i + 2 ^ i by omega)
    (show _ + 2 ^ i ≤ leaves.length + 2 ^ t.depth by omega)
  simp only [Nat.add_zero] at hpad
  rw [nextSibling, siblingStart, if_neg (by simp [hbit]), padded, hpad]

/-- Under the doubling law the loops read the siblings of the path to the next leaf
    in the padded tree. -/
theorem Represents.readsSiblings_next (hrep : Represents H t leaves)
    (hdouble : t.pristine_hashes.Doubling H) : ReadsSiblings t leaves (nextSibling H t leaves) :=
  ⟨fun _ hi hbit => hrep.context_eq_nextSibling (by omega) hbit,
    fun _ hi hbit => hrep.pristine_eq_nextSibling hdouble hi hbit⟩

/-- One level of the traversal that the loops of `get_root_hash` and
    `get_next_leaf_proof` share: the test of bit `i` of the count, then the read of
    `m_context[i]` or of the pristine hash of level `i`. Either read returns `sib i`. -/
theorem Represents.level_step_eq (hrep : Represents H t leaves) {sib : Nat → Hash}
    (hsib : ReadsSiblings t leaves sib) {i : Nat} (hi : i < t.depth) {α : Type}
    (f g : Hash → Except Error α) :
    (shiftLeft 1 i >>= fun mask =>
      if t.leaf_count &&& mask ≠ 0 then vectorAt t.context i >>= f
      else t.pristine_hashes.get_hash (t.log2_leaf_size + i) >>= g) =
      if leaves.length.testBit i then f (sib i) else g (sib i) := by
  have hdepth := hrep.depth_lt
  simp only [shiftLeft_one (show i < address_type_digits by omega), bind, Except.bind, ne_eq,
    and_two_pow_ne_zero, hrep.leaf_count_eq]
  cases hbit : leaves.length.testBit i with
  | true => simp only [if_true, vectorAt_of_getElem? (hsib.left i hi hbit)]
  | false => simp only [Bool.false_eq_true, if_false, hrep.get_hash_eq hi.le, hsib.right i hi hbit]

/-- The loop of `get_root_hash` hashes up the path of the leaf count, reading at
    each level the sibling `sib` that the context or the pristine table holds. -/
theorem Represents.get_root_hash_loop_eq (hrep : Represents H t leaves) {sib : Nat → Hash}
    (hsib : ReadsSiblings t leaves sib) (x : Hash) : ∀ k i, i + k = t.depth →
      get_root_hash_loop H t i k (foldPath H leaves.length sib i x) =
        .ok (foldPath H leaves.length sib t.depth x) := by
  intro k
  induction k with
  | zero => intro i hi; rw [show i = t.depth by omega]; rfl
  | succ k ih =>
    intro i hi
    rw [get_root_hash_loop, hrep.level_step_eq hsib (by omega)]
    cases hbit : leaves.length.testBit i <;> simpa [foldPath, hbit] using ih (i + 1) (by omega)

private theorem take_set_pad {α : Type} (leaves : List α) (p x : α) {D : Nat}
    (hroom : leaves.length < D) :
    ((leaves ++ List.replicate D p).set leaves.length x).take D =
      (leaves ++ [x]) ++ List.replicate (D - (leaves.length + 1)) p := by
  obtain ⟨m, rfl⟩ : ∃ m, D = leaves.length + m + 1 := ⟨D - leaves.length - 1, by omega⟩
  rw [List.set_append_right _ _ le_rfl, Nat.sub_self, List.replicate_succ, List.set_cons_zero,
    List.take_append_eq_append_take, List.take_of_length_le (by omega), List.take_cons (by omega),
    List.take_replicate]
  simp
  omega

private theorem merkleRoot_padded_set (hroom : leaves.length < 2 ^ t.depth) (x : Hash) :
    merkleRoot H t.depth ((padded t leaves).set leaves.length x) =
      merkleRoot H t.depth ((leaves ++ [x]) ++ List.replicate (2 ^ t.depth - (leaves.length + 1))
        (t.pristine_hashes.hashes t.log2_leaf_size.toNat)) := by
  rw [← merkleRoot_take H _ (le_refl (2 ^ t.depth)), padded, take_set_pad _ _ _ hroom]

/-- Folding `x` up the path of the next leaf with its siblings hashes the tree whose
    leaves are the pushed ones, then `x`, then pristine leaves. -/
theorem foldPath_nextSibling (hroom : leaves.length < 2 ^ t.depth) (x : Hash) :
    foldPath H leaves.length (nextSibling H t leaves) t.depth x =
      merkleRoot H t.depth ((leaves ++ [x]) ++ List.replicate (2 ^ t.depth - (leaves.length + 1))
        (t.pristine_hashes.hashes t.log2_leaf_size.toNat)) := by
  have hpos := Nat.two_pow_pos t.depth
  rw [← merkleRoot_padded_set hroom]
  exact foldPath_eq_merkleRoot H
    (by simp only [padded, List.length_append, List.length_replicate]; omega) hroom x

theorem Represents.get_hash_leaf (hrep : Represents H t leaves) :
    t.pristine_hashes.get_hash t.log2_leaf_size =
      .ok (t.pristine_hashes.hashes t.log2_leaf_size.toNat) := by
  simpa using hrep.get_hash_eq (Nat.zero_le t.depth)

/-- While the tree has room, `get_root_hash` folds the pristine leaf hash up the path
    of the next leaf through the siblings it reads. -/
theorem Represents.get_root_hash_of_room (hrep : Represents H t leaves) {sib : Nat → Hash}
    (hsib : ReadsSiblings t leaves sib) (hroom : leaves.length < 2 ^ t.depth) :
    get_root_hash H t = .ok (foldPath H leaves.length sib t.depth
      (t.pristine_hashes.hashes t.log2_leaf_size.toNat)) := by
  have hloop := hrep.get_root_hash_loop_eq hsib
    (t.pristine_hashes.hashes t.log2_leaf_size.toNat) t.depth 0 (by omega)
  rw [foldPath_zero] at hloop
  simp only [get_root_hash, hrep.leaf_count_eq, hrep.max_leaves_eq, hrep.length_le,
    not_true_eq_false, if_false, hrep.intSub_eq, bind, Except.bind, pure, Except.pure,
    Int.toNat_ofNat, if_pos hroom, hrep.get_hash_leaf, hloop]

/-- Once the tree is full, `get_root_hash` returns `context[depth]`, the root of all
    its leaves. -/
theorem Represents.get_root_hash_of_full (hrep : Represents H t leaves)
    (hfull : leaves.length = 2 ^ t.depth) :
    get_root_hash H t = .ok (merkleRoot H t.depth leaves) := by
  simp only [get_root_hash, hrep.leaf_count_eq, hrep.max_leaves_eq, hfull, le_refl,
    not_true_eq_false, if_false, hrep.intSub_eq, bind, Except.bind, pure, Except.pure, lt_irrefl]
  exact vectorAt_of_getElem? (hrep.context_depth_of_full hfull)

/-- `get_root_hash` on a tree that represents `leaves` is the root of the full tree
    over the leaves followed by pristine leaves: the pristine fold while the tree
    has room, `context[depth]` once it is full. -/
theorem Represents.get_root_hash_eq (hrep : Represents H t leaves)
    (hdouble : t.pristine_hashes.Doubling H) :
    get_root_hash H t = .ok (merkleRoot H t.depth (leaves ++
      List.replicate (2 ^ t.depth - leaves.length)
        (t.pristine_hashes.hashes t.log2_leaf_size.toNat))) := by
  have hle := hrep.length_le
  by_cases hroom : leaves.length < 2 ^ t.depth
  · rw [hrep.get_root_hash_of_room (hrep.readsSiblings_next hdouble) hroom,
      foldPath_nextSibling hroom, List.append_assoc,
      List.singleton_append, ← List.replicate_succ,
      show 2 ^ t.depth - (leaves.length + 1) + 1 = 2 ^ t.depth - leaves.length by omega]
  · have hfull : leaves.length = 2 ^ t.depth := by omega
    rw [hrep.get_root_hash_of_full hfull, hfull, Nat.sub_self, List.replicate_zero,
      List.append_nil]

/-- Root equivalence: once `n ≤ 2 ^ depth` leaves are pushed into a fresh tree, its
    root hash is that of the full tree over those leaves followed by `2 ^ depth - n`
    pristine leaves, for any pristine table obeying the doubling law. -/
theorem get_root_hash_push_back {hashes : Nat → Hash} {r l w : CInt}
    {t : back_merkle_tree Hash} (hnew : new hashes r l w = .ok t)
    (hdouble : ∀ h : Nat, w.val ≤ h → h < r.val → hashes (h + 1) = H (hashes h) (hashes h))
    (leaves : List Hash) (hlen : leaves.length ≤ 2 ^ t.depth) :
    get_root_hash H (pushBackEach H t leaves) = .ok (merkleRoot H t.depth
      (leaves ++ List.replicate (2 ^ t.depth - leaves.length) (hashes l.val.toNat))) := by
  obtain ⟨hrep, -, hl, hp⟩ := represents_of_new H hnew hlen
  rw [hrep.get_root_hash_eq (by rw [hp]; exact hdouble), hp, hl, depth_pushBackEach]

/-- Three leaves in a depth-two tree of sums: the root is `3 + 5 + 7 + 1`. -/
theorem get_root_hash_push_back_three :
    get_root_hash Nat.add (pushBackEach Nat.add (initial (fun h => 2 ^ h) 2 0 0) [3, 5, 7]) =
      .ok 16 :=
  get_root_hash_push_back new_sums_two (fun h _ _ => sums_double h) [3, 5, 7] (by decide)

end back_merkle_tree
end cartesi
