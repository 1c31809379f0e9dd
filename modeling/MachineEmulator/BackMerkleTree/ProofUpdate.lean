import MachineEmulator.BackMerkleTree.Safety

namespace cartesi
namespace back_merkle_tree

variable {Hash : Type} (H : Hash → Hash → Hash)

/-- Sibling `i` on the path of position `n + 1`, from the siblings `old` of position `n`.
    Bit `i` of `n + 1` clear: the pristine subtree of level `i` on the right. Set in `n`
    as well: the old sibling, a left subtree the append did not touch. Set in `n + 1`
    only, at the lowest clear bit of `n`: the left subtree that `leaf` completes, which
    is `leaf` folded through the old siblings below it. -/
def advanceSibling (pristine : Nat → Hash) (l n : Nat) (old : Nat → Hash) (leaf : Hash)
    (i : Nat) : Hash :=
  if (n + 1).testBit i then (if n.testBit i then old i else foldPath H n old i leaf)
  else pristine (l + i)

private theorem advanceSibling_congr (pristine : Nat → Hash) (l n : Nat) {old old' : Nat → Hash}
    (leaf : Hash) {i : Nat} (hsame : ∀ k ≤ i, old k = old' k) :
    advanceSibling H pristine l n old leaf i = advanceSibling H pristine l n old' leaf i := by
  rw [advanceSibling, advanceSibling, hsame i le_rfl,
    foldPath_congr H (fun k hk => hsame k (Nat.le_of_lt hk))]

variable [Inhabited Hash]

/-- The proof of the next position after `leaf` is appended at the position `p` proves,
    computed from `p`, `leaf` and the pristine table alone: the address moves by one
    leaf, every sibling is the one `advanceSibling` gives, and the root is the target
    hash folded up the new path. Appending at `n` changes the path of `n + 1` only up to
    the lowest clear bit of `n`. -/
def advance (pristine : Nat → Hash) (p : merkle_tree_proof Hash) (leaf : Hash) :
    merkle_tree_proof Hash :=
  let l := p.log2_target_size.toNat
  let n := p.target_address >>> l
  let sibling := advanceSibling H pristine l n (fun i => p.sibling_hashes.getD i default) leaf
  { p with
    target_address := p.target_address + 2 ^ l
    root_hash := foldPath H (n + 1) sibling (p.log2_root_size - p.log2_target_size).toNat
      p.target_hash
    sibling_hashes := (List.range (p.log2_root_size - p.log2_target_size).toNat).map sibling }

variable {H} {t : back_merkle_tree Hash} {leaves : List Hash}

private theorem Represents.foldPath_readSibling (hrep : Represents H t leaves) (leaf : Hash) {j : Nat}
    (hj : j ≤ t.depth) (hlow : LowBitsSet leaves.length j) :
    foldPath H leaves.length (readSibling t) j leaf =
      merkleRoot H j ((leaves ++ [leaf]).drop (leaves.length - leaves.length % 2 ^ j)) := by
  induction j with
  | zero => simp [merkleRoot, Nat.mod_one]
  | succ j ih =>
    obtain ⟨hlow, hbit⟩ := lowBitsSet_succ_iff.mp hlow
    rw [foldPath, if_pos hbit, ih (by omega) hlow, readSibling, hrep.leaf_count_eq, if_pos hbit,
      List.getD_eq_getElem?_getD, hrep.spine j (by omega) hbit, Option.getD_some]
    exact carry_succ H leaf hbit

private theorem Represents.readSibling_push_back (hrep : Represents H t leaves) {j : Nat}
    (hj : j ≤ t.depth) (hlow : LowBitsSet leaves.length j)
    (hbit : leaves.length.testBit j = false) (leaf : Hash) (i : Nat) :
    readSibling { t with
        context := t.context.set j (merkleRoot H j
          ((leaves ++ [leaf]).drop (leaves.length - leaves.length % 2 ^ j))),
        leaf_count := leaves.length + 1 } i =
      advanceSibling H t.pristine_hashes.hashes t.log2_leaf_size.toNat leaves.length
        (readSibling t) leaf i := by
  conv_lhs => unfold readSibling
  unfold advanceSibling
  dsimp only
  cases hsucc : (leaves.length + 1).testBit i with
  | false => simp only [Bool.false_eq_true, if_false]
  | true =>
    simp only [if_true, List.getD_eq_getElem?_getD]
    rcases testBit_succ_of_lowest_clear hlow hbit hsucc with ⟨rfl, -⟩ | ⟨hne, hold, -⟩
    · rw [List.getElem?_set_self (by rw [hrep.context_length]; omega), hbit, if_neg (by simp),
        hrep.foldPath_readSibling leaf hj hlow, Option.getD_some]
    · rw [List.getElem?_set_ne (Ne.symm hne), if_pos hold, readSibling, hrep.leaf_count_eq,
        if_pos hold, List.getD_eq_getElem?_getD]

variable [DecidableEq Hash]

/-- One append moves the next-leaf proof by `advance`: on a tree with room for the leaf and
    one more, `get_next_leaf_proof` after `push_back` returns the proof it returned before,
    advanced by the pushed leaf. -/
theorem Represents.get_next_leaf_proof_push_back (hrep : Represents H t leaves)
    (hroom : leaves.length + 1 < 2 ^ t.depth) (leaf : Hash) :
    ∃ p, get_next_leaf_proof H t = .ok p ∧
      get_next_leaf_proof H (stateAfter (push_back H leaf t)) =
        .ok (advance H t.pristine_hashes.hashes p leaf) := by
  obtain ⟨j, hj, hlow, hbit, hpush⟩ := hrep.push_back_eq (by omega) leaf
  have hrep' := hrep.stateAfter_push_back (by omega) leaf
  simp only [hpush, stateAfter] at hrep' ⊢
  obtain ⟨p, hp, h1, h2, h3, h4, -, h6⟩ :=
    hrep.get_next_leaf_proof_eq hrep.readsSiblings_read (by omega)
  obtain ⟨p', hp', h1', h2', h3', h4', h5', h6'⟩ :=
    hrep'.get_next_leaf_proof_eq hrep'.readsSiblings_read (by simpa using hroom)
  refine ⟨p, hp, hp'.trans (congrArg Except.ok ?_)⟩
  have hindex : p.target_address >>> p.log2_target_size.toNat = leaves.length := by
    rw [h3, h2, Nat.shiftRight_eq_div_pow, Nat.mul_div_cancel _ (Nat.two_pow_pos _)]
  have hdepth : (p.log2_root_size - p.log2_target_size).toNat = t.depth := by
    rw [h1, h2]
    rfl
  have hsibling : ∀ i < t.depth,
      readSibling { t with
          context := t.context.set j (merkleRoot H j
            ((leaves ++ [leaf]).drop (leaves.length - leaves.length % 2 ^ j))),
          leaf_count := leaves.length + 1 } i =
        advanceSibling H t.pristine_hashes.hashes t.log2_leaf_size.toNat leaves.length
          (fun i => p.sibling_hashes.getD i default) leaf i := fun i hi => by
    rw [hrep.readSibling_push_back hj hlow hbit leaf i]
    exact advanceSibling_congr H _ _ _ leaf fun k hk => by
      simp [h6, List.getD_eq_getElem?_getD, show k < t.depth by omega]
  apply merkle_tree_proof.ext
  · exact h1'.trans h1.symm
  · exact h2'.trans h2.symm
  · dsimp only [advance]
    rw [h3', h3, h2, List.length_append, List.length_singleton, Nat.succ_mul]
  · exact h4'.trans h4.symm
  · dsimp only [advance]
    rw [h5', hindex, hdepth, h4, h2, List.length_append, List.length_singleton]
    exact foldPath_congr H hsibling _
  · dsimp only [advance]
    rw [h6', hindex, hdepth, h2]
    exact List.map_congr_left fun i hi => hsibling i (List.mem_range.mp hi)

/-- Along any run of appends that leaves room for one more leaf, the next-leaf proof moves
    by `advance`, one pushed leaf at a time. -/
theorem Represents.get_next_leaf_proof_pushBackEach (hrep : Represents H t leaves)
    (more : List Hash) (hroom : leaves.length + more.length < 2 ^ t.depth) :
    ∃ p, get_next_leaf_proof H t = .ok p ∧
      get_next_leaf_proof H (back_merkle_tree.pushBackEach H t more) =
        .ok (more.foldl (advance H t.pristine_hashes.hashes) p) := by
  induction more generalizing t leaves with
  | nil =>
    obtain ⟨p, hp, -⟩ := hrep.get_next_leaf_proof_eq hrep.readsSiblings_read (by simpa using hroom)
    exact ⟨p, hp, hp⟩
  | cons leaf more ih =>
    rw [List.length_cons] at hroom
    obtain ⟨p, hp, hstep⟩ := hrep.get_next_leaf_proof_push_back (by omega) leaf
    obtain ⟨c, n, hframe⟩ := (push_back_frame H t leaf).2
    obtain ⟨p1, hp1, hrun⟩ := ih (hrep.stateAfter_push_back (by omega) leaf) (by
      simp only [hframe, depth_with_context, List.length_append, List.length_singleton]
      omega)
    have hadvance : p1 = advance H t.pristine_hashes.hashes p leaf :=
      Except.ok.inj (hp1.symm.trans hstep)
    refine ⟨p, hp, ?_⟩
    simp only [back_merkle_tree.pushBackEach, hframe] at hrun
    rw [back_merkle_tree.pushBackEach, hframe, hrun, hadvance, List.foldl_cons]

section run

variable {hashes : Nat → Hash} {r l w : CInt}

/-- The next-leaf proof can be kept without the tree: along every run from construction
    that leaves room for one more leaf, `get_next_leaf_proof` after further `push_back`
    calls is the proof before them advanced by the pushed leaves, one at a time, with the
    pristine table as the only other input. -/
theorem get_next_leaf_proof_advance (hnew : new hashes r l w = .ok t) (leaves more : List Hash)
    (hroom : leaves.length + more.length < 2 ^ t.depth) :
    ∃ p, get_next_leaf_proof H (pushBackEach H t leaves) = .ok p ∧
      get_next_leaf_proof H (pushBackEach H t (leaves ++ more)) =
        .ok (more.foldl (advance H hashes) p) := by
  obtain ⟨hrep, -, -, hp⟩ := represents_of_new H hnew (show leaves.length ≤ 2 ^ t.depth by omega)
  have hrun := hrep.get_next_leaf_proof_pushBackEach more (by simpa using hroom)
  rw [hp] at hrun
  rwa [pushBackEach_append]

/-- One leaf in a depth-two tree of sums, then two more: the proofs of positions 2 and 3
    follow from the proof of position 1. -/
theorem get_next_leaf_proof_advance_three :
    ∃ p, get_next_leaf_proof Nat.add
        (pushBackEach Nat.add (initial (fun h => 2 ^ h) 2 0 0) [3]) = .ok p ∧
      get_next_leaf_proof Nat.add
          (pushBackEach Nat.add (initial (fun h => 2 ^ h) 2 0 0) ([3] ++ [5, 7])) =
        .ok ([5, 7].foldl (advance Nat.add (fun h => 2 ^ h)) p) :=
  get_next_leaf_proof_advance new_sums_two [3] [5, 7] (by decide)

end run

end back_merkle_tree
end cartesi
