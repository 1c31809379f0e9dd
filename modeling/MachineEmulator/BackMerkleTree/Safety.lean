import MachineEmulator.BackMerkleTree.NextLeafProof

namespace cartesi
namespace back_merkle_tree

variable {Hash : Type} [Inhabited Hash] {H : Hash → Hash → Hash}

/-- The sibling the loops of `get_root_hash` and `get_next_leaf_proof` read at level
    `i`: `m_context[i]` under a set bit of the count, the pristine hash of level `i`
    under a clear one. -/
def readSibling (t : back_merkle_tree Hash) (i : Nat) : Hash :=
  if t.leaf_count.testBit i then t.context.getD i default
  else t.pristine_hashes.hashes (t.log2_leaf_size.toNat + i)

variable {t : back_merkle_tree Hash} {leaves : List Hash}

theorem Represents.readsSiblings_read (hrep : Represents H t leaves) :
    ReadsSiblings t leaves (readSibling t) where
  left i hi hbit := by
    have hlt : i < t.context.length := by rw [hrep.context_length]; omega
    simp [readSibling, hrep.leaf_count_eq, hbit, List.getD_eq_getElem?_getD, hlt]
  right i _ hbit := by simp [readSibling, hrep.leaf_count_eq, hbit]

/-- A tree keeps representing its leaves whatever its context holds under the clear
    bits of the count. -/
theorem Represents.with_context (hrep : Represents H t leaves) {context : List Hash}
    (hlength : context.length = t.context.length)
    (hlive : ∀ i, t.leaf_count.testBit i = true → context[i]? = t.context[i]?) :
    Represents H { t with context } leaves :=
  { hrep with
    context_length := hlength.trans hrep.context_length
    spine := fun i hi hbit =>
      (hlive i (by rwa [hrep.leaf_count_eq])).trans (hrep.spine i hi hbit) }

private theorem Represents.readsSiblings_with_context (hrep : Represents H t leaves)
    {context : List Hash}
    (hlive : ∀ i, t.leaf_count.testBit i = true → context[i]? = t.context[i]?) :
    ReadsSiblings { t with context } leaves (readSibling t) :=
  ⟨fun i hi hbit =>
    (hlive i (by rwa [hrep.leaf_count_eq])).trans (hrep.readsSiblings_read.left i hi hbit),
    hrep.readsSiblings_read.right⟩

/-- `get_root_hash` returns on every tree that represents its leaves. -/
theorem Represents.get_root_hash_ok (hrep : Represents H t leaves) :
    ∃ root, get_root_hash H t = .ok root := by
  by_cases hroom : leaves.length < 2 ^ t.depth
  · exact ⟨_, hrep.get_root_hash_of_room hrep.readsSiblings_read hroom⟩
  · exact ⟨_, hrep.get_root_hash_of_full (by have := hrep.length_le; omega)⟩

/-- Every `push_back` on a full tree throws and leaves it as it was. -/
theorem Represents.pushBackEach_of_full (hrep : Represents H t leaves)
    (hfull : leaves.length = 2 ^ t.depth) (more : List Hash) :
    back_merkle_tree.pushBackEach H t more = t := by
  induction more with
  | nil => rfl
  | cons leaf more ih =>
    simpa [back_merkle_tree.pushBackEach, push_back_of_full hrep hfull leaf, stateAfter] using ih

/-- A run of `push_back` calls ends where the calls that fit leave the tree: the
    calls after it fills change nothing. -/
theorem Represents.pushBackEach_take (hrep : Represents H t leaves) (more : List Hash) :
    back_merkle_tree.pushBackEach H t more =
      back_merkle_tree.pushBackEach H t (more.take (2 ^ t.depth - leaves.length)) := by
  conv_lhs => rw [← List.take_append_drop (2 ^ t.depth - leaves.length) more]
  rw [pushBackEach_append]
  by_cases hfit : more.length ≤ 2 ^ t.depth - leaves.length
  · rw [List.drop_eq_nil_of_le hfit, pushBackEach_nil]
  · have hrep' := hrep.pushBackEach (more.take (2 ^ t.depth - leaves.length))
    rw [List.take_take, min_self] at hrep'
    have hle := hrep.length_le
    refine hrep'.pushBackEach_of_full ?_ _
    simp only [List.length_append, List.length_take, depth_pushBackEach]
    omega

/-- `push_back` reads the context under set bits of the count only: on a tree whose stale
    entries were overwritten it does what it does on the tree itself, and the two trees
    differ afterwards again in stale entries only. -/
theorem Represents.push_back_with_context (hrep : Represents H t leaves) {context : List Hash}
    (hlength : context.length = t.context.length)
    (hlive : ∀ i, t.leaf_count.testBit i = true → context[i]? = t.context[i]?) (leaf : Hash) :
    ∃ context', context'.length = (stateAfter (push_back H leaf t)).context.length ∧
      (∀ i, (stateAfter (push_back H leaf t)).leaf_count.testBit i = true →
        context'[i]? = (stateAfter (push_back H leaf t)).context[i]?) ∧
      stateAfter (push_back H leaf { t with context }) =
        { stateAfter (push_back H leaf t) with context := context' } := by
  have hrep' := hrep.with_context hlength hlive
  by_cases hroom : leaves.length < 2 ^ t.depth
  · obtain ⟨j, hj, hlow, hbit, hpush⟩ := hrep.push_back_eq hroom leaf
    obtain ⟨j', -, hlow', hbit', hpush'⟩ := hrep'.push_back_eq hroom leaf
    obtain rfl := hlow'.eq_of_testBit hbit' hlow hbit
    have hlen := hrep.context_length
    simp only [hpush, hpush', stateAfter]
    refine ⟨_, by simp only [List.length_set, hlength], fun i hi => ?_, rfl⟩
    rcases testBit_succ_of_lowest_clear hlow hbit hi with ⟨rfl, -⟩ | ⟨hne, hold, -⟩
    · rw [List.getElem?_set_self (by omega), List.getElem?_set_self (by omega)]
    · rw [List.getElem?_set_ne (Ne.symm hne), List.getElem?_set_ne (Ne.symm hne),
        hlive i (by rwa [hrep.leaf_count_eq])]
  · have hfull : leaves.length = 2 ^ t.depth := by have := hrep.length_le; omega
    rw [push_back_of_full hrep hfull, push_back_of_full hrep' hfull]
    exact ⟨context, hlength, hlive, rfl⟩

/-- Along every run, a tree whose stale entries were overwritten stays the tree of the
    same run up to stale entries. -/
theorem Represents.pushBackEach_with_context (hrep : Represents H t leaves)
    {context : List Hash} (hlength : context.length = t.context.length)
    (hlive : ∀ i, t.leaf_count.testBit i = true → context[i]? = t.context[i]?)
    (more : List Hash) :
    ∃ context', context'.length = (back_merkle_tree.pushBackEach H t more).context.length ∧
      (∀ i, (back_merkle_tree.pushBackEach H t more).leaf_count.testBit i = true →
        context'[i]? = (back_merkle_tree.pushBackEach H t more).context[i]?) ∧
      back_merkle_tree.pushBackEach H { t with context } more =
        { back_merkle_tree.pushBackEach H t more with context := context' } := by
  induction more generalizing t leaves context with
  | nil => exact ⟨context, hlength, hlive, rfl⟩
  | cons leaf more ih =>
    obtain ⟨c, hlength', hlive', hstep⟩ := hrep.push_back_with_context hlength hlive leaf
    obtain ⟨c', hlength'', hlive'', hrun⟩ := ih (hrep.pushBackEach [leaf]) hlength' hlive'
    refine ⟨c', hlength'', hlive'', ?_⟩
    rw [back_merkle_tree.pushBackEach, hstep]
    exact hrun

variable [DecidableEq Hash]

private theorem Represents.get_next_leaf_proof_of_full (hrep : Represents H t leaves)
    (hfull : leaves.length = 2 ^ t.depth) :
    get_next_leaf_proof H t = .error (.out_of_range "tree is full") := by
  simp only [get_next_leaf_proof, hrep.intSub_eq, hrep.leaf_count_eq, hrep.max_leaves_eq,
    hfull, ge_iff_le, le_refl, if_true, bind, Except.bind, throw, throwThe, MonadExceptOf.throw]

/-- `get_next_leaf_proof` throws exactly on a full tree, and then only `out_of_range`. -/
theorem Represents.get_next_leaf_proof_cases (hrep : Represents H t leaves) :
    match get_next_leaf_proof H t with
    | .ok _ => leaves.length < 2 ^ t.depth
    | .error e => leaves.length = 2 ^ t.depth ∧ e = .out_of_range "tree is full" := by
  by_cases hroom : leaves.length < 2 ^ t.depth
  · obtain ⟨p, hproof, -⟩ := hrep.get_next_leaf_proof_eq hrep.readsSiblings_read hroom
    rw [hproof]
    exact hroom
  · have hfull : leaves.length = 2 ^ t.depth := by have := hrep.length_le; omega
    rw [hrep.get_next_leaf_proof_of_full hfull]
    exact ⟨hfull, rfl⟩

section run

variable {hashes : Nat → Hash} {r l w : CInt}

/-- Capacity and atomic failure along every run from construction. Every state keeps
    `leaf_count ≤ max_leaves = 2 ^ depth`. Of the calls of a run, those made before
    the tree fills return, and the later ones throw `out_of_range` with the state
    untouched, so the run ends where its first `2 ^ depth` calls leave the tree.
    `get_next_leaf_proof` throws exactly on a full tree. -/
theorem push_back_capacity (hnew : new hashes r l w = .ok t) (leaves : List Hash) :
    (pushBackEach H t leaves).max_leaves = 2 ^ t.depth ∧
      (pushBackEach H t leaves).leaf_count ≤ (pushBackEach H t leaves).max_leaves ∧
      (∀ i (hi : i < leaves.length), i < 2 ^ t.depth →
        ∃ s, push_back H leaves[i] (pushBackEach H t (leaves.take i)) = .ok () s) ∧
      (∀ i (hi : i < leaves.length), 2 ^ t.depth ≤ i →
        push_back H leaves[i] (pushBackEach H t (leaves.take i)) =
          .error (.out_of_range "too many leaves") (pushBackEach H t (leaves.take i))) ∧
      pushBackEach H t leaves = pushBackEach H t (leaves.take (2 ^ t.depth)) ∧
      get_root_hash H (pushBackEach H t leaves) =
        get_root_hash H (pushBackEach H t (leaves.take (2 ^ t.depth))) ∧
      (match get_next_leaf_proof H (pushBackEach H t leaves) with
        | .ok _ => (pushBackEach H t leaves).leaf_count < 2 ^ t.depth
        | .error e => (pushBackEach H t leaves).leaf_count = 2 ^ t.depth ∧
            e = .out_of_range "tree is full") := by
  have hrun := represents_pushBackEach H hnew
  have htake : pushBackEach H t leaves = pushBackEach H t (leaves.take (2 ^ t.depth)) := by
    obtain ⟨hvalid, rfl⟩ := new_eq_ok_iff.mp hnew
    simpa using (initial_represents H hvalid).pushBackEach_take leaves
  refine ⟨by simpa using (hrun leaves).max_leaves_eq, ?_, fun i hi hroom => ?_,
    fun i hi hfull => ?_, htake, congrArg _ htake, ?_⟩
  · rw [(hrun leaves).leaf_count_eq, (hrun leaves).max_leaves_eq]
    exact (hrun leaves).length_le
  · obtain ⟨j, carry, hpush, -⟩ := push_back_of_room (hrun (leaves.take i))
      (by simp only [List.length_take, depth_pushBackEach]; omega) leaves[i]
    exact ⟨_, hpush⟩
  · exact push_back_of_full (hrun (leaves.take i))
      (by simp only [List.length_take, depth_pushBackEach]; omega) leaves[i]
  · have hcases := (hrun leaves).get_next_leaf_proof_cases
    rw [depth_pushBackEach] at hcases
    rwa [(hrun leaves).leaf_count_eq]

/-- Three leaves pushed into a depth-one tree: the third call throws and the run ends
    where the first two left the tree. -/
theorem push_back_capacity_three :
    push_back Nat.add 7 (pushBackEach Nat.add (initial (fun h => 2 ^ h) 1 0 0) [3, 5]) =
        .error (.out_of_range "too many leaves")
          (pushBackEach Nat.add (initial (fun h => 2 ^ h) 1 0 0) [3, 5]) ∧
      pushBackEach Nat.add (initial (fun h => 2 ^ h) 1 0 0) [3, 5, 7] =
        pushBackEach Nat.add (initial (fun h => 2 ^ h) 1 0 0) [3, 5] :=
  have ⟨_, _, _, hfull, hrun, _, _⟩ := push_back_capacity new_sums_one [3, 5, 7]
  ⟨hfull 2 (by decide) (by decide), hrun⟩

/-- In-bounds access on every state reached from construction. The height is a shift
    amount of `address_type`, the constructor's shift is in range, and the context
    has `max(1, depth + 1)` entries. `push_back` returns, or throws `out_of_range`
    with the state untouched; with room, its carry loop leaves through the `break` at
    a level `j ≤ depth`, after storing there the hash of the window that ends with
    the pushed leaf, and `push_back` returns the tree with that entry stored and the
    count up by one. `get_root_hash` returns, and `get_next_leaf_proof` returns or
    throws `out_of_range`. -/
theorem push_back_in_bounds (hnew : new hashes r l w = .ok t) (leaves : List Hash)
    {s : back_merkle_tree Hash} (hs : s = pushBackEach H t leaves) (leaf : Hash) :
    t.depth < address_type_digits ∧
      shiftLeft 1 (r.val - l.val) = .ok (2 ^ t.depth) ∧
      s.context.length = t.depth + 1 ∧
      s.context.length = (max 1 (r.val - l.val + 1)).toNat ∧
      (push_back H leaf s = .error (.out_of_range "too many leaves") s ∨
        ∃ s', push_back H leaf s = .ok () s') ∧
      (leaves.length < 2 ^ t.depth → ∃ j ≤ t.depth, ∃ carry,
        carry = merkleRoot H j ((leaves ++ [leaf]).drop (leaves.length - leaves.length % 2 ^ j)) ∧
        push_back_loop H s.leaf_count 0 (t.depth + 1) leaf s.context =
          .ok (j, carry, s.context.set j carry) ∧
        push_back H leaf s =
          .ok () { s with context := s.context.set j carry, leaf_count := s.leaf_count + 1 }) ∧
      (∃ root, get_root_hash H s = .ok root) ∧
      (get_next_leaf_proof H s = .error (.out_of_range "tree is full") ∨
        ∃ p, get_next_leaf_proof H s = .ok p) := by
  have hrep := represents_pushBackEach H hnew leaves
  rw [← hs] at hrep
  have hdepth : s.depth = t.depth := hs ▸ depth_pushBackEach t leaves
  have hdiff : r.val - l.val = (t.depth : Int) := by
    obtain ⟨hvalid, rfl⟩ := new_eq_ok_iff.mp hnew
    unfold ValidSizes at hvalid
    simp only [depth, initial]
    omega
  have hlt := hrep.depth_lt
  rw [hdepth] at hlt
  refine ⟨hlt, hdiff ▸ shiftLeft_one hlt, hdepth ▸ hrep.context_length,
    by rw [hrep.context_length, hdepth, hdiff]; omega, ?_, fun hroom => ?_,
    hrep.get_root_hash_ok, ?_⟩
  · by_cases hroom : (leaves.take (2 ^ t.depth)).length < 2 ^ s.depth
    · obtain ⟨j, carry, hpush, -⟩ := push_back_of_room hrep hroom leaf
      exact .inr ⟨_, hpush⟩
    · exact .inl (push_back_of_full hrep (by have := hrep.length_le; omega) leaf)
  · rw [List.take_of_length_le (by omega)] at hrep
    obtain ⟨j, hj, hlow, hbit, hloop⟩ := hrep.push_back_loop_eq (by rw [hdepth]; omega) leaf
    obtain ⟨j', -, hlow', hbit', hpush⟩ := hrep.push_back_eq (by rw [hdepth]; omega) leaf
    obtain rfl := hlow'.eq_of_testBit hbit' hlow hbit
    refine ⟨j', by omega, _, rfl, by rw [hrep.leaf_count_eq, ← hdepth]; exact hloop, ?_⟩
    rw [hpush, hrep.leaf_count_eq]
  · have hcases := hrep.get_next_leaf_proof_cases
    split at hcases
    next p hproof => exact .inr ⟨p, hproof⟩
    next e hthrow => exact .inl (by rw [hthrow, hcases.2])

/-- Pushing `9` after three leaves into a depth-two tree of sums, whose context then
    holds `[7, 8, 0]`: the carry runs up to level two, and `push_back` stores it there. -/
theorem push_back_in_bounds_three :
    ∃ j ≤ 2, ∃ carry,
      carry = merkleRoot Nat.add j (([3, 5, 7] ++ [9]).drop (3 - 3 % 2 ^ j)) ∧
      push_back_loop Nat.add 3 0 3 9 [7, 8, 0] = .ok (j, carry, [7, 8, 0].set j carry) ∧
      push_back Nat.add 9 (pushBackEach Nat.add (initial (fun h => 2 ^ h) 2 0 0) [3, 5, 7]) =
        .ok () { pushBackEach Nat.add (initial (fun h => 2 ^ h) 2 0 0) [3, 5, 7] with
          context := [7, 8, 0].set j carry, leaf_count := 4 } :=
  have ⟨_, _, _, _, _, hcarry, _, _⟩ := push_back_in_bounds new_sums_two [3, 5, 7] rfl 9
  hcarry (by decide)

/-- Stale entries are never read: along every run from construction, the context
    entries under clear bits of the count can hold anything without changing what
    `get_root_hash` or `get_next_leaf_proof` returns. -/
theorem get_root_hash_stale_entries (hnew : new hashes r l w = .ok t) (leaves : List Hash)
    {context : List Hash} (hlength : context.length = (pushBackEach H t leaves).context.length)
    (hlive : ∀ i, (pushBackEach H t leaves).leaf_count.testBit i = true →
      context[i]? = (pushBackEach H t leaves).context[i]?) :
    get_root_hash H { pushBackEach H t leaves with context } =
        get_root_hash H (pushBackEach H t leaves) ∧
      get_next_leaf_proof H { pushBackEach H t leaves with context } =
        get_next_leaf_proof H (pushBackEach H t leaves) := by
  have hrep := represents_pushBackEach H hnew leaves
  have hrep' := hrep.with_context hlength hlive
  have hsib := hrep.readsSiblings_with_context hlive
  by_cases hroom : (leaves.take (2 ^ t.depth)).length < 2 ^ (pushBackEach H t leaves).depth
  · obtain ⟨p', hp', h1', h2', h3', h4', h5', h6'⟩ := hrep'.get_next_leaf_proof_eq hsib hroom
    obtain ⟨p, hp, h1, h2, h3, h4, h5, h6⟩ :=
      hrep.get_next_leaf_proof_eq hrep.readsSiblings_read hroom
    have hsame : p' = p := merkle_tree_proof.ext (h1'.trans h1.symm) (h2'.trans h2.symm)
      (h3'.trans h3.symm) (h4'.trans h4.symm) (h5'.trans h5.symm) (h6'.trans h6.symm)
    exact ⟨(hrep'.get_root_hash_of_room hsib hroom).trans
      (hrep.get_root_hash_of_room hrep.readsSiblings_read hroom).symm, by rw [hp', hp, hsame]⟩
  · have hfull := Nat.le_antisymm hrep.length_le (Nat.le_of_not_lt hroom)
    exact ⟨(hrep'.get_root_hash_of_full hfull).trans (hrep.get_root_hash_of_full hfull).symm,
      (hrep'.get_next_leaf_proof_of_full hfull).trans
        (hrep.get_next_leaf_proof_of_full hfull).symm⟩

private theorem live_three :
    ∀ i, (pushBackEach Nat.add (initial (fun h => 2 ^ h) 2 0 0) [3, 5, 7]).leaf_count.testBit i →
      [7, 8, 42][i]? = (pushBackEach Nat.add (initial (fun h => 2 ^ h) 2 0 0) [3, 5, 7]).context[i]?
  | 0, _ => rfl
  | 1, _ => rfl
  | i + 2, hi => by
    have hlt : 3 < 2 ^ (i + 2) :=
      Nat.lt_of_lt_of_le (by decide) (Nat.pow_le_pow_right (by decide) (Nat.le_add_left 2 i))
    exact absurd hi (by change ¬ Nat.testBit 3 (i + 2) = true; rw [Nat.testBit_lt_two_pow hlt]; decide)

/-- After three leaves in a depth-two tree of sums, whose context then holds
    `[7, 8, 0]`, bit 2 of the count is clear, so the entry at level 2 may hold
    anything. -/
theorem get_root_hash_stale_entries_three :
    get_root_hash Nat.add
        { pushBackEach Nat.add (initial (fun h => 2 ^ h) 2 0 0) [3, 5, 7] with
          context := [7, 8, 42] } =
      get_root_hash Nat.add (pushBackEach Nat.add (initial (fun h => 2 ^ h) 2 0 0) [3, 5, 7]) :=
  (get_root_hash_stale_entries new_sums_two [3, 5, 7] (by decide) live_three).1

omit [DecidableEq Hash] in
/-- Stale entries are never read, now or later: along every run from construction, a
    tree whose context entries under clear bits of the count were overwritten, and which
    is then pushed further, stays the tree of the same run up to such entries. -/
theorem pushBackEach_stale_entries (hnew : new hashes r l w = .ok t) (leaves more : List Hash)
    {context : List Hash} (hlength : context.length = (pushBackEach H t leaves).context.length)
    (hlive : ∀ i, (pushBackEach H t leaves).leaf_count.testBit i = true →
      context[i]? = (pushBackEach H t leaves).context[i]?) :
    ∃ context', context'.length = (pushBackEach H t (leaves ++ more)).context.length ∧
      (∀ i, (pushBackEach H t (leaves ++ more)).leaf_count.testBit i = true →
        context'[i]? = (pushBackEach H t (leaves ++ more)).context[i]?) ∧
      pushBackEach H { pushBackEach H t leaves with context } more =
        { pushBackEach H t (leaves ++ more) with context := context' } := by
  rw [pushBackEach_append]
  exact (represents_pushBackEach H hnew leaves).pushBackEach_with_context hlength hlive more

/-- Three leaves in a depth-two tree of sums, whose context then holds `[7, 8, 0]`; the
    stale entry at level 2 is overwritten with `42` and `9` pushed after: the carry of `9`
    reaches level 2, and the run goes on as the run of four leaves. -/
theorem pushBackEach_stale_entries_three :
    ∃ context', pushBackEach Nat.add
        { pushBackEach Nat.add (initial (fun h => 2 ^ h) 2 0 0) [3, 5, 7] with
          context := [7, 8, 42] } [9] =
      { pushBackEach Nat.add (initial (fun h => 2 ^ h) 2 0 0) ([3, 5, 7] ++ [9]) with
        context := context' } :=
  have ⟨context', _, _, hrun⟩ :=
    pushBackEach_stale_entries new_sums_two [3, 5, 7] [9] (by decide) live_three
  ⟨context', hrun⟩

end run

end back_merkle_tree
end cartesi
