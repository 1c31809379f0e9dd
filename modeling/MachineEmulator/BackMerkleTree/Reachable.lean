import MachineEmulator.BackMerkleTree.PushBack
import MachineEmulator.BackMerkleTree.Constructor

namespace cartesi
namespace back_merkle_tree

variable {Hash : Type} {H : Hash → Hash → Hash}

@[simp] theorem pushBackEach_nil (t : back_merkle_tree Hash) : pushBackEach H t [] = t := rfl

theorem pushBackEach_append (t : back_merkle_tree Hash) (xs ys : List Hash) :
    pushBackEach H t (xs ++ ys) = pushBackEach H (pushBackEach H t xs) ys := by
  induction xs generalizing t with
  | nil => rfl
  | cons x xs ih => exact ih _

variable (H) in
/-- `push_back` writes no member but the context and the count, and a `push_back` that
    throws writes none. -/
theorem push_back_frame (t : back_merkle_tree Hash) (leaf : Hash) :
    (∀ e t', push_back H leaf t = .error e t' → t' = t) ∧
      ∃ context leaf_count, stateAfter (push_back H leaf t) = { t with context, leaf_count } := by
  unfold push_back
  dsimp only
  split
  · exact ⟨fun _ _ h => (by cases h; rfl), t.context, t.leaf_count, rfl⟩
  · split
    · exact ⟨fun _ _ h => (by cases h), _, _, rfl⟩
    · exact ⟨fun _ _ h => (by cases h; rfl), t.context, t.leaf_count, rfl⟩

@[simp] theorem depth_with_context (t : back_merkle_tree Hash) (context : List Hash)
    (leaf_count : Nat) : ({ t with context, leaf_count }).depth = t.depth := rfl

variable (H) in
private theorem pushBackEach_frame (t : back_merkle_tree Hash) (more : List Hash) :
    ∃ context leaf_count, pushBackEach H t more = { t with context, leaf_count } := by
  induction more generalizing t with
  | nil => exact ⟨t.context, t.leaf_count, rfl⟩
  | cons leaf more ih =>
    obtain ⟨c, n, hstep⟩ := (push_back_frame H t leaf).2
    obtain ⟨c', n', hrun⟩ := ih (stateAfter (push_back H leaf t))
    refine ⟨c', n', ?_⟩
    rw [back_merkle_tree.pushBackEach, hrun, hstep]

@[simp] theorem depth_pushBackEach (t : back_merkle_tree Hash) (more : List Hash) :
    (pushBackEach H t more).depth = t.depth := by
  obtain ⟨c, n, h⟩ := pushBackEach_frame H t more
  rw [h]
  rfl

variable [Inhabited Hash]

/-- A run of `push_back` calls on a tree that represents `leaves`: the leaves that fit
    are pushed and the others refused. -/
theorem Represents.pushBackEach {t : back_merkle_tree Hash} {leaves : List Hash}
    (hrep : Represents H t leaves) (more : List Hash) :
    Represents H (pushBackEach H t more) (leaves ++ more.take (2 ^ t.depth - leaves.length)) := by
  induction more generalizing t leaves with
  | nil => simpa using hrep
  | cons leaf more ih =>
    have hle := hrep.length_le
    by_cases hroom : leaves.length < 2 ^ t.depth
    · obtain ⟨j, carry, hpush, hrep'⟩ := push_back_of_room hrep hroom leaf
      have hrun := ih hrep'
      simp only [back_merkle_tree.pushBackEach, hpush, stateAfter]
      rw [show 2 ^ t.depth - leaves.length = 2 ^ t.depth - (leaves.length + 1) + 1 by omega,
        List.take_succ_cons, ← List.singleton_append, ← List.append_assoc]
      simpa using hrun
    · have hrun := ih hrep
      simp only [back_merkle_tree.pushBackEach, push_back_of_full hrep (by omega), stateAfter]
      rw [show 2 ^ t.depth - leaves.length = 0 by omega] at hrun ⊢
      simpa using hrun

/-- After a `push_back` with room the tree represents the leaves with the new one. -/
theorem Represents.stateAfter_push_back {t : back_merkle_tree Hash} {leaves : List Hash}
    (hrep : Represents H t leaves) (hroom : leaves.length < 2 ^ t.depth) (leaf : Hash) :
    Represents H (stateAfter (push_back H leaf t)) (leaves ++ [leaf]) := by
  obtain ⟨j, carry, hpush, hrep'⟩ := push_back_of_room hrep hroom leaf
  rwa [hpush]

variable (H) in
/-- From its construction, a tree represents the pushed leaves that fit in it. -/
theorem represents_pushBackEach {hashes : Nat → Hash} {r l w : CInt} {t : back_merkle_tree Hash}
    (hnew : new hashes r l w = .ok t) (leaves : List Hash) :
    Represents H (pushBackEach H t leaves) (leaves.take (2 ^ t.depth)) := by
  obtain ⟨hvalid, rfl⟩ := new_eq_ok_iff.mp hnew
  simpa using (initial_represents H hvalid).pushBackEach leaves

variable (H) in
/-- A state reached from construction by pushing at most `2 ^ depth` leaves represents
    them, and keeps the sizes and the pristine table the constructor was given. -/
theorem represents_of_new {hashes : Nat → Hash} {r l w : CInt} {t : back_merkle_tree Hash}
    (hnew : new hashes r l w = .ok t) {leaves : List Hash} (hlen : leaves.length ≤ 2 ^ t.depth) :
    Represents H (pushBackEach H t leaves) leaves ∧
      (pushBackEach H t leaves).log2_root_size = r.val ∧
      (pushBackEach H t leaves).log2_leaf_size = l.val ∧
      (pushBackEach H t leaves).pristine_hashes = ⟨r.val, w.val, hashes⟩ := by
  have hrep := represents_pushBackEach H hnew leaves
  rw [List.take_of_length_le hlen] at hrep
  obtain ⟨hvalid, rfl⟩ := new_eq_ok_iff.mp hnew
  obtain ⟨c, n, hframe⟩ := pushBackEach_frame H (initial hashes r.val l.val w.val) leaves
  rw [hframe] at hrep ⊢
  exact ⟨hrep, rfl, rfl, rfl⟩

/-- A full tree holds the root of all its leaves at `context[depth]`. -/
theorem Represents.context_depth_of_full {t : back_merkle_tree Hash} {leaves : List Hash}
    (hrep : Represents H t leaves) (hfull : leaves.length = 2 ^ t.depth) :
    t.context[t.depth]? = some (merkleRoot H t.depth leaves) := by
  have hbit : leaves.length.testBit t.depth = true := by simp [hfull]
  have hstart : leaves.length - leaves.length % 2 ^ (t.depth + 1) = 0 := by
    rw [hfull, Nat.mod_eq_of_lt (Nat.pow_lt_pow_right (by decide) (by omega)), Nat.sub_self]
  have := hrep.spine t.depth le_rfl hbit
  rwa [hstart, List.drop_zero, ← hfull, List.take_length] at this

/-- The spine invariant of the carry chain, along every run from construction:
    after `n ≤ 2 ^ depth` pushes the count is `n`, every entry under a set bit `i` of
    `n` holds the hash of the `2 ^ i` leaves starting at `n` with bits `0 .. i`
    cleared, a full tree holds its root at `depth`, and every `push_back` with room
    keeps the invariant. -/
theorem spine_of_push_back {hashes : Nat → Hash} {r l w : CInt} {t : back_merkle_tree Hash}
    (hnew : new hashes r l w = .ok t) (leaves : List Hash) (hlen : leaves.length ≤ 2 ^ t.depth) :
    (pushBackEach H t leaves).leaf_count = leaves.length ∧
      (∀ i ≤ t.depth, leaves.length.testBit i = true →
        (pushBackEach H t leaves).context[i]? = some (merkleRoot H i
          ((leaves.drop (leaves.length - leaves.length % 2 ^ (i + 1))).take (2 ^ i)))) ∧
      (leaves.length = 2 ^ t.depth →
        (pushBackEach H t leaves).context[t.depth]? = some (merkleRoot H t.depth leaves)) ∧
      (∀ (s : back_merkle_tree Hash) (pushed : List Hash), Represents H s pushed →
        pushed.length < 2 ^ s.depth → ∀ leaf, ∃ s',
          push_back H leaf s = .ok () s' ∧ Represents H s' (pushed ++ [leaf])) := by
  obtain ⟨hrep, -⟩ := represents_of_new H hnew hlen
  refine ⟨hrep.leaf_count_eq, fun i hi hbit => hrep.spine i (by simpa using hi) hbit,
    fun hfull => by simpa using hrep.context_depth_of_full (by simpa using hfull),
    fun s pushed hs hroom leaf => ?_⟩
  obtain ⟨j, carry, hpush, hrep'⟩ := push_back_of_room hs hroom leaf
  exact ⟨_, hpush, hrep'⟩

/-- Three leaves in a depth-two tree of sums: bit 1 of the count holds `3 + 5`, bit 0
    holds `7`. -/
theorem spine_of_push_back_three :
    (pushBackEach Nat.add (initial (fun h => 2 ^ h) 2 0 0) [3, 5, 7]).leaf_count = 3 ∧
      (pushBackEach Nat.add (initial (fun h => 2 ^ h) 2 0 0) [3, 5, 7]).context[1]? = some 8 ∧
      (pushBackEach Nat.add (initial (fun h => 2 ^ h) 2 0 0) [3, 5, 7]).context[0]? = some 7 :=
  have ⟨hcount, hspine, _, _⟩ := spine_of_push_back new_sums_two [3, 5, 7] (by decide)
  ⟨hcount, hspine 1 (by decide) (by decide), hspine 0 (by decide) (by decide)⟩

end back_merkle_tree
end cartesi
