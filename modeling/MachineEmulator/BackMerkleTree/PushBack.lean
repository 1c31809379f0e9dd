import MachineEmulator.BackMerkleTree.Invariant

namespace cartesi
namespace back_merkle_tree

variable {Hash : Type} [Inhabited Hash] (H : Hash → Hash → Hash)

/-- One carry: the left subtree stored under a set bit `i`, joined with the carry
    of height `i`, is the carry of height `i + 1`. -/
theorem carry_succ {leaves : List Hash} (leaf : Hash) {i : Nat}
    (hbit : leaves.length.testBit i = true) :
    H (merkleRoot H i ((leaves.drop (leaves.length - leaves.length % 2 ^ (i + 1))).take (2 ^ i)))
        (merkleRoot H i ((leaves ++ [leaf]).drop (leaves.length - leaves.length % 2 ^ i))) =
      merkleRoot H (i + 1)
        ((leaves ++ [leaf]).drop (leaves.length - leaves.length % 2 ^ (i + 1))) := by
  have hmod := mod_two_pow_succ leaves.length i
  have hle := Nat.mod_le leaves.length (2 ^ (i + 1))
  simp only [hbit, if_true] at hmod
  have hwin : leaves.length - leaves.length % 2 ^ (i + 1) + 2 ^ i ≤ leaves.length := by omega
  rw [merkleRoot_drop_succ, merkleRoot_take H _ le_rfl, merkleRoot_drop_append H [leaf] hwin,
    show leaves.length - leaves.length % 2 ^ (i + 1) + 2 ^ i =
      leaves.length - leaves.length % 2 ^ i by omega]

private theorem push_back_loop_carry {leaves context : List Hash} (leaf : Hash) {depth : Nat}
    (hspine : Spine H leaves context depth) (hlen : context.length = depth + 1)
    (hdepth : depth < address_type_digits) (hroom : leaves.length < 2 ^ depth) :
    ∀ k i, i + k = depth + 1 → LowBitsSet leaves.length i →
      ∃ j, j ≤ depth ∧ LowBitsSet leaves.length j ∧ leaves.length.testBit j = false ∧
        push_back_loop H leaves.length i k
            (merkleRoot H i ((leaves ++ [leaf]).drop (leaves.length - leaves.length % 2 ^ i)))
            context =
          .ok (j, merkleRoot H j ((leaves ++ [leaf]).drop (leaves.length - leaves.length % 2 ^ j)),
            context.set j (merkleRoot H j
              ((leaves ++ [leaf]).drop (leaves.length - leaves.length % 2 ^ j)))) := by
  intro k
  induction k with
  | zero =>
    intro i hi hlow
    have hpow : 2 ^ (depth + 1) = 2 ^ depth * 2 := Nat.pow_succ 2 depth
    have hmod : leaves.length % 2 ^ (depth + 1) = leaves.length := Nat.mod_eq_of_lt (by omega)
    unfold LowBitsSet at hlow
    rw [show i = depth + 1 by omega, hmod] at hlow
    omega
  | succ k ih =>
    intro i hi hlow
    simp only [push_back_loop, shiftLeft_one (show i < address_type_digits by omega), bind,
      Except.bind, ne_eq, and_two_pow_ne_zero]
    cases hbit : leaves.length.testBit i with
    | false =>
      refine ⟨i, by omega, hlow, hbit, ?_⟩
      simp [vectorSet_of_lt _ (show i < context.length by omega), pure, Except.pure]
    | true =>
      obtain ⟨j, hj, hlowj, hbitj, hloop⟩ :=
        ih (i + 1) (by omega) (lowBitsSet_succ_iff.mpr ⟨hlow, hbit⟩)
      have hleft := hspine i (by omega) hbit
      rw [List.getElem?_eq_getElem (show i < context.length by omega), Option.some_inj] at hleft
      refine ⟨j, hj, hlowj, hbitj, ?_⟩
      simp only [if_true, vectorAt_of_lt (show i < context.length by omega), hleft,
        carry_succ H leaf hbit, hloop]

/-- Storing the carry at the lowest clear bit `j` of the leaf count restores the
    spine for the leaves with one more appended. Entries under the bits the carry
    cleared become free and are not read again. -/
theorem Spine.push {leaves context : List Hash} (leaf : Hash) {depth j : Nat}
    (hspine : Spine H leaves context depth) (hlen : context.length = depth + 1)
    (hj : j ≤ depth) (hlow : LowBitsSet leaves.length j)
    (hbit : leaves.length.testBit j = false) :
    Spine H (leaves ++ [leaf]) (context.set j (merkleRoot H j
      ((leaves ++ [leaf]).drop (leaves.length - leaves.length % 2 ^ j)))) depth := by
  intro i hi hset
  rw [List.length_append, List.length_singleton] at hset ⊢
  rcases testBit_succ_of_lowest_clear hlow hbit hset with
    ⟨rfl, hstart⟩ | ⟨hne, hold, hstart⟩
  · rw [hstart, List.getElem?_set_self (by omega), merkleRoot_take H _ le_rfl]
  · have hwin : leaves.length - leaves.length % 2 ^ (i + 1) + 2 ^ i ≤ leaves.length := by
      have := (testBit_iff_le_mod _ _).mp hold
      have := Nat.mod_le leaves.length (2 ^ (i + 1))
      omega
    rw [hstart, List.getElem?_set_ne (Ne.symm hne), hspine i hi hold, merkleRoot_take H _ le_rfl,
      merkleRoot_take H _ le_rfl, merkleRoot_drop_append H [leaf] hwin]

variable {H} {t : back_merkle_tree Hash} {leaves : List Hash}

/-- On a tree with room the carry loop of `push_back` leaves through its `break` at a
    level `j ≤ depth`, below which every bit of the count is set and at which it is
    clear, after storing there the hash of the window that ends with the new leaf. -/
theorem Represents.push_back_loop_eq (hrep : Represents H t leaves)
    (hroom : leaves.length < 2 ^ t.depth) (leaf : Hash) :
    ∃ j, j ≤ t.depth ∧ LowBitsSet leaves.length j ∧ leaves.length.testBit j = false ∧
      push_back_loop H leaves.length 0 (t.depth + 1) leaf t.context =
        .ok (j, merkleRoot H j ((leaves ++ [leaf]).drop (leaves.length - leaves.length % 2 ^ j)),
          t.context.set j (merkleRoot H j
            ((leaves ++ [leaf]).drop (leaves.length - leaves.length % 2 ^ j)))) := by
  have hstart : merkleRoot H 0 ((leaves ++ [leaf]).drop (leaves.length - leaves.length % 2 ^ 0)) =
      leaf := by
    simp [merkleRoot, Nat.mod_one]
  have hcarry := push_back_loop_carry H leaf hrep.spine hrep.context_length hrep.depth_lt hroom
    (t.depth + 1) 0 (by omega) (lowBitsSet_zero _)
  rwa [hstart] at hcarry

/-- `push_back` on a tree with room: its carry loop stores at the lowest clear bit `j` of
    the count the hash of the window that ends with the new leaf, and the count goes up
    by one without wrapping. -/
theorem Represents.push_back_eq (hrep : Represents H t leaves)
    (hroom : leaves.length < 2 ^ t.depth) (leaf : Hash) :
    ∃ j, j ≤ t.depth ∧ LowBitsSet leaves.length j ∧ leaves.length.testBit j = false ∧
      push_back H leaf t = .ok () { t with
        context := t.context.set j (merkleRoot H j
          ((leaves ++ [leaf]).drop (leaves.length - leaves.length % 2 ^ j))),
        leaf_count := leaves.length + 1 } := by
  obtain ⟨j, hj, hlow, hbit, hloop⟩ := hrep.push_back_loop_eq hroom leaf
  have hcount : (leaves.length + 1) % 2 ^ address_type_digits = leaves.length + 1 := by
    have := Nat.pow_lt_pow_right (show 1 < 2 by decide) hrep.depth_lt
    exact Nat.mod_eq_of_lt (by omega)
  refine ⟨j, hj, hlow, hbit, ?_⟩
  simp only [push_back, hrep.leaf_count_eq, hrep.max_leaves_eq, ge_iff_le, hrep.intSub_eq,
    bind, Except.bind, show ((t.depth : Int) + 1).toNat = t.depth + 1 by omega, hloop, hcount]
  rw [if_neg (by omega)]

/-- `push_back` on a tree with room stores the carry at some level and counts the
    leaf, and the tree then represents the leaves with `leaf` appended. -/
theorem push_back_of_room (hrep : Represents H t leaves) (hroom : leaves.length < 2 ^ t.depth)
    (leaf : Hash) :
    ∃ j carry, push_back H leaf t =
        .ok () { t with context := t.context.set j carry, leaf_count := leaves.length + 1 } ∧
      Represents H { t with context := t.context.set j carry, leaf_count := leaves.length + 1 }
        (leaves ++ [leaf]) := by
  obtain ⟨j, hj, hlow, hbit, hpush⟩ := hrep.push_back_eq hroom leaf
  refine ⟨j, _, hpush, ?_⟩
  exact { hrep with
      context_length := by
        show (t.context.set j _).length = t.depth + 1
        simp [hrep.context_length]
      leaf_count_eq := by simp
      length_le := by
        show (leaves ++ [leaf]).length ≤ 2 ^ t.depth
        simp only [List.length_append, List.length_singleton]
        omega
      spine := hrep.spine.push H leaf hrep.context_length hj hlow hbit }

/-- `push_back` on a full tree throws `out_of_range` before touching any member. -/
theorem push_back_of_full (hrep : Represents H t leaves) (hfull : leaves.length = 2 ^ t.depth)
    (leaf : Hash) : push_back H leaf t = .error (.out_of_range "too many leaves") t := by
  simp only [push_back, hrep.leaf_count_eq, hrep.max_leaves_eq, hfull, ge_iff_le, le_refl, if_true]

end back_merkle_tree
end cartesi
