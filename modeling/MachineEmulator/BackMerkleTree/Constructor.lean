import MachineEmulator.BackMerkleTree.Invariant

namespace cartesi
namespace back_merkle_tree

/-- The sizes the constructor's checks accept:
    `0 ≤ log2_word_size ≤ log2_leaf_size ≤ log2_root_size < digits`. -/
def ValidSizes (log2_root_size log2_leaf_size log2_word_size : Int) : Prop :=
  0 ≤ log2_word_size ∧ log2_word_size ≤ log2_leaf_size ∧
    log2_leaf_size ≤ log2_root_size ∧ log2_root_size < address_type_digits

instance (r l w : Int) : Decidable (ValidSizes r l w) :=
  inferInstanceAs (Decidable (_ ∧ _))

/-- The checks pass exactly on valid sizes, and otherwise throw `out_of_range`. -/
theorem check_sizes_eq (r l w : Int) :
    check_sizes r l w = .ok () ∧ ValidSizes r l w ∨
      (∃ what, check_sizes r l w = .error (.out_of_range what)) ∧ ¬ ValidSizes r l w := by
  unfold check_sizes ValidSizes address_type_digits
  by_cases h1 : r < 0
  · exact .inr ⟨⟨_, by rw [if_pos h1]; rfl⟩, by omega⟩
  rw [if_neg h1]
  by_cases h2 : l < 0
  · exact .inr ⟨⟨_, by rw [if_pos h2]; rfl⟩, by omega⟩
  rw [if_neg h2]
  by_cases h3 : w < 0
  · exact .inr ⟨⟨_, by rw [if_pos h3]; rfl⟩, by omega⟩
  rw [if_neg h3]
  by_cases h4 : l > r
  · exact .inr ⟨⟨_, by rw [if_pos h4]; rfl⟩, by omega⟩
  rw [if_neg h4]
  by_cases h5 : w > l
  · exact .inr ⟨⟨_, by rw [if_pos h5]; rfl⟩, by omega⟩
  rw [if_neg h5]
  by_cases h6 : r ≥ ((64 : Nat) : Int)
  · exact .inr ⟨⟨_, by rw [if_pos h6]; rfl⟩, by omega⟩
  exact .inl ⟨by rw [if_neg h6]; rfl, by omega⟩

variable {Hash : Type} [Inhabited Hash]

/-- The members as the initialisers set them, when `log2_root_size - log2_leaf_size`
    is a defined shift amount. -/
def initial (hashes : Nat → Hash) (log2_root_size log2_leaf_size log2_word_size : Int) :
    back_merkle_tree Hash where
  log2_root_size := log2_root_size
  log2_leaf_size := log2_leaf_size
  leaf_count := 0
  max_leaves := 2 ^ (log2_root_size - log2_leaf_size).toNat
  context := List.replicate (max 1 (log2_root_size - log2_leaf_size + 1)).toNat default
  pristine_hashes := ⟨log2_root_size, log2_word_size, hashes⟩

/-- When the initialisers are defined, the constructor is its checks. -/
theorem new_of_shift {hashes : Nat → Hash} {r l w : CInt}
    (hshift : 0 ≤ r.val - l.val ∧ r.val - l.val < address_type_digits) :
    new hashes r l w = (check_sizes r.val l.val w.val).bind
      (fun _ => .ok (initial hashes r.val l.val w.val)) := by
  unfold address_type_digits at hshift
  have hsub : intSub r.val l.val = .ok (r.val - l.val) := by
    unfold intSub; rw [if_pos (by omega)]
  have hadd : intAdd (r.val - l.val) 1 = .ok (r.val - l.val + 1) := by
    unfold intAdd; rw [if_pos (by omega)]
  have hshl : shiftLeft 1 (r.val - l.val) = .ok (2 ^ (r.val - l.val).toNat) := by
    rw [show r.val - l.val = ((r.val - l.val).toNat : Nat) by omega]
    exact shiftLeft_one (by unfold address_type_digits; omega)
  simp only [new, hsub, hadd, hshl, bind, Except.bind, pure, Except.pure]
  cases check_sizes r.val l.val w.val <;> rfl

/-- When the initialisers are not defined, the constructor stops there. -/
theorem new_of_not_shift {hashes : Nat → Hash} {r l w : CInt}
    (hshift : ¬ (0 ≤ r.val - l.val ∧ r.val - l.val < address_type_digits)) :
    ∃ ub, new hashes r l w = .error (.undefined ub) := by
  unfold new intSub
  split
  · refine ⟨.shift_out_of_range (r.val - l.val), ?_⟩
    simp only [bind, Except.bind, shiftLeft, if_neg hshift]
  · exact ⟨_, rfl⟩

/-- The constructor reaches undefined behaviour exactly on the triples for which
    `log2_root_size - log2_leaf_size` is not a shift amount of `address_type`: the
    initialiser of `m_max_leaves` runs before any check. -/
theorem new_undefined_iff {hashes : Nat → Hash} {r l w : CInt} :
    (∃ ub, new hashes r l w = .error (.undefined ub)) ↔
      ¬ (0 ≤ r.val - l.val ∧ r.val - l.val < address_type_digits) := by
  refine ⟨fun ⟨ub, hub⟩ hshift => ?_, new_of_not_shift⟩
  rw [new_of_shift hshift] at hub
  rcases check_sizes_eq r.val l.val w.val with ⟨hok, _⟩ | ⟨⟨what, herr⟩, _⟩
  · simp [hok, Except.bind] at hub
  · simp [herr, Except.bind] at hub

/-- On the other triples the constructor throws `out_of_range` exactly when the
    sizes are invalid. -/
theorem new_out_of_range_iff {hashes : Nat → Hash} {r l w : CInt}
    (hshift : 0 ≤ r.val - l.val ∧ r.val - l.val < address_type_digits) :
    (∃ what, new hashes r l w = .error (.out_of_range what)) ↔
      ¬ ValidSizes r.val l.val w.val := by
  rw [new_of_shift hshift]
  rcases check_sizes_eq r.val l.val w.val with ⟨hok, hvalid⟩ | ⟨⟨what, herr⟩, hinvalid⟩
  · simp [hok, Except.bind, hvalid]
  · simp [herr, Except.bind, hinvalid]

/-- `(5, 3, 4)` shifts by 2 and then fails the check of the word size. -/
theorem new_out_of_range_word_size :
    ∃ what, new (fun h => 2 ^ h) ⟨5, by decide, by decide⟩ ⟨3, by decide, by decide⟩
      ⟨4, by decide, by decide⟩ = .error (.out_of_range what) :=
  (new_out_of_range_iff (by decide)).mpr (by decide)

/-- The triple `(64, 0, 0)`, which the body's last check rejects as too large for
    the address type, never reaches that check: the initialiser of `m_max_leaves`
    first shifts `address_type{1}` by 64. -/
theorem new_shifts_by_digits (hashes : Nat → Hash) :
    new hashes ⟨64, by decide, by decide⟩ ⟨0, by decide, by decide⟩
        ⟨0, by decide, by decide⟩ = .error (.undefined (.shift_out_of_range 64)) ∧
      check_sizes 64 0 0 = .error (.out_of_range "tree is too large for address type") := by
  constructor <;> rfl

variable (H : Hash → Hash → Hash)

/-- A freshly constructed tree represents the empty sequence of leaves. -/
theorem initial_represents {hashes : Nat → Hash} {r l w : Int} (hvalid : ValidSizes r l w) :
    Represents H (initial hashes r l w) [] :=
  have ⟨hword, hword_leaf, hleaf_root, hroot⟩ := hvalid
  { leaf_size_nonneg := by simp only [initial]; omega
    leaf_le_root := hleaf_root
    root_lt_digits := hroot
    pristine_root := rfl
    pristine_word_le := hword_leaf
    max_leaves_eq := rfl
    context_length := by simp [initial, depth]; omega
    leaf_count_eq := rfl
    length_le := Nat.zero_le _
    spine := fun i _ hbit => by simp at hbit }

/-- The constructor returns exactly on valid sizes, and then returns the members
    as its initialisers set them. -/
theorem new_eq_ok_iff {hashes : Nat → Hash} {r l w : CInt} {t : back_merkle_tree Hash} :
    new hashes r l w = .ok t ↔
      ValidSizes r.val l.val w.val ∧ t = initial hashes r.val l.val w.val := by
  by_cases hshift : 0 ≤ r.val - l.val ∧ r.val - l.val < address_type_digits
  · rw [new_of_shift hshift]
    rcases check_sizes_eq r.val l.val w.val with
      ⟨hok, hvalid⟩ | ⟨⟨what, herr⟩, hinvalid⟩
    · simp only [hok, Except.bind, Except.ok.injEq]
      exact ⟨fun h => ⟨hvalid, h.symm⟩, fun h => h.2.symm⟩
    · simp only [herr, Except.bind]
      exact ⟨fun h => Except.noConfusion h, fun h => absurd h.1 hinvalid⟩
  · obtain ⟨ub, hub⟩ := @new_of_not_shift Hash _ hashes r l w hshift
    rw [hub]
    refine ⟨fun h => Except.noConfusion h, fun h => absurd ?_ hshift⟩
    have := h.1
    unfold ValidSizes at this
    omega

/-- The tree of sums of height one over leaves of size one, whose pristine hash of height
    `h` is `2 ^ h`. -/
theorem new_sums_one :
    new (fun h => 2 ^ h) ⟨1, by decide, by decide⟩ ⟨0, by decide, by decide⟩
      ⟨0, by decide, by decide⟩ = .ok (initial (fun h => 2 ^ h) 1 0 0) := rfl

/-- The tree of sums of height two. -/
theorem new_sums_two :
    new (fun h => 2 ^ h) ⟨2, by decide, by decide⟩ ⟨0, by decide, by decide⟩
      ⟨0, by decide, by decide⟩ = .ok (initial (fun h => 2 ^ h) 2 0 0) := rfl

/-- The pristine hashes of the trees of sums obey the doubling law of the sum. -/
theorem sums_double (h : Nat) : 2 ^ (h + 1) = Nat.add (2 ^ h) (2 ^ h) :=
  (Nat.pow_succ 2 h).trans (Nat.mul_two _)

end back_merkle_tree
end cartesi
