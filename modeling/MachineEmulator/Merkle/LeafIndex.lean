import Mathlib.Data.Nat.Bitwise

namespace cartesi

/-- Bit `i` of `n` adds `2 ^ i` to `n % 2 ^ (i + 1)`. All window arithmetic of the
    tree goes through this one fact. -/
theorem mod_two_pow_succ (n i : Nat) :
    n % 2 ^ (i + 1) = n % 2 ^ i + if n.testBit i then 2 ^ i else 0 := by
  rw [Nat.mod_pow_succ, Nat.testBit_to_div_mod]
  rcases Nat.mod_two_eq_zero_or_one (n / 2 ^ i) with h | h <;> simp [h]

theorem testBit_iff_le_mod (n i : Nat) : n.testBit i ↔ 2 ^ i ≤ n % 2 ^ (i + 1) := by
  have hlt := Nat.mod_lt n (Nat.two_pow_pos i)
  rw [mod_two_pow_succ]
  split <;> simp_all

/-- Bits `0 .. k - 1` of `n` are all set: a carry entering bit `0` of `n`
    reaches bit `k`. -/
def LowBitsSet (n k : Nat) : Prop := n % 2 ^ k + 1 = 2 ^ k

instance (n k : Nat) : Decidable (LowBitsSet n k) :=
  inferInstanceAs (Decidable (n % 2 ^ k + 1 = 2 ^ k))

theorem lowBitsSet_zero (n : Nat) : LowBitsSet n 0 := by
  simp [LowBitsSet, Nat.mod_one]

theorem lowBitsSet_succ_iff {n k : Nat} :
    LowBitsSet n (k + 1) ↔ LowBitsSet n k ∧ n.testBit k = true := by
  have hlt := Nat.mod_lt n (Nat.two_pow_pos k)
  unfold LowBitsSet
  rw [mod_two_pow_succ, Nat.pow_succ]
  split <;> simp_all <;> omega

private theorem LowBitsSet.mono {n k m : Nat} (hlow : LowBitsSet n k) (hm : m ≤ k) :
    LowBitsSet n m := by
  induction k with
  | zero => rwa [Nat.le_zero.mp hm]
  | succ k ih =>
    rcases Nat.lt_or_ge m (k + 1) with hlt | hge
    · exact ih (lowBitsSet_succ_iff.mp hlow).1 (by omega)
    · rwa [Nat.le_antisymm hm hge]

/-- The lowest clear bit is unique: the carry of `n + 1` stops at one level only. -/
theorem LowBitsSet.eq_of_testBit {n j j' : Nat} (hlow : LowBitsSet n j)
    (hbit : n.testBit j = false) (hlow' : LowBitsSet n j') (hbit' : n.testBit j' = false) :
    j = j' := by
  have hclear : ∀ {a b}, LowBitsSet n b → n.testBit a = false → ¬ a < b := fun hb ha hab => by
    simp [(lowBitsSet_succ_iff.mp (hb.mono hab)).2] at ha
  rcases Nat.lt_trichotomy j j' with h | h | h
  · exact absurd h (hclear hlow' hbit)
  · exact h
  · exact absurd h (hclear hlow hbit')

private theorem succ_mod_two_pow (n k : Nat) :
    (n + 1) % 2 ^ k = if LowBitsSet n k then 0 else n % 2 ^ k + 1 := by
  have hlt := Nat.mod_lt n (Nat.two_pow_pos k)
  rw [← Nat.mod_add_mod]
  unfold LowBitsSet
  split
  · rename_i heq
    rw [heq, Nat.mod_self]
  · exact Nat.mod_eq_of_lt (by omega)

/-- Adding one to `n`, whose lowest clear bit is `j`, sets bit `j`, clears the bits
    below it and keeps those above: every bit set in `n + 1` is `j`, whose window
    now starts where the carry began, or a bit of `n` whose window is unchanged. -/
theorem testBit_succ_of_lowest_clear {n j i : Nat} (hlow : LowBitsSet n j)
    (hbit : n.testBit j = false) (hi : (n + 1).testBit i = true) :
    (i = j ∧ n + 1 - (n + 1) % 2 ^ (j + 1) = n - n % 2 ^ j) ∨
      (i ≠ j ∧ n.testBit i = true ∧ n + 1 - (n + 1) % 2 ^ (i + 1) = n - n % 2 ^ (i + 1)) := by
  have hnot : ¬ LowBitsSet n (j + 1) := fun h => by
    simp [(lowBitsSet_succ_iff.mp h).2] at hbit
  have hpos := Nat.two_pow_pos i
  have hmod := mod_two_pow_succ n i
  have hlt := Nat.mod_lt n hpos
  have hle := Nat.mod_le n (2 ^ i)
  rw [testBit_iff_le_mod, succ_mod_two_pow] at hi
  rcases Nat.lt_trichotomy i j with hij | rfl | hij
  · rw [if_pos (hlow.mono (by omega))] at hi
    omega
  · have hsucc : (n + 1) % 2 ^ (i + 1) = n % 2 ^ (i + 1) + 1 := by
      rw [succ_mod_two_pow, if_neg hnot]
    simp only [hbit, Bool.false_eq_true, if_false, Nat.add_zero] at hmod
    unfold LowBitsSet at hlow
    left
    omega
  · have hnot_i : ¬ LowBitsSet n (i + 1) := fun h => hnot (h.mono (by omega))
    have hsucc : (n + 1) % 2 ^ (i + 1) = n % 2 ^ (i + 1) + 1 := by
      rw [succ_mod_two_pow, if_neg hnot_i]
    rw [if_neg hnot_i] at hi
    refine .inr ⟨by omega, ?_, by omega⟩
    by_contra hclear
    simp only [hclear, Bool.false_eq_true, if_false, Nat.add_zero] at hmod
    exact hnot ((show LowBitsSet n i by unfold LowBitsSet; omega).mono (by omega))

end cartesi
