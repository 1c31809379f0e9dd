import Mathlib.Data.Nat.Bitwise

namespace cartesi

/-- A C++ `int`: a 32-bit two's complement value, from `INT_MIN = -2147483648` to
    `INT_MAX = 2147483647`. -/
structure CInt where
  val : Int
  min_le : -2147483648 ≤ val
  lt_max : val < 2147483648
  deriving DecidableEq

/-- Modelled from the spec: `address_type`, declared in back-merkle-tree.h, is the
    unsigned 64-bit address word, so `std::numeric_limits<address_type>::digits`
    is 64. -/
def address_type_digits : Nat := 64

/-- Operations to which the C++ standard gives no meaning. -/
inductive UndefinedBehavior where
  /-- An `int` operation whose mathematical result does not fit in `int`. -/
  | signed_overflow (result : Int)
  /-- A shift of an `address_type` by an amount outside `[0, digits)`. -/
  | shift_out_of_range (amount : Int)
  /-- `std::vector::operator[]` outside the vector. -/
  | index_out_of_bounds (index : Int) (size : Nat)
  deriving DecidableEq, Repr

/-- How a modelled call ends when it does not return: a thrown exception, a
    failed `assert`, or undefined behaviour. -/
inductive Error where
  | out_of_range (what : String)
  | runtime_error (what : String)
  | assertion_failure (expression : String)
  | undefined (behavior : UndefinedBehavior)
  deriving DecidableEq, Repr

/-- `a - b` on `int`. -/
def intSub (a b : Int) : Except Error Int :=
  if -2147483648 ≤ a - b ∧ a - b < 2147483648 then .ok (a - b)
  else .error (.undefined (.signed_overflow (a - b)))

/-- `a + b` on `int`. -/
def intAdd (a b : Int) : Except Error Int :=
  if -2147483648 ≤ a + b ∧ a + b < 2147483648 then .ok (a + b)
  else .error (.undefined (.signed_overflow (a + b)))

/-- `x << amount` on `address_type`: defined only for amounts in `[0, digits)`,
    and the result wraps modulo `2 ^ digits`. -/
def shiftLeft (x : Nat) (amount : Int) : Except Error Nat :=
  if 0 ≤ amount ∧ amount < address_type_digits then
    .ok (x * 2 ^ amount.toNat % 2 ^ address_type_digits)
  else .error (.undefined (.shift_out_of_range amount))

/-- `v[i]` on a `std::vector`; a negative `int` index converts to a `size_t`
    past the end of any vector. -/
def vectorAt {α : Type} (v : List α) (i : Int) : Except Error α :=
  match (if 0 ≤ i then v[i.toNat]? else none) with
  | some a => .ok a
  | none => .error (.undefined (.index_out_of_bounds i v.length))

/-- `v[i] = a` on a `std::vector`. -/
def vectorSet {α : Type} (v : List α) (i : Int) (a : α) : Except Error (List α) :=
  if 0 ≤ i ∧ i.toNat < v.length then .ok (v.set i.toNat a)
  else .error (.undefined (.index_out_of_bounds i v.length))

theorem shiftLeft_of_lt {x i : Nat} (hi : i < address_type_digits) :
    shiftLeft x i = .ok (x * 2 ^ i % 2 ^ address_type_digits) := by
  simp [shiftLeft, hi, Int.natCast_nonneg]

/-- `address_type{1} << i` is `2 ^ i` for every amount the loops use. -/
theorem shiftLeft_one {i : Nat} (hi : i < address_type_digits) :
    shiftLeft 1 i = .ok (2 ^ i) := by
  rw [shiftLeft_of_lt hi, Nat.one_mul,
    Nat.mod_eq_of_lt (Nat.pow_lt_pow_right (by decide) hi)]

theorem vectorAt_of_lt {α : Type} {v : List α} {i : Nat} (hi : i < v.length) :
    vectorAt v i = .ok v[i] := by
  simp [vectorAt, hi, Int.natCast_nonneg]

theorem vectorAt_of_getElem? {α : Type} {v : List α} {i : Nat} {a : α} (h : v[i]? = some a) :
    vectorAt v i = .ok a := by
  simp [vectorAt, h, Int.natCast_nonneg]

theorem vectorSet_of_lt {α : Type} {v : List α} {i : Nat} (a : α) (hi : i < v.length) :
    vectorSet v i a = .ok (v.set i a) := by
  simp [vectorSet, hi, Int.natCast_nonneg]

/-- The C++ test `n & (address_type{1} << i)` is bit `i` of `n`. -/
@[simp] theorem and_two_pow_ne_zero (n i : Nat) : n &&& 2 ^ i ≠ 0 ↔ n.testBit i := by
  rw [Nat.and_two_pow]
  cases n.testBit i <;> simp

end cartesi
