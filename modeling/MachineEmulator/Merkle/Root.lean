import MachineEmulator.Merkle.LeafIndex

namespace cartesi

private theorem length_halves {h : Nat} {α : Type} {leaves : List α} (hlen : leaves.length = 2 ^ (h + 1)) :
    (leaves.take (2 ^ h)).length = 2 ^ h ∧ (leaves.drop (2 ^ h)).length = 2 ^ h := by
  have hpow : 2 ^ (h + 1) = 2 ^ h * 2 := Nat.pow_succ 2 h
  simp only [List.length_take, List.length_drop]
  omega

section merkleRoot

variable {Hash : Type} [Inhabited Hash] (H : Hash → Hash → Hash)

/-- The root hash of the perfect binary tree of height `h` over the first `2 ^ h`
    entries of `leaves`, each inner node the concatenation hash of its children. -/
def merkleRoot : Nat → List Hash → Hash
  | 0, leaves => leaves.headD default
  | h + 1, leaves =>
    H (merkleRoot h (leaves.take (2 ^ h))) (merkleRoot h (leaves.drop (2 ^ h)))

/-- Only the first `2 ^ h` leaves count. -/
theorem merkleRoot_take {h m : Nat} (leaves : List Hash) (hm : 2 ^ h ≤ m) :
    merkleRoot H h (leaves.take m) = merkleRoot H h leaves := by
  induction h generalizing leaves m with
  | zero =>
    obtain ⟨k, rfl⟩ : ∃ k, m = k + 1 := ⟨m - 1, by simp at hm; omega⟩
    cases leaves <;> rfl
  | succ h ih =>
    have hpow : 2 ^ (h + 1) = 2 ^ h * 2 := Nat.pow_succ 2 h
    simp only [merkleRoot, List.take_take, List.drop_take]
    rw [Nat.min_eq_left (by omega), ih _ (by omega), ih _ (by omega)]

private theorem merkleRoot_append_of_le {h : Nat} {xs : List Hash} (ys : List Hash)
    (hlen : 2 ^ h ≤ xs.length) : merkleRoot H h (xs ++ ys) = merkleRoot H h xs := by
  rw [← merkleRoot_take H (xs ++ ys) hlen, List.take_left' rfl]

/-- A subtree of height `i + 1` starting at leaf `s` is its two halves. -/
theorem merkleRoot_drop_succ (leaves : List Hash) (i s : Nat) :
    merkleRoot H (i + 1) (leaves.drop s) =
      H (merkleRoot H i (leaves.drop s)) (merkleRoot H i (leaves.drop (s + 2 ^ i))) := by
  rw [merkleRoot, merkleRoot_take H _ le_rfl, List.drop_drop]

private theorem merkleRoot_drop_set {i s n : Nat} (leaves : List Hash) (x : Hash)
    (hout : n < s ∨ s + 2 ^ i ≤ n) :
    merkleRoot H i ((leaves.set n x).drop s) = merkleRoot H i (leaves.drop s) := by
  have hpos := Nat.two_pow_pos i
  rcases hout with hlt | hge
  · rw [List.drop_set_of_lt _ _ hlt]
  · rw [List.drop_set, if_neg (by omega), ← merkleRoot_take H _ le_rfl, List.set_take,
      List.set_eq_of_length_le (by simp only [List.length_take]; omega),
      merkleRoot_take H _ le_rfl]

/-- Leaves appended after a subtree leave its hash alone. -/
theorem merkleRoot_drop_append {i s : Nat} {xs : List Hash} (ys : List Hash)
    (hle : s + 2 ^ i ≤ xs.length) :
    merkleRoot H i ((xs ++ ys).drop s) = merkleRoot H i (xs.drop s) := by
  have hpos := Nat.two_pow_pos i
  rw [List.drop_append_of_le_length (by omega),
    merkleRoot_append_of_le H ys (by simp only [List.length_drop]; omega)]

private theorem merkleRoot_replicate (pristine : Nat → Hash) {h m : Nat}
    (hdouble : ∀ i < h, pristine (i + 1) = H (pristine i) (pristine i)) (hm : 2 ^ h ≤ m) :
    merkleRoot H h (List.replicate m (pristine 0)) = pristine h := by
  induction h generalizing m with
  | zero =>
    obtain ⟨k, rfl⟩ : ∃ k, m = k + 1 := ⟨m - 1, by simp at hm; omega⟩
    rfl
  | succ h ih =>
    have hpow : 2 ^ (h + 1) = 2 ^ h * 2 := Nat.pow_succ 2 h
    have hlow : ∀ i < h, pristine (i + 1) = H (pristine i) (pristine i) :=
      fun i hi => hdouble i (by omega)
    rw [merkleRoot, List.take_replicate, List.drop_replicate, ih hlow (by omega),
      ih hlow (by omega), hdouble h (by omega)]

/-- A subtree that lies in the pristine padding after the pushed leaves. -/
theorem merkleRoot_drop_pad (pristine : Nat → Hash) {i s M : Nat} (ls : List Hash)
    (hdouble : ∀ j < i, pristine (j + 1) = H (pristine j) (pristine j))
    (hs : ls.length ≤ s) (hM : s + 2 ^ i ≤ ls.length + M) :
    merkleRoot H i ((ls ++ List.replicate M (pristine 0)).drop s) = pristine i := by
  rw [List.drop_append_eq_append_drop, List.drop_eq_nil_of_le hs, List.nil_append,
    List.drop_replicate, merkleRoot_replicate H pristine hdouble (by omega)]

/-- A collision of the concatenation hash: two different pairs of children with one
    parent hash. -/
def IsCollision (c : (Hash × Hash) × (Hash × Hash)) : Prop :=
  c.1 ≠ c.2 ∧ H c.1.1 c.1.2 = H c.2.1 c.2.2

instance [DecidableEq Hash] (c : (Hash × Hash) × (Hash × Hash)) : Decidable (IsCollision H c) :=
  inferInstanceAs (Decidable (_ ∧ _))

variable [DecidableEq Hash]

/-- The collision two trees of height `h` with one root hash meet first, from the root
    down: the first node whose two pairs of children differ, the left subtrees searched
    before the right ones. Only pairs the two trees hash are returned. -/
def findCollision : Nat → List Hash → List Hash → Option ((Hash × Hash) × (Hash × Hash))
  | 0, _, _ => none
  | h + 1, xs, ys =>
    let cx := (merkleRoot H h (xs.take (2 ^ h)), merkleRoot H h (xs.drop (2 ^ h)))
    let cy := (merkleRoot H h (ys.take (2 ^ h)), merkleRoot H h (ys.drop (2 ^ h)))
    if cx = cy then
      (findCollision h (xs.take (2 ^ h)) (ys.take (2 ^ h))).orElse
        fun _ => findCollision h (xs.drop (2 ^ h)) (ys.drop (2 ^ h))
    else some (cx, cy)

private theorem findCollision_self (h : Nat) (xs : List Hash) :
    findCollision H h xs xs = none := by
  induction h generalizing xs with
  | zero => rfl
  | succ h ih => simp [findCollision, ih]

/-- The tree hash is binding: two lists of `2 ^ h` leaves with the same root hash are the
    same list, or `findCollision` returns a collision of `H` between pairs of children the
    two trees hash. -/
theorem merkleRoot_binding {h : Nat} {xs ys : List Hash} (hx : xs.length = 2 ^ h)
    (hy : ys.length = 2 ^ h) (heq : merkleRoot H h xs = merkleRoot H h ys) :
    xs = ys ∨ ∃ c, findCollision H h xs ys = some c ∧ IsCollision H c := by
  induction h generalizing xs ys with
  | zero =>
    match xs, ys, hx, hy with
    | [_], [_], _, _ => exact .inl (by simpa [merkleRoot] using heq)
  | succ h ih =>
    rw [merkleRoot, merkleRoot] at heq
    simp only [findCollision]
    split
    next hchildren =>
      obtain ⟨hleft, hright⟩ := Prod.mk.inj hchildren
      rcases ih (length_halves hx).1 (length_halves hy).1 hleft with hl | ⟨c, hc, hcol⟩
      · rcases ih (length_halves hx).2 (length_halves hy).2 hright with hr | ⟨c, hc, hcol⟩
        · exact .inl (by rw [← List.take_append_drop (2 ^ h) xs, hl, hr, List.take_append_drop])
        · exact .inr ⟨c, by rw [hl, findCollision_self, Option.orElse, hc], hcol⟩
      · exact .inr ⟨c, by rw [hc, Option.orElse], hcol⟩
    next hchildren => exact .inr ⟨_, rfl, hchildren, heq⟩

end merkleRoot

section foldPath

variable {Hash : Type} (H : Hash → Hash → Hash)

/-- Hashes `x` up `n` levels along the path of leaf `index`: at level `i` the
    running hash is the right child when bit `i` of `index` is set, and
    `sibling i` is the other child. -/
def foldPath (index : Nat) (sibling : Nat → Hash) : Nat → Hash → Hash
  | 0, x => x
  | n + 1, x =>
    if index.testBit n then H (sibling n) (foldPath index sibling n x)
    else H (foldPath index sibling n x) (sibling n)

@[simp] theorem foldPath_zero (index : Nat) (sibling : Nat → Hash) (x : Hash) :
    foldPath H index sibling 0 x = x := rfl

/-- The fold reads the siblings below its height only. -/
theorem foldPath_congr {index n : Nat} {sibling sibling' : Nat → Hash}
    (hsame : ∀ i < n, sibling i = sibling' i) (x : Hash) :
    foldPath H index sibling n x = foldPath H index sibling' n x := by
  induction n with
  | zero => rfl
  | succ n ih =>
    simp only [foldPath, ih (fun i hi => hsame i (by omega)), hsame n (by omega)]

/-- The first leaf of the sibling, at height `i`, of the subtree holding leaf `index`. -/
def siblingStart (index i : Nat) : Nat :=
  if index.testBit i then index - index % 2 ^ i - 2 ^ i else index - index % 2 ^ i + 2 ^ i

variable [Inhabited Hash]

private theorem foldPath_eq {index : Nat} {leaves : List Hash} (hindex : index < leaves.length)
    (x : Hash) (i : Nat) :
    foldPath H index (fun j => merkleRoot H j (leaves.drop (siblingStart index j))) i x =
      merkleRoot H i ((leaves.set index x).drop (index - index % 2 ^ i)) := by
  induction i with
  | zero => simp [foldPath, merkleRoot, List.headD_eq_head?, hindex, Nat.mod_one]
  | succ i ih =>
    have hmod := mod_two_pow_succ index i
    have hlt := Nat.mod_lt index (Nat.two_pow_pos i)
    have hle := Nat.mod_le index (2 ^ (i + 1))
    rw [foldPath, ih, siblingStart]
    by_cases hbit : index.testBit i
    · simp only [hbit, if_true] at hmod ⊢
      have hwin : index - index % 2 ^ (i + 1) + 2 ^ i ≤ index := by omega
      rw [show index - index % 2 ^ i - 2 ^ i = index - index % 2 ^ (i + 1) by omega,
        merkleRoot_drop_succ,
        show index - index % 2 ^ (i + 1) + 2 ^ i = index - index % 2 ^ i by omega,
        merkleRoot_drop_set H leaves x (Or.inr hwin)]
    · simp only [hbit, Bool.false_eq_true, if_false, Nat.add_zero] at hmod ⊢
      have hwin : index < index - index % 2 ^ i + 2 ^ i := by omega
      rw [hmod, merkleRoot_drop_succ, merkleRoot_drop_set H leaves x (Or.inl hwin)]

/-- At the full height the fold hashes the whole tree with `x` at `index`. -/
theorem foldPath_eq_merkleRoot {index d : Nat} {leaves : List Hash}
    (hindex : index < leaves.length) (hd : index < 2 ^ d) (x : Hash) :
    foldPath H index (fun j => merkleRoot H j (leaves.drop (siblingStart index j))) d x =
      merkleRoot H d (leaves.set index x) := by
  rw [foldPath_eq H hindex, Nat.mod_eq_of_lt hd, Nat.sub_self, List.drop_zero]

variable [DecidableEq Hash]

/-- The collision met first, from the root down, when folding `x` up the path of leaf
    `index` through `sibling` gives the root of the tree of `leaves`: the first node on
    the path where the pair the fold hashes differs from the tree's pair of children. -/
def findOpeningCollision (index : Nat) (sibling : Nat → Hash) (x : Hash) :
    Nat → List Hash → Option ((Hash × Hash) × (Hash × Hash))
  | 0, _ => none
  | h + 1, leaves =>
    let cx := if index.testBit h then (sibling h, foldPath H index sibling h x)
      else (foldPath H index sibling h x, sibling h)
    let cy := (merkleRoot H h (leaves.take (2 ^ h)), merkleRoot H h (leaves.drop (2 ^ h)))
    if cx = cy then
      findOpeningCollision index sibling x h
        (if index.testBit h then leaves.drop (2 ^ h) else leaves.take (2 ^ h))
    else some (cx, cy)

/-- Openings are binding: if folding `x` up the path of leaf `index` through any siblings
    gives the root of `2 ^ h` leaves, then `x` is the leaf at `index`, or
    `findOpeningCollision` returns a collision of `H` on that path. -/
theorem foldPath_binding {h : Nat} {leaves : List Hash} (index : Nat) (sibling : Nat → Hash)
    (x : Hash) (hlen : leaves.length = 2 ^ h)
    (heq : foldPath H index sibling h x = merkleRoot H h leaves) :
    leaves[index % 2 ^ h]? = some x ∨
      ∃ c, findOpeningCollision H index sibling x h leaves = some c ∧ IsCollision H c := by
  induction h generalizing leaves with
  | zero =>
    match leaves, hlen with
    | [_], _ => exact .inl (by simpa [merkleRoot, Nat.mod_one] using heq.symm)
  | succ h ih =>
    have hmod := mod_two_pow_succ index h
    have hlt := Nat.mod_lt index (Nat.two_pow_pos h)
    obtain ⟨htake, hdrop⟩ := length_halves hlen
    rw [foldPath, merkleRoot] at heq
    simp only [findOpeningCollision]
    cases hbit : index.testBit h with
    | true =>
      simp only [hbit, if_true] at heq hmod ⊢
      split
      next hpair =>
        rcases ih hdrop (Prod.mk.inj hpair).2 with hleaf | hcol
        · rw [List.getElem?_drop] at hleaf
          exact .inl (by rwa [hmod, Nat.add_comm])
        · exact .inr hcol
      next hpair => exact .inr ⟨_, rfl, hpair, heq⟩
    | false =>
      simp only [hbit, Bool.false_eq_true, if_false, Nat.add_zero] at heq hmod ⊢
      split
      next hpair =>
        rcases ih htake (Prod.mk.inj hpair).1 with hleaf | hcol
        · exact .inl (by rwa [hmod, ← List.getElem?_take_of_lt hlt])
        · exact .inr hcol
      next hpair => exact .inr ⟨_, rfl, hpair, heq⟩

end foldPath

end cartesi
