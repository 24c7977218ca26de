import Mathlib.Data.List.Basic

/-!
# Pieces of one size

A list is cut from its beginning into pieces of one size. As many pieces as the size goes into the
length are full and what is left over makes one more; laid end to end they are the beginning of the
list (`flatMap_pieces`), and all of it once there are enough of them (`le_ceilDiv_mul`).
-/

namespace HopSampler

variable {α : Type} {n size : Nat}

/-! ### How many pieces there are -/

/-- Rounding up counts one piece more where something is left over. -/
theorem ceilDiv_eq (h : 0 < size) :
    (n + size - 1) / size = n / size + if n % size = 0 then 0 else 1 := by
  have hdiv : n = size * (n / size) + n % size := (Nat.div_add_mod n size).symm
  have hmod : n % size < size := Nat.mod_lt n h
  generalize n / size = q at hdiv ⊢
  generalize n % size = r at hdiv hmod ⊢
  subst hdiv
  split
  · next hr =>
    rw [hr, Nat.add_zero, Nat.add_sub_assoc h, Nat.mul_add_div h, Nat.div_eq_of_lt (by omega)]
  · next hr =>
    have hover : size * q + r + size - 1 = size * (q + 1) + (r - 1) := by
      rw [Nat.mul_succ]
      omega
    rw [hover, Nat.mul_add_div h, Nat.div_eq_of_lt (by omega), Nat.add_zero]

/-- Rounded up, the pieces are enough for everything. -/
theorem le_ceilDiv_mul (h : 0 < size) : n ≤ (n + size - 1) / size * size := by
  have hlt := Nat.lt_div_mul_add (a := n + size - 1) h
  omega

/-! ### What the pieces are -/

/-- Pieces of one size, one after another, are the beginning of the list. -/
theorem flatMap_pieces (xs : List α) (size count : Nat) :
    (List.range count).flatMap (fun k ↦ (xs.drop (k * size)).take size) =
      xs.take (count * size) := by
  induction count with
  | zero => simp
  | succ count ih =>
    rw [List.range_succ, List.flatMap_append, ih, List.flatMap_singleton, Nat.succ_mul,
      List.take_add]

/-- As many pieces are full as the size goes into the length. -/
theorem length_piece_of_lt {xs : List α} {k : Nat} (hk : k < xs.length / size) :
    ((xs.drop (k * size)).take size).length = size := by
  have hfull : (k + 1) * size ≤ xs.length :=
    Nat.le_trans (Nat.mul_le_mul_right size hk) (Nat.div_mul_le_self xs.length size)
  rw [Nat.succ_mul] at hfull
  rw [List.length_take, List.length_drop]
  omega

/-- The piece after the full ones has what is left over. -/
theorem length_piece_after (h : 0 < size) (xs : List α) :
    ((xs.drop (xs.length / size * size)).take size).length = xs.length % size := by
  have hdiv := Nat.div_add_mod' xs.length size
  have hmod := Nat.mod_lt xs.length h
  rw [List.length_take, List.length_drop]
  omega

end HopSampler
