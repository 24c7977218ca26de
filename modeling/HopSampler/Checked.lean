import HopSampler.Error

/-!
# Numbers that words must hold

IDs, declared counts and amounts come in as 64-bit words. A number that is computed from them (the
one after an ID, a sum of declared counts, a multiple of an amount) is computed exactly and then has
to fit in a word again. Where it does not, the computation stops with `Error.overflow`. No such
number is ever reduced to what a word has room for.

The number of things that are held in memory, such as the rows of a topology, the nodes that a
request has met or the rows of a partition, is a natural number. It has no bound of its own here:
there is no room for the things themselves long before a word is too small to count them, and
running out of room is not modelled.

Two kinds of words go round on purpose. Seeds are mixed modulo `2 ^ 64` (`Random.mix`), and so are
the counters that a sampler shares between requests (`Counters`).
-/

namespace HopSampler

/-- A number as a word, where a word holds it. -/
def checked (n : Nat) : Except Error UInt64 :=
  if n < UInt64.size then .ok n.toUInt64 else .error .overflow

theorem checked_eq_ok_iff {n : Nat} {word : UInt64} : checked n = .ok word ↔ word.toNat = n := by
  rw [checked]
  split
  · next h =>
    have hn : n.toUInt64.toNat = n := UInt64.toNat_ofNat_of_lt' h
    rw [Except.ok.injEq, ← UInt64.toNat_inj, hn, eq_comm]
  · next h => exact iff_of_false nofun fun hword ↦ h (hword ▸ word.toNat_lt)

theorem checked_eq_error_iff {n : Nat} {e : Error} :
    checked n = .error e ↔ UInt64.size ≤ n ∧ e = .overflow := by
  rw [checked]
  split
  · next h => exact iff_of_false nofun fun hle ↦ Nat.not_le.2 h hle.1
  · next h => rw [Except.error.injEq, and_iff_right (Nat.le_of_not_lt h), eq_comm]

end HopSampler
