import HopSampler.Random.Generator
import Mathlib.Data.Fintype.Prod
import Mathlib.Dynamics.PeriodicPts.Defs
import Mathlib.NumberTheory.LucasPrimality
import Mathlib.Tactic.NormNum.Prime
import Mathlib.Tactic.ReduceModChar

/-!
# The register runs through all its states

Drawing a word shifts the register by one word, and shifting respects exclusive or. So what many
shifts do to one register can be computed with polynomials over two elements: a number stands for
one, a bit for a coefficient, and `span c n g` adds up the shifts of `g` that the bits name. One
polynomial that spans nothing (`modulus`) keeps all others short, and powers by squaring tell where
any number of shifts leads (`iterate_shift_unit`).

After `2 ^ 128 - 1` shifts a register is back where it was, and it is not back after any of the
quotients of this number by a prime. So the shifts go through as many registers as there are but for
the blank one, and **every register that is not blank leads to every other** (`exists_iterate_eq`).
-/

open Function

namespace HopSampler.Random.Generator

/-! ### Registers under exclusive or -/

/-- The register after one word is drawn. -/
def shift (g : Generator) : Generator := g.next32.2

instance : Zero Generator := ⟨⟨0, 0, 0, 0⟩⟩

instance : Add Generator := ⟨fun g h ↦ ⟨g.x ^^^ h.x, g.y ^^^ h.y, g.z ^^^ h.z, g.w ^^^ h.w⟩⟩

theorem zero_eq : (0 : Generator) = ⟨0, 0, 0, 0⟩ := rfl

theorem add_eq (g h : Generator) : g + h = ⟨g.x ^^^ h.x, g.y ^^^ h.y, g.z ^^^ h.z, g.w ^^^ h.w⟩ :=
  rfl

instance : AddCommMonoid Generator where
  add_assoc g h k := by simp only [add_eq, UInt32.xor_assoc]
  zero_add g := by simp [add_eq, zero_eq]
  add_zero g := by simp [add_eq, zero_eq]
  add_comm g h := by simp only [add_eq, UInt32.xor_comm]
  nsmul := nsmulRec

theorem add_self (g : Generator) : g + g = 0 := by simp [add_eq, zero_eq]

theorem shift_zero : (0 : Generator).shift = 0 := rfl

/-- **Shifting respects exclusive or.** -/
theorem shift_add (g h : Generator) : (g + h).shift = g.shift + h.shift := by
  simp only [shift, next32, add_eq, UInt32.shiftLeft_xor, UInt32.shiftRight_xor, mk.injEq, true_and]
  ac_rfl

/-! ### Sums of shifts -/

/-- The sum of those of the first `n` shifts of a register that the bits of `c` name. -/
def span (c : Nat) : Nat → Generator → Generator
  | 0, _ => 0
  | n + 1, g => (if c % 2 = 1 then g else 0) + span (c / 2) n g.shift

variable {c d n k : Nat} {g h : Generator}

theorem span_zero (n : Nat) (g : Generator) : span 0 n g = 0 := by
  induction n generalizing g with
  | zero => rfl
  | succ n ih => exact (zero_add _).trans (ih g.shift)

theorem span_xor (c d n : Nat) (g : Generator) :
    span (c ^^^ d) n g = span c n g + span d n g := by
  induction n generalizing c d g with
  | zero => exact (add_zero 0).symm
  | succ n ih =>
    have hbit : (if (c ^^^ d) % 2 = 1 then g else 0) =
        (if c % 2 = 1 then g else 0) + if d % 2 = 1 then g else 0 := by
      rw [if_congr Nat.xor_mod_two_eq_one rfl rfl]
      by_cases hc : c % 2 = 1 <;> by_cases hd : d % 2 = 1 <;> simp [hc, hd, add_self]
    rw [span, span, span, Nat.xor_div_two, ih, hbit, add_add_add_comm]

theorem span_shift (c n : Nat) (g : Generator) : span c n g.shift = (span c n g).shift := by
  induction n generalizing c g with
  | zero => exact shift_zero.symm
  | succ n ih => rw [span, span, ih, shift_add, apply_ite shift, shift_zero]

theorem span_iterate (c n k : Nat) (g : Generator) :
    span c n (shift^[k] g) = shift^[k] (span c n g) := by
  induction k with
  | zero => rfl
  | succ k ih => rw [iterate_succ_apply', iterate_succ_apply', span_shift, ih]

/-- Doubling a polynomial shifts what it spans. -/
theorem span_double (c n : Nat) (g : Generator) : span (2 * c) (n + 1) g = (span c n g).shift := by
  rw [span, if_neg (by omega), zero_add, Nat.mul_div_cancel_left c (Nat.succ_pos 1), span_shift]

/-- What is beyond the bits of a polynomial does not count. -/
theorem span_succ_of_lt (hc : c < 2 ^ n) (g : Generator) : span c (n + 1) g = span c n g := by
  induction n generalizing c g with
  | zero =>
    obtain rfl : c = 0 := Nat.lt_one_iff.1 hc
    rw [span_zero, span_zero]
  | succ n ih =>
    rw [span, ih (by rw [pow_succ] at hc; omega)]
    rfl

/-! ### Polynomials modulo one -/

/-- A register that is not blank. -/
def unit : Generator := ⟨1, 0, 0, 0⟩

/-- A polynomial that spans nothing. -/
def modulus : Nat := 0x1000000010046d8b3f985d65ffd3c8001

theorem span_modulus : span modulus 129 unit = 0 := by decide +kernel

-- The kernel computes with these functions, so they are written by the recursor and with the plain
-- operations on numbers.

/-- A polynomial of degree 128 at most, reduced by the modulus. -/
def reduce (c : Nat) : Nat := c.xor (modulus.mul (c.div (.pow 2 128)))

/-- The product of a polynomial with another one, of which `n` bits are read. -/
def times (d n : Nat) : Nat → Nat :=
  n.rec (fun _ ↦ 0) fun _ ih c ↦ (reduce (.mul 2 (ih (c.div 2)))).xor ((c.mod 2).mul d)

/-- The square of a polynomial. -/
def square (c : Nat) : Nat := times c 128 c

/-- The power of the polynomial `2`, where `n` bits of the exponent are read. -/
def power (n : Nat) : Nat → Nat :=
  n.rec (fun _ ↦ 1) fun _ ih k ↦
    if k.mod 2 = 1 then reduce (.mul 2 (square (ih (k.div 2)))) else square (ih (k.div 2))

/-- A polynomial is reduced and spans a register. -/
structure Spans (c : Nat) (g : Generator) : Prop where
  lt : c < 2 ^ 128
  span_eq : span c 128 unit = g

theorem spans_zero : Spans 0 0 := ⟨Nat.two_pow_pos 128, span_zero 128 unit⟩

theorem spans_one : Spans 1 unit where
  lt := by decide
  span_eq := by rw [span, if_pos rfl, span_zero, add_zero]

theorem Spans.xor (hc : Spans c g) (hd : Spans d h) : Spans (c ^^^ d) (g + h) where
  lt := Nat.xor_lt_two_pow hc.lt hd.lt
  span_eq := by rw [span_xor, hc.span_eq, hd.span_eq]

/-- A multiple of the modulus does not change what a polynomial spans. -/
theorem span_reduce (hc : c < 2 ^ 129) :
    reduce c < 2 ^ 128 ∧ span (reduce c) 129 unit = span c 129 unit := by
  have hreduce : reduce c = c ^^^ modulus * (c / 2 ^ 128) := rfl
  rcases Nat.lt_or_ge c (2 ^ 128) with hlt | hge
  · rw [hreduce, Nat.div_eq_of_lt hlt, Nat.mul_zero, Nat.xor_zero]
    exact ⟨hlt, rfl⟩
  · have hone : c / 2 ^ 128 = 1 := by omega
    rw [hreduce, hone, Nat.mul_one]
    refine ⟨Nat.lt_of_div_eq_zero (Nat.two_pow_pos 128) ?_, ?_⟩
    · rw [Nat.xor_div_two_pow, hone]
      rfl
    · rw [span_xor, span_modulus, add_zero]

theorem Spans.double (hc : Spans c g) : Spans (reduce (2 * c)) g.shift := by
  have hlt := hc.lt
  obtain ⟨hreduced, hspan⟩ := span_reduce (show 2 * c < 2 ^ 129 by omega)
  refine ⟨hreduced, ?_⟩
  rw [← span_succ_of_lt hreduced, hspan, span_double, hc.span_eq]

/-- A product adds up the shifts of what its factor spans. -/
theorem Spans.times (hd : Spans d h) (n c : Nat) : Spans (times d n c) (span c n h) := by
  induction n generalizing c with
  | zero => exact spans_zero
  | succ n ih =>
    have htimes : Generator.times d (n + 1) c =
        reduce (2 * Generator.times d n (c / 2)) ^^^ c % 2 * d := rfl
    have hbit : Spans (c % 2 * d) (if c % 2 = 1 then h else 0) := by
      rcases Nat.mod_two_eq_zero_or_one c with hzero | hone
      · rw [hzero, Nat.zero_mul, if_neg (Nat.zero_ne_one)]
        exact spans_zero
      · rwa [hone, Nat.one_mul, if_pos rfl]
    rw [htimes, span, span_shift, add_comm]
    exact (ih (c / 2)).double.xor hbit

theorem Spans.square (hc : Spans c (shift^[k] unit)) : Spans (square c) (shift^[2 * k] unit) := by
  have htimes := hc.times 128 c
  rwa [span_iterate, hc.span_eq, ← iterate_add_apply, ← Nat.two_mul] at htimes

theorem spans_power (hk : k < 2 ^ n) : Spans (power n k) (shift^[k] unit) := by
  induction n generalizing k with
  | zero =>
    obtain rfl : k = 0 := Nat.lt_one_iff.1 hk
    exact spans_one
  | succ n ih =>
    have hsquare := (ih (show k / 2 < 2 ^ n by rw [pow_succ] at hk; omega)).square
    have hpower : power (n + 1) k =
        if k % 2 = 1 then reduce (2 * Generator.square (power n (k / 2)))
        else Generator.square (power n (k / 2)) := rfl
    rw [hpower]
    split
    · next hodd =>
      have hk' : (2 * (k / 2)).succ = k := by omega
      have hdouble := hsquare.double
      rwa [← iterate_succ_apply' shift, hk'] at hdouble
    · next heven =>
      have hk' : 2 * (k / 2) = k := by omega
      rwa [hk'] at hsquare

/-- **Where many shifts lead** can be computed. -/
theorem iterate_shift_unit (hk : k < 2 ^ 128) : shift^[k] unit = span (power 128 k) 128 unit :=
  (spans_power hk).span_eq.symm

/-! ### The period -/

/-- The primes that divide `2 ^ 128 - 1`. -/
def periodPrimes : List Nat := [3, 5, 17, 257, 641, 65537, 274177, 6700417, 67280421310721]

theorem prod_periodPrimes : periodPrimes.prod = 2 ^ 128 - 1 := by decide

theorem iterate_period : shift^[2 ^ 128 - 1] unit = unit := by
  rw [iterate_shift_unit (by decide)]
  decide +kernel

theorem iterate_period_div_ne {q : Nat} (hq : q ∈ periodPrimes) :
    shift^[(2 ^ 128 - 1) / q] unit ≠ unit := by
  have hall : ∀ q ∈ periodPrimes, span (power 128 ((2 ^ 128 - 1) / q)) 128 unit ≠ unit := by
    decide +kernel
  rw [iterate_shift_unit (Nat.lt_of_le_of_lt (Nat.div_le_self _ q) (by decide))]
  exact hall q hq

/-- The greatest of the primes passes Lucas's test. -/
theorem prime_67280421310721 : Nat.Prime 67280421310721 := by
  refine lucas_primality _ (3 : ZMod 67280421310721) (by reduce_mod_char) fun q hq hdvd ↦ ?_
  have hprod : 67280421310721 - 1 = (List.replicate 8 2 ++ [5, 47, 373, 2998279]).prod := by decide
  have hmem := mem_list_primes_of_dvd_prod hq.prime (fun r hr ↦ ?_) (hprod ▸ hdvd)
  · simp only [List.mem_append, List.mem_replicate, List.mem_cons, List.not_mem_nil, or_false]
      at hmem
    rcases hmem with ⟨-, rfl⟩ | rfl | rfl | rfl | rfl
    all_goals
      norm_num only
      reduce_mod_char
      decide +kernel
  · simp only [List.mem_append, List.mem_replicate, List.mem_cons, List.not_mem_nil, or_false] at hr
    rcases hr with ⟨-, rfl⟩ | rfl | rfl | rfl | rfl
    all_goals exact Nat.Prime.prime (by norm_num)

theorem prime_of_mem_periodPrimes {q : Nat} (hq : q ∈ periodPrimes) : q.Prime := by
  simp only [periodPrimes, List.mem_cons, List.not_mem_nil, or_false] at hq
  rcases hq with rfl | rfl | rfl | rfl | rfl | rfl | rfl | rfl | rfl
  case inr.inr.inr.inr.inr.inr.inr.inr => exact prime_67280421310721
  all_goals norm_num

/-- **The register comes back after `2 ^ 128 - 1` shifts and not before.** -/
theorem minimalPeriod_shift_unit : minimalPeriod shift unit = 2 ^ 128 - 1 := by
  have hperiodic : IsPeriodicPt shift (2 ^ 128 - 1) unit := iterate_period
  obtain ⟨m, hm⟩ := hperiodic.minimalPeriod_dvd
  by_contra hne
  have hm1 : m ≠ 1 := by
    rintro rfl
    exact hne (hm.trans (Nat.mul_one _)).symm
  -- a prime that divides what is left would be one whose quotient brings the register back
  obtain ⟨q, hq, k, rfl⟩ := Nat.exists_prime_and_dvd hm1
  have hmem : q ∈ periodPrimes := by
    refine mem_list_primes_of_dvd_prod hq.prime (fun r hr ↦ (prime_of_mem_periodPrimes hr).prime) ?_
    rw [prod_periodPrimes, hm]
    exact (Nat.dvd_mul_right q k).mul_left _
  refine iterate_period_div_ne hmem ?_
  rw [hm, Nat.mul_left_comm, Nat.mul_div_cancel_left _ hq.pos]
  exact (isPeriodicPt_minimalPeriod shift unit).mul_const k

/-! ### All registers -/

theorem iterate_shift_unit_ne_zero (k : Nat) : shift^[k] unit ≠ 0 := by
  intro hzero
  have hblank : ∀ n, shift^[n] 0 = 0 := fun n ↦ iterate_fixed shift_zero n
  -- a blank register stays blank, but this one comes back
  have hback : shift^[(2 ^ 128 - 2) * k] (shift^[k] unit) = unit := by
    rw [← iterate_add_apply, show (2 ^ 128 - 2) * k + k = (2 ^ 128 - 1) * k by omega]
    exact IsPeriodicPt.mul_const (show IsPeriodicPt shift _ unit from iterate_period) k
  rw [hzero, hblank] at hback
  exact absurd hback (by decide)

/-- The words of a register. -/
def equivWords : Generator ≃ (Fin (2 ^ 32) × Fin (2 ^ 32)) × (Fin (2 ^ 32) × Fin (2 ^ 32)) where
  toFun g := ((g.x.toFin, g.y.toFin), (g.z.toFin, g.w.toFin))
  invFun p := ⟨.ofFin p.1.1, .ofFin p.1.2, .ofFin p.2.1, .ofFin p.2.2⟩
  left_inv _ := rfl
  right_inv _ := rfl

instance : Finite Generator := .of_equiv _ equivWords.symm

theorem card_generator : Nat.card Generator = 2 ^ 128 := by
  rw [Nat.card_congr equivWords, Nat.card_prod, Nat.card_prod, Nat.card_fin]
  norm_num only

/-- Every register that is not blank is reached. -/
theorem exists_iterate_shift_unit (hg : g ≠ 0) : ∃ k, shift^[k] unit = g := by
  let reached := (shift^[·] unit) '' Set.Iio (minimalPeriod shift unit)
  have hsub : reached ⊆ {0}ᶜ := by
    rintro _ ⟨k, -, rfl⟩
    exact iterate_shift_unit_ne_zero k
  have hcard : ({0}ᶜ : Set Generator).ncard ≤ reached.ncard := by
    rw [iterate_injOn_Iio_minimalPeriod.ncard_image, Set.ncard_compl,
      Set.ncard_singleton, card_generator, minimalPeriod_shift_unit, ← Finset.coe_Iio,
      Set.ncard_coe_finset, Nat.card_Iio]
  have hmem : g ∈ reached := Set.eq_of_subset_of_ncard_le hsub hcard ▸ hg
  obtain ⟨k, -, hk⟩ := hmem
  exact ⟨k, hk⟩

theorem shift_ne_zero (hg : g ≠ 0) : g.shift ≠ 0 := by
  obtain ⟨k, rfl⟩ := exists_iterate_shift_unit hg
  rw [← iterate_succ_apply' shift]
  exact iterate_shift_unit_ne_zero _

theorem isPeriodicPt_shift (hg : g ≠ 0) : IsPeriodicPt shift (2 ^ 128 - 1) g := by
  obtain ⟨k, rfl⟩ := exists_iterate_shift_unit hg
  exact IsPeriodicPt.apply_iterate iterate_period k

/-- **Every register that is not blank leads to every other**, in as many steps as wanted. -/
theorem exists_iterate_eq (hg : g ≠ 0) (hh : h ≠ 0) : ∃ k, shift^[k] g = h := by
  obtain ⟨m, rfl⟩ := exists_iterate_shift_unit hg
  obtain ⟨n, rfl⟩ := exists_iterate_shift_unit hh
  refine ⟨n + (2 ^ 128 - 2) * m, ?_⟩
  rw [← iterate_add_apply, show n + (2 ^ 128 - 2) * m + m = n + (2 ^ 128 - 1) * m by omega,
    iterate_add_apply]
  exact congrArg _ (IsPeriodicPt.mul_const (show IsPeriodicPt shift _ unit from iterate_period) m)

end HopSampler.Random.Generator
