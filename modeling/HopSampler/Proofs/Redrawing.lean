import HopSampler.Random.Shuffle
import HopSampler.Random.Subset
import HopSampler.Proofs.RegisterPeriod

/-!
# Drawing again

A number below a bound is drawn by throwing words away, and a number that is not taken by throwing
numbers away. Neither search has a bound, so that it comes to an end has to be said. It does,
because a register that is not blank leads to every other: **every word comes up**
(`Width.exists_next_eq`), and with it a word that is kept and one that gives whatever number is
wanted.

What a search then yields is the first that serves: the first kept word for `drawWithin`
(`exists_drawWithin_eq`) and the first free number for `drawFresh` (`exists_drawFresh_eq`). No
register is blank to begin with (`stream_ne_zero`), and no draw makes it so.
-/

-- The zero of numbers is meant, also where it comes with more structure.
attribute [local instance (high)] Zero.ofOfNat0

open Function

namespace HopSampler.Random

/-! ### Registers are not blank -/

namespace Generator

theorem ofSeed_ne_zero (seed : UInt64) : ofSeed seed ≠ 0 := by
  dsimp only [ofSeed]
  split
  · decide
  · next hne => exact hne

end Generator

open Generator

/-- **No stream starts with a blank register.** -/
theorem stream_ne_zero (seed : UInt64) (parts : List UInt64) : stream seed parts ≠ 0 :=
  ofSeed_ne_zero (deriveSeed seed parts)

/-! ### Words -/

namespace Width

variable {width : Width} {g : Generator} {v : Nat}

/-- The generator after one word. -/
def rest (width : Width) (g : Generator) : Generator := (width.next g).2

theorem rest_half : half.rest = Generator.shift := rfl

theorem rest_full : full.rest = Generator.shift^[2] := rfl

theorem iterate_rest_ne_zero (width : Width) (hg : g ≠ 0) (k : Nat) : width.rest^[k] g ≠ 0 := by
  have hshift (m : Nat) : Generator.shift^[m] g ≠ 0 := by
    induction m with
    | zero => exact hg
    | succ m ih =>
      rw [iterate_succ_apply']
      exact shift_ne_zero ih
  cases width with
  | half => exact hshift k
  | full =>
    rw [rest_full, ← iterate_mul]
    exact hshift (2 * k)

/-- Any state that is not blank lies an even number of shifts ahead, as the period is odd. -/
theorem exists_iterate_full_eq {h : Generator} (hg : g ≠ 0) (hh : h ≠ 0) :
    ∃ k, full.rest^[k] g = h := by
  obtain ⟨m, hm⟩ := exists_iterate_eq hg hh
  rw [rest_full]
  obtain ⟨k, hk | hk⟩ := Nat.even_or_odd' m
  · exact ⟨k, by rw [← iterate_mul, ← hk, hm]⟩
  · refine ⟨k + 2 ^ 127, ?_⟩
    have hperiod : Generator.shift^[2 ^ 128 - 1] h = h := isPeriodicPt_shift hh
    rw [← iterate_mul, show 2 * (k + 2 ^ 127) = 2 ^ 128 - 1 + m by omega, iterate_add_apply, hm,
      hperiod]

/-- Two half words make the word they are the halves of. -/
theorem toNat_halves (hv : v < 2 ^ 64) :
    ((UInt32.ofNat (v / 2 ^ 32)).toUInt64 <<< 32 ||| (UInt32.ofNat v).toUInt64).toNat = v := by
  have hhigh : v / 2 ^ 32 < 2 ^ 32 := by omega
  have hshift : (v / 2 ^ 32) <<< 32 < 2 ^ 64 := by rw [Nat.shiftLeft_eq]; omega
  rw [UInt64.toNat_or, UInt64.toNat_shiftLeft, UInt32.toNat_toUInt64, UInt32.toNat_toUInt64,
    UInt32.toNat_ofNat_of_lt' hhigh, UInt32.toNat_ofNat']
  show (v / 2 ^ 32) <<< 32 % 2 ^ 64 ||| v % 2 ^ 32 = v
  rw [Nat.mod_eq_of_lt hshift, ← Nat.shiftLeft_add_eq_or_of_lt (Nat.mod_lt v (Nat.two_pow_pos 32)),
    Nat.shiftLeft_eq, Nat.mul_comm, Nat.div_add_mod]

/-- **Every word comes up.** -/
theorem exists_next_eq (width : Width) (hg : g ≠ 0) (hv : v < 2 ^ width.bits) :
    ∃ k, (width.next (width.rest^[k] g)).1 = v := by
  have hne (low high : UInt32) : (⟨1, 0, low, high⟩ : Generator) ≠ 0 := by
    intro heq
    exact absurd (show (1 : UInt32) = 0 from congrArg Generator.x heq) (by decide)
  have hrest : width.rest g ≠ 0 := iterate_rest_ne_zero width hg 1
  -- the words drawn last are the last ones in the register
  cases width with
  | half =>
    obtain ⟨k, hk⟩ := exists_iterate_eq hrest (hne 0 (.ofNat v))
    refine ⟨k, ?_⟩
    have hword : (half.rest^[k] g).shift.w = .ofNat v := by
      rw [rest_half, ← iterate_succ_apply' Generator.shift, iterate_succ_apply]
      exact congrArg Generator.w hk
    show (half.rest^[k] g).shift.w.toNat = v
    rw [hword]
    exact UInt32.toNat_ofNat_of_lt' hv
  | full =>
    obtain ⟨k, hk⟩ := exists_iterate_full_eq hrest (hne (.ofNat v) (.ofNat (v / 2 ^ 32)))
    refine ⟨k, ?_⟩
    have hwords : full.rest (full.rest^[k] g) = ⟨1, 0, .ofNat v, .ofNat (v / 2 ^ 32)⟩ := by
      rw [← iterate_succ_apply' full.rest, iterate_succ_apply, hk]
    show ((full.rest (full.rest^[k] g)).w.toUInt64 <<< 32 |||
      (full.rest (full.rest^[k] g)).z.toUInt64).toNat = v
    rw [hwords]
    exact toNat_halves hv

end Width

/-! ### Numbers below a bound -/

section Below

variable {width : Width} {n zone k m : Nat} [NeZero n] {g : Generator}

/-- The word that comes up after `k` others. -/
def Generator.wordAt (width : Width) (g : Generator) (k : Nat) : Nat :=
  (width.next (width.rest^[k] g)).1

/-- A word that is not thrown away. -/
def Width.Keeps (width : Width) (n zone v : Nat) : Prop := v * n % 2 ^ width.bits ≤ zone

instance (v : Nat) : Decidable (width.Keeps n zone v) := inferInstanceAs (Decidable (_ ≤ _))

/-- The word `k` is the first that is kept. -/
structure Generator.KeepsFirst (width : Width) (n zone : Nat) (g : Generator) (k : Nat) :
    Prop where
  keeps : width.Keeps n zone (g.wordAt width k)
  not_keeps : ∀ i < k, ¬ width.Keeps n zone (g.wordAt width i)

/-- The first kept word decides what is drawn and where drawing goes on. -/
theorem Generator.KeepsFirst.drawWithin_eq (h : g.KeepsFirst width n zone k) :
    (drawWithin width n zone g).1.val = (g.wordAt width k * n) >>> width.bits ∧
      (drawWithin width n zone g).2 = width.rest^[k + 1] g := by
  induction k generalizing g with
  | zero =>
    have hkeeps : (width.next g).1 * n % 2 ^ width.bits ≤ zone := h.keeps
    rw [drawWithin, if_pos hkeeps]
    exact ⟨rfl, rfl⟩
  | succ k ih =>
    have hlost : ¬ (width.next g).1 * n % 2 ^ width.bits ≤ zone := h.not_keeps 0 (Nat.succ_pos k)
    rw [drawWithin, if_neg hlost]
    exact ih ⟨h.keeps, fun i hi ↦ h.not_keeps (i + 1) (Nat.succ_lt_succ hi)⟩

omit [NeZero n] in
/-- If a word is kept, then there is a first such word. -/
theorem exists_keepsFirst_le (hm : width.Keeps n zone (g.wordAt width m)) :
    ∃ k ≤ m, g.KeepsFirst width n zone k := by
  have hex : ∃ k, width.Keeps n zone (g.wordAt width k) := ⟨m, hm⟩
  exact ⟨Nat.find hex, Nat.find_min' hex hm, Nat.find_spec hex, fun i hi ↦ Nat.find_min hex hi⟩

/-- **Drawing below a bound ends**, with the first word that is kept. -/
theorem exists_drawWithin_eq (width : Width) (n zone : Nat) [NeZero n] (hg : g ≠ 0) :
    ∃ k, g.KeepsFirst width n zone k ∧
      (drawWithin width n zone g).1.val = (g.wordAt width k * n) >>> width.bits ∧
      (drawWithin width n zone g).2 = width.rest^[k + 1] g := by
  -- the lower half of nothing is nothing, so that the blank word is always kept
  obtain ⟨m, hm⟩ := width.exists_next_eq hg (Nat.two_pow_pos width.bits)
  have hzero : width.Keeps n zone (g.wordAt width m) := by
    rw [Generator.wordAt, hm, Width.Keeps, Nat.zero_mul, Nat.zero_mod]
    exact Nat.zero_le zone
  obtain ⟨k, -, hk⟩ := exists_keepsFirst_le hzero
  exact ⟨k, hk, hk.drawWithin_eq⟩

theorem drawWithin_snd_ne_zero (hg : g ≠ 0) : (drawWithin width n zone g).2 ≠ 0 := by
  obtain ⟨k, -, -, hrest⟩ := exists_drawWithin_eq width n zone hg
  rw [hrest]
  exact width.iterate_rest_ne_zero hg (k + 1)

/-- No kept word is passed over: some draw ends with it. -/
theorem exists_draw_of_keeps (hm : width.Keeps n zone (g.wordAt width m)) :
    ∃ j, (drawWithin width n zone ((fun g ↦ (drawWithin width n zone g).2)^[j] g)).1.val =
      (g.wordAt width m * n) >>> width.bits := by
  induction m using Nat.strong_induction_on generalizing g with
  | h m ih =>
    obtain ⟨k, hkm, hk⟩ := exists_keepsFirst_le hm
    obtain ⟨hdrawn, hrest⟩ := hk.drawWithin_eq
    obtain rfl | hlt := Nat.eq_or_lt_of_le hkm
    · exact ⟨0, hdrawn⟩
    · have hword : (drawWithin width n zone g).2.wordAt width (m - (k + 1)) = g.wordAt width m := by
        rw [hrest, Generator.wordAt, ← iterate_add_apply, Nat.sub_add_cancel hlt]
        rfl
      obtain ⟨j, hj⟩ := ih (m - (k + 1)) (by omega) (hword.symm ▸ hm)
      exact ⟨j + 1, hj.trans (by rw [hword])⟩

end Below

/-! ### Numbers that are not taken -/

/-- Rounding up to a multiple of `n` ends less than `n` beyond, which a zone from `n - 1` on
allows. -/
theorem exists_mul_div_eq {n t b zone : Nat} (hn : n ≤ b) (ht : t < n) (hzone : n - 1 ≤ zone) :
    ∃ v < b, v * n % b ≤ zone ∧ v * n / b = t := by
  have hdiv : n * ((t * b + (n - 1)) / n) + (t * b + (n - 1)) % n = t * b + (n - 1) :=
    Nat.div_add_mod _ n
  have hrest : (t * b + (n - 1)) % n < n := Nat.mod_lt _ (Nat.zero_lt_of_lt ht)
  generalize (t * b + (n - 1)) / n = v at hdiv
  generalize (t * b + (n - 1)) % n = r at hdiv hrest
  have hv : v * n = n - 1 - r + b * t := by
    rw [Nat.mul_comm v n, Nat.mul_comm b t]
    omega
  have hmod : v * n % b = n - 1 - r := by
    rw [hv, Nat.add_mul_mod_self_left, Nat.mod_eq_of_lt (by omega)]
  refine ⟨v, ?_, ?_, ?_⟩
  · have hle : b * t + b ≤ b * n := Nat.mul_le_mul_left b ht
    refine Nat.lt_of_mul_lt_mul_right (a := n) ?_
    omega
  · omega
  · rw [hv, Nat.add_mul_div_left _ _ (by omega), Nat.div_eq_of_lt (by omega), Nat.zero_add]

/-- **The widest zone loses no number**: the least word that gives it is kept. -/
theorem exists_keeps_exactZone {width : Width} {n t : Nat} (hn : n ≤ 2 ^ width.bits) (ht : t < n) :
    ∃ v < 2 ^ width.bits,
      width.Keeps n (exactZone width n) v ∧ (v * n) >>> width.bits = t := by
  have hzone : n - 1 ≤ exactZone width n := by
    have hmod : (2 ^ width.bits - n) % n ≤ 2 ^ width.bits - n := Nat.mod_le _ n
    show n - 1 ≤ 2 ^ width.bits - 1 - (2 ^ width.bits - n) % n
    omega
  obtain ⟨v, hv, hkept, hdrawn⟩ := exists_mul_div_eq hn ht hzone
  exact ⟨v, hv, hkept, (Nat.shiftRight_eq_div_pow _ _).trans hdrawn⟩

section Fresh

variable {length t k : Nat} {taken : List Nat} [NeZero length] {g : Generator}

/-- The generator after a number below `length` is drawn. -/
def Generator.afterNumber (length : Nat) [NeZero length] (g : Generator) : Generator :=
  (belowExact length g).2

/-- The number that comes up after `k` others. -/
def Generator.numberAt (length : Nat) [NeZero length] (g : Generator) (k : Nat) : Fin length :=
  (belowExact length ((afterNumber length)^[k] g)).1

/-- **Every number comes up.** -/
theorem exists_numberAt_eq (hlength : length ≤ 2 ^ 64) (ht : t < length) (hg : g ≠ 0) :
    ∃ k, (g.numberAt length k).val = t := by
  have hbits : length ≤ 2 ^ (Width.forBound length).bits := by
    unfold Width.forBound
    split
    · next hhalf => exact Nat.le_of_lt hhalf
    · exact hlength
  obtain ⟨v, hv, hkeeps, rfl⟩ := exists_keeps_exactZone hbits ht
  obtain ⟨m, hm⟩ := (Width.forBound length).exists_next_eq hg hv
  obtain rfl : g.wordAt (.forBound length) m = v := hm
  exact exists_draw_of_keeps hkeeps

/-- The number `k` is the first that is not taken. -/
structure Generator.FreeFirst (length : Nat) [NeZero length] (taken : List Nat) (g : Generator)
    (k : Nat) : Prop where
  free : (g.numberAt length k).val ∉ taken
  not_free : ∀ i < k, (g.numberAt length i).val ∈ taken

variable [Nonempty (Free length taken)]

/-- The first free number is the one drawn, and drawing goes on behind it. -/
theorem Generator.FreeFirst.drawFresh_eq (h : g.FreeFirst length taken k) :
    (drawFresh length taken g).1.val = g.numberAt length k ∧
      (drawFresh length taken g).2 = (afterNumber length)^[k + 1] g := by
  induction k generalizing g with
  | zero =>
    have hfree : (belowExact length g).1.val ∉ taken := h.free
    rw [drawFresh, dif_pos hfree]
    exact ⟨rfl, rfl⟩
  | succ k ih =>
    have htaken : (belowExact length g).1.val ∈ taken := h.not_free 0 (Nat.succ_pos k)
    rw [drawFresh, dif_neg (not_not_intro htaken)]
    exact ih ⟨h.free, fun i hi ↦ h.not_free (i + 1) (Nat.succ_lt_succ hi)⟩

/-- **Drawing a number that is not taken ends**, with the first one that comes up. -/
theorem exists_drawFresh_eq (hlength : length ≤ 2 ^ 64) (hg : g ≠ 0) :
    ∃ k, g.FreeFirst length taken k ∧
      (drawFresh length taken g).1.val = g.numberAt length k ∧
      (drawFresh length taken g).2 = (Generator.afterNumber length)^[k + 1] g := by
  obtain ⟨t⟩ := ‹Nonempty (Free length taken)›
  obtain ⟨m, hm⟩ := exists_numberAt_eq hlength t.val.isLt hg
  have hex : ∃ k, (g.numberAt length k).val ∉ taken := ⟨m, hm.symm ▸ t.notMem⟩
  have hfirst : g.FreeFirst length taken (Nat.find hex) :=
    ⟨Nat.find_spec hex, fun i hi ↦ not_not.1 (Nat.find_min hex hi)⟩
  exact ⟨Nat.find hex, hfirst, hfirst.drawFresh_eq⟩

end Fresh

/-! ### No draw blanks the register -/

section Registers

variable {length amount : Nat} {g : Generator}

theorem below_snd_ne_zero (width : Width) (n : Nat) (hg : g ≠ 0) : (below width n g).2 ≠ 0 := by
  cases n with
  | zero => exact hg
  | succ n => exact drawWithin_snd_ne_zero hg

theorem foldl_snd_ne_zero {α : Type} {step : α × Generator → Nat → α × Generator}
    (hstep : ∀ state i, state.2 ≠ 0 → (step state i).2 ≠ 0) (l : List Nat) (a : α) (hg : g ≠ 0) :
    (l.foldl step (a, g)).2 ≠ 0 :=
  List.foldlRecOn l step hg fun state hstate i _ ↦ hstep state i hstate

theorem swapToFront_snd_ne_zero (hg : g ≠ 0) : (swapToFront length amount g).2 ≠ 0 := by
  refine foldl_snd_ne_zero (fun state i hstate ↦ ?_) (List.range amount) (Array.range length) hg
  exact below_snd_ne_zero .half (length - i) hstate

theorem growingRange_snd_ne_zero (hg : g ≠ 0) : (growingRange length amount g).2 ≠ 0 := by
  refine foldl_snd_ne_zero (fun state j hstate ↦ ?_) (List.range' (length - amount) amount) [] hg
  exact below_snd_ne_zero .half (j + 1) hstate

theorem drawFresh_snd_ne_zero {taken : List Nat} [NeZero length] [Nonempty (Free length taken)]
    (hlength : length ≤ 2 ^ 64) (hg : g ≠ 0) : (drawFresh length taken g).2 ≠ 0 := by
  obtain ⟨k, -, -, hrest⟩ := @exists_drawFresh_eq length taken _ g _ hlength hg
  rw [hrest]
  generalize k + 1 = m
  induction m with
  | zero => exact hg
  | succ m ih =>
    rw [iterate_succ_apply']
    exact drawWithin_snd_ne_zero ih

theorem discardRepeats_snd_ne_zero (hlength : length ≤ 2 ^ 64) (h : amount ≤ length) (hg : g ≠ 0) :
    (discardRepeats length amount h g).2 ≠ 0 := by
  induction amount with
  | zero => exact hg
  | succ amount ih =>
    have hbefore := Nat.le_of_succ_le h
    have : NeZero length := ⟨Nat.ne_of_gt (Nat.zero_lt_of_lt h)⟩
    have : Nonempty (Free length (discardRepeats length amount hbefore g).1.val) :=
      Free.nonempty ((discardRepeats length amount hbefore g).1.property.symm ▸ h)
    exact drawFresh_snd_ne_zero hlength (ih hbefore)

/-- **Choosing positions leaves a register that is not blank.** -/
theorem subset_snd_ne_zero (hlength : length ≤ 2 ^ 64) (h : amount ≤ length) (hg : g ≠ 0) :
    (subset length amount h g).2 ≠ 0 := by
  dsimp only [subset]
  cases subsetMethod length amount with
  | swapToFront => exact swapToFront_snd_ne_zero hg
  | growingRange => exact growingRange_snd_ne_zero hg
  | discardRepeats => exact discardRepeats_snd_ne_zero hlength h hg

theorem shuffleFrom_snd_ne_zero {α : Type} (items : Array α) (i : Nat) (hg : g ≠ 0) :
    (shuffleFrom items i g).2 ≠ 0 := by
  fun_induction shuffleFrom items i g with
  | case1 => exact hg
  | case2 => exact hg
  | case3 items i g j rest hdraw ih =>
    have hrest := below_snd_ne_zero (.forBound (i + 2)) (i + 2) hg
    rw [hdraw] at hrest
    exact ih hrest

end Registers

end HopSampler.Random
