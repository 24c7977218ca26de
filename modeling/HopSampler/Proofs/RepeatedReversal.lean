import HopSampler.Proofs.Reversal
import Mathlib.Logic.Function.Iterate

/-!
# Reversing again

A relation starts with some number of marks, and all that reversal does is to change this number by
one: down as long as there is a mark, and up where there is none (`marks_reverseRelation`). Reversed
over and over, a relation therefore loses its marks one by one, and after the last it goes back and
forth between one mark and none (`marks_iterate_reverse`).

**Reversing again restores types of at most one mark, and no others.** A type of two marks or more
never comes back, however often it is reversed (`iterate_reverse_eq_iff`). Its reversal need not be
its own either: a type of two marks shares it with the type without marks, so types *without* marks
are restored and still not told apart from all others (`exists_reverse_eq_iff`).
-/

namespace HopSampler.EdgeType

variable {e f : EdgeType} {relation : String}

/-! ### Counting marks -/

/-- The number of marks that characters start with. -/
def marksIn : List Char → Nat
  | 'r' :: 'e' :: 'v' :: '_' :: rest => marksIn rest + 1
  | _ => 0

/-- The number of marks that a relation starts with. -/
def marks (relation : String) : Nat := marksIn relation.toList

theorem marks_mark (relation : String) : marks ("rev_" ++ relation) = marks relation + 1 := by
  rw [marks, toList_mark]
  rfl

theorem marks_eq_zero_iff : marks relation = 0 ↔ ¬Marked relation := by
  constructor
  · intro h hmarked
    obtain ⟨base, rfl⟩ := exists_of_marked hmarked
    rw [marks_mark] at h
    exact absurd h (Nat.succ_ne_zero _)
  · intro h
    rw [marks, marksIn.eq_def]
    split
    · next rest hlist => exact absurd ⟨rest, hlist.symm⟩ h
    · rfl

theorem marks_pos_iff : 0 < marks relation ↔ Marked relation :=
  Nat.pos_iff_ne_zero.trans marks_eq_zero_iff.not_left

theorem exists_of_one_lt_marks (h : 1 < marks relation) :
    ∃ base, relation = "rev_" ++ ("rev_" ++ base) ∧ marks relation = marks base + 2 := by
  obtain ⟨once, rfl⟩ := exists_of_marked (marks_pos_iff.1 (Nat.zero_lt_of_lt h))
  rw [marks_mark] at h ⊢
  obtain ⟨base, rfl⟩ := exists_of_marked (marks_pos_iff.1 (Nat.lt_of_succ_lt_succ h))
  exact ⟨base, rfl, by rw [marks_mark]⟩

/-- Types that are two marks apart carry none and two. -/
theorem Clash.marks_eq (h : Clash e f) : marks e.relation = 0 ∧ marks f.relation = 2 := by
  have hzero := marks_eq_zero_iff.2 h.unmarked
  exact ⟨hzero, by rw [h.relation, marks_mark, marks_mark, hzero]⟩

/-! ### One reversal and many -/

/-- Of a relation and its reversal one is the other with a mark in front. -/
theorem mark_reverseRelation_or (relation : String) :
    relation = "rev_" ++ reverseRelation relation ∨
      ¬Marked relation ∧ reverseRelation relation = "rev_" ++ relation := by
  by_cases h : Marked relation
  · obtain ⟨base, rfl⟩ := exists_of_marked h
    exact .inl (by rw [reverseRelation_mark])
  · exact .inr ⟨h, reverseRelation_of_not_marked h⟩

/-- **Reversal takes one mark off, or puts one on where there is none.** -/
theorem marks_reverseRelation (relation : String) :
    marks (reverseRelation relation) = if marks relation = 0 then 1 else marks relation - 1 := by
  rcases mark_reverseRelation_or relation with h | ⟨hnot, h⟩
  · have hmarks := congrArg marks h
    rw [marks_mark] at hmarks
    rw [if_neg (by omega), hmarks, Nat.add_sub_cancel]
  · have hzero := marks_eq_zero_iff.2 hnot
    rw [h, marks_mark, hzero, if_pos rfl]

/-- Marks are lost one by one; after the last one the relation goes back and forth. -/
theorem marks_iterate_reverse (e : EdgeType) (n : Nat) :
    marks (reverse^[n] e).relation =
      if n ≤ marks e.relation then marks e.relation - n else (n - marks e.relation) % 2 := by
  induction n with
  | zero => rw [Function.iterate_zero_apply, if_pos (Nat.zero_le _), Nat.sub_zero]
  | succ n ih =>
    rw [Function.iterate_succ_apply']
    show marks (reverseRelation (reverse^[n] e).relation) = _
    rw [marks_reverseRelation, ih]
    generalize marks e.relation = m
    rcases Nat.lt_or_ge n m with hlt | hge
    · rw [if_pos (Nat.le_of_lt hlt), if_neg (Nat.sub_ne_zero_of_lt hlt),
        if_pos (Nat.succ_le_of_lt hlt), Nat.sub_sub]
    · -- with the last mark gone, only the parity counts
      have hparity : (if n ≤ m then m - n else (n - m) % 2) = (n - m) % 2 := by split <;> omega
      rw [hparity, if_neg (Nat.not_le_of_lt (Nat.lt_succ_of_le hge))]
      split <;> omega

/-! ### What is restored -/

theorem reverseRelation_reverseRelation (h : marks relation ≤ 1) :
    reverseRelation (reverseRelation relation) = relation := by
  by_cases hmarked : Marked relation
  · obtain ⟨base, rfl⟩ := exists_of_marked hmarked
    rw [marks_mark] at h
    have hbase : ¬Marked base := marks_eq_zero_iff.1 (by omega)
    rw [reverseRelation_mark, reverseRelation_of_not_marked hbase]
  · rw [reverseRelation_of_not_marked hmarked, reverseRelation_mark]

theorem reverse_reverse_of_le (h : marks e.relation ≤ 1) : e.reverse.reverse = e := by
  show EdgeType.mk e.source (reverseRelation (reverseRelation e.relation)) e.target = e
  rw [reverseRelation_reverseRelation h]

/-- Two reversals take two marks off. -/
theorem reverse_reverse_of_marks {base : String} (h : e.relation = "rev_" ++ ("rev_" ++ base)) :
    e.reverse.reverse = ⟨e.source, base, e.target⟩ := by
  show EdgeType.mk e.source (reverseRelation (reverseRelation e.relation)) e.target = _
  rw [h, reverseRelation_mark, reverseRelation_mark]

/-- **A type comes back after an even number of reversals if it has at most one mark**, and never
otherwise. -/
theorem iterate_reverse_eq_iff {n : Nat} :
    reverse^[n] e = e ↔ n = 0 ∨ 2 ∣ n ∧ marks e.relation ≤ 1 := by
  constructor
  · intro h
    have hmarks := marks_iterate_reverse e n
    rw [h] at hmarks
    split at hmarks <;> omega
  · rintro (rfl | ⟨⟨k, rfl⟩, hle⟩)
    · rfl
    · have htwice : reverse^[2] e = e := reverse_reverse_of_le hle
      rw [Function.iterate_mul]
      exact Function.iterate_fixed htwice k

theorem reverse_reverse_eq_iff : e.reverse.reverse = e ↔ marks e.relation ≤ 1 := by
  show reverse^[2] e = e ↔ _
  rw [iterate_reverse_eq_iff]
  omega

/-! ### What is told apart -/

/-- **Which types share their reversal with another**: those without marks and those of two. -/
theorem exists_reverse_eq_iff :
    (∃ f, f ≠ e ∧ f.reverse = e.reverse) ↔ marks e.relation = 0 ∨ marks e.relation = 2 := by
  constructor
  · rintro ⟨f, hne, hreverse⟩
    rcases reverse_eq_iff.1 hreverse with heq | hclash | hclash
    · exact absurd heq hne
    · exact .inr hclash.marks_eq.2
    · exact .inl hclash.marks_eq.1
  · rintro (hzero | htwo)
    · have hclash : Clash e ⟨e.source, "rev_" ++ ("rev_" ++ e.relation), e.target⟩ :=
        ⟨rfl, rfl, marks_eq_zero_iff.1 hzero, rfl⟩
      exact ⟨_, hclash.ne.symm, reverse_eq_iff.2 (.inr (.inr hclash))⟩
    · have hlt : 1 < marks e.relation := by omega
      obtain ⟨base, hrelation, hmarks⟩ := exists_of_one_lt_marks hlt
      have hbase : ¬Marked base := marks_eq_zero_iff.1 (by omega)
      have hclash : Clash ⟨e.source, base, e.target⟩ e := ⟨rfl, rfl, hbase, hrelation⟩
      exact ⟨_, hclash.ne, reverse_eq_iff.2 (.inr (.inl hclash))⟩

theorem eq_of_reverse_eq (he : marks e.relation ≤ 1) (hf : marks f.relation ≤ 1)
    (h : e.reverse = f.reverse) : e = f := by
  rw [← reverse_reverse_of_le he, h, reverse_reverse_of_le hf]

/-- What becomes of an edge type that is reversed. -/
structure Reverses (e : EdgeType) : Prop where
  /-- The ends are exchanged, and one mark is taken off, or put on where there is none. -/
  once : e.reverse.source = e.target ∧ e.reverse.target = e.source ∧
    (e.relation = "rev_" ++ e.reverse.relation ∨
      ¬Marked e.relation ∧ e.reverse.relation = "rev_" ++ e.relation)
  /-- Reversing again restores types of at most one mark. -/
  twice_iff : e.reverse.reverse = e ↔ marks e.relation ≤ 1
  /-- The others come out with two marks less. -/
  twice_of_marks : 1 < marks e.relation → ∃ base,
    e.relation = "rev_" ++ ("rev_" ++ base) ∧ e.reverse.reverse = ⟨e.source, base, e.target⟩
  /-- Nor do they come back later. -/
  iterate_iff : ∀ n, reverse^[n] e = e ↔ n = 0 ∨ 2 ∣ n ∧ marks e.relation ≤ 1
  /-- Other types have the same reversal only where they are two marks apart. -/
  same_iff : ∀ f, e.reverse = f.reverse ↔ e = f ∨ e.Clash f ∨ f.Clash e
  shared_iff : (∃ f, f ≠ e ∧ f.reverse = e.reverse) ↔
    marks e.relation = 0 ∨ marks e.relation = 2
  /-- Types of at most one mark are told apart by their reversals. -/
  apart : marks e.relation ≤ 1 → ∀ f, marks f.relation ≤ 1 → e.reverse = f.reverse → e = f

/-- **Reversing again restores an edge type exactly if its relation has at most one mark**, and
different edge types have different reversals unless they are two marks apart. -/
theorem reverses (e : EdgeType) : e.Reverses where
  once := ⟨reverse_source e, reverse_target e, mark_reverseRelation_or e.relation⟩
  twice_iff := reverse_reverse_eq_iff
  twice_of_marks h := by
    obtain ⟨base, hrelation, -⟩ := exists_of_one_lt_marks h
    exact ⟨base, hrelation, reverse_reverse_of_marks hrelation⟩
  iterate_iff _ := iterate_reverse_eq_iff
  same_iff _ := reverse_eq_iff
  shared_iff := exists_reverse_eq_iff
  apart he _ hf h := eq_of_reverse_eq he hf h

/-- A type of two marks. -/
def twiceMarked : EdgeType := ⟨⟨"a"⟩, "rev_rev_x", ⟨"b"⟩⟩

/-- It is not restored, and it has the reversal of another type. -/
theorem twiceMarked_not_restored : twiceMarked.reverse.reverse ≠ twiceMarked ∧
    ∃ e, e ≠ twiceMarked ∧ e.reverse = twiceMarked.reverse :=
  ⟨by decide, ⟨⟨"a"⟩, "x", ⟨"b"⟩⟩, by decide, by decide⟩

end HopSampler.EdgeType
