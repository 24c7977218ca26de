import HopSampler.Tag

/-!
# Reversed edge types

A relation is *marked* when its name starts with `rev_`. Reversal takes the mark off a marked
relation and puts it on any other, so it goes back and forth between a relation and the same
relation marked, as long as the relation itself carries no mark. On a relation that does, the mark
that is taken off is not put back: `rev_rev_x` loses one mark, and so does not come back from
`rev_x`.

Two relations therefore have one reversal exactly if one is the other with two marks in front
(`reverseRelation_eq_iff`).
-/

namespace HopSampler.EdgeType

/-- The relation starts with `rev_`. -/
def Marked (relation : String) : Prop := ['r', 'e', 'v', '_'] <+: relation.toList

instance (relation : String) : Decidable (Marked relation) :=
  inferInstanceAs (Decidable (_ <+: _))

/-! ### Marks -/

theorem marked_mark (relation : String) : Marked ("rev_" ++ relation) := by
  rw [Marked, String.toList_append]
  exact List.prefix_append _ _

/-- A marked relation is some relation with a mark in front. -/
theorem exists_of_marked {relation : String} (h : Marked relation) :
    ∃ base, relation = "rev_" ++ base := by
  obtain ⟨base, hbase⟩ := h
  have hlist : (String.ofList base).toList = base := String.toList_ofList
  refine ⟨String.ofList base, String.toList_inj.1 ?_⟩
  rw [String.toList_append, hlist, ← hbase]
  rfl

/-- A mark that is put on is seen. -/
theorem mark_injective {a b : String} (h : "rev_" ++ a = "rev_" ++ b) : a = b := by
  have hlists := congrArg String.toList h
  rw [String.toList_append, String.toList_append] at hlists
  exact String.toList_inj.1 (List.append_cancel_left hlists)

theorem toList_mark (relation : String) :
    ("rev_" ++ relation).toList = 'r' :: 'e' :: 'v' :: '_' :: relation.toList := by
  rw [String.toList_append]
  rfl

/-- The mark comes off. -/
theorem reverseRelation_mark (relation : String) :
    reverseRelation ("rev_" ++ relation) = relation := by
  rw [reverseRelation, toList_mark]
  exact String.ofList_toList

/-- Other relations get one. -/
theorem reverseRelation_of_not_marked {relation : String} (h : ¬Marked relation) :
    reverseRelation relation = "rev_" ++ relation := by
  rw [reverseRelation]
  split
  · next base hlist => exact absurd ⟨base, hlist.symm⟩ h
  · rfl

/-- **Relations with one reversal** are equal, or two marks apart. -/
theorem reverseRelation_eq_iff {a b : String} :
    reverseRelation a = reverseRelation b ↔
      a = b ∨ (¬Marked a ∧ b = "rev_" ++ ("rev_" ++ a)) ∨
        (¬Marked b ∧ a = "rev_" ++ ("rev_" ++ b)) := by
  constructor
  · intro h
    by_cases ha : Marked a <;> by_cases hb : Marked b
    · obtain ⟨a, rfl⟩ := exists_of_marked ha
      obtain ⟨b, rfl⟩ := exists_of_marked hb
      rw [reverseRelation_mark, reverseRelation_mark] at h
      exact .inl (h ▸ rfl)
    · obtain ⟨a, rfl⟩ := exists_of_marked ha
      rw [reverseRelation_mark, reverseRelation_of_not_marked hb] at h
      exact .inr (.inr ⟨hb, h ▸ rfl⟩)
    · obtain ⟨b, rfl⟩ := exists_of_marked hb
      rw [reverseRelation_mark, reverseRelation_of_not_marked ha] at h
      exact .inr (.inl ⟨ha, h ▸ rfl⟩)
    · rw [reverseRelation_of_not_marked ha, reverseRelation_of_not_marked hb] at h
      exact .inl (mark_injective h)
  · rintro (rfl | ⟨ha, rfl⟩ | ⟨hb, rfl⟩)
    · rfl
    · rw [reverseRelation_mark, reverseRelation_of_not_marked ha]
    · rw [reverseRelation_mark, reverseRelation_of_not_marked hb]

/-! ### Edge types with one reversal -/

/-- Two edge types are two marks apart. -/
structure Clash (e f : EdgeType) : Prop where
  source : f.source = e.source
  target : f.target = e.target
  unmarked : ¬Marked e.relation
  relation : f.relation = "rev_" ++ ("rev_" ++ e.relation)

theorem Clash.ne {e f : EdgeType} (h : Clash e f) : e ≠ f := by
  rintro rfl
  exact h.unmarked (h.relation ▸ marked_mark _)

/-- **Edge types with one reversal** are equal, or two marks apart. -/
theorem reverse_eq_iff {e f : EdgeType} :
    e.reverse = f.reverse ↔ e = f ∨ Clash e f ∨ Clash f e := by
  have hparts : e.reverse = f.reverse ↔
      e.target = f.target ∧ reverseRelation e.relation = reverseRelation f.relation ∧
        e.source = f.source := by
    rw [reverse, reverse, EdgeType.mk.injEq]
  rw [hparts, reverseRelation_eq_iff]
  constructor
  · rintro ⟨htarget, hrelation | ⟨hmark, hrelation⟩ | ⟨hmark, hrelation⟩, hsource⟩
    · left
      obtain ⟨source, relation, target⟩ := e
      obtain ⟨_, _, _⟩ := f
      obtain rfl : source = _ := hsource
      obtain rfl : relation = _ := hrelation
      obtain rfl : target = _ := htarget
      rfl
    · exact .inr (.inl ⟨hsource.symm, htarget.symm, hmark, hrelation⟩)
    · exact .inr (.inr ⟨hsource, htarget, hmark, hrelation⟩)
  · rintro (rfl | h | h)
    · exact ⟨rfl, .inl rfl, rfl⟩
    · exact ⟨h.target.symm, .inr (.inl ⟨h.unmarked, h.relation⟩), h.source.symm⟩
    · exact ⟨h.target, .inr (.inr ⟨h.unmarked, h.relation⟩), h.source⟩

example : reverse ⟨⟨"a"⟩, "rev_rev_x", ⟨"b"⟩⟩ = reverse ⟨⟨"a"⟩, "x", ⟨"b"⟩⟩ := by decide

end HopSampler.EdgeType
