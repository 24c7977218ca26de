/-!
# Pieces of text

Text cut at a character: once, at its first occurrence, or everywhere. The pieces and the characters
between them are the whole text, so nothing is lost by cutting.
-/

namespace HopSampler.Text

/-- What stands before the first `mark`, and what stands behind it if there is one. -/
def cutAt (mark : Char) : List Char → List Char × Option (List Char)
  | [] => ([], none)
  | c :: rest =>
    if c = mark then ([], some rest)
    else
      let (before, after) := cutAt mark rest
      (c :: before, after)

/-- The first piece and the others. -/
def splitFrom (mark : Char) : List Char → List Char × List (List Char)
  | [] => ([], [])
  | c :: rest =>
    let (piece, pieces) := splitFrom mark rest
    if c = mark then ([], piece :: pieces) else (c :: piece, pieces)

/-- The pieces between the occurrences of `mark`, at least one. -/
def splitAt (mark : Char) (s : List Char) : List (List Char) :=
  let (piece, pieces) := splitFrom mark s
  piece :: pieces

theorem cutAt_none {mark : Char} {s before : List Char} (h : cutAt mark s = (before, none)) :
    before = s := by
  induction s generalizing before with
  | nil => simpa [cutAt] using h.symm
  | cons c rest ih =>
    simp only [cutAt] at h
    split at h
    · simp at h
    · obtain ⟨rfl, hrest⟩ := Prod.mk.inj h
      exact congrArg (c :: ·) (ih (Prod.ext rfl hrest))

theorem cutAt_some {mark : Char} {s before after : List Char}
    (h : cutAt mark s = (before, some after)) : before ++ mark :: after = s := by
  induction s generalizing before with
  | nil => simp [cutAt] at h
  | cons c rest ih =>
    simp only [cutAt] at h
    split at h
    · next hc =>
      obtain ⟨rfl, hrest⟩ := Prod.mk.inj h
      rw [List.nil_append, hc, Option.some.inj hrest]
    · obtain ⟨rfl, hrest⟩ := Prod.mk.inj h
      exact congrArg (c :: ·) (ih (Prod.ext rfl hrest))

example : splitAt ',' [',', 'a'] = [[], ['a']] := rfl

end HopSampler.Text
