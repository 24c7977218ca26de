import Mathlib.Data.List.Forall2

/-!
# When a sequence of checks succeeds

A check is a computation that may fail and returns nothing of interest. A sequence of checks
succeeds exactly when each of them does; these lemmas take such a sequence apart without opening its
binds.
-/

namespace HopSampler

variable {ε α β : Type}

/-- Whether there is a result can be computed. -/
theorem isOk_iff {x : Except ε α} : x.isOk = true ↔ ∃ a, x = .ok a := by
  cases x <;> simp [Except.isOk, Except.toBool]

theorem bind_eq_ok_iff {x : Except ε α} {f : α → Except ε β} {b : β} :
    (x >>= f) = .ok b ↔ ∃ a, x = .ok a ∧ f a = .ok b := by
  cases x <;> simp [bind, Except.bind]

theorem bind_eq_error_iff {x : Except ε α} {f : α → Except ε β} {e : ε} :
    (x >>= f) = .error e ↔ x = .error e ∨ ∃ a, x = .ok a ∧ f a = .error e := by
  cases x <;> simp [bind, Except.bind]

/-- A function of the result. -/
theorem map_eq_ok_iff {f : α → β} {x : Except ε α} {b : β} :
    f <$> x = .ok b ↔ ∃ a, x = .ok a ∧ f a = b := by
  cases x <;> simp [Functor.map, Except.map]

/-- A computation whose result does not matter. -/
theorem discard_eq_error_iff {x : Except ε α} {e : ε} : discard x = .error e ↔ x = .error e := by
  cases x <;> simp [discard, Functor.discard, Functor.mapConst, Except.map]

/-- A check before another computation. -/
theorem check_bind_eq_ok_iff {x : Except ε Unit} {f : Unit → Except ε β} {b : β} :
    (x >>= f) = .ok b ↔ x = .ok () ∧ f () = .ok b := by
  rw [bind_eq_ok_iff]
  exact ⟨fun ⟨(), hx, hf⟩ ↦ ⟨hx, hf⟩, fun ⟨hx, hf⟩ ↦ ⟨(), hx, hf⟩⟩

/-- Checking every element of a list. -/
theorem forM_eq_ok_iff {xs : List α} {f : α → Except ε Unit} :
    xs.forM f = .ok () ↔ ∀ a ∈ xs, f a = .ok () := by
  induction xs with
  | nil => simp [List.forM, pure, Except.pure]
  | cons a xs ih =>
    have hcons : (a :: xs).forM f = (f a >>= fun _ ↦ xs.forM f) := rfl
    rw [hcons, check_bind_eq_ok_iff, ih, List.forall_mem_cons]

/-- A condition that must not hold. -/
theorem ite_error_eq_ok_iff {p : Prop} [Decidable p] {e : ε} {x : Except ε α} {a : α} :
    (if p then .error e else x) = .ok a ↔ ¬p ∧ x = .ok a := by
  by_cases hp : p <;> simp [hp]

/-- A condition that must hold. -/
theorem ite_ok_eq_ok_iff {p : Prop} [Decidable p] {e : ε} {x : Except ε α} {a : α} :
    (if p then x else .error e) = .ok a ↔ p ∧ x = .ok a := by
  by_cases hp : p <;> simp [hp]

/-- A condition that must hold, where the computation relies on it. -/
theorem dite_ok_eq_ok_iff {p : Prop} [Decidable p] {e : ε} {f : p → Except ε α} {a : α} :
    (if h : p then f h else .error e) = .ok a ↔ ∃ h : p, f h = .ok a := by
  by_cases hp : p <;> simp [hp]

/-- A computation for every element of a list. -/
theorem mapM_eq_ok_iff {f : α → Except ε β} {xs : List α} {ys : List β} :
    xs.mapM f = .ok ys ↔ xs.map f = ys.map .ok := by
  induction xs generalizing ys with
  | nil =>
    rw [List.mapM_nil, List.map_nil, eq_comm (a := []), List.map_eq_nil_iff]
    exact ⟨fun h ↦ (Except.ok.inj h).symm, fun h ↦ congrArg _ h.symm⟩
  | cons a xs ih =>
    rw [List.mapM_cons, bind_eq_ok_iff, List.map_cons]
    constructor
    · rintro ⟨b, hb, h⟩
      obtain ⟨bs, hbs, h⟩ := bind_eq_ok_iff.1 h
      cases h
      rw [List.map_cons, hb, ih.1 hbs]
    · intro h
      obtain ⟨b, bs, rfl, hb, hbs⟩ := List.map_eq_cons_iff.1 h.symm
      exact ⟨b, hb.symm, bind_eq_ok_iff.2 ⟨bs, ih.2 hbs.symm, rfl⟩⟩

theorem length_of_mapM_eq_ok {f : α → Except ε β} {xs : List α} {ys : List β}
    (h : xs.mapM f = .ok ys) : ys.length = xs.length := by
  have hlength := congrArg List.length (mapM_eq_ok_iff.1 h)
  rw [List.length_map, List.length_map] at hlength
  exact hlength.symm

/-- Every step of a computation along a list succeeds, where the whole does. -/
theorem exists_step_of_foldlM {f : β → α → Except ε β} {xs : List α} {b b' : β}
    (h : xs.foldlM f b = .ok b') {a : α} (ha : a ∈ xs) : ∃ c c', f c a = .ok c' := by
  induction xs generalizing b with
  | nil => exact absurd ha List.not_mem_nil
  | cons x xs ih =>
    rw [List.foldlM_cons] at h
    obtain ⟨c, hc, hrest⟩ := bind_eq_ok_iff.1 h
    rcases List.mem_cons.1 ha with rfl | ha
    · exact ⟨b, c, hc⟩
    · exact ih hrest ha

/-! ### Looking every element of a list up -/

section Lookup

variable {f : α → Except ε β} {found? : α → Option β} {missing : α → ε}

/-- All of them have to be found. -/
theorem mapM_lookup_eq_ok_iff (hf : ∀ a, f a = (found? a).elim (.error (missing a)) .ok)
    {xs : List α} {ys : List β} : xs.mapM f = .ok ys ↔ xs.map found? = ys.map some := by
  have hpoint : ∀ a b, f a = .ok b ↔ found? a = some b := fun a b ↦ by
    rw [hf]
    cases found? a <;> simp
  rw [mapM_eq_ok_iff, ← List.forall₂_eq_eq_eq, ← List.forall₂_eq_eq_eq]
  simp only [List.forall₂_map_left_iff, List.forall₂_map_right_iff, hpoint]

theorem exists_mapM_lookup_eq_ok (hf : ∀ a, f a = (found? a).elim (.error (missing a)) .ok)
    {xs : List α} (h : ∀ a ∈ xs, ∃ b, found? a = some b) : ∃ ys, xs.mapM f = .ok ys := by
  simp only [mapM_lookup_eq_ok_iff hf]
  induction xs with
  | nil => exact ⟨[], rfl⟩
  | cons a xs ih =>
    obtain ⟨b, hb⟩ := h a List.mem_cons_self
    obtain ⟨bs, hbs⟩ := ih fun c hc ↦ h c (List.mem_cons_of_mem a hc)
    exact ⟨b :: bs, by rw [List.map_cons, List.map_cons, hb, hbs]⟩

/-- The first that is not found decides. -/
theorem mapM_lookup_eq_error (hf : ∀ a, f a = (found? a).elim (.error (missing a)) .ok)
    {xs : List α} {a : α} (h : xs.find? (fun b ↦ (found? b).isNone) = some a) :
    xs.mapM f = .error (missing a) := by
  induction xs with
  | nil => cases h
  | cons b xs ih =>
    rw [List.mapM_cons, hf b]
    cases hfound : found? b with
    | none =>
      rw [List.find?_cons_of_pos (by simp [hfound])] at h
      cases h
      rfl
    | some c =>
      rw [List.find?_cons_of_neg (by simp [hfound])] at h
      exact bind_eq_error_iff.2 (.inr ⟨c, rfl, bind_eq_error_iff.2 (.inl (ih h))⟩)

end Lookup

end HopSampler
