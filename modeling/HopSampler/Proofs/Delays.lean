import HopSampler.Feature.Delayed
import HopSampler.Proofs.Checks
import Mathlib.Data.List.Forall2

/-!
# What is there in time

Whether results are awaited together or one after the other shows in which failure is reported, and
when; it does not show in a success. `Gives` says that a result is there, and by the limit where
there is one. A pair gives what both its parts give, a group gives what all its members give
(`all_gives_iff`), and a deadline is a limit (`within_gives_iff`).
-/

namespace HopSampler

/-- What stands at a position of one list has its partner at that position of the other. -/
theorem exists_partner {α β : Type} {R : α → β → Prop} {xs : List α} {ys : List β}
    (h : List.Forall₂ R xs ys) {i : Nat} {x : α} (hx : xs[i]? = some x) :
    ∃ y, ys[i]? = some y ∧ R x y := by
  obtain ⟨hi, rfl⟩ := List.getElem?_eq_some_iff.1 hx
  have hi' : i < ys.length := h.length_eq ▸ hi
  exact ⟨ys[i], List.getElem?_eq_getElem hi', h.get hi hi'⟩

/-- And what is in it has its partner in the other. -/
theorem exists_partner_of_mem {α β : Type} {R : α → β → Prop} {xs : List α} {ys : List β}
    (h : List.Forall₂ R xs ys) {x : α} (hx : x ∈ xs) : ∃ y ∈ ys, R x y := by
  obtain ⟨i, hi⟩ := List.mem_iff_getElem?.1 hx
  obtain ⟨y, hy, hxy⟩ := exists_partner h hi
  exact ⟨y, List.mem_of_getElem? hy, hxy⟩

namespace Delayed

variable {α β : Type} {limit : Option Nat}

/-- The result is `a`, and it is there by the limit. -/
structure Gives (d : Delayed α) (limit : Option Nat) (a : α) : Prop where
  result : d.result = .ok a
  inTime : ∀ m ∈ limit, d.moment ≤ m

/-- Without a limit only the result counts. -/
theorem gives_none_iff {d : Delayed α} {a : α} : d.Gives none a ↔ d.result = .ok a :=
  ⟨Gives.result, fun h ↦ ⟨h, fun _ hm ↦ absurd hm (Option.not_mem_none _)⟩⟩

theorem now_gives_iff {result : Except Error α} {a : α} :
    (now result).Gives limit a ↔ result = .ok a :=
  ⟨Gives.result, fun h ↦ ⟨h, fun _ _ ↦ Nat.zero_le _⟩⟩

theorem check_gives_iff {d : Delayed α} {f : α → Except Error β} {b : β} :
    (d.check f).Gives limit b ↔ ∃ a, d.Gives limit a ∧ f a = .ok b := by
  constructor
  · rintro ⟨hresult, htime⟩
    obtain ⟨a, ha, hf⟩ := bind_eq_ok_iff.1 hresult
    exact ⟨a, ⟨ha, htime⟩, hf⟩
  · rintro ⟨a, ⟨ha, htime⟩, hf⟩
    exact ⟨bind_eq_ok_iff.2 ⟨a, ha, hf⟩, htime⟩

theorem map_gives_iff {d : Delayed α} {f : α → β} {b : β} :
    (d.map f).Gives limit b ↔ ∃ a, d.Gives limit a ∧ f a = b := by
  simp only [map, check_gives_iff, Except.ok.injEq]

theorem within_gives_iff {d : Delayed α} {deadline : Milliseconds} {late : Error} {a : α} :
    (d.within deadline late).result = .ok a ↔ d.Gives (some deadline.toNat) a := by
  rw [within]
  split
  · next h => exact ⟨fun hresult ↦ ⟨hresult, by rintro _ ⟨⟩; exact h⟩, Gives.result⟩
  · next h => exact ⟨nofun, fun hgives ↦ absurd (hgives.inTime _ rfl) h⟩

theorem map_map (d : Delayed α) {γ : Type} (f : α → β) (g : β → γ) :
    (d.map f).map g = d.map (g ∘ f) := by
  obtain ⟨moment, result⟩ := d
  cases result <;> rfl

/-- A check that nothing fails is none. -/
theorem check_map {d : Delayed α} {f : α → β} {g : β → Except Error β}
    (h : ∀ a, g (f a) = .ok (f a)) : (d.map f).check g = d.map f := by
  obtain ⟨moment, result⟩ := d
  cases result with
  | error e => rfl
  | ok a => exact congrArg (mk moment) (h a)

theorem both_gives_iff {d : Delayed α} {d' : Delayed β} {a : α} {b : β} :
    (both d d').Gives limit (a, b) ↔ d.Gives limit a ∧ d'.Gives limit b := by
  constructor
  · rintro ⟨hresult, htime⟩
    rw [both] at hresult htime
    split at hresult
    · next hd hd' =>
      simp only [hd, hd', Nat.max_le] at htime
      cases hresult
      exact ⟨⟨hd, fun m hm ↦ (htime m hm).1⟩, ⟨hd', fun m hm ↦ (htime m hm).2⟩⟩
    · cases hresult
    · cases hresult
    · split at hresult <;> cases hresult
  · rintro ⟨⟨ha, htime⟩, ⟨hb, htime'⟩⟩
    refine ⟨by simp only [both, ha, hb], fun m hm ↦ ?_⟩
    simp only [both, ha, hb]
    exact Nat.max_le.2 ⟨htime m hm, htime' m hm⟩

theorem together_gives_iff {ds : List (Delayed α)} {as : List α} :
    (together ds).Gives limit as ↔ List.Forall₂ (fun d a ↦ d.Gives limit a) ds as := by
  induction ds generalizing as with
  | nil =>
    rw [together, now_gives_iff, List.forall₂_nil_left_iff, Except.ok.injEq, eq_comm]
  | cons d ds ih =>
    rw [together, map_gives_iff, List.forall₂_cons_left_iff]
    constructor
    · rintro ⟨⟨a, as⟩, hboth, rfl⟩
      obtain ⟨ha, has⟩ := both_gives_iff.1 hboth
      exact ⟨a, as, ha, ih.1 has, rfl⟩
    · rintro ⟨a, as, ha, has, rfl⟩
      exact ⟨(a, as), both_gives_iff.2 ⟨ha, ih.2 has⟩, rfl⟩

theorem inTurn_gives_iff {ds : List (Delayed α)} {as : List α} :
    (inTurn ds).Gives limit as ↔ List.Forall₂ (fun d a ↦ d.Gives limit a) ds as := by
  induction ds generalizing as with
  | nil =>
    rw [inTurn, now_gives_iff, List.forall₂_nil_left_iff, Except.ok.injEq, eq_comm]
  | cons d ds ih =>
    rw [inTurn, List.forall₂_cons_left_iff]
    rcases hd : d.result with e | a
    · exact ⟨fun h ↦ (nomatch h.result), fun ⟨a, _, ha, _⟩ ↦ nomatch hd.symm.trans ha.result⟩
    · constructor
      · rintro ⟨hresult, htime⟩
        obtain ⟨as', has, rfl⟩ : ∃ as', (inTurn ds).result = .ok as' ∧ a :: as' = as := by
          rcases hrest : (inTurn ds).result with e | as' <;>
            simp only [hrest, Except.map, Except.ok.injEq, reduceCtorEq] at hresult
          exact ⟨as', rfl, hresult⟩
        exact ⟨a, as', ⟨hd, fun m hm ↦ (Nat.max_le.1 (htime m hm)).1⟩,
          ih.1 ⟨has, fun m hm ↦ (Nat.max_le.1 (htime m hm)).2⟩, rfl⟩
      · rintro ⟨a', as', ha, has, rfl⟩
        obtain rfl : a = a' := Except.ok.inj (hd.symm.trans ha.result)
        have hrest := ih.2 has
        exact ⟨by simp only [hrest.result, Except.map],
          fun m hm ↦ Nat.max_le.2 ⟨ha.inTime m hm, hrest.inTime m hm⟩⟩

/-- **A group gives what all its members give**, whatever its size. -/
theorem all_gives_iff {size : Nat} {ds : List (Delayed α)} {as : List α} :
    (all size ds).Gives limit as ↔ List.Forall₂ (fun d a ↦ d.Gives limit a) ds as := by
  rw [all]
  split
  · exact together_gives_iff
  · exact inTurn_gives_iff

/-- A group all of whose members give something gives. -/
theorem exists_all_gives {size : Nat} {ds : List (Delayed α)} (h : ∀ d ∈ ds, ∃ a, d.Gives limit a) :
    ∃ as, (all size ds).Gives limit as := by
  simp only [all_gives_iff]
  induction ds with
  | nil => exact ⟨[], .nil⟩
  | cons d ds ih =>
    obtain ⟨a, ha⟩ := h d List.mem_cons_self
    obtain ⟨as, has⟩ := ih fun e he ↦ h e (List.mem_cons_of_mem d he)
    exact ⟨a :: as, .cons ha has⟩

/-- What a group gives comes from its members. -/
theorem Gives.exists_member {size : Nat} {ds : List (Delayed α)} {as : List α}
    (h : (all size ds).Gives limit as) {a : α} (ha : a ∈ as) : ∃ d ∈ ds, d.Gives limit a := by
  have hpairs : List.Forall₂ (fun a d ↦ d.Gives limit a) as ds := (all_gives_iff.1 h).flip
  exact exists_partner_of_mem hpairs ha

/-- And every member gives a part of it. -/
theorem Gives.exists_part {size : Nat} {ds : List (Delayed α)} {as : List α}
    (h : (all size ds).Gives limit as) {d : Delayed α} (hd : d ∈ ds) :
    ∃ a ∈ as, d.Gives limit a :=
  exists_partner_of_mem (all_gives_iff.1 h) hd

/-! ### Failing in time -/

/-- The result is a failure, and it is there by the limit. -/
structure FailsBy (d : Delayed α) (limit : Option Nat) : Prop where
  result : ∃ e, d.result = .error e
  inTime : ∀ m ∈ limit, d.moment ≤ m

theorem failsBy_check_iff {d : Delayed α} {f : α → Except Error β} :
    (d.check f).FailsBy limit ↔
      d.FailsBy limit ∨ ∃ a, d.Gives limit a ∧ ∃ e, f a = .error e := by
  constructor
  · rintro ⟨⟨e, he⟩, htime⟩
    rcases hd : d.result with e' | a
    · exact .inl ⟨⟨e', hd⟩, htime⟩
    · exact .inr ⟨a, ⟨hd, htime⟩, e, by simpa only [check, hd, Except.bind] using he⟩
  · rintro (⟨⟨e, he⟩, htime⟩ | ⟨a, ⟨ha, htime⟩, e, he⟩)
    · exact ⟨⟨e, by simp only [check, he, Except.bind]⟩, htime⟩
    · exact ⟨⟨e, by simp only [check, ha, Except.bind, he]⟩, htime⟩

theorem failsBy_map_iff {d : Delayed α} {f : α → β} :
    (d.map f).FailsBy limit ↔ d.FailsBy limit := by
  simp only [map, failsBy_check_iff, reduceCtorEq, exists_false, and_false, or_false]

theorem FailsBy.of_both {d : Delayed α} {d' : Delayed β} (h : (both d d').FailsBy limit) :
    d.FailsBy limit ∨ d'.FailsBy limit := by
  obtain ⟨⟨e, he⟩, htime⟩ := h
  rw [both] at he htime
  split at he
  · cases he
  · next hd hd' =>
    simp only [hd, hd'] at htime
    exact .inl ⟨⟨_, hd⟩, htime⟩
  · next hd hd' =>
    simp only [hd, hd'] at htime
    exact .inr ⟨⟨_, hd'⟩, htime⟩
  · next hd hd' =>
    simp only [hd, hd'] at htime
    split at htime
    · exact .inl ⟨⟨_, hd⟩, htime⟩
    · exact .inr ⟨⟨_, hd'⟩, htime⟩

theorem FailsBy.of_together {ds : List (Delayed α)} (h : (together ds).FailsBy limit) :
    ∃ d ∈ ds, d.FailsBy limit := by
  induction ds with
  | nil => exact absurd h.result.choose_spec nofun
  | cons d ds ih =>
    rw [together, failsBy_map_iff] at h
    rcases h.of_both with hd | hds
    · exact ⟨d, List.mem_cons_self, hd⟩
    · obtain ⟨d', hd', hfails⟩ := ih hds
      exact ⟨d', List.mem_cons_of_mem d hd', hfails⟩

theorem FailsBy.of_inTurn {ds : List (Delayed α)} (h : (inTurn ds).FailsBy limit) :
    ∃ d ∈ ds, d.FailsBy limit := by
  induction ds with
  | nil => exact absurd h.result.choose_spec nofun
  | cons d ds ih =>
    rw [inTurn] at h
    rcases hd : d.result with e | a
    · simp only [hd] at h
      exact ⟨d, List.mem_cons_self, ⟨e, hd⟩, h.inTime⟩
    · simp only [hd] at h
      obtain ⟨⟨e, he⟩, htime⟩ := h
      have hrest : ∃ e, (inTurn ds).result = .error e := by
        rcases hrest : (inTurn ds).result with e' | as
        · exact ⟨e', rfl⟩
        · simp only [hrest, Except.map, reduceCtorEq] at he
      obtain ⟨d', hd', hfails⟩ := ih ⟨hrest, fun m hm ↦ (Nat.max_le.1 (htime m hm)).2⟩
      exact ⟨d', List.mem_cons_of_mem d hd', hfails⟩

/-- **The failure of a group is the failure of a member**, and no earlier than that. -/
theorem FailsBy.exists_member {size : Nat} {ds : List (Delayed α)}
    (h : (all size ds).FailsBy limit) : ∃ d ∈ ds, d.FailsBy limit := by
  rw [all] at h
  split at h
  · exact h.of_together
  · exact h.of_inTurn

/-- What neither gives nor fails in time is cut off by the deadline. -/
theorem within_of_late {d : Delayed α} {deadline : Milliseconds} {late : Error}
    (hgives : ∀ a, ¬d.Gives (some deadline.toNat) a) (hfails : ¬d.FailsBy (some deadline.toNat)) :
    d.within deadline late = ⟨deadline.toNat, .error late⟩ := by
  refine if_neg fun htime ↦ ?_
  have hinTime : ∀ m ∈ some deadline.toNat, d.moment ≤ m := by
    rintro _ ⟨⟩
    exact htime
  rcases hd : d.result with e | a
  · exact hfails ⟨⟨e, hd⟩, hinTime⟩
  · exact hgives a ⟨hd, hinTime⟩

end Delayed

end HopSampler
