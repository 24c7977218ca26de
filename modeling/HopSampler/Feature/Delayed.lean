import HopSampler.Error

/-!
# Results that take time

A look-up in a remote backing takes time and can fail. A `Delayed` value is the result together with
the moment it is there, in milliseconds from the start of the request. Time is only compared, never
waited for, so what happens under a deadline is a function of its inputs.

**The earliest failure decides, in a small group.** Of a few results awaited together the first
failure in time settles the whole, the first in order among simultaneous ones; without a failure all
are awaited. A large group is gone through in order: a failure is noticed only when all results
before it are there, so it can wait behind a slow success or give way to an earlier failure that
comes later.
-/

namespace HopSampler

/-- A result and when it is there. -/
structure Delayed (α : Type) where
  moment : Nat
  result : Except Error α

namespace Delayed

/-- A result that is there at once. -/
def now (result : Except Error α) : Delayed α := ⟨0, result⟩

/-- Apply a function to the result, at no cost of time. -/
def check (f : α → Except Error β) (d : Delayed α) : Delayed β := ⟨d.moment, d.result.bind f⟩

/-- Apply a total function to the result. -/
def map (f : α → β) (d : Delayed α) : Delayed β := d.check fun a ↦ .ok (f a)

/-- Await two results together. -/
def both (a : Delayed α) (b : Delayed β) : Delayed (α × β) :=
  match a.result, b.result with
  | .ok x, .ok y => ⟨max a.moment b.moment, .ok (x, y)⟩
  | .error e, .ok _ => ⟨a.moment, .error e⟩
  | .ok _, .error e => ⟨b.moment, .error e⟩
  | .error e, .error f =>
    if a.moment ≤ b.moment then ⟨a.moment, .error e⟩ else ⟨b.moment, .error f⟩

/-- Await a list of results; the earliest failure decides. -/
def together : List (Delayed α) → Delayed (List α)
  | [] => now (.ok [])
  | d :: rest => (both d (together rest)).map fun (a, as) ↦ a :: as

/-- Await a list of results and go through them in order; the first failure in the list decides. -/
def inTurn : List (Delayed α) → Delayed (List α)
  | [] => now (.ok [])
  | d :: rest =>
    match d.result with
    | .error e => ⟨d.moment, .error e⟩
    | .ok a =>
      let others := inTurn rest
      ⟨max d.moment others.moment, others.result.map (a :: ·)⟩

/-- The greatest size of a small group. -/
def smallGroup : Nat := 30

/-- Await a list of results, in the way of a group that has room for `size`. -/
def all (size : Nat) (ds : List (Delayed α)) : Delayed (List α) :=
  if size ≤ smallGroup then together ds else inTurn ds

/-- The result, where it is there by the deadline; a failure otherwise. -/
def within (deadline : Milliseconds) (late : Error) (d : Delayed α) : Delayed α :=
  if d.moment ≤ deadline.toNat then d else ⟨deadline.toNat, .error late⟩

end Delayed

end HopSampler
