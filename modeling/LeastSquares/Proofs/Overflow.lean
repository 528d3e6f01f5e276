import Mathlib

/-!
# Sums that are no words

On one machine a sum that is no word of 64 bits starts again at zero, and on another the program
comes to no answer there.  Where the second machine has a sum, both have the exact one.
-/

namespace LeastSquares

/-- What a machine does about a sum that is no word. -/
inductive Overflow where
  /-- The program comes to no answer. -/
  | traps
  /-- The sum starts again at zero. -/
  | wraps

namespace Overflow

def succ? (overflow : Overflow) (w : UInt64) : Option UInt64 :=
  match overflow with
  | traps => if w.toNat + 1 < UInt64.size then some (w + 1) else none
  | wraps => some (w + 1)

def add? (overflow : Overflow) (a b : Nat) : Option Nat :=
  match overflow with
  | traps => if a + b < UInt64.size then some (a + b) else none
  | wraps => some ((a + b) % UInt64.size)

def total? (overflow : Overflow) (counts : List Nat) : Option Nat := counts.foldlM overflow.add? 0

theorem foldlM_wraps (counts : List Nat) (a : Nat) :
    ∃ b, counts.foldlM wraps.add? a = some b ∧ b % UInt64.size = (a + counts.sum) % UInt64.size ∧
      (a < UInt64.size → b < UInt64.size) := by
  induction counts generalizing a with
  | nil => exact ⟨a, rfl, rfl, id⟩
  | cons count counts ih =>
    obtain ⟨b, hb, hmod, hlt⟩ := ih ((a + count) % UInt64.size)
    refine ⟨b, hb, ?_, fun _ => hlt (Nat.mod_lt _ (by decide))⟩
    rw [hmod, Nat.mod_add_mod, List.sum_cons, Nat.add_assoc]

theorem total?_wraps (counts : List Nat) :
    wraps.total? counts = some (counts.sum % UInt64.size) := by
  obtain ⟨b, hb, hmod, hlt⟩ := foldlM_wraps counts 0
  rw [Nat.mod_eq_of_lt (hlt (by decide)), Nat.zero_add] at hmod
  rw [total?, hb, hmod]

theorem add?_traps {a b c : Nat} (h : traps.add? a b = some c) : a + b = c ∧ c < UInt64.size := by
  have hsum : (if a + b < UInt64.size then some (a + b) else none) = some c := h
  obtain ⟨hlt, hc⟩ := Option.ite_none_right_eq_some.1 hsum
  cases hc
  exact ⟨rfl, hlt⟩

theorem foldlM_traps {counts : List Nat} {a b : Nat} (h : counts.foldlM traps.add? a = some b) :
    a + counts.sum = b ∧ (a < UInt64.size → b < UInt64.size) := by
  induction counts generalizing a with
  | nil =>
    cases h
    exact ⟨rfl, id⟩
  | cons count counts ih =>
    rw [List.foldlM_cons] at h
    obtain ⟨c, hc, hrest⟩ := Option.bind_eq_some_iff.1 h
    obtain ⟨rfl, hlt⟩ := add?_traps hc
    obtain ⟨hsum, hb⟩ := ih hrest
    exact ⟨by rw [List.sum_cons, ← Nat.add_assoc, hsum], fun _ => hb hlt⟩

theorem total?_traps {counts : List Nat} {total : Nat} (h : traps.total? counts = some total) :
    counts.sum = total ∧ total < UInt64.size := by
  obtain ⟨hsum, hlt⟩ := foldlM_traps h
  exact ⟨(Nat.zero_add _).symm.trans hsum, hlt (by decide)⟩

end Overflow

end LeastSquares
