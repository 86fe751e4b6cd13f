import Mathlib.Data.Nat.ModEq
import Mathlib.Logic.Function.Basic

/-! The stretch of a circular array that starts at a slot and runs for a count
of slots, read as a list. Slots outside the stretch are unrestricted. -/
namespace Basis.Ring
open Function (update)

universe u
variable {α : Type u}

def window (cells : Nat → α) (n : Nat) : Nat → Nat → List α
  | _, 0 => []
  | start, count+1 => cells (start % n) :: window cells n (start + 1) count

theorem windowLength (cells : Nat → α) (n start count : Nat) : (window cells n start count).length = count := by
  induction count generalizing start with
  | zero => rfl
  | succ count ih => simp only [window, List.length_cons, ih]

theorem windowSnoc (cells : Nat → α) (n start count : Nat) :
    window cells n start (count + 1) = window cells n start count ++ [cells ((start + count) % n)] := by
  induction count generalizing start with
  | zero => rfl
  | succ count ih =>
    rw [window, ih (start + 1), window, List.cons_append, Nat.add_right_comm, Nat.add_assoc]

theorem windowMod {n start start' : Nat} (same : start % n = start' % n) (cells : Nat → α) (count : Nat) :
    window cells n start count = window cells n start' count := by
  induction count generalizing start start' with
  | zero => rfl
  | succ count ih =>
    simp only [window]
    rw [same, ih (Nat.ModEq.add_right 1 same)]

theorem windowCongr {cells cells' : Nat → α} {n start count : Nat}
    (same : ∀ i < count, cells ((start + i) % n) = cells' ((start + i) % n)) :
    window cells n start count = window cells' n start count := by
  induction count generalizing start with
  | zero => rfl
  | succ count ih =>
    simp only [window]
    have head : cells (start % n) = cells' (start % n) := same 0 (Nat.succ_pos count)
    have tail : window cells n (start + 1) count = window cells' n (start + 1) count := by
      refine ih (fun i less => ?_)
      have shift : start + 1 + i = start + (i + 1) := by omega
      rw [shift]
      exact same (i + 1) (Nat.succ_lt_succ less)
    rw [head, tail]

theorem freshSlot {n start count i : Nat} (room : count < n) (inside : i < count) :
    (start + i) % n ≠ (start + count) % n := by
  intro same
  have congruent : i ≡ count [MOD n] := Nat.ModEq.add_left_cancel' start same
  rw [Nat.ModEq, Nat.mod_eq_of_lt (inside.trans room), Nat.mod_eq_of_lt room] at congruent
  omega

theorem windowStore {cells : Nat → α} {n start count : Nat} (room : count < n) (x : α) :
    window (update cells ((start + count) % n) x) n start (count + 1) = window cells n start count ++ [x] := by
  rw [windowSnoc, Function.update_self]
  congr 1
  exact windowCongr (fun i inside => Function.update_of_ne (freshSlot room inside) x cells)

end Basis.Ring
