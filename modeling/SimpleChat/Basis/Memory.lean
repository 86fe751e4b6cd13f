import Mathlib.Data.List.Basic

/-! Blocks of bytes stored one after the other in a memory whose old contents are
arbitrary, also past the end of the array they are meant for. -/
namespace Basis

universe u
variable {β : Type u}

structure Block (β : Type u) where
  offset : Nat
  bytes : List β
  deriving DecidableEq, Repr

def Block.indices (b : Block β) : List Nat := List.range' b.offset b.bytes.length

def Block.store (b : Block β) (memory : Nat → β) (i : Nat) : β :=
  if b.offset ≤ i then (b.bytes[i - b.offset]?).getD (memory i) else memory i

def storeAll : List (Block β) → (Nat → β) → Nat → β
  | [], memory => memory
  | b :: rest, memory => storeAll rest (b.store memory)

def contents (memory : Nat → β) (n : Nat) : List β := (List.range n).map memory

theorem contentsLength (memory : Nat → β) (n : Nat) : (contents memory n).length = n := by
  simp [contents]

theorem contentsGet {memory : Nat → β} {n i : Nat} (inside : i < n) : (contents memory n)[i]? = some (memory i) := by
  simp [contents,inside]

theorem contentsTake (memory : Nat → β) {k n : Nat} (within : k ≤ n) : (contents memory n).take k = contents memory k := by
  rw [contents,contents,← List.map_take,List.take_range,Nat.min_eq_left within]

variable (b : Block β) (memory : Nat → β)

theorem storeAt {i : Nat} {x : β} (found : b.bytes[i]? = some x) : b.store memory (b.offset + i) = x := by
  rw [Block.store,if_pos (Nat.le_add_right _ _),Nat.add_sub_cancel_left,found]
  rfl

theorem storeBelow {i : Nat} (below : i < b.offset) : b.store memory i = memory i :=
  if_neg (by omega)

theorem contentsBelow {n : Nat} (below : n ≤ b.offset) : contents (b.store memory) n = contents memory n :=
  List.map_congr_left (fun _ member => storeBelow b memory (Nat.lt_of_lt_of_le (List.mem_range.mp member) below))

theorem contentsStore {known : List β} (starts : b.offset = known.length)
    (held : contents memory known.length = known) :
    contents (b.store memory) (known.length + b.bytes.length) = known ++ b.bytes := by
  refine List.ext_getElem (by simp [contentsLength]) (fun i inside _ => ?_)
  rw [contentsLength] at inside
  rcases Nat.lt_or_ge i known.length with early | late
  · have old : known[i]? = some (memory i) := by
      rw [← held]
      exact contentsGet early
    rw [List.getElem_append_left early]
    simp only [contents,List.getElem_map,List.getElem_range]
    rw [storeBelow b memory (by omega)]
    exact (List.getElem_eq_iff early).mpr old |>.symm
  · obtain ⟨k,rfl⟩ := Nat.exists_eq_add_of_le late
    have short : k < b.bytes.length := by omega
    rw [List.getElem_append_right late]
    simp only [contents,List.getElem_map,List.getElem_range,Nat.add_sub_cancel_left]
    have stored := storeAt b memory (List.getElem?_eq_getElem short)
    rwa [starts] at stored

end Basis
