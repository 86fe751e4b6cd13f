import SimpleChat.Basis.Ring
import SimpleChat.Basis.Transition
import SimpleChat.CTypes

/-! `block_queue`: a bounded queue in a circular array. Each definition is one
section under `m_mutex`. An access outside `m_array` or an `int` sum that
overflows has no result, so that it is defined says that neither happens. -/
namespace SimpleChat
open Basis.Ring (window windowLength windowSnoc windowMod windowStore)
open Function (update)

structure BlockQueue (T : Type) where
  mArray : Nat → T
  mSize : Int
  mMaxSize : Int
  mFront : Int
  mBack : Int

namespace BlockQueue
variable {T : Type}

/- `exit(-1)` on a bound that is not positive. -/
def new [Inhabited T] (maxSize : Int) : Option (BlockQueue T) :=
  if maxSize ≤ 0 then none else some ⟨fun _ => default,0,maxSize,-1,-1⟩

def load (q : BlockQueue T) (i : Int) : Option T :=
  if 0 ≤ i ∧ i < q.mMaxSize then some (q.mArray i.toNat) else none

def store (q : BlockQueue T) (i : Int) (item : T) : Option (Nat → T) :=
  if 0 ≤ i ∧ i < q.mMaxSize then some (update q.mArray i.toNat item) else none

def next (q : BlockQueue T) (i : Int) : Option Int := do
  let sum ← intAdd i 1
  some (sum.tmod q.mMaxSize)

def clear (q : BlockQueue T) : BlockQueue T := {q with mSize := 0, mFront := -1, mBack := -1}
def full (q : BlockQueue T) : Bool := decide (q.mMaxSize ≤ q.mSize)
def empty (q : BlockQueue T) : Bool := decide (q.mSize = 0)
def size (q : BlockQueue T) : Int := q.mSize

/- `some none` is `return false`. -/
def front (q : BlockQueue T) : Option (Option T) :=
  if q.mSize = 0 then some none else (q.load q.mFront).map some

def back (q : BlockQueue T) : Option (Option T) :=
  if q.mSize = 0 then some none else (q.load q.mBack).map some

def push (q : BlockQueue T) (item : T) : Option (BlockQueue T × Bool) :=
  if q.mMaxSize ≤ q.mSize then some (q,false) else do
    let mBack ← q.next q.mBack
    let mArray ← q.store mBack item
    let mSize ← intAdd q.mSize 1
    some ({q with mArray := mArray, mBack := mBack, mSize := mSize},true)

def take (q : BlockQueue T) : Option (T × BlockQueue T) := do
  let mFront ← q.next q.mFront
  let item ← q.load mFront
  let mSize ← intAdd q.mSize (-1)
  some (item,{q with mFront := mFront, mSize := mSize})

/- The four integers of a queue in use: the capacity, the slot of the head, the
number of items and the slot behind the tail. `m_front` and `m_back` name the
slots before these two, so both are -1 in a queue just made or cleared. -/
structure Shape (q : BlockQueue T) (n f k b : Nat) : Prop where
  size : q.mSize = k
  max : q.mMaxSize = n
  front : q.mFront = f - 1
  back : q.mBack = b - 1
  positive : 0 < n
  fits : (n : Int) ≤ intMax
  room : k ≤ n
  headIn : f ≤ n
  tailIn : b ≤ n
  aligned : b % n = (f + k) % n
  settled : 0 < k → 0 < b

def Valid (q : BlockQueue T) : Prop := ∃ n f k b, Shape q n f k b

def toList (q : BlockQueue T) : List T :=
  window q.mArray q.mMaxSize.toNat (q.mFront + 1).toNat q.mSize.toNat

theorem Shape.toList {q : BlockQueue T} {n f k b} (shape : Shape q n f k b) :
    q.toList = window q.mArray n f k := by
  have head : (q.mFront + 1).toNat = f := by rw [shape.front]; omega
  simp only [BlockQueue.toList,head,shape.size,shape.max,Int.toNat_natCast]

theorem Shape.length {q : BlockQueue T} {n f k b} (shape : Shape q n f k b) : q.toList.length = k := by
  rw [shape.toList,windowLength]

theorem newShape [Inhabited T] {maxSize : Int} {q : BlockQueue T} (small : maxSize ≤ intMax)
    (made : new maxSize = some q) : Shape q maxSize.toNat 0 0 0 := by
  unfold new at made
  split at made
  · contradiction
  · rename_i positive
    cases Option.some.inj made
    have nat : ((maxSize.toNat : Nat) : Int) = maxSize := Int.toNat_of_nonneg (by omega)
    exact ⟨rfl,nat.symm,rfl,rfl,by omega,by omega,by omega,by omega,by omega,rfl,by omega⟩

theorem newBound [Inhabited T] {maxSize : Int} {q : BlockQueue T} (made : new maxSize = some q) :
    q.mMaxSize = maxSize := by
  unfold new at made
  split at made
  · contradiction
  · cases Option.some.inj made; rfl

theorem Shape.clear {q : BlockQueue T} {n f k b} (shape : Shape q n f k b) : Shape q.clear n 0 0 0 :=
  ⟨rfl,shape.max,rfl,rfl,shape.positive,shape.fits,Nat.zero_le n,Nat.zero_le n,Nat.zero_le n,rfl,by omega⟩

theorem Shape.next {q : BlockQueue T} {n f k b} (shape : Shape q n f k b) {i : Nat} (inside : i ≤ n) :
    q.next (i - 1) = some ((i % n : Nat) : Int) := by
  have fits := shape.fits
  have sum : intAdd ((i : Int) - 1) 1 = some (i : Int) := by
    unfold intAdd
    rw [if_pos (by unfold intMax at *; omega)]
    simp
  simp only [BlockQueue.next,sum,bind,Option.bind,shape.max]
  rw [Int.tmod_eq_emod_of_nonneg (Int.natCast_nonneg i)]
  rfl

theorem Shape.slot {q : BlockQueue T} {n f k b} (shape : Shape q n f k b) (i : Nat) :
    0 ≤ ((i % n : Nat) : Int) ∧ ((i % n : Nat) : Int) < q.mMaxSize := by
  have less := Nat.mod_lt i shape.positive
  rw [shape.max]
  omega

theorem pushRefused {q : BlockQueue T} (full : ¬ q.mSize < q.mMaxSize) (item : T) :
    q.push item = some (q,false) := by
  simp only [push,if_pos (Int.not_lt.mp full)]

theorem Shape.pushTaken {q : BlockQueue T} {n f k b} (shape : Shape q n f k b) (room : k < n) (item : T) :
    ∃ q', q.push item = some (q',true) ∧ Shape q' n f (k + 1) (b % n + 1) ∧ q'.toList = q.toList ++ [item] ∧
      q'.mArray = update q.mArray (b % n) item ∧ q'.mFront = q.mFront := by
  have bound : ¬ q.mMaxSize ≤ q.mSize := by rw [shape.size,shape.max]; omega
  have small : intAdd q.mSize 1 = some ((k + 1 : Nat) : Int) := by
    have fits := shape.fits
    unfold intAdd
    rw [shape.size,if_pos (by unfold intMax at *; omega)]
    simp
  have less := Nat.mod_lt b shape.positive
  let q' : BlockQueue T := ⟨update q.mArray (b % n) item,(k + 1 : Nat),q.mMaxSize,q.mFront,((b % n : Nat) : Int)⟩
  have pushed : q.push item = some (q',true) := by
    simp only [push,if_neg bound,shape.back,shape.next shape.tailIn,store,if_pos (shape.slot b),small,bind,
      Option.bind,Int.toNat_natCast,q']
  have shape' : Shape q' n f (k + 1) (b % n + 1) := by
    refine ⟨rfl,shape.max,shape.front,by simp [q'],shape.positive,shape.fits,room,shape.headIn,less,?_,
      fun _ => Nat.succ_pos _⟩
    rw [← Nat.add_assoc,shape.aligned,Nat.mod_add_mod]
  refine ⟨q',pushed,shape',?_,rfl,rfl⟩
  rw [shape'.toList,shape.toList]
  simp only [q',shape.aligned]
  exact windowStore room item

theorem Shape.taken {q : BlockQueue T} {n f k b} (shape : Shape q n f (k + 1) b) :
    ∃ x q', q.take = some (x,q') ∧ Shape q' n (f % n + 1) k b ∧ q.toList = x :: q'.toList ∧
      x = q.mArray (f % n) ∧ q'.mArray = q.mArray := by
  have less := Nat.mod_lt f shape.positive
  have small : intAdd q.mSize (-1) = some (k : Int) := by
    have fits := shape.fits
    have room := shape.room
    unfold intAdd
    rw [shape.size,if_pos (by unfold intMax at *; omega)]
    simp
  let q' : BlockQueue T := ⟨q.mArray,k,q.mMaxSize,((f % n : Nat) : Int),q.mBack⟩
  have took : q.take = some (q.mArray (f % n),q') := by
    simp only [take,shape.front,shape.next shape.headIn,load,if_pos (shape.slot f),small,bind,Option.bind,
      Int.toNat_natCast,q']
  have shape' : Shape q' n (f % n + 1) k b := by
    refine ⟨rfl,shape.max,by simp [q'],shape.back,shape.positive,shape.fits,
      Nat.le_of_succ_le shape.room,less,shape.tailIn,?_,fun _ => shape.settled (Nat.succ_pos k)⟩
    rw [shape.aligned,Nat.add_assoc,Nat.mod_add_mod,Nat.add_comm 1 k]
  refine ⟨_,q',took,shape',?_,rfl,rfl⟩
  rw [shape.toList,shape'.toList,window]
  have tail : window q.mArray n (f + 1) k = window q'.mArray n (f % n + 1) k :=
    windowMod (by rw [Nat.mod_add_mod]) q.mArray k
  rw [tail]

section Content
variable {q : BlockQueue T} (valid : q.Valid)

include valid

theorem Valid.size : q.mSize = q.toList.length := by
  obtain ⟨n,f,k,b,shape⟩ := valid
  rw [shape.size,shape.length]

theorem Valid.bounded : q.mSize ≤ q.mMaxSize := by
  obtain ⟨n,f,k,b,shape⟩ := valid
  have room := shape.room
  rw [shape.size,shape.max]
  omega

theorem Valid.pushed (room : q.mSize < q.mMaxSize) (item : T) :
    ∃ q', q.push item = some (q',true) ∧ q'.Valid ∧ q'.mMaxSize = q.mMaxSize ∧ q'.toList = q.toList ++ [item] := by
  obtain ⟨n,f,k,b,shape⟩ := valid
  have less : k < n := by rw [shape.size,shape.max] at room; omega
  obtain ⟨q',pushed,shape',list,_⟩ := shape.pushTaken less item
  exact ⟨q',pushed,⟨_,_,_,_,shape'⟩,shape'.max.trans shape.max.symm,list⟩

theorem Valid.took (some_ : 0 < q.mSize) :
    ∃ x q', q.take = some (x,q') ∧ q'.Valid ∧ q'.mMaxSize = q.mMaxSize ∧ q.toList = x :: q'.toList := by
  obtain ⟨n,f,k,b,shape⟩ := valid
  cases k with
  | zero => rw [shape.size] at some_; contradiction
  | succ k =>
    obtain ⟨x,q',took,shape',list,_⟩ := shape.taken
    exact ⟨x,q',took,⟨_,_,_,_,shape'⟩,shape'.max.trans shape.max.symm,list⟩

end Content

theorem Shape.backIs {q : BlockQueue T} {n f k b} (shape : Shape q n f k b) :
    q.back = some q.toList.getLast? := by
  cases k with
  | zero =>
    have none : q.toList = [] := List.eq_nil_of_length_eq_zero shape.length
    simp [BlockQueue.back,shape.size,none]
  | succ k =>
    have tail := shape.settled (Nat.succ_pos k)
    have inside := shape.tailIn
    have index : q.mBack.toNat = (f + k) % n := by
      have aligned := shape.aligned
      rw [← Nat.add_assoc] at aligned
      have before : b - 1 < n := by omega
      have congruent : (b - 1) + 1 ≡ (f + k) + 1 [MOD n] := by
        rw [Nat.sub_add_cancel tail]; exact aligned
      have same : (b - 1) % n = (f + k) % n := Nat.ModEq.add_right_cancel' 1 congruent
      rw [← same,Nat.mod_eq_of_lt before,shape.back]
      omega
    have bounds : 0 ≤ q.mBack ∧ q.mBack < q.mMaxSize := by rw [shape.back,shape.max]; omega
    have some_ : ¬ q.mSize = 0 := by rw [shape.size]; omega
    rw [BlockQueue.back,if_neg some_,load,if_pos bounds,index,shape.toList,windowSnoc]
    simp

end BlockQueue
end SimpleChat
