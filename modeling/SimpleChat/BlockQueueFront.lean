import SimpleChat.BlockQueueRuns

/-! `front` against `pop`. `m_front` names the slot before the head, and `front`
reads that slot: the one the last `pop` emptied, or the newest item's where a
full queue has wrapped onto it, or none where no item was taken yet. -/
namespace SimpleChat.BlockQueue
open Basis (System)
open Function (update)

variable {ι T : Type}

def Event.taken : Event ι T → Option T
  | .pop _ item | .wake _ _ item | .popFor _ item | .timewake _ _ item => item
  | _ => none

/- The item the last pop took; `clear` puts `m_front` back to -1. -/
def remember (last : Option T) : Event ι T → Option T
  | .clear _ => none
  | e => e.taken.or last

structure LeftBehind (q : BlockQueue T) (last : Option T) : Prop where
  fresh : last = none → q.mFront = -1
  slot : ∀ x, last = some x → 0 ≤ q.mFront ∧ (q.mSize < q.mMaxSize → q.mArray q.mFront.toNat = x)

def FrontAgrees (q : BlockQueue T) : Prop :=
  ∃ x, q.front = some (some x) ∧ q.toList.head? = some x ∧ ∃ q', q.take = some (x,q')

/- An item was taken since the queue was made or cleared, and it is equal to the
oldest one left; in a full queue the newest item has to be. -/
def FrontMatches (q : BlockQueue T) (last : Option T) : Prop :=
  ∃ x, last = some x ∧ if q.mSize < q.mMaxSize then q.toList.head? = some x else q.toList.head? = q.toList.getLast?

theorem Shape.frontFresh {q : BlockQueue T} {n k b} (shape : Shape q n 0 (k + 1) b) : q.front = none := by
  have before : q.mFront = -1 := by rw [shape.front]; rfl
  have some_ : ¬ q.mSize = 0 := by rw [shape.size]; omega
  rw [BlockQueue.front,if_neg some_,before,load,if_neg (by omega)]
  rfl

theorem Shape.frontReads {q : BlockQueue T} {n f k b} (shape : Shape q n (f + 1) (k + 1) b) :
    q.front = some (some (q.mArray f)) := by
  have inside := shape.headIn
  have index : q.mFront = f := by rw [shape.front]; omega
  have some_ : ¬ q.mSize = 0 := by rw [shape.size]; omega
  rw [BlockQueue.front,if_neg some_,index,load,if_pos (by rw [shape.max]; omega)]
  rfl

theorem Shape.frontFull {q : BlockQueue T} {n f b} (shape : Shape q n (f + 1) n b) :
    q.toList.getLast? = some (q.mArray f) := by
  have positive := shape.positive
  obtain ⟨k,rfl⟩ : ∃ k, n = k + 1 := ⟨n - 1,by omega⟩
  have inside := shape.headIn
  have wrapped : (f + 1 + k) % (k + 1) = f := by
    rw [Nat.add_assoc,Nat.add_comm 1 k,Nat.add_mod_right,Nat.mod_eq_of_lt (by omega)]
  rw [shape.toList,Basis.Ring.windowSnoc,wrapped]
  simp

theorem LeftBehind.push {q q' : BlockQueue T} {last : Option T} {item : T} {accepted : Bool}
    (left : LeftBehind q last) (valid : q.Valid) (pushed : q.push item = some (q',accepted)) : LeftBehind q' last := by
  obtain ⟨n,f,k,b,shape⟩ := valid
  by_cases room : q.mSize < q.mMaxSize
  · have free : k < n := by rw [shape.size,shape.max] at room; omega
    obtain ⟨q₁,done,shape',_,array,front⟩ := shape.pushTaken free item
    rw [done] at pushed
    cases pushed
    refine ⟨fun none => front.trans (left.fresh none),fun x here => ?_⟩
    obtain ⟨positive,behind⟩ := left.slot x here
    refine ⟨front ▸ positive,fun less => ?_⟩
    have other : q.mFront.toNat ≠ b % n := by
      have head := shape.front
      have inside := shape.headIn
      have fresh := @Basis.Ring.freshSlot n (f - 1) (k + 1) 0 (by rw [shape'.size,shape'.max] at less; omega) (by omega)
      rw [Nat.add_zero,Nat.mod_eq_of_lt (by omega)] at fresh
      have tail : f - 1 + (k + 1) = f + k := by omega
      rw [tail,← shape.aligned] at fresh
      omega
    rw [array,front,Function.update_of_ne other]
    exact behind room
  · rw [pushRefused room item] at pushed
    cases pushed
    exact left

theorem LeftBehind.take {q q' : BlockQueue T} {x : T} (valid : q.Valid) (some_ : 0 < q.mSize)
    (took : q.take = some (x,q')) : LeftBehind q' (some x) := by
  obtain ⟨n,f,k,b,shape⟩ := valid
  obtain ⟨j,rfl⟩ : ∃ j, k = j + 1 := ⟨k - 1,by rw [shape.size] at some_; omega⟩
  obtain ⟨y,q₁,done,shape',_,slot,array⟩ := shape.taken
  rw [done] at took
  cases took
  have front : q'.mFront = (f % n : Nat) := by rw [shape'.front]; omega
  refine ⟨nofun,fun z here => ⟨by rw [front]; omega,fun _ => ?_⟩⟩
  rw [front,array,Int.toNat_natCast,← slot]
  exact Option.some.inj here

theorem LeftBehind.attempt [DecidableEq ι] [DecidableEq T] {s s' : State ι T} {t : ι} {onEmpty : Pc} {item last : Option T}
    (left : LeftBehind s.queue last) (valid : s.queue.Valid) (tried : attempt s t onEmpty item = some s') :
    LeftBehind s'.queue (item.or last) := by
  obtain ⟨pc,ends⟩ := attemptTries tried
  rcases tryPopEnds ends with ⟨_,rfl,same,_⟩ | ⟨some_,x,took,rfl,_⟩
  · rw [same]
    exact left
  · exact .take valid some_ took

section Runs
variable [DecidableEq ι] [DecidableEq T]

theorem stepLeftBehind {s s' : State ι T} {last : Option T} {e} (left : LeftBehind s.queue last)
    (valid : s.queue.Valid) (taken : step s e = some s') : LeftBehind s'.queue (remember last e) := by
  cases e with
  | push t item accepted =>
    simp only [step,Option.ite_none_right_eq_some,bind,Option.bind_eq_some_iff] at taken
    obtain ⟨_,⟨q,ok⟩,pushed,_,same⟩ := taken
    cases Option.some.inj same
    exact left.push valid pushed
  | pop t item | popFor t item =>
    simp only [step,Option.ite_none_right_eq_some] at taken
    exact left.attempt valid taken.2
  | wake t waited item | timewake t waited item =>
    simp only [step,Option.ite_none_right_eq_some] at taken
    obtain ⟨_,taken⟩ := taken
    split at taken
    · exact left.attempt valid taken
    · simp only [Option.ite_none_right_eq_some,Option.some.injEq] at taken
      obtain ⟨rfl,rfl⟩ := taken
      exact left
  | clear t =>
    simp only [step,Option.ite_none_right_eq_some,Option.some.injEq] at taken
    obtain ⟨_,rfl⟩ := taken
    exact ⟨fun _ => rfl,fun _ here => by cases here⟩
  | back t item | size t value | full t value | empty t value =>
    simp only [step,Option.ite_none_right_eq_some,Option.some.injEq] at taken
    exact taken.2 ▸ left

end Runs

theorem LeftBehind.agrees {q : BlockQueue T} {last : Option T} (left : LeftBehind q last) (valid : q.Valid)
    (some_ : 0 < q.mSize) : FrontAgrees q ↔ FrontMatches q last := by
  obtain ⟨n,f,k,b,shape⟩ := valid
  obtain ⟨j,rfl⟩ : ∃ j, k = j + 1 := ⟨k - 1,by rw [shape.size] at some_; omega⟩
  obtain ⟨y,q',took,_,list,_⟩ := shape.taken
  have head : q.toList.head? = some y := by rw [list]; rfl
  cases f with
  | zero =>
    have before : q.mFront = -1 := by rw [shape.front]; rfl
    constructor
    · rintro ⟨x,read,_⟩
      rw [shape.frontFresh] at read
      contradiction
    · rintro ⟨x,here,_⟩
      have positive := (left.slot x here).1
      omega
  | succ g =>
    have index : q.mFront = g := by rw [shape.front]; omega
    have same : FrontAgrees q ↔ q.toList.head? = some (q.mArray g) := by
      rw [FrontAgrees,shape.frontReads,head]
      constructor
      · rintro ⟨x,read,oldest,_⟩
        rw [oldest,← Option.some.inj read]
      · exact fun oldest => ⟨y,by rw [oldest],rfl,q',took⟩
    rw [same]
    cases last with
    | none => exact absurd (left.fresh rfl) (by omega)
    | some x =>
      have behind := (left.slot x rfl).2
      rw [index,Int.toNat_natCast] at behind
      by_cases room : q.mSize < q.mMaxSize
      · simp [FrontMatches,if_pos room,behind room]
      · have full : j + 1 = n := by
          have bound := shape.room
          rw [shape.size,shape.max] at room
          omega
        rw [full] at shape
        simp [FrontMatches,if_neg room,shape.frontFull]

/- After any run, `front` agrees with `pop` on a queue with items exactly when the
item the last pop took equals the oldest one left, or, in a queue that is full,
the newest one does. -/
theorem frontAgreesIff [DecidableEq ι] [DecidableEq T] [Inhabited T] {maxSize : Int} (small : maxSize ≤ intMax)
    {s s' : State ι T} (start : (system ι T maxSize).init s) (es : List (Event ι T))
    (ran : (system ι T maxSize).run s es = some s') (some_ : 0 < s'.queue.mSize) :
    FrontAgrees s'.queue ↔ FrontMatches s'.queue (es.foldl remember none) := by
  have valid := reachValid small ((system ι T maxSize).runReachable (.init start) es ran)
  have fresh : LeftBehind s.queue none :=
    ⟨fun _ => (newShape small start.1).front,nofun⟩
  have held := (system ι T maxSize).runFold
    (P := fun s last => ValidFor maxSize s.queue ∧ LeftBehind s.queue last)
    (fun _ _ _ _ kept taken => ⟨(stepFifo kept.1 taken).1,stepLeftBehind kept.2 kept.1.1 taken⟩)
    ⟨⟨⟨_,_,_,_,newShape small start.1⟩,newBound start.1⟩,fresh⟩ es ran
  exact held.2.agrees valid.1 some_

theorem sampleFront : ∃ s : State Unit Nat,
    (system Unit Nat 2).run ⟨⟨fun _ => 0,0,2,-1,-1⟩,fun _ => .outside⟩
      [.push () 7 true,.pop () (some 7),.push () 7 true] = some s ∧ FrontAgrees s.queue := by
  refine ⟨_,rfl,?_⟩
  have agrees := @frontAgreesIff Unit Nat _ _ _ 2 (by decide) ⟨⟨fun _ => 0,0,2,-1,-1⟩,fun _ => .outside⟩ _
    ⟨rfl,fun _ => rfl⟩ [.push () 7 true,.pop () (some 7),.push () 7 true] rfl (by decide)
  exact agrees.mpr ⟨7,rfl,rfl⟩

theorem freshFrontOutside : ∃ s : State Unit Nat,
    (system Unit Nat 2).Reachable s ∧ 0 < s.queue.mSize ∧ s.queue.toList = [7] ∧ s.queue.front = none ∧
      ¬ FrontAgrees s.queue := by
  refine ⟨_,(system Unit Nat 2).runReachable (.init ⟨rfl,fun _ => rfl⟩) [.push () 7 true]
    (s := ⟨⟨fun _ => 0,0,2,-1,-1⟩,fun _ => .outside⟩) rfl,by decide,rfl,rfl,?_⟩
  rintro ⟨x,read,_⟩
  contradiction

end SimpleChat.BlockQueue
