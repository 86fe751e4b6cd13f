import SimpleChat.Basis.Tally
import SimpleChat.Basis.TokenQueue
import SimpleChat.CTypes

/-! `SafeQueue`: a mutex-guarded list, with a semaphore in blocking mode. Each
definition is one section under `mutex` or one semaphore call, which are the
steps other threads can interleave with. `mSem` is `none` until `sem_init`. -/
namespace SimpleChat
open Basis (System tally tallyEnter tallyLeave tallySame tallyMember)
open Function (update)

structure SafeQueue (α : Type) where
  list : List α
  mSem : Option Nat
  isblock : Bool
  mMaxCount : Int
  deriving DecidableEq, Repr

namespace SafeQueue
variable {α : Type}

def new : SafeQueue α := ⟨[], none, false, -1⟩

/- For a bound that is not positive the constructor builds an exception and
does not throw it, so every bound is accepted. -/
def withMax (maxCount : Int) : SafeQueue α := ⟨[], none, false, maxCount⟩

def push (q : SafeQueue α) (value : α) : SafeQueue α := {q with list := q.list ++ [value]}

def pop [Inhabited α] (q : SafeQueue α) : α × SafeQueue α := match q.list with
  | [] => (default, q)
  | value :: rest => (value, {q with list := rest})

def empty (q : SafeQueue α) : Bool := q.list.isEmpty
def size (q : SafeQueue α) : Nat := q.list.length

def setblock (initialised : Bool) (q : SafeQueue α) : Except String (SafeQueue α) :=
  if q.isblock then .error "Block mode already enabled"
  else if !initialised then .error "Failed to initialize semaphore"
  else .ok {q with mSem := some 0, isblock := true}

def semPost (q : SafeQueue α) : Option (SafeQueue α) := do
  let value ← q.mSem
  some {q with mSem := some (value + 1)}

def pushB (q : SafeQueue α) (value : α) : SafeQueue α :=
  let pushed := q.push value
  pushed.semPost.getD pushed

def semWait (q : SafeQueue α) : Option (SafeQueue α) := do
  let value ← q.mSem
  if 0 < value then some {q with mSem := some (value - 1)} else none

def removeB (q : SafeQueue α) : Except String (α × SafeQueue α) := match q.list with
  | [] => .error "list is empty!"
  | value :: rest => .ok (value, {q with list := rest})

/- The loop of `pop(int)`. `front()` and `pop_front()` have no result on an empty list. -/
def moveFront (q : SafeQueue α) (temp : List α) : Nat → Option (List α × SafeQueue α)
  | 0 => some (temp, q)
  | popCount + 1 => match q.list with
      | [] => none
      | value :: rest => moveFront {q with list := rest} (temp ++ [value]) popCount

def popNum (q : SafeQueue α) (num : Int) : Option (List α × SafeQueue α) :=
  q.moveFront [] (min (sizeT num) q.list.length)

theorem pushBFrame (q : SafeQueue α) (value : α) :
    (q.pushB value).list = q.list ++ [value] ∧ (q.pushB value).isblock = q.isblock := by
  cases sem : q.mSem <;> simp [pushB,semPost,push,sem]

theorem semWaitList {q q' : SafeQueue α} (waited : q.semWait = some q') : q'.list = q.list := by
  simp only [semWait,bind,Option.bind_eq_some_iff,Option.ite_none_right_eq_some,Option.some.injEq] at waited
  obtain ⟨value,_,_,rfl⟩ := waited
  rfl

theorem semPostList {q q' : SafeQueue α} (posted : q.semPost = some q') : q'.list = q.list := by
  simp only [semPost,bind,Option.bind_eq_some_iff,Option.some.injEq] at posted
  obtain ⟨value,_,rfl⟩ := posted
  rfl

theorem setblockFresh {initialised : Bool} {q q' : SafeQueue α} (done : q.setblock initialised = .ok q') :
    q'.list = q.list ∧ q'.mSem = some 0 ∧ q'.isblock = true := by
  unfold setblock at done
  split at done
  · contradiction
  · split at done
    · contradiction
    · cases done; exact ⟨rfl,rfl,rfl⟩

def pops [Inhabited α] (q : SafeQueue α) : Nat → List α × SafeQueue α
  | 0 => ([], q)
  | calls + 1 =>
      let popped := q.pop
      let later := popped.2.pops calls
      (popped.1 :: later.1, later.2)

theorem moveFrontTakes {q : SafeQueue α} (temp : List α) {n : Nat} (enough : n ≤ q.list.length) :
    q.moveFront temp n = some (temp ++ q.list.take n,{q with list := q.list.drop n}) := by
  induction n generalizing q temp with
  | zero => simp [moveFront]
  | succ n ih =>
    cases content : q.list with
    | nil => rw [content] at enough; simp at enough
    | cons value rest =>
      have shorter : n ≤ rest.length := by rw [content,List.length_cons] at enough; omega
      rw [moveFront,content]
      have later := ih (q := {q with list := rest}) (temp ++ [value]) shorter
      simpa using later

theorem popsTake [Inhabited α] {q : SafeQueue α} {n : Nat} (enough : n ≤ q.list.length) :
    q.pops n = (q.list.take n,{q with list := q.list.drop n}) := by
  induction n generalizing q with
  | zero => simp [pops]
  | succ n ih =>
    cases content : q.list with
    | nil => rw [content] at enough; simp at enough
    | cons value rest =>
      have shorter : n ≤ rest.length := by rw [content,List.length_cons] at enough; omega
      have popped : q.pop = (value,{q with list := rest}) := by rw [pop,content]
      have later := ih (q := {q with list := rest}) shorter
      simp only [pops,popped,later,List.take_succ_cons,List.drop_succ_cons]

theorem popNumTakes (q : SafeQueue α) (num : Int) :
    q.popNum num = some (q.list.take (sizeT num),{q with list := q.list.drop (sizeT num)}) := by
  rw [popNum,moveFrontTakes [] (Nat.min_le_right _ _),List.nil_append]
  rcases Nat.le_total (sizeT num) q.list.length with short | long
  · rw [Nat.min_eq_left short]
  · rw [Nat.min_eq_right long,List.take_of_length_le long,List.drop_of_length_le long,List.take_length,
      List.drop_length]

theorem popNumKeeps {q q' : SafeQueue α} {num : Int} {taken : List α} (popped : q.popNum num = some (taken,q')) :
    taken ++ q'.list = q.list := by
  rw [popNumTakes] at popped
  cases Option.some.inj popped
  exact List.take_append_drop _ _

theorem sizeTNatural {num : Int} (natural : 0 ≤ num) (small : num ≤ intMax) : sizeT num = num.toNat := by
  unfold sizeT intMax at *
  omega

/- What one batch should be: that many single pops, none for a count that is not
positive, and nothing lost or taken twice. -/
def Batch [Inhabited α] (q : SafeQueue α) (num : Int) : Prop :=
  q.popNum num = some (q.pops (min (max num 0).toNat q.size)) ∧
  (num ≤ 0 → q.popNum num = some ([],q)) ∧
  ∃ taken q', q.popNum num = some (taken,q') ∧ taken ++ q'.list = q.list

theorem batchNatural [Inhabited α] (q : SafeQueue α) {num : Int} (natural : 0 ≤ num) (small : num ≤ intMax) :
    Batch q num := by
  have count : sizeT num = num.toNat := sizeTNatural natural small
  have positive : (max num 0).toNat = num.toNat := by rw [Int.max_eq_left natural]
  refine ⟨?_,?_,_,_,popNumTakes q num,List.take_append_drop _ _⟩
  · rw [popsTake (by rw [size]; exact Nat.min_le_right _ _),popNum,count,positive,
      moveFrontTakes [] (Nat.min_le_right _ _),List.nil_append,size]
  · intro nothing
    have zero : num = 0 := by omega
    subst zero
    rw [popNumTakes]
    simp [sizeT]

theorem batchEmpty [Inhabited α] {q : SafeQueue α} (num : Int) (nothing : q.list = []) : Batch q num := by
  have popped : q.popNum num = some ([],q) := by
    rw [popNumTakes,nothing,List.take_nil,List.drop_nil,← nothing]
  refine ⟨?_,fun _ => popped,_,_,popped,rfl⟩
  rw [popped,size,nothing,List.length_nil,Nat.min_zero,pops]

/- A negative count is converted to a `size_t` above every length, so the whole
queue goes; `pop(int)` is that many `pop()`s for the other counts only. -/
theorem batchExactly [Inhabited α] (q : SafeQueue α) (num : Int32) :
    Batch q num.toInt ↔ 0 ≤ num.toInt ∨ q.list = [] := by
  have below : -2147483648 ≤ num.toInt := Int32.le_toInt num
  have above : num.toInt ≤ intMax := Int32.toInt_le num
  constructor
  · intro batch
    by_contra other
    obtain ⟨negative,some_⟩ := not_or.mp other
    have none_ := batch.2.1 (by omega)
    rw [popNumTakes] at none_
    have kept : q.list.drop (sizeT num.toInt) = q.list :=
      congrArg (fun popped => popped.2.list) (Option.some.inj none_)
    have huge : 0 < sizeT num.toInt := by unfold sizeT; omega
    have lengths := congrArg List.length kept
    rw [List.length_drop] at lengths
    have filled : 0 < q.list.length := List.length_pos_iff.mpr some_
    omega
  · rintro (natural | nothing)
    · exact batchNatural q natural above
    · exact batchEmpty _ nothing

theorem batchNegativeTakesAll : (⟨[7,8],none,false,-1⟩ : SafeQueue Nat).popNum (-1) = some ([7,8],⟨[],none,false,-1⟩) ∧
    ¬ Batch (⟨[7,8],none,false,-1⟩ : SafeQueue Nat) (-1 : Int32).toInt := by
  refine ⟨rfl,fun batch => ?_⟩
  have nothing := batch.2.1 (by decide)
  exact absurd nothing (by decide)

end SafeQueue

/-! Threads that call only `push_b`, `pop_b` and the readers of one queue in
blocking mode. A thread between its locked insertion and its `sem_post` is
`inserted`, one between its `sem_wait` and its locked removal is `admitted`. -/
namespace BlockingQueue

inductive Pc where
  | outside
  | inserted
  | admitted
  | threw (message : String)
  deriving DecidableEq, Repr

inductive Reader where
  | size
  | empty
  | front
  deriving DecidableEq, Repr

inductive Event (ι α : Type) where
  | pushB (t : ι) (value : α)
  | post (t : ι)
  | wait (t : ι)
  | popB (t : ι)
  | read (t : ι) (reader : Reader)
  deriving DecidableEq, Repr

structure State (ι α : Type) where
  queue : SafeQueue α
  pcs : ι → Pc
  inserted : List α
  removed : List α

variable {ι α : Type} [DecidableEq ι]

def step (s : State ι α) : Event ι α → Option (State ι α)
  | .pushB t value =>
      if s.pcs t = .outside then
        some {s with queue := s.queue.push value, pcs := update s.pcs t .inserted,
                     inserted := s.inserted ++ [value]}
      else none
  | .post t =>
      if s.pcs t = .inserted then do
        let queue ← s.queue.semPost
        some {s with queue := queue, pcs := update s.pcs t .outside}
      else none
  | .wait t =>
      if s.pcs t = .outside then do
        let queue ← s.queue.semWait
        some {s with queue := queue, pcs := update s.pcs t .admitted}
      else none
  | .popB t =>
      if s.pcs t = .admitted then match s.queue.removeB with
        | .error message => some {s with pcs := update s.pcs t (.threw message)}
        | .ok (value, queue) =>
            some {s with queue := queue, pcs := update s.pcs t .outside, removed := s.removed ++ [value]}
      else none
  | .read t _ => if s.pcs t = .outside then some s else none

section Lists
variable {s s' : State ι α} {t : ι}

theorem pushList {value : α} (taken : step s (.pushB t value) = some s') : s'.queue.list = s.queue.list ++ [value] := by
  simp only [step,Option.ite_none_right_eq_some,Option.some.injEq] at taken
  obtain ⟨_,rfl⟩ := taken
  rfl

theorem popList (taken : step s (.popB t) = some s') :
    (∃ value, s.queue.list = value :: s'.queue.list) ∨ (s.queue.list = [] ∧ s'.queue.list = []) := by
  simp only [step,Option.ite_none_right_eq_some] at taken
  obtain ⟨_,taken⟩ := taken
  cases list : s.queue.list with
  | nil =>
    simp only [SafeQueue.removeB,list,Option.some.injEq] at taken
    subst taken
    exact .inr ⟨rfl,list⟩
  | cons value rest =>
    simp only [SafeQueue.removeB,list,Option.some.injEq] at taken
    subst taken
    exact .inl ⟨value,rfl⟩

theorem waitList (taken : step s (.wait t) = some s') : s'.queue.list = s.queue.list := by
  simp only [step,Option.ite_none_right_eq_some] at taken
  obtain ⟨_,queue,admitted,last⟩ := taken.imp_right Option.bind_eq_some_iff.mp
  cases Option.some.inj last
  exact SafeQueue.semWaitList admitted

theorem postList (taken : step s (.post t) = some s') : s'.queue.list = s.queue.list := by
  simp only [step,Option.ite_none_right_eq_some] at taken
  obtain ⟨_,queue,posted,last⟩ := taken.imp_right Option.bind_eq_some_iff.mp
  cases Option.some.inj last
  exact SafeQueue.semPostList posted

theorem readList {reader : Reader} (taken : step s (.read t reader) = some s') : s'.queue.list = s.queue.list := by
  simp only [step,Option.ite_none_right_eq_some,Option.some.injEq] at taken
  obtain ⟨_,rfl⟩ := taken
  rfl

end Lists

def Initial (s : State ι α) : Prop :=
  (∃ (q : SafeQueue α) (initialised : Bool), q.list = [] ∧ q.setblock initialised = .ok s.queue) ∧
  (∀ t, s.pcs t = .outside) ∧ s.inserted = [] ∧ s.removed = []

def system (ι α : Type) [DecidableEq ι] : System (State ι α) (Event ι α) := ⟨Initial, step⟩

def inGapOfPush : Pc → Nat
  | .inserted => 1
  | _ => 0

def inGapOfPop : Pc → Nat
  | .admitted => 1
  | _ => 0

structure Sound (s : State ι α) : Prop where
  initialised : ∃ value, s.queue.mSem = some value
  returns : ∀ t message, s.pcs t ≠ .threw message

theorem otherPcs {s : State ι α} (sound : Sound s) {t : ι} {pc : Pc} (calm : ∀ message, pc ≠ .threw message) :
    ∀ u message, update s.pcs t pc u ≠ .threw message := by
  intro u message threw
  rcases Basis.movedCases threw with ⟨_,own⟩ | ⟨_,before⟩
  · exact calm message own
  · exact sound.returns u message before

variable [Fintype ι]

def view (s : State ι α) : Basis.TokenQueue.State α :=
  ⟨s.queue.list, s.queue.mSem.getD 0, tally inGapOfPush s.pcs, tally inGapOfPop s.pcs, s.inserted, s.removed⟩

omit [DecidableEq ι] in
theorem initialView {s : State ι α} (start : Initial s) : view s = Basis.TokenQueue.empty ∧ Sound s := by
  obtain ⟨⟨q,initialised,none,done⟩,outside,nothing,nothing'⟩ := start
  obtain ⟨list,sem,_⟩ := SafeQueue.setblockFresh done
  have pushes : tally inGapOfPush s.pcs = 0 :=
    (Basis.tallyZero _ _).mpr (fun t => by rw [outside t]; rfl)
  have pops : tally inGapOfPop s.pcs = 0 :=
    (Basis.tallyZero _ _).mpr (fun t => by rw [outside t]; rfl)
  refine ⟨?_,⟨0,sem⟩,fun t message threw => ?_⟩
  · simp [view,list,none,sem,pushes,pops,nothing,nothing',Basis.TokenQueue.empty]
  · rw [outside t] at threw; contradiction

theorem stepView {s s' : State ι α} {e} (sound : Sound s) (balanced : Basis.TokenQueue.Balanced (view s))
    (taken : step s e = some s') :
    Sound s' ∧ (view s' = view s ∨ ∃ f, Basis.TokenQueue.step (view s) f = some (view s')) := by
  obtain ⟨value,sem⟩ := sound.initialised
  cases e with
  | pushB t x =>
    simp only [step,Option.ite_none_right_eq_some,Option.some.injEq] at taken
    obtain ⟨here,rfl⟩ := taken
    refine ⟨⟨⟨value,sem⟩,otherPcs sound (by simp)⟩,.inr ⟨.insert x,?_⟩⟩
    have pushes : tally inGapOfPush (update s.pcs t .inserted) = tally inGapOfPush s.pcs + 1 :=
      tallyEnter (by rw [here]; rfl) rfl
    have pops : tally inGapOfPop (update s.pcs t .inserted) = tally inGapOfPop s.pcs :=
      tallySame (by rw [here]; rfl)
    simp [view,Basis.TokenQueue.step,SafeQueue.push,pushes,pops]
  | post t =>
    simp only [step,Option.ite_none_right_eq_some] at taken
    obtain ⟨here,taken⟩ := taken
    simp only [SafeQueue.semPost,sem,bind,Option.bind,Option.some.injEq] at taken
    subst taken
    refine ⟨⟨⟨value + 1,rfl⟩,otherPcs sound (by simp)⟩,.inr ⟨.post,?_⟩⟩
    have pushes : tally inGapOfPush (update s.pcs t .outside) + 1 = tally inGapOfPush s.pcs :=
      tallyLeave (by rw [here]; rfl) rfl
    have pops : tally inGapOfPop (update s.pcs t .outside) = tally inGapOfPop s.pcs :=
      tallySame (by rw [here]; rfl)
    simp [view,Basis.TokenQueue.step,sem,← pushes,pops]
  | wait t =>
    simp only [step,Option.ite_none_right_eq_some] at taken
    obtain ⟨here,taken⟩ := taken
    simp only [SafeQueue.semWait,sem,bind,Option.bind] at taken
    split at taken <;> try contradiction
    rename_i queue admitted
    simp only [Option.ite_none_right_eq_some,Option.some.injEq] at admitted taken
    obtain ⟨positive,rfl⟩ := admitted
    subst taken
    refine ⟨⟨⟨value - 1,rfl⟩,otherPcs sound (by simp)⟩,.inr ⟨.wait,?_⟩⟩
    have pushes : tally inGapOfPush (update s.pcs t .admitted) = tally inGapOfPush s.pcs :=
      tallySame (by rw [here]; rfl)
    have pops : tally inGapOfPop (update s.pcs t .admitted) = tally inGapOfPop s.pcs + 1 :=
      tallyEnter (by rw [here]; rfl) rfl
    simp [view,Basis.TokenQueue.step,sem,pushes,pops,positive]
  | popB t =>
    simp only [step,Option.ite_none_right_eq_some] at taken
    obtain ⟨here,taken⟩ := taken
    have taker : 0 < tally inGapOfPop s.pcs :=
      Nat.lt_of_lt_of_le (by rw [here]; exact Nat.one_pos) (tallyMember inGapOfPop s.pcs t)
    cases items : s.queue.list with
    | nil => exact absurd items (balanced.takerFinds taker)
    | cons x rest =>
      simp only [SafeQueue.removeB,items,Option.some.injEq] at taken
      subst taken
      refine ⟨⟨⟨value,sem⟩,otherPcs sound (by simp)⟩,.inr ⟨.remove,?_⟩⟩
      have pushes : tally inGapOfPush (update s.pcs t .outside) = tally inGapOfPush s.pcs :=
        tallySame (by rw [here]; rfl)
      have pops : tally inGapOfPop (update s.pcs t .outside) + 1 = tally inGapOfPop s.pcs :=
        tallyLeave (by rw [here]; rfl) rfl
      simp [view,Basis.TokenQueue.step,items,pushes,← pops]
  | read t reader =>
    simp only [step,Option.ite_none_right_eq_some,Option.some.injEq] at taken
    obtain ⟨_,rfl⟩ := taken
    exact ⟨sound,.inl rfl⟩

theorem stepSound {s s' : State ι α} {e} (balanced : Basis.TokenQueue.Balanced (view s)) (sound : Sound s)
    (taken : step s e = some s') : Basis.TokenQueue.Balanced (view s') ∧ Sound s' := by
  obtain ⟨sound',same | ⟨f,moved⟩⟩ := stepView sound balanced taken
  · exact ⟨same ▸ balanced,sound'⟩
  · exact ⟨Basis.TokenQueue.stepBalanced balanced moved,sound'⟩

theorem viewSimulation : Basis.Simulation (system ι α) (fun _ _ => True) (Basis.TokenQueue.system α) view Sound where
  init _ start := initialView start
  step _ _ _ reached sound _ taken := stepView sound (Basis.TokenQueue.reachBalanced reached) taken

theorem reachSound {s : State ι α} (reached : (system ι α).Reachable s) :
    Basis.TokenQueue.Balanced (view s) ∧ Sound s := by
  obtain ⟨viewed,sound⟩ := viewSimulation.reach reached
  exact ⟨Basis.TokenQueue.reachBalanced viewed,sound⟩

/- The counting law of blocking mode and what rests on it: `pop_b` never meets
an empty list, and the queue is first in, first out, without loss. -/
theorem blockingQueueLossless {s : State ι α} (reached : (system ι α).Reachable s) :
    (∃ value, s.queue.mSem = some value ∧
      value + tally inGapOfPop s.pcs + tally inGapOfPush s.pcs = s.queue.list.length) ∧
    (∀ t, s.pcs t = .admitted → ∃ x queue, s.queue.removeB = .ok (x,queue)) ∧
    (∀ t message, s.pcs t ≠ .threw message) ∧
    s.removed ++ s.queue.list = s.inserted := by
  obtain ⟨balanced,sound⟩ := reachSound reached
  obtain ⟨value,sem⟩ := sound.initialised
  refine ⟨⟨value,sem,?_⟩,fun t here => ?_,sound.returns,balanced.order⟩
  · simpa [view,sem] using balanced.count
  · have taker : 0 < tally inGapOfPop s.pcs :=
      Nat.lt_of_lt_of_le (by rw [here]; exact Nat.one_pos) (tallyMember inGapOfPop s.pcs t)
    obtain ⟨x,rest,items⟩ := List.exists_cons_of_ne_nil (balanced.takerFinds taker)
    exact ⟨x,{s.queue with list := rest},by
      have list : s.queue.list = x :: rest := items
      simp [SafeQueue.removeB,list]⟩

def sampleAdmitted : State Bool Nat :=
  ⟨⟨[7],some 0,true,-1⟩,update (update (update (fun _ => .outside) false .inserted) false .outside) true .admitted,
    [7],[]⟩

theorem sampleReached : (system Bool Nat).Reachable sampleAdmitted :=
  (system Bool Nat).runReachable (s := ⟨⟨[],some 0,true,-1⟩,fun _ => .outside,[],[]⟩)
    (.init ⟨⟨.new,true,rfl,rfl⟩,fun _ => rfl,rfl,rfl⟩) [.pushB false 7,.post false,.wait true] rfl

theorem sampleLossless :
    (∃ x queue, sampleAdmitted.queue.removeB = .ok (x,queue)) ∧
    sampleAdmitted.removed ++ sampleAdmitted.queue.list = sampleAdmitted.inserted :=
  have law := blockingQueueLossless sampleReached
  ⟨law.2.1 true rfl,law.2.2.2⟩

end BlockingQueue
end SimpleChat
