import SimpleChat.BlockQueue

/-! Threads using one `block_queue`. An event is one critical section with the
result it hands out; a waiting consumer may wake at any time, so a broadcast
needs no step of its own. The abstract queue is a list with a capacity. -/
namespace SimpleChat.BlockQueue
open Basis (System)
open Function (update)

inductive Pc where
  | outside
  | waiting
  | timedWaiting
  deriving DecidableEq, Repr

/- `wait` and `timewait` report whether the wait succeeded. The last component
of the consumers' events is the item taken, if the section takes one. -/
inductive Event (ι T : Type) where
  | push (t : ι) (item : T) (accepted : Bool)
  | pop (t : ι) (item : Option T)
  | wake (t : ι) (waited : Bool) (item : Option T)
  | popFor (t : ι) (item : Option T)
  | timewake (t : ι) (waited : Bool) (item : Option T)
  | clear (t : ι)
  | back (t : ι) (item : Option T)
  | size (t : ι) (value : Int)
  | full (t : ι) (value : Bool)
  | empty (t : ι) (value : Bool)

structure State (ι T : Type) where
  queue : BlockQueue T
  pcs : ι → Pc

variable {ι T : Type} [DecidableEq ι] [DecidableEq T]

/- The loop test of `pop` and the single test of the timed `pop` differ only in
where a thread goes that finds the queue empty. The thread's new place comes back
with the queue. -/
omit [DecidableEq ι] in
def tryPop {P : Type} (queue : BlockQueue T) (onEmpty taking : P) (item : Option T) : Option (BlockQueue T × P) :=
  if queue.mSize ≤ 0 then if item = none then some (queue,onEmpty) else none
  else do
    let taken ← queue.take
    if item = some taken.1 then some (taken.2,taking) else none

def attempt (s : State ι T) (t : ι) (onEmpty : Pc) (item : Option T) : Option (State ι T) := do
  let tried ← tryPop s.queue onEmpty .outside item
  some ⟨tried.1,update s.pcs t tried.2⟩

def step (s : State ι T) : Event ι T → Option (State ι T)
  | .push t item accepted =>
      if s.pcs t = .outside then do
        let pushed ← s.queue.push item
        if accepted = pushed.2 then some {s with queue := pushed.1} else none
      else none
  | .pop t item => if s.pcs t = .outside then attempt s t .waiting item else none
  | .wake t waited item =>
      if s.pcs t = .waiting then
        if waited then attempt s t .waiting item
        else if item = none then some {s with pcs := update s.pcs t .outside} else none
      else none
  | .popFor t item => if s.pcs t = .outside then attempt s t .timedWaiting item else none
  | .timewake t waited item =>
      if s.pcs t = .timedWaiting then
        if waited then attempt s t .outside item
        else if item = none then some {s with pcs := update s.pcs t .outside} else none
      else none
  | .clear t => if s.pcs t = .outside then some {s with queue := s.queue.clear} else none
  | .back t item => if s.pcs t = .outside ∧ s.queue.back = some item then some s else none
  | .size t value => if s.pcs t = .outside ∧ value = s.queue.size then some s else none
  | .full t value => if s.pcs t = .outside ∧ value = s.queue.full then some s else none
  | .empty t value => if s.pcs t = .outside ∧ value = s.queue.empty then some s else none

def system (ι T : Type) [DecidableEq ι] [DecidableEq T] [Inhabited T] (maxSize : Int) :
    System (State ι T) (Event ι T) :=
  ⟨fun s => new maxSize = some s.queue ∧ ∀ t, s.pcs t = .outside,step⟩

def Removes (before after : List T) : Option T → Prop
  | some x => before = x :: after
  | none => after = before

/- The bounded queue a client may think of: what an event says and does when
the content is `before` and becomes `after`. -/
def Fifo (capacity : Int) (before : List T) : Event ι T → List T → Prop
  | .push _ item accepted, after =>
      (accepted = true ↔ (before.length : Int) < capacity) ∧
      after = if accepted then before ++ [item] else before
  | .pop _ item, after | .wake _ _ item, after | .popFor _ item, after | .timewake _ _ item, after =>
      Removes before after item
  | .clear _, after => after = []
  | .back _ item, after => item = before.getLast? ∧ after = before
  | .size _ value, after => value = before.length ∧ after = before
  | .full _ value, after => (value = true ↔ capacity ≤ before.length) ∧ after = before
  | .empty _ value, after => (value = true ↔ before = []) ∧ after = before

def ValidFor (maxSize : Int) (q : BlockQueue T) : Prop := Valid q ∧ q.mMaxSize = maxSize

omit [DecidableEq T] in
theorem ValidFor.pushCases {q q' : BlockQueue T} {maxSize : Int} {item : T} {accepted : Bool}
    (valid : ValidFor maxSize q) (pushed : q.push item = some (q',accepted)) :
    ValidFor maxSize q' ∧ (accepted = true ↔ (q.toList.length : Int) < maxSize) ∧
      q'.toList = if accepted then q.toList ++ [item] else q.toList := by
  obtain ⟨valid,rfl⟩ := valid
  rw [← valid.size]
  by_cases room : q.mSize < q.mMaxSize
  · obtain ⟨q₁,done,valid₁,max,list⟩ := valid.pushed room item
    rw [done] at pushed
    cases pushed
    exact ⟨⟨valid₁,max⟩,by simp [room],by rw [list]; rfl⟩
  · rw [pushRefused room item] at pushed
    cases pushed
    exact ⟨⟨valid,rfl⟩,by simp [room],rfl⟩

omit [DecidableEq ι] in
theorem tryPopEnds {P : Type} {queue queue' : BlockQueue T} {onEmpty taking pc : P} {item : Option T}
    (tried : tryPop queue onEmpty taking item = some (queue',pc)) :
    (queue.mSize ≤ 0 ∧ item = none ∧ queue' = queue ∧ pc = onEmpty) ∨
    (0 < queue.mSize ∧ ∃ x, queue.take = some (x,queue') ∧ item = some x ∧ pc = taking) := by
  unfold tryPop at tried
  split at tried
  · rename_i empty
    simp only [Option.ite_none_right_eq_some,Option.some.injEq,Prod.mk.injEq] at tried
    exact .inl ⟨empty,tried.1,tried.2.1.symm,tried.2.2.symm⟩
  · rename_i some_
    obtain ⟨⟨x,taken⟩,took,tried⟩ := Option.bind_eq_some_iff.mp tried
    simp only [Option.ite_none_right_eq_some,Option.some.injEq,Prod.mk.injEq] at tried
    obtain ⟨rfl,rfl,rfl⟩ := tried
    exact .inr ⟨Int.not_le.mp some_,x,took,rfl,rfl⟩

omit [DecidableEq ι] in
theorem tryPopMap {P P' : Type} (f : P → P') {queue queue' : BlockQueue T} {onEmpty taking pc : P} {item : Option T}
    (tried : tryPop queue onEmpty taking item = some (queue',pc)) :
    tryPop queue (f onEmpty) (f taking) item = some (queue',f pc) := by
  unfold tryPop
  rcases tryPopEnds tried with ⟨empty,rfl,rfl,rfl⟩ | ⟨some_,x,took,rfl,rfl⟩
  · rw [if_pos empty,if_pos rfl]
  · rw [if_neg (Int.not_le.mpr some_),took]
    exact if_pos rfl

theorem attemptTries {s s' : State ι T} {t : ι} {onEmpty : Pc} {item : Option T} (tried : attempt s t onEmpty item = some s') :
    ∃ pc, tryPop s.queue onEmpty .outside item = some (s'.queue,pc) := by
  obtain ⟨⟨queue,pc⟩,ends,same⟩ := Option.bind_eq_some_iff.mp tried
  cases Option.some.inj same
  exact ⟨pc,ends⟩

theorem ValidFor.attemptCases {s s' : State ι T} {maxSize : Int} {t : ι} {onEmpty : Pc} {item : Option T}
    (valid : ValidFor maxSize s.queue) (tried : attempt s t onEmpty item = some s') :
    ValidFor maxSize s'.queue ∧ Removes s.queue.toList s'.queue.toList item := by
  obtain ⟨valid,max⟩ := valid
  obtain ⟨pc,ends⟩ := attemptTries tried
  rcases tryPopEnds ends with ⟨_,rfl,same,_⟩ | ⟨some_,x,took,rfl,_⟩
  · rw [same]
    exact ⟨⟨valid,max⟩,rfl⟩
  · obtain ⟨y,q',took',valid',max',list⟩ := valid.took some_
    rw [took'] at took
    cases took
    exact ⟨⟨valid',max'.trans max⟩,list⟩

theorem stepFifo {s s' : State ι T} {maxSize : Int} {e} (valid : ValidFor maxSize s.queue)
    (taken : step s e = some s') :
    ValidFor maxSize s'.queue ∧ Fifo maxSize s.queue.toList e s'.queue.toList := by
  have valid' := valid
  obtain ⟨⟨n,f,k,b,shape⟩,max⟩ := valid
  cases e with
  | push t item accepted =>
    simp only [step,Option.ite_none_right_eq_some,bind,Option.bind_eq_some_iff] at taken
    obtain ⟨_,⟨q,ok⟩,pushed,same,last⟩ := taken
    cases Option.some.inj last
    subst same
    exact valid'.pushCases pushed
  | pop t item =>
    simp only [step,Option.ite_none_right_eq_some] at taken
    exact valid'.attemptCases taken.2
  | popFor t item =>
    simp only [step,Option.ite_none_right_eq_some] at taken
    exact valid'.attemptCases taken.2
  | wake t waited item | timewake t waited item =>
    simp only [step,Option.ite_none_right_eq_some] at taken
    obtain ⟨_,taken⟩ := taken
    split at taken
    · exact valid'.attemptCases taken
    · simp only [Option.ite_none_right_eq_some,Option.some.injEq] at taken
      obtain ⟨rfl,rfl⟩ := taken
      exact ⟨valid',rfl⟩
  | clear t =>
    simp only [step,Option.ite_none_right_eq_some,Option.some.injEq] at taken
    obtain ⟨_,rfl⟩ := taken
    exact ⟨⟨⟨_,_,_,_,shape.clear⟩,max⟩,List.eq_nil_of_length_eq_zero shape.clear.length⟩
  | back t item =>
    simp only [step,Option.ite_none_right_eq_some,Option.some.injEq] at taken
    obtain ⟨⟨_,read⟩,rfl⟩ := taken
    rw [shape.backIs] at read
    exact ⟨valid',(Option.some.inj read).symm,rfl⟩
  | size t value =>
    simp only [step,Option.ite_none_right_eq_some,Option.some.injEq] at taken
    obtain ⟨⟨_,rfl⟩,rfl⟩ := taken
    exact ⟨valid',by rw [shape.length]; exact shape.size,rfl⟩
  | full t value =>
    simp only [step,Option.ite_none_right_eq_some,Option.some.injEq] at taken
    obtain ⟨⟨_,rfl⟩,rfl⟩ := taken
    exact ⟨valid',by simp [full,shape.size,max,shape.length],rfl⟩
  | empty t value =>
    simp only [step,Option.ite_none_right_eq_some,Option.some.injEq] at taken
    obtain ⟨⟨_,rfl⟩,rfl⟩ := taken
    refine ⟨valid',?_,rfl⟩
    rw [← List.length_eq_zero_iff,shape.length]
    simp [empty,shape.size]

theorem reachValid [Inhabited T] {maxSize : Int} (small : maxSize ≤ intMax) {s : State ι T}
    (reached : (system ι T maxSize).Reachable s) : ValidFor maxSize s.queue := by
  refine (system ι T maxSize).invariant ?_ (fun s e s' valid _ taken => (stepFifo valid taken).1) reached
  exact fun s start => ⟨⟨_,_,_,_,newShape small start.1⟩,newBound start.1⟩

/- From every reachable state the content is a list of at most `max_size` items,
no operation leaves the array or overflows, and each event is what the bounded
queue does with that list. -/
theorem boundedFifo [Inhabited T] {maxSize : Int} (small : maxSize ≤ intMax) {s : State ι T}
    (reached : (system ι T maxSize).Reachable s) :
    ∃ L : List T, L = s.queue.toList ∧ (L.length : Int) = s.queue.mSize ∧
      0 ≤ s.queue.mSize ∧ s.queue.mSize ≤ s.queue.mMaxSize ∧ s.queue.mMaxSize = maxSize ∧
      (∀ item, ∃ q accepted, s.queue.push item = some (q,accepted)) ∧
      (0 < s.queue.mSize → ∃ x q, s.queue.take = some (x,q)) ∧
      (∃ item, s.queue.back = some item) ∧
      (∀ e s', step s e = some s' → Fifo maxSize L e s'.queue.toList) := by
  obtain ⟨valid,max⟩ := reachValid small reached
  have back : s.queue.back = some s.queue.toList.getLast? := by
    obtain ⟨n,f,k,b,shape⟩ := valid
    exact shape.backIs
  refine ⟨_,rfl,valid.size.symm,?_,valid.bounded,max,?_,?_,⟨_,back⟩,
    fun e s' taken => (stepFifo ⟨valid,max⟩ taken).2⟩
  · rw [valid.size]; omega
  · intro item
    by_cases room : s.queue.mSize < s.queue.mMaxSize
    · obtain ⟨q',pushed,_⟩ := valid.pushed room item
      exact ⟨q',true,pushed⟩
    · exact ⟨s.queue,false,pushRefused room item⟩
  · intro some_
    obtain ⟨x,q',took,_⟩ := valid.took some_
    exact ⟨x,q',took⟩

theorem sampleWrapped : ∃ s : State Unit Nat,
    (system Unit Nat 2).run ⟨⟨fun _ => 0,0,2,-1,-1⟩,fun _ => .outside⟩
      [.push () 7 true,.pop () (some 7),.push () 8 true,.push () 9 true] = some s ∧
    s.queue.toList = [8,9] ∧
    ∀ e s', step s e = some s' → Fifo 2 s.queue.toList e s'.queue.toList := by
  refine ⟨_,rfl,rfl,?_⟩
  have reached := (system Unit Nat 2).runReachable (s := ⟨⟨fun _ => 0,0,2,-1,-1⟩,fun _ => .outside⟩)
    (.init ⟨rfl,fun _ => rfl⟩) [.push () 7 true,.pop () (some 7),.push () 8 true,.push () 9 true] rfl
  obtain ⟨L,rfl,law⟩ := boundedFifo (by decide) reached
  exact law.2.2.2.2.2.2.2

end SimpleChat.BlockQueue
