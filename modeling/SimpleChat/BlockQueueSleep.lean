import SimpleChat.BlockQueueRuns
import SimpleChat.Basis.Monitor

/-! `block_queue` with its condition variable: who sleeps in `m_cond`, and whom a
broadcast wakes. The threads sleep as a monitor guarded by a queue that is not
empty lets them, and the queue is the one of `BlockQueueRuns`. -/
namespace SimpleChat.BlockQueue.Sleep
open Basis (System Simulation)
open Basis.Monitor (Status)
open Function (update)

inductive Pc where
  | outside
  | asleep
  | woken
  | timedAsleep
  | timedWoken
  | timedOut
  deriving DecidableEq, Repr

inductive Event (ι T : Type) where
  | push (t : ι) (item : T) (accepted : Bool)
  | pop (t : ι) (item : Option T)
  | resume (t : ι) (item : Option T)
  | popFor (t : ι) (item : Option T)
  | timeResume (t : ι) (item : Option T)
  | stir (t : ι)
  | expire (t : ι)
  | fail (t : ι)
  | clear (t : ι)
  | back (t : ι) (item : Option T)
  | size (t : ι) (value : Int)
  | full (t : ι) (value : Bool)
  | empty (t : ι) (value : Bool)

structure State (ι T : Type) where
  queue : BlockQueue T
  pcs : ι → Pc

variable {ι T : Type} [DecidableEq ι] [DecidableEq T]

def Pc.wake : Pc → Pc
  | .asleep => .woken
  | .timedAsleep => .timedWoken
  | pc => pc

def attempt (s : State ι T) (t : ι) (onEmpty : Pc) (item : Option T) : Option (State ι T) := do
  let tried ← tryPop s.queue onEmpty .outside item
  some ⟨tried.1,update s.pcs t tried.2⟩

/- Each event is one critical section; `push` broadcasts in it, whether the item
was accepted or not. `stir` is the broadcast of nobody, a spurious wake-up. -/
def step (s : State ι T) : Event ι T → Option (State ι T)
  | .push t item accepted =>
      if s.pcs t = .outside then do
        let pushed ← s.queue.push item
        if accepted = pushed.2 then some ⟨pushed.1,fun u => (s.pcs u).wake⟩ else none
      else none
  | .pop t item => if s.pcs t = .outside then attempt s t .asleep item else none
  | .resume t item => if s.pcs t = .woken then attempt s t .asleep item else none
  | .popFor t item => if s.pcs t = .outside then attempt s t .timedAsleep item else none
  | .timeResume t item => if s.pcs t = .timedWoken then attempt s t .outside item else none
  | .stir t => if (s.pcs t).wake ≠ s.pcs t then some {s with pcs := update s.pcs t (s.pcs t).wake} else none
  | .expire t => if s.pcs t = .timedAsleep then some {s with pcs := update s.pcs t .timedOut} else none
  | .fail t => if s.pcs t = .asleep ∨ s.pcs t = .timedOut then some {s with pcs := update s.pcs t .outside} else none
  | .clear t => if s.pcs t = .outside then some {s with queue := s.queue.clear} else none
  | .back t item => if s.pcs t = .outside ∧ s.queue.back = some item then some s else none
  | .size t value => if s.pcs t = .outside ∧ value = s.queue.size then some s else none
  | .full t value => if s.pcs t = .outside ∧ value = s.queue.full then some s else none
  | .empty t value => if s.pcs t = .outside ∧ value = s.queue.empty then some s else none

def system (ι T : Type) [DecidableEq ι] [DecidableEq T] [Inhabited T] (maxSize : Int) :
    System (State ι T) (Event ι T) :=
  ⟨fun s => new maxSize = some s.queue ∧ ∀ t, s.pcs t = .outside,step⟩

def Pc.waiting : Pc → BlockQueue.Pc
  | .outside => .outside
  | .asleep | .woken => .waiting
  | .timedAsleep | .timedWoken | .timedOut => .timedWaiting

def waitingView (s : State ι T) : BlockQueue.State ι T := ⟨s.queue,fun t => (s.pcs t).waiting⟩

def Pc.status : Pc → Status
  | .outside => .awake
  | .asleep | .timedAsleep => .asleep
  | .woken | .timedWoken | .timedOut => .woken

def monitorView (s : State ι T) : Basis.Monitor.State ι (BlockQueue T) := ⟨s.queue,fun t => (s.pcs t).status⟩

theorem wakeWaiting (pc : Pc) : pc.wake.waiting = pc.waiting := by cases pc <;> rfl
theorem wakeStatus (pc : Pc) : pc.wake.status = pc.status.wake := by cases pc <;> rfl

omit [DecidableEq T] in
theorem waitingMoved (s : State ι T) (queue : BlockQueue T) (t : ι) (pc : Pc) :
    waitingView ⟨queue,update s.pcs t pc⟩ = ⟨queue,update (waitingView s).pcs t pc.waiting⟩ :=
  congrArg (BlockQueue.State.mk queue) (Function.comp_update Pc.waiting s.pcs t pc)

omit [DecidableEq T] in
theorem monitorMoved (s : State ι T) (queue : BlockQueue T) (t : ι) (pc : Pc) :
    monitorView ⟨queue,update s.pcs t pc⟩ = ⟨queue,update (monitorView s).status t pc.status⟩ :=
  congrArg (Basis.Monitor.State.mk queue) (Function.comp_update Pc.status s.pcs t pc)

theorem attemptEnds {s s' : State ι T} {t : ι} {onEmpty : Pc} {item : Option T} (tried : attempt s t onEmpty item = some s') :
    (s.queue.mSize ≤ 0 ∧ item = none ∧ s' = {s with pcs := update s.pcs t onEmpty}) ∨
    (0 < s.queue.mSize ∧ ∃ x queue, s.queue.take = some (x,queue) ∧ item = some x ∧ s' = ⟨queue,update s.pcs t .outside⟩) := by
  obtain ⟨⟨queue,pc⟩,ends,same⟩ := Option.bind_eq_some_iff.mp tried
  cases Option.some.inj same
  rcases tryPopEnds ends with ⟨empty,none_,rfl,rfl⟩ | ⟨some_,x,took,first,rfl⟩
  · exact .inl ⟨empty,none_,rfl⟩
  · exact .inr ⟨some_,x,queue,took,first,rfl⟩

theorem waitingAttempt {s s' : State ι T} {t : ι} {onEmpty : Pc} {item : Option T} (tried : attempt s t onEmpty item = some s') :
    BlockQueue.attempt (waitingView s) t onEmpty.waiting item = some (waitingView s') := by
  obtain ⟨⟨queue,pc⟩,ends,same⟩ := Option.bind_eq_some_iff.mp tried
  cases Option.some.inj same
  refine Option.bind_eq_some_iff.mpr ⟨(queue,pc.waiting),?_,?_⟩
  · exact tryPopMap Pc.waiting ends
  · rw [waitingMoved]

theorem stepWaits {s s' : State ι T} {e : Event ι T} (taken : step s e = some s') :
    waitingView s' = waitingView s ∨ ∃ f, BlockQueue.step (waitingView s) f = some (waitingView s') := by
  have pc {t : ι} {pc : Pc} (here : s.pcs t = pc) : (waitingView s).pcs t = pc.waiting := congrArg Pc.waiting here
  have stays {t : ι} {pc' : Pc} (same : pc'.waiting = (s.pcs t).waiting) :
      waitingView {s with pcs := update s.pcs t pc'} = waitingView s := by
    rw [waitingMoved,same]
    exact congrArg (BlockQueue.State.mk s.queue) (Function.update_eq_self t _)
  cases e with
  | push t item accepted =>
    simp only [step,Option.ite_none_right_eq_some] at taken
    obtain ⟨outside,taken⟩ := taken
    obtain ⟨pushed,done,taken⟩ := Option.bind_eq_some_iff.mp taken
    simp only [Option.ite_none_right_eq_some,Option.some.injEq] at taken
    obtain ⟨same,rfl⟩ := taken
    refine .inr ⟨.push t item accepted,(if_pos (pc outside)).trans (Option.bind_eq_some_iff.mpr ⟨pushed,done,?_⟩)⟩
    simp only [same,if_true,waitingView,wakeWaiting]
  | pop t item =>
    simp only [step,Option.ite_none_right_eq_some] at taken
    exact .inr ⟨.pop t item,(if_pos (pc taken.1)).trans (waitingAttempt taken.2)⟩
  | resume t item =>
    simp only [step,Option.ite_none_right_eq_some] at taken
    exact .inr ⟨.wake t true item,(if_pos (pc taken.1)).trans (waitingAttempt taken.2)⟩
  | popFor t item =>
    simp only [step,Option.ite_none_right_eq_some] at taken
    exact .inr ⟨.popFor t item,(if_pos (pc taken.1)).trans (waitingAttempt taken.2)⟩
  | timeResume t item =>
    simp only [step,Option.ite_none_right_eq_some] at taken
    exact .inr ⟨.timewake t true item,(if_pos (pc taken.1)).trans (waitingAttempt taken.2)⟩
  | stir t =>
    simp only [step,Option.ite_none_right_eq_some,Option.some.injEq] at taken
    obtain ⟨_,rfl⟩ := taken
    exact .inl (stays (wakeWaiting _))
  | expire t =>
    simp only [step,Option.ite_none_right_eq_some,Option.some.injEq] at taken
    obtain ⟨here,rfl⟩ := taken
    exact .inl (stays (by rw [here]; rfl))
  | fail t =>
    simp only [step,Option.ite_none_right_eq_some,Option.some.injEq] at taken
    obtain ⟨here | here,rfl⟩ := taken
    · exact .inr ⟨.wake t false none,(if_pos (pc here)).trans (by rw [waitingMoved]; rfl)⟩
    · exact .inr ⟨.timewake t false none,(if_pos (pc here)).trans (by rw [waitingMoved]; rfl)⟩
  | clear t =>
    simp only [step,Option.ite_none_right_eq_some,Option.some.injEq] at taken
    obtain ⟨outside,rfl⟩ := taken
    exact .inr ⟨.clear t,if_pos (pc outside)⟩
  | back t item =>
    simp only [step,Option.ite_none_right_eq_some,Option.some.injEq] at taken
    exact .inl (taken.2 ▸ rfl)
  | size t value | full t value | empty t value =>
    simp only [step,Option.ite_none_right_eq_some,Option.some.injEq] at taken
    exact .inl (taken.2 ▸ rfl)

def Filled (queue : BlockQueue T) : Prop := 0 < queue.mSize

instance : DecidablePred (Filled (T := T)) := fun queue => inferInstanceAs (Decidable (0 < queue.mSize))

theorem monitorAttempt {s s' : State ι T} {t : ι} {onEmpty : Pc} {item : Option T} (up : (s.pcs t).status ≠ .asleep)
    (kind : onEmpty.status = .asleep ∨ onEmpty = .outside) (tried : attempt s t onEmpty item = some s') :
    ∃ f, Basis.Monitor.step Filled (monitorView s) f = some (monitorView s') := by
  rcases attemptEnds tried with ⟨empty,_,rfl⟩ | ⟨some_,x,queue,took,_,rfl⟩
  · rw [monitorMoved]
    rcases kind with asleep | rfl
    · exact ⟨.sleep t,by rw [asleep]; exact if_pos ⟨up,Int.not_lt.mpr empty⟩⟩
    · exact ⟨.act t s.queue false,if_pos ⟨up,.inr id⟩⟩
  · rw [monitorMoved]
    exact ⟨.act t queue false,if_pos ⟨up,.inr (fun _ => some_)⟩⟩

theorem stepMonitor {s s' : State ι T} {e : Event ι T} (taken : step s e = some s') :
    monitorView s' = monitorView s ∨ ∃ f, Basis.Monitor.step Filled (monitorView s) f = some (monitorView s') := by
  have up {t : ι} {pc : Pc} (here : s.pcs t = pc) (awake : pc.status ≠ .asleep) : (s.pcs t).status ≠ .asleep := by rwa [here]
  cases e with
  | push t item accepted =>
    simp only [step,Option.ite_none_right_eq_some] at taken
    obtain ⟨outside,taken⟩ := taken
    obtain ⟨pushed,_,taken⟩ := Option.bind_eq_some_iff.mp taken
    simp only [Option.ite_none_right_eq_some,Option.some.injEq] at taken
    obtain ⟨_,rfl⟩ := taken
    refine .inr ⟨.act t pushed.1 true,(if_pos ⟨up outside (by decide),.inl rfl⟩).trans ?_⟩
    have own : Pc.outside.status = ((s.pcs t).status).wake := by rw [outside]; rfl
    simp only [if_true,monitorView,wakeStatus]
    rw [show Status.awake = ((s.pcs t).status).wake from own,Function.update_eq_self t (fun u => (s.pcs u).status.wake)]
  | pop t item | popFor t item =>
    simp only [step,Option.ite_none_right_eq_some] at taken
    exact .inr (monitorAttempt (up taken.1 (by decide)) (.inl rfl) taken.2)
  | resume t item =>
    simp only [step,Option.ite_none_right_eq_some] at taken
    exact .inr (monitorAttempt (up taken.1 (by decide)) (.inl rfl) taken.2)
  | timeResume t item =>
    simp only [step,Option.ite_none_right_eq_some] at taken
    exact .inr (monitorAttempt (up taken.1 (by decide)) (.inr rfl) taken.2)
  | stir t =>
    simp only [step,Option.ite_none_right_eq_some,Option.some.injEq] at taken
    obtain ⟨moved,rfl⟩ := taken
    refine .inr ⟨.stir t,?_⟩
    rw [monitorMoved]
    cases here : s.pcs t <;> rw [here] at moved <;> first | exact absurd rfl moved | exact if_pos (congrArg Pc.status here)
  | expire t =>
    simp only [step,Option.ite_none_right_eq_some,Option.some.injEq] at taken
    obtain ⟨here,rfl⟩ := taken
    refine .inr ⟨.stir t,?_⟩
    rw [monitorMoved]
    exact if_pos (congrArg Pc.status here)
  | fail t =>
    simp only [step,Option.ite_none_right_eq_some,Option.some.injEq] at taken
    obtain ⟨here | here,rfl⟩ := taken
    · refine .inr ⟨.quit t,?_⟩
      rw [monitorMoved]
      exact if_pos (congrArg Pc.status here)
    · refine .inr ⟨.act t s.queue false,?_⟩
      rw [monitorMoved]
      exact if_pos ⟨up here (by decide),.inr id⟩
  | clear t =>
    simp only [step,Option.ite_none_right_eq_some,Option.some.injEq] at taken
    obtain ⟨outside,rfl⟩ := taken
    refine .inr ⟨.act t s.queue.clear false,(if_pos ⟨up outside (by decide),.inr (fun some_ => by cases some_)⟩).trans ?_⟩
    have own : Status.awake = (s.pcs t).status := by rw [outside]; rfl
    simp only [Bool.false_eq_true,if_false,monitorView]
    rw [own,Function.update_eq_self t (fun u => (s.pcs u).status)]
  | back t item =>
    simp only [step,Option.ite_none_right_eq_some,Option.some.injEq] at taken
    exact .inl (taken.2 ▸ rfl)
  | size t value | full t value | empty t value =>
    simp only [step,Option.ite_none_right_eq_some,Option.some.injEq] at taken
    exact .inl (taken.2 ▸ rfl)

section Reached
variable [Inhabited T] {maxSize : Int} {s : State ι T}

theorem waitingSimulation (maxSize : Int) :
    Simulation (system ι T maxSize) (fun _ _ => True) (BlockQueue.system ι T maxSize) waitingView (fun _ => True) where
  init _ start := ⟨⟨start.1,fun t => congrArg Pc.waiting (start.2 t)⟩,trivial⟩
  step _ _ _ _ _ _ taken := ⟨trivial,stepWaits taken⟩

theorem monitorSimulation (maxSize : Int) :
    Simulation (system ι T maxSize) (fun _ _ => True) (Basis.Monitor.system ι Filled (fun queue => new maxSize = some queue))
      monitorView (fun _ => True) where
  init _ start := ⟨⟨start.1,fun t => congrArg Pc.status (start.2 t)⟩,trivial⟩
  step _ _ _ _ _ _ taken := ⟨trivial,stepMonitor taken⟩

/- No thread sleeps beside an item: a consumer that has not given up takes the
oldest one as soon as it has the mutex, and the others keep their order. -/
theorem wakesForItems (small : maxSize ≤ intMax) (reached : (system ι T maxSize).Reachable s) {x : T} {rest : List T}
    (items : s.queue.toList = x :: rest) (t : ι) :
    s.pcs t ≠ .asleep ∧ s.pcs t ≠ .timedAsleep ∧
    (s.pcs t = .woken → ∃ s', step s (.resume t (some x)) = some s' ∧ s'.queue.toList = rest ∧ s'.pcs t = .outside) ∧
    (s.pcs t = .timedWoken → ∃ s', step s (.timeResume t (some x)) = some s' ∧ s'.queue.toList = rest ∧ s'.pcs t = .outside) := by
  have valid := reachValid small ((waitingSimulation maxSize).reach reached).1
  have attentive := Basis.Monitor.reachAttentive ((monitorSimulation maxSize).reach reached).1
  have size : s.queue.mSize = (x :: rest).length := items ▸ valid.1.size
  have some_ : 0 < s.queue.mSize := by rw [size,List.length_cons]; omega
  have up (asleep : (s.pcs t).status = .asleep) : False := attentive t asleep some_
  obtain ⟨y,queue,took,_,_,list⟩ := valid.1.took some_
  have took : s.queue.take = some (y,queue) := took
  have list : s.queue.toList = y :: queue.toList := list
  rw [items] at list
  obtain ⟨rfl,rfl⟩ := List.cons.inj list
  have served (onEmpty : Pc) : attempt s t onEmpty (some x) = some ⟨queue,update s.pcs t .outside⟩ := by
    rw [attempt,tryPop,if_neg (Int.not_le.mpr some_),took]
    simp
  refine ⟨fun asleep => up (by rw [asleep]; rfl),fun asleep => up (by rw [asleep]; rfl),fun woken => ?_,fun woken => ?_⟩
  · exact ⟨_,(if_pos woken).trans (served _),rfl,Function.update_self ..⟩
  · exact ⟨_,(if_pos woken).trans (served _),rfl,Function.update_self ..⟩

end Reached

theorem wakesForItemsHere : ∃ s : State Bool Nat,
    (system Bool Nat 2).run ⟨⟨fun _ => 0,0,2,-1,-1⟩,fun _ => .outside⟩ [.pop false none,.push true 7 true] = some s ∧
    s.pcs false = .woken ∧ ∃ s', step s (.resume false (some 7)) = some s' ∧ s'.queue.toList = [] := by
  refine ⟨_,rfl,rfl,?_⟩
  have reached := (system Bool Nat 2).runReachable (s := ⟨⟨fun _ => 0,0,2,-1,-1⟩,fun _ => .outside⟩)
    (.init ⟨rfl,fun _ => rfl⟩) [.pop false none,.push true 7 true] rfl
  have items : (⟨update (fun _ => 0) 0 7,1,2,-1,0⟩ : BlockQueue Nat).toList = [7] := by decide
  obtain ⟨_,_,resumes,_⟩ := wakesForItems (by decide) reached items false
  obtain ⟨s',taken,list,_⟩ := resumes rfl
  exact ⟨s',taken,list⟩

end SimpleChat.BlockQueue.Sleep
