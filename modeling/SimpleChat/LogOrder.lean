import SimpleChat.LogDelivery

/-! The order of the file when one thread logs. A record goes through the queue,
or straight to the file when `full()` said so; the second way overtakes whatever
the flush thread has not written yet. -/
namespace SimpleChat.Log
open Basis (System)
open Function (update)

def fileCalls (s : State Unit) : List Nat := s.written.map (fun line => line.2.call)
def heldCalls (s : State Unit) : List Nat := s.flushing.toList.map Record.call
def queueCalls (s : State Unit) : List Nat := s.mLogQueue.toList.map Record.call
def openCalls (s : State Unit) : List Nat := (s.writers ()).call?.toList

def InOrder (s : State Unit) : Prop := fileCalls s = List.range (fileCalls s).length

/- A direct write happens only when the flush thread has nothing left to write. -/
def NothingPending (s : State Unit) : Event Unit → Prop
  | .write _ => s.mLogQueue.mSize = 0 ∧ s.flushing = none
  | _ => True

structure Ordered (s : State Unit) : Prop where
  valid : s.mLogQueue.Valid
  calls : fileCalls s ++ heldCalls s ++ queueCalls s ++ openCalls s = List.range s.calls
  room : ∀ record, s.writers () = .pushing record → s.mLogQueue.mSize < s.mLogQueue.mMaxSize

theorem rangePrefix {xs ys : List Nat} {n : Nat} (range : xs ++ ys = List.range n) : xs = List.range xs.length := by
  have short : xs.length ≤ n := by
    have := congrArg List.length range
    simp only [List.length_append,List.length_range] at this
    omega
  have taken := congrArg (List.take xs.length) range
  rwa [List.take_left,List.take_range,Nat.min_eq_left short] at taken

theorem rangeLast {xs : List Nat} {x n : Nat} (range : xs ++ [x] = List.range n) : x = xs.length := by
  have long : n = xs.length + 1 := by simpa using (congrArg List.length range).symm
  rw [long,List.range_succ] at range
  exact (List.cons.inj (List.append_inj_right' range rfl)).1

theorem Ordered.inOrder {s : State Unit} (ordered : Ordered s) : InOrder s :=
  rangePrefix (by simpa only [List.append_assoc] using ordered.calls)

theorem initialOrdered {capacity : Int} {s : State Unit} (start : Initial capacity s) : Ordered s := by
  have conserved := initialConserved start
  obtain ⟨_,small,made,_,_,outside,idle,nothing,none⟩ := start
  have shape := @BlockQueue.newShape Record ⟨⟨0,[]⟩⟩ capacity s.mLogQueue small made
  have empty : s.mLogQueue.toList = [] := List.eq_nil_of_length_eq_zero shape.length
  refine ⟨conserved.valid,?_,fun record pushing => ?_⟩
  · simp [fileCalls,heldCalls,queueCalls,openCalls,empty,idle,nothing,none,outside,WriterPc.call?]
  · rw [outside ()] at pushing
    contradiction

theorem Ordered.advance {s s' : State Unit} (ordered : Ordered s) {pc : WriterPc}
    (same : pc.call? = (s.writers ()).call?) (writers : s'.writers = update s.writers () pc)
    (queue : s'.mLogQueue = s.mLogQueue) (written : s'.written = s.written)
    (flushing : s'.flushing = s.flushing) (calls : s'.calls = s.calls)
    (room : ∀ record, pc = .pushing record → s.mLogQueue.mSize < s.mLogQueue.mMaxSize) : Ordered s' := by
  refine ⟨queue ▸ ordered.valid,?_,?_⟩
  · have before := ordered.calls
    simp only [fileCalls,heldCalls,queueCalls,openCalls] at before ⊢
    rw [written,flushing,queue,calls,writers,Function.update_self,same]
    exact before
  · rw [writers,queue,Function.update_self]
    exact room

theorem movesOrdered {s s' : State Unit} {e} (ordered : Ordered s) (alone : NothingPending s e)
    (moves : Moves s e s') : Ordered s' := by
  have before := ordered.calls
  cases moves with
  | call outside =>
    refine ⟨ordered.valid,?_,fun record pushing => ?_⟩
    · simp only [openCalls,outside,WriterPc.call?,Option.toList_none,List.append_nil] at before
      change fileCalls s ++ heldCalls s ++ queueCalls s ++ [s.calls] = List.range (s.calls + 1)
      rw [before,List.range_succ]
    · simp at pushing
  | @rotate w call entry called =>
    obtain ⟨queue,written,flushing,calls,_,_⟩ := rotateFrame s entry.tm
    exact ordered.advance (by rw [called]; rfl) rfl queue written flushing calls (fun _ pushing => by contradiction)
  | format rotated composed =>
    exact ordered.advance (by rw [rotated]; rfl) rfl rfl rfl rfl rfl (fun _ pushing => by contradiction)
  | queueing formatted async room =>
    exact ordered.advance (by rw [formatted]; rfl) rfl rfl rfl rfl rfl (fun _ _ => room)
  | writing formatted refused =>
    exact ordered.advance (by rw [formatted]; rfl) rfl rfl rfl rfl rfl (fun _ pushing => by contradiction)
  | @push w record queue accepted pushing pushed =>
    obtain ⟨q,done,valid,_,list⟩ := ordered.valid.pushed (ordered.room record pushing) record
    rw [done] at pushed
    cases pushed
    refine ⟨valid,?_,fun _ here => by simp at here⟩
    simp only [queueCalls,openCalls,pushing,WriterPc.call?,Option.toList_some] at before
    simp only [queueCalls,openCalls,list,List.map_append,List.map_cons,List.map_nil,Function.update_self,
      WriterPc.call?,Option.toList_none,List.append_nil,← List.append_assoc]
    exact before
  | write direct =>
    obtain ⟨drained,idle⟩ := alone
    have empty : s.mLogQueue.toList = [] := List.eq_nil_of_length_eq_zero (by
      rw [ordered.valid.size] at drained
      omega)
    refine ⟨ordered.valid,?_,fun _ here => by simp at here⟩
    simp only [heldCalls,queueCalls,openCalls,idle,empty,direct,WriterPc.call?,Option.toList_some,
      Option.toList_none,List.map_nil,List.append_nil] at before
    simp only [fileCalls,heldCalls,queueCalls,openCalls,fputs,idle,empty,List.map_append,List.map_cons,
      List.map_nil,Function.update_self,WriterPc.call?,Option.toList_none,List.append_nil]
    exact before
  | take idle some_ took =>
    obtain ⟨record,q,done,valid,max,list⟩ := ordered.valid.took some_
    rw [done] at took
    cases took
    refine ⟨valid,?_,fun other pushing => ?_⟩
    · simp only [heldCalls,queueCalls,idle,list,List.map_cons,Option.toList_none,List.map_nil,
        List.append_nil] at before
      simp only [heldCalls,queueCalls,Option.toList_some,List.map_cons,List.map_nil,List.append_assoc,
        List.singleton_append]
      rw [← before,List.append_assoc]
      rfl
    · have free := ordered.room other pushing
      rw [ordered.valid.size,list,List.length_cons] at free
      simp only [valid.size,max]
      omega
  | flush held =>
    refine ⟨ordered.valid,?_,ordered.room⟩
    simp only [heldCalls,held,Option.toList_some,List.map_cons,List.map_nil] at before
    simp only [fileCalls,heldCalls,fputs,List.map_append,List.map_cons,List.map_nil,Option.toList_none,
      List.append_nil]
    exact before

theorem overtakes {s s' : State Unit} {w : Unit} (ordered : Ordered s)
    (pending : ¬ (s.mLogQueue.mSize = 0 ∧ s.flushing = none)) (moves : Moves s (.write w) s') :
    ¬ InOrder s' := by
  cases moves with
  | write direct =>
    have before := ordered.calls
    simp only [openCalls,direct,WriterPc.call?,Option.toList_some] at before
    have last := rangeLast before
    intro inOrder
    simp only [InOrder,fileCalls,fputs,List.map_append,List.map_cons,List.map_nil] at inOrder
    have next := rangeLast inOrder
    simp only [fileCalls,heldCalls,queueCalls,List.length_append,List.length_map] at last next
    refine pending ⟨?_,?_⟩
    · rw [ordered.valid.size]
      omega
    · cases held : s.flushing with
      | none => rfl
      | some first => simp only [held,Option.toList_some,List.length_singleton] at last; omega

theorem alonePending {capacity : Int} {s : State Unit} (reached : (system Unit capacity).Reach NothingPending s) :
    Ordered s :=
  (system Unit capacity).invariant (fun _ => initialOrdered)
    (fun _ _ _ ordered alone taken => movesOrdered ordered alone (stepMoves taken)) reached

/- A run of one logging thread keeps the file in call order exactly when each
direct write finds the queue empty and the flush thread without a record. -/
theorem fileInOrderIff {capacity : Int} {s : State Unit} (start : Initial capacity s) (es : List (Event Unit)) :
    (system Unit capacity).Throughout (fun _ _ s' => InOrder s') s es ↔
    (system Unit capacity).Throughout (fun s e _ => NothingPending s e) s es := by
  refine (system Unit capacity).throughoutExact (fun s e s' reached taken => ?_) (.init start) es
  have ordered := alonePending reached
  constructor
  · intro inOrder
    cases e with
    | write w =>
      by_contra pending
      exact overtakes ordered pending (stepMoves taken) inOrder
    | _ => trivial
  · exact fun alone => (movesOrdered ordered alone (stepMoves taken)).inOrder

def fullRun : List (Event Unit) :=
  [.call () (sampleEntry "a"),.rotate (),.format (),.test (),.push (),
   .call () (sampleEntry "b"),.rotate (),.format (),.test (),.write ()]

theorem sampleInOrderIff :
    (system Unit 1).Throughout (fun _ _ s' => InOrder s') (sampleStart Unit) fullRun ↔
    (system Unit 1).Throughout (fun s e _ => NothingPending s e) (sampleStart Unit) fullRun :=
  fileInOrderIff (sampleInitial Unit) fullRun

theorem fullQueueOvertakes :
    ∃ s, (system Unit 1).Reachable s ∧ fileCalls s = [1] ∧ queueCalls s = [0] ∧ ¬ InOrder s := by
  have ends : ((system Unit 1).run (sampleStart Unit) fullRun).map (fun s => (fileCalls s,queueCalls s)) =
      some ([1],[0]) := by decide +kernel
  obtain ⟨s,ran,places⟩ := Option.map_eq_some_iff.mp ends
  obtain ⟨file,queue⟩ := Prod.mk.inj places
  refine ⟨s,(system Unit 1).runReachable (.init (sampleInitial Unit)) _ ran,file,queue,fun inOrder => ?_⟩
  rw [InOrder,file] at inOrder
  exact absurd inOrder (by decide)

end SimpleChat.Log
