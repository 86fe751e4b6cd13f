import SimpleChat.SafeQueue

/-! `ThreadPool`: clients calling `append` and `close`, workers running `work`.
The task queue and the semaphore are synchronised separately, so every size
check, push, `sem_post`, `sem_wait`, empty check and pop is a step of its own.
The running task function is opaque here; it is assumed to return. -/
namespace SimpleChat.ThreadPool
open Basis (System tally tallyEnter tallyLeave tallySame tallyMember)
open Function (update)

abbrev Task (T : Type) := Int × Option T

/- A client is outside, or inside `append` past its size check, or inside
`append` past its push, or inside `close` with some posts left. The number of a
push is the place of its task in the order of all pushes. -/
inductive ClientPc (T : Type) where
  | outside
  | checked (task : Task T)
  | pushed (number : Nat) (task : Task T)
  | closing (left : Nat)
  deriving DecidableEq, Repr

/- The lines of `work`: the loop test, `sem_wait`, the empty test, the pop, the
dispatch and the call of a registered function. -/
inductive WorkerPc (T : Type) where
  | unborn
  | loop
  | waiting
  | woken
  | ready
  | popped (task : Task T)
  | running (state : Nat) (reqstruct : T)
  | exited
  deriving DecidableEq, Repr

structure State (κ ι T : Type) where
  taskQueue : SafeQueue (Task T)
  sem : Nat
  isClose : Bool
  maxrequest : Nat
  funbox : Nat
  clients : κ → ClientPc T
  workers : ι → WorkerPc T
  pushes : List (Task T)
  pops : List (ι × Task T)
  accepted : List (Nat × Task T)

inductive Event (κ ι T : Type) where
  | start
  | check (c : κ) (task : Task T)
  | push (c : κ)
  | post (c : κ)
  | close (c : κ)
  | closePost (c : κ)
  | loop (w : ι)
  | wait (w : ι)
  | empty (w : ι)
  | pop (w : ι)
  | dispatch (w : ι)
  | finish (w : ι)
  deriving DecidableEq, Repr

def Event.ofClose {κ ι T : Type} : Event κ ι T → Bool
  | .close _ | .closePost _ => true
  | _ => false

variable {κ ι T : Type} [DecidableEq κ] [DecidableEq ι] [Fintype ι]

def append (s : State κ ι T) (c : κ) (task : Task T) : State κ ι T :=
  if s.taskQueue.size < s.maxrequest then {s with clients := update s.clients c (.checked task)} else s

def dispatch (funbox : Nat) : Task T → WorkerPc T
  | (_,none) => .loop
  | (state,some reqstruct) =>
      if 0 ≤ state ∧ state.toNat < funbox then .running state.toNat reqstruct else .loop

def WorkerPc.isUnborn : WorkerPc T → Bool
  | .unborn => true
  | _ => false

def step (s : State κ ι T) : Event κ ι T → Option (State κ ι T)
  | .start =>
      if ∀ w, (s.workers w).isUnborn then some {s with isClose := false, workers := fun _ => .loop} else none
  | .check c task => match s.clients c with
      | .outside => some (append s c task)
      | _ => none
  | .push c => match s.clients c with
      | .checked task =>
          some {s with taskQueue := s.taskQueue.push task, pushes := s.pushes ++ [task],
                       clients := update s.clients c (.pushed s.pushes.length task)}
      | _ => none
  | .post c => match s.clients c with
      | .pushed number task =>
          some {s with sem := s.sem + 1, accepted := s.accepted ++ [(number,task)],
                       clients := update s.clients c .outside}
      | _ => none
  | .close c => match s.clients c with
      | .outside => some {s with isClose := true, clients := update s.clients c (.closing (Fintype.card ι))}
      | _ => none
  | .closePost c => match s.clients c with
      | .closing 0 => some {s with clients := update s.clients c .outside}
      | .closing (left+1) => some {s with sem := s.sem + 1, clients := update s.clients c (.closing left)}
      | _ => none
  | .loop w => match s.workers w with
      | .loop => some {s with workers := update s.workers w (if s.isClose then .exited else .waiting)}
      | _ => none
  | .wait w => match s.workers w with
      | .waiting =>
          if 0 < s.sem then some {s with sem := s.sem - 1, workers := update s.workers w .woken} else none
      | _ => none
  | .empty w => match s.workers w with
      | .woken => some {s with workers := update s.workers w (if s.taskQueue.empty then .loop else .ready)}
      | _ => none
  | .pop w => match s.workers w with
      | .ready =>
          some {s with taskQueue := s.taskQueue.pop.2, pops := s.pops ++ [(w,s.taskQueue.pop.1)],
                       workers := update s.workers w (.popped s.taskQueue.pop.1)}
      | _ => none
  | .dispatch w => match s.workers w with
      | .popped task => some {s with workers := update s.workers w (dispatch s.funbox task)}
      | _ => none
  | .finish w => match s.workers w with
      | .running _ _ => some {s with workers := update s.workers w .loop}
      | _ => none

def Initial (s : State κ ι T) : Prop :=
  s.taskQueue = .new ∧ s.sem = 0 ∧ s.isClose = true ∧ 0 < s.maxrequest ∧
  (∀ c, s.clients c = .outside) ∧ (∀ w, s.workers w = .unborn) ∧
  s.pushes = [] ∧ s.pops = [] ∧ s.accepted = []

def system (κ ι T : Type) [DecidableEq κ] [DecidableEq ι] [Fintype ι] : System (State κ ι T) (Event κ ι T) :=
  ⟨Initial,step⟩

inductive Moves (s : State κ ι T) : Event κ ι T → State κ ι T → Prop where
  | start (unborn : ∀ w, (s.workers w).isUnborn) : Moves s .start {s with isClose := false, workers := fun _ => .loop}
  | checked {c : κ} {task : Task T} (outside : s.clients c = .outside) (room : s.taskQueue.size < s.maxrequest) :
      Moves s (.check c task) {s with clients := update s.clients c (.checked task)}
  | refused {c : κ} {task : Task T} (outside : s.clients c = .outside) (full : ¬ s.taskQueue.size < s.maxrequest) :
      Moves s (.check c task) s
  | push {c : κ} {task : Task T} (checked : s.clients c = .checked task) :
      Moves s (.push c)
        {s with taskQueue := s.taskQueue.push task, pushes := s.pushes ++ [task],
                clients := update s.clients c (.pushed s.pushes.length task)}
  | post {c : κ} {number : Nat} {task : Task T} (pushed : s.clients c = .pushed number task) :
      Moves s (.post c)
        {s with sem := s.sem + 1, accepted := s.accepted ++ [(number,task)], clients := update s.clients c .outside}
  | close {c : κ} (outside : s.clients c = .outside) :
      Moves s (.close c) {s with isClose := true, clients := update s.clients c (.closing (Fintype.card ι))}
  | closed {c : κ} (posted : s.clients c = .closing 0) :
      Moves s (.closePost c) {s with clients := update s.clients c .outside}
  | closePost {c : κ} {left : Nat} (closing : s.clients c = .closing (left + 1)) :
      Moves s (.closePost c) {s with sem := s.sem + 1, clients := update s.clients c (.closing left)}
  | exit {w : ι} (looping : s.workers w = .loop) (closed : s.isClose = true) :
      Moves s (.loop w) {s with workers := update s.workers w .exited}
  | loop {w : ι} (looping : s.workers w = .loop) (open_ : s.isClose = false) :
      Moves s (.loop w) {s with workers := update s.workers w .waiting}
  | wait {w : ι} (waiting : s.workers w = .waiting) (positive : 0 < s.sem) :
      Moves s (.wait w) {s with sem := s.sem - 1, workers := update s.workers w .woken}
  | nothing {w : ι} (woken : s.workers w = .woken) (none : s.taskQueue.empty = true) :
      Moves s (.empty w) {s with workers := update s.workers w .loop}
  | something {w : ι} (woken : s.workers w = .woken) (some_ : s.taskQueue.empty = false) :
      Moves s (.empty w) {s with workers := update s.workers w .ready}
  | pop {w : ι} (ready : s.workers w = .ready) :
      Moves s (.pop w)
        {s with taskQueue := s.taskQueue.pop.2, pops := s.pops ++ [(w,s.taskQueue.pop.1)],
                workers := update s.workers w (.popped s.taskQueue.pop.1)}
  | dispatch {w : ι} {task : Task T} (popped : s.workers w = .popped task) :
      Moves s (.dispatch w) {s with workers := update s.workers w (ThreadPool.dispatch s.funbox task)}
  | finish {w : ι} {state : Nat} {reqstruct : T} (running : s.workers w = .running state reqstruct) :
      Moves s (.finish w) {s with workers := update s.workers w .loop}

theorem stepMoves {s s' : State κ ι T} {e : Event κ ι T} (taken : step s e = some s') : Moves s e s' := by
  cases e with
  | start =>
    simp only [step,Option.ite_none_right_eq_some,Option.some.injEq] at taken
    obtain ⟨unborn,rfl⟩ := taken
    exact .start unborn
  | check c task =>
    simp only [step] at taken
    split at taken <;> try contradiction
    rename_i outside
    cases Option.some.inj taken
    unfold append
    split
    · rename_i room
      exact .checked outside room
    · rename_i full
      exact .refused outside full
  | push c =>
    simp only [step] at taken
    split at taken <;> try contradiction
    rename_i task checked
    cases Option.some.inj taken
    exact .push checked
  | post c =>
    simp only [step] at taken
    split at taken <;> try contradiction
    rename_i number task pushed
    cases Option.some.inj taken
    exact .post pushed
  | close c =>
    simp only [step] at taken
    split at taken <;> try contradiction
    rename_i outside
    cases Option.some.inj taken
    exact .close outside
  | closePost c =>
    simp only [step] at taken
    split at taken <;> try contradiction
    · rename_i posted
      cases Option.some.inj taken
      exact .closed posted
    · rename_i left closing
      cases Option.some.inj taken
      exact .closePost closing
  | loop w =>
    simp only [step] at taken
    split at taken <;> try contradiction
    rename_i looping
    cases Option.some.inj taken
    by_cases closed : s.isClose = true
    · rw [if_pos closed]
      exact .exit looping closed
    · rw [if_neg closed]
      exact .loop looping (by simpa using closed)
  | wait w =>
    simp only [step] at taken
    split at taken <;> try contradiction
    rename_i waiting
    simp only [Option.ite_none_right_eq_some,Option.some.injEq] at taken
    obtain ⟨positive,rfl⟩ := taken
    exact .wait waiting positive
  | empty w =>
    simp only [step] at taken
    split at taken <;> try contradiction
    rename_i woken
    cases Option.some.inj taken
    by_cases none : s.taskQueue.empty = true
    · rw [if_pos none]
      exact .nothing woken none
    · rw [if_neg none]
      exact .something woken (by simpa using none)
  | pop w =>
    simp only [step] at taken
    split at taken <;> try contradiction
    rename_i ready
    cases Option.some.inj taken
    exact .pop ready
  | dispatch w =>
    simp only [step] at taken
    split at taken <;> try contradiction
    rename_i task popped
    cases Option.some.inj taken
    exact .dispatch popped
  | finish w =>
    simp only [step] at taken
    split at taken <;> try contradiction
    rename_i state reqstruct running
    cases Option.some.inj taken
    exact .finish running

end SimpleChat.ThreadPool
