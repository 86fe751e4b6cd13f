import SimpleChat.ThreadPool

/-! `append` against `maxrequest`. The size test and the push lock the queue one
after the other, so each client past its test may still push: the queue is
bounded by `maxrequest` and the number of clients together. -/
namespace SimpleChat.ThreadPool
open Basis (System tally tallyEnter tallyLeave tallySame tallyMember)
open Function (update)

variable {κ ι T : Type}

def Bounded (s : State κ ι T) : Prop := s.taskQueue.size ≤ s.maxrequest

def Respects (s : State κ ι T) (e : Event κ ι T) (s' : State κ ι T) : Prop :=
  Bounded s' ∧ ∀ c task, e = .check c task → s'.clients c = .outside → s.maxrequest ≤ s.taskQueue.size

def PushFindsRoom (s : State κ ι T) : Event κ ι T → Prop
  | .push c => ∀ task, s.clients c = .checked task → s.taskQueue.size < s.maxrequest
  | _ => True

theorem popSize (q : SafeQueue (Task T)) : q.pop.2.size ≤ q.size := by
  unfold SafeQueue.pop SafeQueue.size
  split <;> simp_all

theorem pushSize (q : SafeQueue (Task T)) (task : Task T) : (q.push task).size = q.size + 1 := by
  simp [SafeQueue.push,SafeQueue.size]

variable [DecidableEq κ] [DecidableEq ι] [Fintype ι]

theorem movesRequests {s s' : State κ ι T} {e : Event κ ι T} (moves : Moves s e s') : s'.maxrequest = s.maxrequest := by
  cases moves <;> rfl

theorem movesSize {s s' : State κ ι T} {e : Event κ ι T} (moves : Moves s e s') :
    s'.taskQueue.size ≤ s.taskQueue.size ∨
    ∃ c task, e = .push c ∧ s.clients c = .checked task ∧ s'.taskQueue.size = s.taskQueue.size + 1 := by
  cases moves with
  | push checked => exact .inr ⟨_,_,rfl,checked,pushSize _ _⟩
  | pop ready => exact .inl (popSize s.taskQueue)
  | _ => exact .inl (Nat.le_refl _)

theorem movesRefused {s s' : State κ ι T} {c : κ} {task : Task T} (moves : Moves s (.check c task) s')
    (refused : s'.clients c = .outside) : s.maxrequest ≤ s.taskQueue.size := by
  cases moves with
  | checked outside room => simp at refused
  | refused outside full => exact Nat.le_of_not_lt full

omit [DecidableEq κ] [DecidableEq ι] [Fintype ι] in
theorem initialBounded {s : State κ ι T} (start : Initial s) : Bounded s := by
  obtain ⟨queue,_,_,positive,_⟩ := start
  simp [Bounded,SafeQueue.size,queue,SafeQueue.new]

theorem movesBounded {s s' : State κ ι T} {e : Event κ ι T} (bounded : Bounded s) (room : PushFindsRoom s e)
    (moves : Moves s e s') : Bounded s' := by
  unfold Bounded at bounded ⊢
  rw [movesRequests moves]
  rcases movesSize moves with same | ⟨c,task,rfl,checked,longer⟩
  · exact Nat.le_trans same bounded
  · have free := room task checked
    omega

theorem boundedRoom {s s' : State κ ι T} {e : Event κ ι T} (bounded : Bounded s') (moves : Moves s e s') :
    PushFindsRoom s e := by
  cases e with
  | push c =>
    intro task checked
    cases moves with
    | @push _ task' _ =>
      have longer := pushSize s.taskQueue task'
      unfold Bounded at bounded
      simp only at bounded
      omega
  | _ => trivial

theorem roomBounded {s : State κ ι T} (reached : (system κ ι T).Reach PushFindsRoom s) : Bounded s :=
  (system κ ι T).invariant (fun _ => initialBounded)
    (fun _ _ _ bounded room taken => movesBounded bounded room (stepMoves taken)) reached

/- A run respects `maxrequest` exactly when each of its pushes still finds the
room that the test before it saw. -/
theorem appendRespectsIff {s : State κ ι T} (start : Initial s) (es : List (Event κ ι T)) :
    (system κ ι T).Throughout Respects s es ↔
    (system κ ι T).Throughout (fun s e _ => PushFindsRoom s e) s es := by
  refine (system κ ι T).throughoutExact (fun s e s' reached taken => ?_) (.init start) es
  have moves := stepMoves taken
  constructor
  · exact fun respects => boundedRoom respects.1 moves
  · intro room
    refine ⟨movesBounded (roomBounded reached) room moves,?_⟩
    rintro c task rfl refused
    exact movesRefused moves refused

section Overshoot
variable [Fintype κ]

def isChecked : ClientPc T → Nat
  | .checked _ => 1
  | _ => 0

theorem isCheckedLe (pc : ClientPc T) : isChecked pc ≤ 1 := by
  cases pc <;> simp [isChecked]

omit [DecidableEq κ] [DecidableEq ι] [Fintype ι] in
theorem checkedLe (s : State κ ι T) : tally isChecked s.clients ≤ Fintype.card κ := by
  simpa [tally] using Finset.sum_le_card_nsmul Finset.univ (fun c => isChecked (s.clients c)) 1 (fun c _ => isCheckedLe _)

def Overshoot (s : State κ ι T) : Prop :=
  s.taskQueue.size + tally isChecked s.clients < s.maxrequest + Fintype.card κ

theorem movesOvershoot {s s' : State κ ι T} {e : Event κ ι T} (within : Overshoot s) (moves : Moves s e s') :
    Overshoot s' := by
  unfold Overshoot at within ⊢
  cases moves with
  | @checked c task outside room =>
    have most := checkedLe {s with clients := update s.clients c (.checked task)}
    simp only at most ⊢
    omega
  | @push c task checked =>
    have left : tally isChecked (update s.clients c (.pushed s.pushes.length task)) + 1 = tally isChecked s.clients :=
      tallyLeave (by rw [checked]; rfl) rfl
    have longer := pushSize s.taskQueue task
    simp only
    omega
  | post pushed =>
    rw [tallySame (by rw [pushed]; rfl)]
    exact within
  | close outside =>
    rw [tallySame (by rw [outside]; rfl)]
    exact within
  | closed posted =>
    rw [tallySame (by rw [posted]; rfl)]
    exact within
  | closePost closing =>
    rw [tallySame (by rw [closing]; rfl)]
    exact within
  | pop ready =>
    have shorter := popSize s.taskQueue
    simp only
    omega
  | _ => exact within

omit [DecidableEq κ] [DecidableEq ι] [Fintype ι] in
theorem initialOvershoot {s : State κ ι T} (start : Initial s) : Overshoot s := by
  obtain ⟨queue,_,_,positive,outside,_⟩ := start
  have nobody : tally isChecked s.clients = 0 := (Basis.tallyZero _ _).mpr (fun c => by rw [outside c]; rfl)
  simp only [Overshoot,queue,nobody,SafeQueue.new,SafeQueue.size,List.length_nil]
  omega

/- In every run the queue holds less than `maxrequest` and the clients together. -/
theorem queueOvershoot {s : State κ ι T} (reached : (system κ ι T).Reachable s) :
    s.taskQueue.size < s.maxrequest + Fintype.card κ := by
  have within : Overshoot s :=
    (system κ ι T).invariant (fun _ => initialOvershoot)
      (fun _ _ _ within _ taken => movesOvershoot within (stepMoves taken)) reached
  unfold Overshoot at within
  omega

theorem soleAppenderBounded [Subsingleton κ] {s : State κ ι T} (reached : (system κ ι T).Reachable s) : Bounded s := by
  have within := queueOvershoot reached
  have one : Fintype.card κ ≤ 1 := Fintype.card_le_one_iff_subsingleton.mpr ‹_›
  unfold Bounded
  omega

end Overshoot

def boundStart : State Bool Unit Nat :=
  ⟨.new,0,true,1,2,fun _ => .outside,fun _ => .unborn,[],[],[]⟩

theorem boundInitial : Initial boundStart := ⟨rfl,rfl,rfl,by decide,fun _ => rfl,fun _ => rfl,rfl,rfl,rfl⟩

def staleSize : List (Event Bool Unit Nat) :=
  [.start,.check false (0,some 5),.check true (1,some 6),.push false,.push true]

theorem sampleRespectsIff :
    (system Bool Unit Nat).Throughout Respects boundStart staleSize ↔
    (system Bool Unit Nat).Throughout (fun s e _ => PushFindsRoom s e) boundStart staleSize :=
  appendRespectsIff boundInitial staleSize

theorem staleSizeOverfills :
    ∃ s, (system Bool Unit Nat).Reachable s ∧ s.maxrequest = 1 ∧ s.taskQueue.size = 2 ∧ ¬ Bounded s := by
  have ends : ((system Bool Unit Nat).run boundStart staleSize).map (fun s => (s.maxrequest,s.taskQueue.size)) =
      some (1,2) := by decide +kernel
  obtain ⟨s,ran,shape⟩ := Option.map_eq_some_iff.mp ends
  obtain ⟨most,size⟩ := Prod.mk.inj shape
  refine ⟨s,(system Bool Unit Nat).runReachable (.init boundInitial) _ ran,most,size,?_⟩
  unfold Bounded
  omega

end SimpleChat.ThreadPool
