import Mathlib.Data.Set.Card
import SimpleChat.ThreadPool

/-! Shutting `ThreadPool` down: any number of `close` calls, the destructor's
among them, against workers and appenders that are anywhere in their loops.
`start` has come back once and is not called again. -/
namespace SimpleChat.ThreadPool
open Basis (System tally tallyUpdate)
open Function (update)

variable {κ ι T : Type}

def Event.worker : Event κ ι T → Option ι
  | .loop w | .wait w | .empty w | .pop w | .dispatch w | .finish w => some w
  | _ => none

def Event.dispatches [DecidableEq ι] (w : ι) : Event κ ι T → Bool
  | .dispatch v => v = w
  | _ => false

def waits : WorkerPc T → Nat
  | .waiting => 1
  | _ => 0

def stepsLeft : WorkerPc T → Nat
  | .waiting => 6
  | .woken => 5
  | .ready => 4
  | .popped _ => 3
  | .running _ _ => 2
  | .loop => 1
  | .unborn | .exited => 0

def dispatchesLeft : WorkerPc T → Nat
  | .waiting | .woken | .ready | .popped _ => 1
  | _ => 0

structure Started (s : State κ ι T) : Prop where
  opened : s.isClose = false
  workers : ∀ w, s.workers w = .loop
  clients : ∀ c left, s.clients c ≠ .closing left

variable [DecidableEq κ] [DecidableEq ι] [Fintype ι]

def afterStart (s : State κ ι T) : Event κ ι T → Option (State κ ι T)
  | .start => none
  | e => step s e

def startedSystem (κ ι T : Type) [DecidableEq κ] [DecidableEq ι] [Fintype ι] : System (State κ ι T) (Event κ ι T) :=
  ⟨Started,afterStart⟩

def MayWait (s : State κ ι T) (w : ι) : Prop :=
  ∃ es s', (startedSystem κ ι T).run s es = some s' ∧ s'.workers w = .waiting

/- What the destructor needs to join every thread: tokens for all that may still
wait, and a step for each worker that has not left its loop, of which it makes
six at most. -/
structure Joinable (s : State κ ι T) : Prop where
  tokens : {w | MayWait s w}.ncard ≤ s.sem
  moves : ∀ w, s.workers w ≠ .exited → ∃ e : Event κ ι T, e.worker = some w ∧ (afterStart s e).isSome
  few : ∀ w es s', (startedSystem κ ι T).run s es = some s' → es.countP (fun e => e.worker = some w) ≤ 6

theorem startStarted {s s' : State κ ι T} (clients : ∀ c left, s.clients c ≠ .closing left)
    (taken : step s .start = some s') : Started s' := by
  cases stepMoves taken with
  | start unborn => exact ⟨rfl,fun _ => rfl,clients⟩

theorem afterMoves {s s' : State κ ι T} {e : Event κ ι T} (taken : afterStart s e = some s') :
    e ≠ .start ∧ Moves s e s' := by
  cases e with
  | start => contradiction
  | _ => exact ⟨by simp,stepMoves taken⟩

structure Drains (s s' : State κ ι T) (e : Event κ ι T) (w : ι) (pc : WorkerPc T) : Prop where
  mine : e.worker = some w
  moved : s'.workers = update s.workers w pc
  leaves : waits pc = 0
  token : s'.sem + waits (s.workers w) = s.sem
  fewer : stepsLeft pc < stepsLeft (s.workers w)
  dispatch : (if e.dispatches w then 1 else 0) + dispatchesLeft pc ≤ dispatchesLeft (s.workers w)

omit [DecidableEq κ] [Fintype ι] in
theorem Drains.from {s s' : State κ ι T} {e : Event κ ι T} {w : ι} {old pc : WorkerPc T} (before : s.workers w = old)
    (mine : e.worker = some w) (moved : s'.workers = update s.workers w pc) (leaves : waits pc = 0)
    (token : s'.sem + waits old = s.sem) (fewer : stepsLeft pc < stepsLeft old)
    (dispatch : (if e.dispatches w then 1 else 0) + dispatchesLeft pc ≤ dispatchesLeft old) : Drains s s' e w pc :=
  ⟨mine,moved,leaves,before ▸ token,before ▸ fewer,before ▸ dispatch⟩

theorem closedMoves {s s' : State κ ι T} {e : Event κ ι T} (closed : s.isClose = true) (other : e ≠ .start)
    (moves : Moves s e s') :
    s'.isClose = true ∧
    (e.worker = none ∧ s'.workers = s.workers ∧ s.sem ≤ s'.sem ∨ ∃ w pc, Drains s s' e w pc) := by
  cases moves with
  | start => exact absurd rfl other
  | checked | refused | push | closed => exact ⟨closed,.inl ⟨rfl,rfl,Nat.le_refl _⟩⟩
  | post | closePost => exact ⟨closed,.inl ⟨rfl,rfl,Nat.le_succ _⟩⟩
  | close => exact ⟨rfl,.inl ⟨rfl,rfl,Nat.le_refl _⟩⟩
  | exit looping =>
    exact ⟨closed,.inr ⟨_,_,.from looping rfl rfl rfl rfl (by simp [stepsLeft]) (Nat.le_refl 0)⟩⟩
  | loop looping open_ => rw [closed] at open_; contradiction
  | wait waiting positive =>
    exact ⟨closed,.inr ⟨_,_,.from waiting rfl rfl rfl (Nat.sub_add_cancel positive) (by simp [stepsLeft]) (Nat.le_refl 1)⟩⟩
  | nothing woken none =>
    exact ⟨closed,.inr ⟨_,_,.from woken rfl rfl rfl rfl (by simp [stepsLeft]) (Nat.zero_le 1)⟩⟩
  | something woken some_ =>
    exact ⟨closed,.inr ⟨_,_,.from woken rfl rfl rfl rfl (by simp [stepsLeft]) (Nat.le_refl 1)⟩⟩
  | pop ready =>
    exact ⟨closed,.inr ⟨_,_,.from ready rfl rfl rfl rfl (by simp [stepsLeft]) (Nat.le_refl 1)⟩⟩
  | @dispatch w task popped =>
    have next : waits (dispatch s.funbox task) = 0 ∧ stepsLeft (dispatch s.funbox task) < 3 ∧
        dispatchesLeft (dispatch s.funbox task) = 0 := by
      unfold dispatch
      split
      · exact ⟨rfl,by simp [stepsLeft],rfl⟩
      · split <;> exact ⟨rfl,by simp [stepsLeft],rfl⟩
    refine ⟨closed,.inr ⟨_,_,.from popped rfl rfl next.1 rfl next.2.1 ?_⟩⟩
    rw [next.2.2]
    simp [Event.dispatches,dispatchesLeft]
  | finish running =>
    exact ⟨closed,.inr ⟨_,_,.from running rfl rfl rfl rfl (by simp [stepsLeft]) (Nat.le_refl 0)⟩⟩

section Closed
variable {s s' : State κ ι T} {e : Event κ ι T} (closed : s.isClose = true) (taken : afterStart s e = some s')
include closed taken

theorem stepClosed : s'.isClose = true :=
  (closedMoves closed (afterMoves taken).1 (afterMoves taken).2).1

theorem closedBalance : tally waits s'.workers + s.sem ≤ tally waits s.workers + s'.sem := by
  obtain ⟨other,moves⟩ := afterMoves taken
  obtain ⟨_,⟨_,same,more⟩ | ⟨w,pc,drains⟩⟩ := closedMoves closed other moves
  · rw [same]
    omega
  · have moved := tallyUpdate waits s.workers w pc
    have leaves := drains.leaves
    have token := drains.token
    rw [drains.moved]
    omega

theorem closedWorker (w : ι) :
    (if e.worker = some w then 1 else 0) + stepsLeft (s'.workers w) ≤ stepsLeft (s.workers w) ∧
    (if e.dispatches w then 1 else 0) + dispatchesLeft (s'.workers w) ≤ dispatchesLeft (s.workers w) ∧
    (s'.workers w = .waiting → s.workers w = .waiting) := by
  obtain ⟨other,moves⟩ := afterMoves taken
  obtain ⟨_,⟨none_,same,_⟩ | ⟨v,pc,drains⟩⟩ := closedMoves closed other moves
  · have quiet : e.dispatches w = false := by
      cases e <;> first | rfl | cases none_
    rw [none_,same,quiet]
    simp
  · by_cases mine : w = v
    · subst mine
      rw [drains.moved,Function.update_self,drains.mine,if_pos rfl]
      refine ⟨?_,drains.dispatch,fun waiting => ?_⟩
      · have := drains.fewer
        omega
      · have leaves := drains.leaves
        rw [waiting] at leaves
        cases leaves
    · have quiet : e.dispatches w = false := by
        have own := drains.mine
        cases e <;> try rfl
        simp only [Event.worker,Option.some.injEq] at own
        subst own
        simpa [Event.dispatches] using Ne.symm mine
      have others : some v ≠ some w := fun same => mine (Option.some.inj same).symm
      rw [drains.moved,Function.update_of_ne mine,drains.mine,if_neg others,quiet]
      simp

end Closed

def Owes (s : State κ ι T) (left : Nat) : Prop := tally waits s.workers ≤ s.sem + left

structure Guarded (s : State κ ι T) : Prop where
  closers : ∀ c left, s.clients c = .closing left → s.isClose = true ∧ Owes s left
  born : ∀ w, s.workers w ≠ .unborn

omit [DecidableEq κ] [DecidableEq ι] in
theorem startedGuarded {s : State κ ι T} (started : Started s) : Guarded s :=
  ⟨fun c left closing => absurd closing (started.clients c left),fun w unborn => by
    rw [started.workers w] at unborn
    cases unborn⟩

theorem closingFrom {s s' : State κ ι T} {e : Event κ ι T} (moves : Moves s e s') {c : κ} {left : Nat}
    (closing : s'.clients c = .closing left) :
    s.clients c = .closing left ∨
    (s'.isClose = true ∧ left = Fintype.card ι) ∨
    (s.clients c = .closing (left + 1) ∧ s'.sem = s.sem + 1 ∧ s'.workers = s.workers ∧ s'.isClose = s.isClose) := by
  cases moves with
  | checked | push | post | closed =>
    rcases Basis.movedCases closing with ⟨_,own⟩ | ⟨_,before⟩
    · cases own
    · exact .inl before
  | close outside =>
    rcases Basis.movedCases closing with ⟨_,own⟩ | ⟨_,before⟩
    · cases own
      exact .inr (.inl ⟨rfl,rfl⟩)
    · exact .inl before
  | closePost posting =>
    rcases Basis.movedCases closing with ⟨rfl,own⟩ | ⟨_,before⟩
    · cases own
      exact .inr (.inr ⟨posting,rfl,rfl,rfl⟩)
    · exact .inl before
  | _ => exact .inl closing

theorem movesBorn {s s' : State κ ι T} {e : Event κ ι T} (other : e ≠ .start) (moves : Moves s e s')
    (born : ∀ w, s.workers w ≠ .unborn) : ∀ w, s'.workers w ≠ .unborn := by
  have moved {w : ι} {pc : WorkerPc T} (calm : pc ≠ .unborn) : ∀ v, update s.workers w pc v ≠ .unborn := by
    intro v unborn
    rcases Basis.movedCases unborn with ⟨_,own⟩ | ⟨_,before⟩
    · exact calm own
    · exact born v before
  cases moves with
  | start => exact absurd rfl other
  | checked | refused | push | post | close | closed | closePost => exact born
  | exit | loop | wait | nothing | something | pop | finish => exact moved (by simp)
  | dispatch =>
    refine moved ?_
    unfold dispatch
    split
    · simp
    · split <;> simp

theorem stepGuarded {s s' : State κ ι T} {e : Event κ ι T} (guarded : Guarded s)
    (taken : afterStart s e = some s') : Guarded s' := by
  obtain ⟨other,moves⟩ := afterMoves taken
  refine ⟨fun c left closing => ?_,movesBorn other moves guarded.born⟩
  rcases closingFrom moves closing with still | ⟨closed,all⟩ | ⟨posting,token,same,flag⟩
  · obtain ⟨closed,owes⟩ := guarded.closers c left still
    refine ⟨stepClosed closed taken,?_⟩
    have balance := closedBalance closed taken
    unfold Owes at owes ⊢
    omega
  · refine ⟨closed,?_⟩
    have most : tally waits s'.workers ≤ Fintype.card ι := by
      rw [Basis.tallyCard waits s'.workers (fun pc => by cases pc <;> simp [waits])]
      exact Finset.card_le_univ _
    unfold Owes
    omega
  · obtain ⟨closed,owes⟩ := guarded.closers c _ posting
    refine ⟨flag.trans closed,?_⟩
    unfold Owes at owes ⊢
    rw [same,token]
    omega

theorem reachGuarded {s : State κ ι T} (reached : (startedSystem κ ι T).Reachable s) : Guarded s :=
  (startedSystem κ ι T).invariant (fun _ => startedGuarded) (fun _ _ _ guarded _ taken => stepGuarded guarded taken) reached

section Runs
variable {s s' : State κ ι T} (closed : s.isClose = true)
include closed

theorem closedRun {es : List (Event κ ι T)} (ran : (startedSystem κ ι T).run s es = some s') :
    s'.isClose = true ∧ tally waits s'.workers + s.sem ≤ tally waits s.workers + s'.sem := by
  refine (startedSystem κ ι T).runKeeps
    (P := fun t => t.isClose = true ∧ tally waits t.workers + s.sem ≤ tally waits s.workers + t.sem) ?_
    ⟨closed,Nat.le_refl _⟩ es ran
  intro t e t' held taken
  have balance := closedBalance held.1 taken
  exact ⟨stepClosed held.1 taken,by omega⟩

theorem mayWait {w : ι} (may : MayWait s w) : s.workers w = .waiting := by
  obtain ⟨es,s',ran,waiting⟩ := may
  have back : s'.isClose = true ∧ (s'.workers w = .waiting → s.workers w = .waiting) := by
    refine (startedSystem κ ι T).runKeeps (P := fun t => t.isClose = true ∧ (t.workers w = .waiting → s.workers w = .waiting))
      ?_ ⟨closed,id⟩ es ran
    intro t e t' held taken
    exact ⟨stepClosed held.1 taken,fun here => held.2 ((closedWorker held.1 taken w).2.2 here)⟩
  exact back.2 waiting

theorem workerSteps (w : ι) {es : List (Event κ ι T)} (ran : (startedSystem κ ι T).run s es = some s') :
    es.countP (fun e => e.worker = some w) ≤ stepsLeft (s.workers w) ∧
    es.countP (Event.dispatches w) ≤ dispatchesLeft (s.workers w) := by
  have steps := (startedSystem κ ι T).runPotential (P := fun t => t.isClose = true) (fun e => e.worker = some w)
    (fun t => stepsLeft (t.workers w))
    (fun t e t' held taken => ⟨stepClosed held taken,by simpa using (closedWorker held taken w).1⟩) closed es ran
  have dispatches := (startedSystem κ ι T).runPotential (P := fun t => t.isClose = true) (Event.dispatches w)
    (fun t => dispatchesLeft (t.workers w))
    (fun t e t' held taken => ⟨stepClosed held taken,(closedWorker held taken w).2.1⟩) closed es ran
  exact ⟨by omega,by omega⟩

omit closed in
theorem waitingMoves (born : ∀ w, s.workers w ≠ .unborn) (enough : Owes s 0) :
    ∀ w, s.workers w ≠ .exited → ∃ e : Event κ ι T, e.worker = some w ∧ (afterStart s e).isSome := by
  intro w working
  cases here : s.workers w with
  | unborn => exact absurd here (born w)
  | exited => exact absurd here working
  | loop => exact ⟨.loop w,rfl,by simp [afterStart,step,here]⟩
  | waiting =>
    have one : 1 ≤ tally waits s.workers := by
      have member := Basis.tallyMember waits s.workers w
      rwa [here] at member
    have token : 0 < s.sem := Nat.lt_of_lt_of_le one enough
    exact ⟨.wait w,rfl,by simp [afterStart,step,here,token]⟩
  | woken => exact ⟨.empty w,rfl,by simp [afterStart,step,here]⟩
  | ready => exact ⟨.pop w,rfl,by simp [afterStart,step,here]⟩
  | popped task => exact ⟨.dispatch w,rfl,by simp [afterStart,step,here]⟩
  | running state reqstruct => exact ⟨.finish w,rfl,by simp [afterStart,step,here]⟩

end Runs

theorem closedJoinable {s : State κ ι T} (closed : s.isClose = true) (born : ∀ w, s.workers w ≠ .unborn)
    (enough : Owes s 0) : Joinable s := by
  refine ⟨?_,waitingMoves born enough,fun w es s' ran => ?_⟩
  · have waiting : {w | MayWait s w} ⊆ ↑(Finset.univ.filter (fun w => waits (s.workers w) = 1)) := by
      intro w may
      have here := mayWait closed may
      rw [Finset.mem_coe,Finset.mem_filter,here]
      exact ⟨Finset.mem_univ w,rfl⟩
    calc {w | MayWait s w}.ncard
        ≤ (Finset.univ.filter (fun w => waits (s.workers w) = 1)).card := by
          rw [← Set.ncard_coe_finset]
          exact Set.ncard_le_ncard waiting (Finset.finite_toSet _)
      _ = tally waits s.workers := (Basis.tallyCard waits s.workers (fun pc => by cases pc <;> simp [waits])).symm
      _ ≤ s.sem := enough
  · refine Nat.le_trans (workerSteps closed w ran).1 ?_
    cases s.workers w <;> simp [stepsLeft]

/- Once a `close` has come back the destructor can join every worker, whatever
the others do; and a worker dispatches one task at most after `isClose` became
true. -/
theorem closeReleases {s : State κ ι T} (reached : (startedSystem κ ι T).Reachable s) :
    (∀ c s₁, s.clients c = .closing 0 → afterStart s (.closePost c) = some s₁ →
      ∀ es s₂, (startedSystem κ ι T).run s₁ es = some s₂ → Joinable s₂) ∧
    (s.isClose = true → ∀ w es s', (startedSystem κ ι T).run s es = some s' → es.countP (Event.dispatches w) ≤ 1) := by
  constructor
  · intro c s₁ posted returns es s₂ ran
    obtain ⟨closed,enough⟩ := (reachGuarded reached).closers c 0 posted
    have moved : (startedSystem κ ι T).step s (.closePost c) = some s₁ := returns
    have reached₁ : (startedSystem κ ι T).Reachable s₁ := .step reached trivial moved
    have reached₂ := (startedSystem κ ι T).runReachable reached₁ es ran
    obtain ⟨closed₂,balance⟩ := closedRun (stepClosed closed returns) ran
    have balance₁ := closedBalance closed returns
    refine closedJoinable closed₂ (reachGuarded reached₂).born ?_
    unfold Owes at enough ⊢
    omega
  · intro closed w es s' ran
    refine Nat.le_trans (workerSteps closed w ran).2 ?_
    cases s.workers w <;> simp [dispatchesLeft]

def sampleStarted : State Unit Bool Nat :=
  ⟨⟨[(0,some 5)],none,false,-1⟩,1,false,10000,2,fun _ => .outside,fun _ => .loop,[(0,some 5)],[],[(0,0,some 5)]⟩

def closing : List (Event Unit Bool Nat) :=
  [.loop false,.loop true,.wait true,.empty true,.pop true,.dispatch true,.close (),.closePost (),.closePost ()]

theorem sampleReleases :
    ∃ s s₁, (startedSystem Unit Bool Nat).run sampleStarted closing = some s ∧ afterStart s (.closePost ()) = some s₁ ∧
      Joinable s₁ ∧ s₁.workers false = .waiting ∧ s₁.workers true = .running 0 5 := by
  have ends : ((startedSystem Unit Bool Nat).run sampleStarted closing).map
      (fun s => (s.clients (),s.workers false,s.workers true)) = some (.closing 0,.waiting,.running 0 5) := by decide +kernel
  obtain ⟨s,ran,final⟩ := Option.map_eq_some_iff.mp ends
  simp only [Prod.mk.injEq] at final
  have reached := (startedSystem Unit Bool Nat).runReachable
    (.init ⟨rfl,fun _ => rfl,fun _ _ other => by cases other⟩) closing ran
  have returns : afterStart s (.closePost ()) = some {s with clients := update s.clients () .outside} := by
    simp [afterStart,step,final.1]
  exact ⟨s,_,ran,returns,(closeReleases reached).1 () _ final.1 returns [] _ rfl,final.2⟩

end SimpleChat.ThreadPool
