import SimpleChat.Orphans

/-! Tasks of one connection. A worker occupies the connection from the start of
its call to the call's last access to the buffers. `read_once` arms the
connection inside `parseData` and resets the buffer behind it, so another task
can start, or the loop close the descriptor, in that window. -/
namespace SimpleChat.Server
open Basis (System tally tallyMember)
open Function (update)

variable {ω : Type}

def Occupies (s : State ω) (w : ω) (fd : Int) : Prop :=
  (∃ state, s.pool.workers w = .running state fd) ∧ (s.bodies w).occupies = true

structure Exclusive (s : State ω) : Prop where
  apart : ∀ v w fd, Occupies s v fd → Occupies s w fd → v = w
  open_ : ∀ w fd, Occupies s w fd → s.opened fd = true ∧ s.loop.adds fd = false

def Quiet (s : State ω) (fd : Int) : Prop :=
  ∀ w state, s.pool.workers w = .running state fd → (s.bodies w).inWindow = false

def HandleApart (s : State ω) : LoopPc → Prop
  | .batch (.client fd mask :: _) => mask.hangs = true → Quiet s fd
  | _ => True

def DispatchApart (s : State ω) : ThreadPool.WorkerPc Int → Prop
  | .popped (_,some fd) => Quiet s fd
  | _ => True

/- No task is dispatched on a connection, and no hang-up closes it, inside the
window of another call. -/
def Apart (s : State ω) : Event ω → Prop
  | .handle => HandleApart s s.loop
  | .pool (.dispatch w) => DispatchApart s (s.pool.workers w)
  | _ => True

def WorkBounded (cstate : ConnState) (s : State ω) (e : TaskEvent) : ThreadPool.WorkerPc Int → Prop
  | .running _ fd => InBounds cstate (s.users fd) e
  | _ => True

def Bounded (cstate : ConnState) (s : State ω) : Event ω → Prop
  | .task w e => WorkBounded cstate s e (s.pool.workers w)
  | _ => True

theorem quietBody {s : State ω} {w : ω} {fd : Int} (quiet : Quiet s fd) (occupies : Occupies s w fd) :
    (s.bodies w).owes = true := by
  obtain ⟨⟨state,running⟩,occupied⟩ := occupies
  rcases Body.window occupied with owes | window
  · exact owes
  · rw [quiet w state running] at window
    contradiction

theorem Exclusive.shrink {s s' : State ω} (exclusive : Exclusive s)
    (fewer : ∀ w fd, Occupies s' w fd → Occupies s w fd)
    (open_ : ∀ w fd, Occupies s' w fd → s.opened fd = true ∧ s.loop.adds fd = false →
      s'.opened fd = true ∧ s'.loop.adds fd = false) : Exclusive s' :=
  ⟨fun v w fd first second => exclusive.apart v w fd (fewer v fd first) (fewer w fd second),
    fun w fd occupies => open_ w fd occupies (exclusive.open_ w fd (fewer w fd occupies))⟩

theorem occupiesElsewhere {s s' : State ω} {v : ω} {fd : Int} (occupies : Occupies s' v fd)
    (pool : s'.pool.workers v = s.pool.workers v) (bodies : s'.bodies v = s.bodies v) : Occupies s v fd := by
  unfold Occupies at occupies
  rwa [pool,bodies] at occupies

theorem occupiesOther [DecidableEq ω] {s s' : State ω} {v w : ω} {fd : Int} {pc : ThreadPool.WorkerPc Int}
    (occupies : Occupies s' v fd) (workers : s'.pool.workers = update s.pool.workers w pc)
    (calm : ∀ state fd, pc ≠ .running state fd) (bodies : s'.bodies = s.bodies) : Occupies s v fd := by
  have other : v ≠ w := by
    rintro rfl
    obtain ⟨⟨state,running⟩,_⟩ := occupies
    rw [workers,Function.update_self] at running
    exact calm state fd running
  exact occupiesElsewhere occupies (movedOthers workers other) (congrFun bodies v)

theorem owedOne {s : State ω} {w : ω} {fd : Int} (occupies : Occupies s w fd) (owes : (s.bodies w).owes = true) :
    owedBy fd (crew s.pool.workers s.bodies w) = 1 := by
  obtain ⟨⟨state,running⟩,_⟩ := occupies
  simp only [crew,running,owedBy,owes,and_self,if_true]

theorem dispatchRuns {funbox n : Nat} {task : ThreadPool.Task Int} {fd : Int}
    (runs : ThreadPool.dispatch funbox task = .running n fd) : task.2 = some fd := by
  unfold ThreadPool.dispatch at runs
  split at runs
  · contradiction
  · split at runs
    · simp only [ThreadPool.WorkerPc.running.injEq] at runs
      rw [runs.2]
    · contradiction

theorem poppedOne {s : State ω} {w : ω} {state fd : Int} (popped : s.pool.workers w = .popped (state,some fd)) :
    owedBy fd (crew s.pool.workers s.bodies w) = 1 := by
  simp [crew,popped,owedBy,names]

variable [Fintype ω]

theorem dispatchAlone {s : State ω} {v w : ω} {state fd : Int} (covered : Covered s)
    (popped : s.pool.workers w = .popped (state,some fd)) (quiet : Quiet s fd) : ¬ Occupies s v fd := by
  intro occupies
  have one := owedOne occupies (quietBody quiet occupies)
  have different : v ≠ w := by
    rintro rfl
    obtain ⟨⟨_,running⟩,_⟩ := occupies
    rw [popped] at running
    contradiction
  have none := (covered.owed (poppedOne popped)).2.2 v different
  omega

theorem poppedOpen {s : State ω} {w : ω} {state fd : Int} (covered : Covered s)
    (popped : s.pool.workers w = .popped (state,some fd)) : s.opened fd = true ∧ s.loop.adds fd = false :=
  serving.mp (covered.owed (poppedOne popped)).1

theorem hangupAlone {s : State ω} {w : ω} {fd : Int} {mask : Mask} {rest : List Ready} (covered : Covered s)
    (here : s.loop = .batch (.client fd mask :: rest)) (quiet : Quiet s fd) : ¬ Occupies s w fd := by
  intro occupies
  have owed := owedOne occupies (quietBody quiet occupies)
  have member := tallyMember (owedBy fd) (crew s.pool.workers s.bodies) w
  have alone := (covered.reported here).2
  omega

variable [DecidableEq ω] {parse : Text → Except String Json} {cstate : ConnState}

theorem movesExclusive {s s' : State ω} {e : Event ω} (covered : Covered s) (exclusive : Exclusive s)
    (apart : Apart s e) (moves : Moves parse cstate s e s') : Exclusive s' := by
  cases moves with
  | wait | listening | dropped | noMore | added =>
    exact exclusive.shrink (fun _ _ occupies => occupies) (fun _ _ _ before => ⟨before.1,rfl⟩)
  | checked here calm kind outside appends =>
    subst appends
    exact exclusive.shrink (fun _ _ occupies => occupies) (fun _ _ _ before => ⟨before.1,rfl⟩)
  | tooHigh => exact exclusive
  | threw => exact exclusive.shrink (fun _ _ occupies => occupies) (fun _ _ _ before => before)
  | push checked clients queue workers funbox =>
    refine exclusive.shrink (fun w fd occupies => ?_) (fun _ _ _ before => before)
    simpa only [Occupies,workers] using occupies
  | post here pushed clients queue workers funbox =>
    refine exclusive.shrink (fun w fd occupies => ?_) (fun _ _ _ before => ⟨before.1,rfl⟩)
    simpa only [Occupies,workers] using occupies
  | @hangup fd mask rest here hangs =>
    simp only [Apart,here,HandleApart] at apart
    refine exclusive.shrink (fun _ _ occupies => occupies) (fun w g occupies before => ⟨?_,rfl⟩)
    have other : g ≠ fd := by
      rintro rfl
      exact hangupAlone covered here (apart hangs) occupies
    simpa [other] using before.1
  | @accepted fd rest here unused range =>
    refine exclusive.shrink (fun _ _ occupies => occupies) (fun w g occupies before => ?_)
    have other : ¬ fd = g := by
      rintro rfl
      rw [unused] at before
      exact absurd before.1 Bool.false_ne_true
    refine ⟨?_,by simp [LoopPc.adds,other]⟩
    simpa [Ne.symm other] using before.1
  | @addFails fd rest here =>
    refine exclusive.shrink (fun _ _ occupies => occupies) (fun w g occupies before => ⟨?_,rfl⟩)
    have other : ¬ g = fd := by
      rintro rfl
      simp [here,LoopPc.adds] at before
    simpa [other] using before.1
  | worker before after workers clients queue funbox =>
    refine exclusive.shrink (fun v fd occupies => ?_) (fun _ _ _ before => before)
    exact occupiesOther occupies workers (fun state fd running => by rw [running] at after; contradiction) rfl
  | pop ready workers clients queue funbox =>
    refine exclusive.shrink (fun v fd occupies => ?_) (fun _ _ _ before => before)
    exact occupiesOther occupies workers (fun state fd running => by contradiction) rfl
  | @task w e state fd conn body calls faults running taken =>
    refine exclusive.shrink (fun v g occupies => ?_) (fun _ _ _ before => before)
    by_cases same : v = w
    · subst same
      obtain ⟨runs,occupied⟩ := occupies
      simp only [worked,Function.update_self] at occupied
      exact ⟨runs,(taskSpec parse cstate taken).2.1 occupied⟩
    · exact occupiesElsewhere occupies rfl (updateOthers v same)
  | @dispatch w task pool popped workers clients queue funbox =>
    have elsewhere : ∀ v fd, v ≠ w →
        Occupies {s with pool := pool, bodies := update s.bodies w (entry (pool.workers w))} v fd → Occupies s v fd :=
      fun v fd other occupies =>
        occupiesElsewhere occupies (movedOthers workers other) (updateOthers v other)
    have here : ∀ fd, Occupies {s with pool := pool, bodies := update s.bodies w (entry (pool.workers w))} w fd →
        s.pool.workers w = .popped (task.1,some fd) := by
      intro fd occupies
      obtain ⟨⟨n,runs⟩,_⟩ := occupies
      simp only [workers,Function.update_self] at runs
      rw [popped,← dispatchRuns runs]
    have alone : ∀ v fd, Occupies {s with pool := pool, bodies := update s.bodies w (entry (pool.workers w))} w fd →
        ¬ Occupies s v fd := by
      intro v fd occupies
      have popped := here fd occupies
      simp only [Apart,popped,DispatchApart] at apart
      exact dispatchAlone covered popped apart
    refine ⟨fun v u fd first second => ?_,fun v fd occupies => ?_⟩
    · by_cases left : v = w
      · by_cases right : u = w
        · rw [left,right]
        · exact absurd (elsewhere u fd right second) (alone u fd (left ▸ first))
      · by_cases right : u = w
        · exact absurd (elsewhere v fd left first) (alone v fd (right ▸ second))
        · exact exclusive.apart v u fd (elsewhere v fd left first) (elsewhere u fd right second)
    · by_cases own : v = w
      · subst own
        have served := poppedOpen covered (here fd occupies)
        exact served
      · exact exclusive.open_ v fd (elsewhere v fd own occupies)

structure Guarded (s : State ω) : Prop where
  covered : Covered s
  kinds : Kinds s
  exclusive : Exclusive s

theorem initialGuarded {s : State ω} (start : Initial s) : Guarded s := by
  have looping := (initialPool start).2.2.2
  have nobody : ∀ w fd, ¬ Occupies s w fd := by
    rintro w fd ⟨⟨state,running⟩,_⟩
    rw [looping w] at running
    contradiction
  exact ⟨(initialCovered start).1,(initialServed start).attended.kinds,
    fun v _ fd occupies _ => absurd occupies (nobody v fd),fun w fd occupies => absurd occupies (nobody w fd)⟩

theorem movesGuarded {s s' : State ω} {e : Event ω} (guarded : Guarded s) (apart : Apart s e)
    (moves : Moves parse cstate s e s') : Guarded s' :=
  ⟨movesCovered parse cstate guarded.covered moves,movesKinds guarded.kinds moves,
    movesExclusive guarded.covered guarded.exclusive apart moves⟩

theorem windowOccupies {body : Body} (window : ¬ body.inWindow = false) : body.occupies = true := by
  cases body <;> first | rfl | exact absurd rfl window

theorem dispatchOverlaps {s s' : State ω} {w : ω} (guarded : Guarded s)
    (taken : step parse cstate s (.pool (.dispatch w)) = some s') (exclusive : Exclusive s') :
    Apart s (.pool (.dispatch w)) := by
  simp only [step,Option.ite_none_right_eq_some,act,bind,Option.bind_eq_some_iff] at taken
  obtain ⟨_,pool,moves,taken⟩ := taken
  cases Option.some.inj taken
  cases ThreadPool.stepMoves moves with
  | @dispatch _ task popped =>
    obtain ⟨state,reqstruct⟩ := task
    cases reqstruct with
    | none => simp only [Apart,popped,DispatchApart]
    | some fd =>
      simp only [Apart,popped,DispatchApart]
      intro v n running
      by_contra window
      have different : v ≠ w := by
        rintro rfl
        rw [popped] at running
        contradiction
      have registered : 0 ≤ state ∧ state.toNat < s.pool.funbox := by
        rw [guarded.kinds.funbox]
        rcases (guarded.kinds.popped w _ popped rfl).1 with zero | one <;> simp_all
      have starts : ∀ m : Nat, (entry (.running m fd)).occupies = true := by
        intro m
        cases m <;> rfl
      refine different (exclusive.apart v w fd ⟨⟨n,?_⟩,?_⟩ ⟨⟨state.toNat,?_⟩,?_⟩)
      · simpa only [Function.update_of_ne different] using running
      · simpa only [Function.update_of_ne different] using windowOccupies window
      · simp only [Function.update_self,ThreadPool.dispatch,if_pos registered]
      · simp only [Function.update_self,ThreadPool.dispatch,if_pos registered,starts]

theorem hangupOverlaps {s s' : State ω} (taken : step parse cstate s .handle = some s') (exclusive : Exclusive s') :
    Apart s .handle := by
  simp only [step,Option.ite_none_right_eq_some,act] at taken
  obtain ⟨_,taken⟩ := taken
  split at taken <;> try contradiction
  · rename_i rest here
    simp only [Apart,here,HandleApart]
  · rename_i fd mask rest here
    simp only [Apart,here,HandleApart]
    intro hangs v n running
    by_contra window
    rw [if_pos hangs] at taken
    cases Option.some.inj taken
    have opened := (exclusive.open_ v fd ⟨⟨n,running⟩,windowOccupies window⟩).1
    simp at opened

/- The tasks of a connection never overlap, and it stays open under each of them,
in exactly the runs that respect the window (and store inside the buffers). -/
theorem tasksApartIff {s : State ω} (start : Initial s) (es : List (Event ω)) :
    (system ω parse cstate).Throughout (fun s e s' => Exclusive s' ∧ Bounded cstate s e) s es ↔
    (system ω parse cstate).Throughout (fun s e _ => Apart s e ∧ Bounded cstate s e) s es := by
  refine (system ω parse cstate).throughoutExact (fun s e s' reached taken => ?_) (.init start) es
  have guarded : Guarded s := (system ω parse cstate).invariant (fun _ => initialGuarded)
    (fun _ _ _ guarded allowed taken => movesGuarded guarded allowed.1 (stepMoves parse cstate taken)) reached
  constructor
  · rintro ⟨exclusive,bounded⟩
    refine ⟨?_,bounded⟩
    cases e with
    | handle => exact hangupOverlaps taken exclusive
    | pool e =>
      cases e with
      | dispatch w => exact dispatchOverlaps guarded taken exclusive
      | _ => trivial
    | _ => trivial
  · rintro ⟨apart,bounded⟩
    exact ⟨(movesGuarded guarded apart (stepMoves parse cstate taken)).exclusive,bounded⟩

def windowRun : List (Event Bool) :=
  connect Bool ++ deliver readable false ++ readRequest false ++ deliver writable true

theorem sampleApartIff :
    (system Bool TcpConn.sampleParse .LT).Throughout (fun s e s' => Exclusive s' ∧ Bounded .LT s e)
      (sampleStart Bool) windowRun ↔
    (system Bool TcpConn.sampleParse .LT).Throughout (fun s e _ => Apart s e ∧ Bounded .LT s e)
      (sampleStart Bool) windowRun :=
  tasksApartIff (sampleInitial Bool) windowRun

def bothInside (s : State Bool) : Bool :=
  decide (s.pool.workers false = .running 0 5 ∧ s.bodies false = .resetting ∧
    s.pool.workers true = .running 1 5 ∧ s.bodies true = .sending ∧ s.faults = [])

theorem windowOverlap :
    ∃ s, (system Bool TcpConn.sampleParse .LT).Reachable s ∧ s.faults = [] ∧ Occupies s false 5 ∧
      Occupies s true 5 ∧ ¬ Exclusive s := by
  have ends : ((system Bool TcpConn.sampleParse .LT).run (sampleStart Bool) windowRun).map bothInside = some true := by
    decide +kernel
  obtain ⟨s,ran,final⟩ := Option.map_eq_some_iff.mp ends
  obtain ⟨reader,resetting,writer,sending,none⟩ := of_decide_eq_true final
  have first : Occupies s false 5 := ⟨⟨0,reader⟩,by rw [resetting]; rfl⟩
  have second : Occupies s true 5 := ⟨⟨1,writer⟩,by rw [sending]; rfl⟩
  exact ⟨s,(system Bool TcpConn.sampleParse .LT).runReachable (.init (sampleInitial Bool)) _ ran,none,first,second,
    fun exclusive => absurd (exclusive.apart false true 5 first second) Bool.false_ne_true⟩

end SimpleChat.Server
