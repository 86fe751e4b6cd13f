import SimpleChat.Sessions

/-! What one connection leaves in its slot of `users` for the next one. The
buffer is blank, unless a call has bytes in it that it has still to reset, or
nothing will ever attend to the connection again, so that it stays open. -/
namespace SimpleChat.Server
open Basis (tally tallyMember)
open Function (update)

variable {ω : Type}

def Blank (c : TcpConn) : Prop := ∀ (i : Nat) (b : UInt8), c.mBuf[i]? = some b → b = 0

def fills : Body → Bool
  | .reading | .parsing | .rearming | .resetting => true
  | _ => false

def Filled (s : State ω) (fd : Int) : Prop :=
  ∃ w, runsOn fd (s.pool.workers w) = true ∧ fills (s.bodies w) = true

def CallsKept (s s' : State ω) (fd : Int) : Prop :=
  ∀ v, runsOn fd (s.pool.workers v) = true → s.bodies v ≠ .returned →
    s'.pool.workers v = s.pool.workers v ∧ s'.bodies v = s.bodies v

theorem fillsInside {body : Body} (fill : fills body = true) : body ≠ .returned := by
  rintro rfl
  contradiction

theorem fillsOwes {body : Body} (fill : fills body = true) : body.owes = true ∨ body = .resetting := by
  cases body <;> first | exact .inl rfl | exact .inr rfl | cases fill

theorem filledKept {s s' : State ω} {fd : Int} (filled : Filled s fd) (calls : CallsKept s s' fd) : Filled s' fd := by
  obtain ⟨v,runs,fill⟩ := filled
  obtain ⟨workers,bodies⟩ := calls v runs (fillsInside fill)
  exact ⟨v,workers ▸ runs,bodies ▸ fill⟩

section Task
variable {parse : Text → Except String Json} {cstate : ConnState} {c c' : TcpConn} {body body' : Body} {e : TaskEvent}
  {calls : List EpollCall} {faults : List Fault}

theorem resetBlank (c : TcpConn) : Blank c.resetBuf := fun _ _ found => zerosBlank found

theorem taskBuffer (moves : TaskMoves parse cstate c body e c' body' calls faults) :
    fills body' = true ∨ Blank c' ∨ (calls = [] ∧ body.owes = true ∧ body'.owes = false) ∨
    (c'.mBuf = c.mBuf ∧ fills body = false) := by
  cases moves with
  | full | resetLen | delete | unwritten | written | clear | resume => exact .inr (.inr (.inr ⟨rfl,rfl⟩))
  | room | bytes | eagain | answered | unanswered | modify => exact .inl rfl
  | eof | resetBuf => exact .inr (.inl (resetBlank c))
  | failed => exact .inr (.inr (.inl ⟨rfl,rfl,rfl⟩))

end Task

section Moves
variable [DecidableEq ω] {parse : Text → Except String Json} {cstate : ConnState} {s s' : State ω} {e : Event ω}

theorem callKept (moves : Moves parse cstate s e s') {v : ω} {fd : Int} (runs : runsOn fd (s.pool.workers v) = true)
    (inside : s.bodies v ≠ .returned) :
    (∃ te, e = .task v te) ∨ (s'.pool.workers v = s.pool.workers v ∧ s'.bodies v = s.bodies v) := by
  obtain ⟨state,running⟩ := runsOnIff.mp runs
  cases moves with
  | wait | listening | hangup | dropped | noMore | tooHigh | accepted | addFails | added => exact .inr ⟨rfl,rfl⟩
  | checked here calm kind outside appends =>
    subst appends
    exact .inr ⟨rfl,rfl⟩
  | push checked clients queue workers funbox => exact .inr ⟨congrFun workers v,rfl⟩
  | post here pushed clients queue workers funbox => exact .inr ⟨congrFun workers v,rfl⟩
  | @worker _ w pc pool before after workers clients queue funbox =>
    have other : v ≠ w := by
      rintro rfl
      rcases before with idle | ⟨returned,_⟩
      · rw [running] at idle
        contradiction
      · exact inside returned
    exact .inr ⟨movedOthers workers other,rfl⟩
  | @pop w pool ready workers clients queue funbox =>
    have other : v ≠ w := by
      rintro rfl
      rw [running] at ready
      contradiction
    exact .inr ⟨movedOthers workers other,rfl⟩
  | @dispatch w task pool popped workers clients queue funbox =>
    have other : v ≠ w := by
      rintro rfl
      rw [running] at popped
      contradiction
    exact .inr ⟨movedOthers workers other,updateOthers v other⟩
  | @task w te state' fd' conn body calls faults running' taken =>
    by_cases own : v = w
    · exact .inl ⟨te,by rw [own]⟩
    · exact .inr ⟨rfl,updateOthers v own⟩
  | @threw w te what => exact .inr ⟨rfl,rfl⟩

theorem slotKept (moves : Moves parse cstate s e s') (noTask : ∀ w te, e ≠ .task w te) (noFailure : e ≠ .add false)
    (fd : Int) : (s'.users fd).mBuf = (s.users fd).mBuf := by
  cases moves with
  | @accepted userfd rest here unused range =>
    by_cases own : fd = userfd
    · rw [own]
      simp only [Function.update_self,TcpConn.setFd]
    · simp only [Function.update_of_ne own]
  | addFails => exact absurd rfl noFailure
  | task | threw => exact absurd rfl (noTask _ _)
  | _ => rfl

end Moves

section Marks
variable (parse : Text → Except String Json)

theorem taskMarksOther (marks : Marks ω) {fd g : Int} (other : g ≠ fd) (c : TcpConn) (e : TaskEvent) :
    (marks.task parse fd c e).bufFrom g = marks.bufFrom g ∧ (marks.task parse fd c e).replyFrom g = marks.replyFrom g := by
  unfold Marks.task
  split
  · exact ⟨Function.update_of_ne other _ _,rfl⟩
  · exact ⟨Function.update_of_ne other _ _,rfl⟩
  · exact ⟨Function.update_of_ne other _ _,rfl⟩
  · split
    · split
      · exact ⟨rfl,Function.update_of_ne other _ _⟩
      · exact ⟨rfl,rfl⟩
    · exact ⟨rfl,rfl⟩
  · exact ⟨rfl,Function.update_of_ne other _ _⟩
  · exact ⟨rfl,rfl⟩

theorem taskMarksGen (marks : Marks ω) (fd : Int) (c : TcpConn) (e : TaskEvent) :
    (marks.task parse fd c e).gen = marks.gen ∧ (marks.task parse fd c e).session = marks.session := by
  unfold Marks.task
  split <;> try exact ⟨rfl,rfl⟩
  split
  · split <;> exact ⟨rfl,rfl⟩
  · exact ⟨rfl,rfl⟩

theorem beginSame (marks : Marks ω) {s s' : State ω} (opened : s'.opened = s.opened) : marks.begin s s' = marks := by
  have none : ∀ fd, opens s s' fd = false := fun fd => by simp only [opens,opened,Bool.not_and_self]
  simp only [Marks.begin,none,Bool.false_eq_true,if_false]

end Marks

section Traced
variable [DecidableEq ω] {parse : Text → Except String Json} {cstate : ConnState}

variable (parse cstate) in
/- What a step is for one slot: a step of a call for its connection, `cleanAllData`
for a descriptor that could not be added, or nothing. -/
inductive SlotMoves (t t' : Traced ω) (e : Event ω) (fd : Int) : Prop where
  | same (buffer : (t'.server.users fd).mBuf = (t.server.users fd).mBuf)
      (bufFrom : t'.marks.bufFrom fd = t.marks.bufFrom fd) (replyFrom : t'.marks.replyFrom fd = t.marks.replyFrom fd)
      (calls : CallsKept t.server t'.server fd)
  | unadded (adds : t.server.loop.adds fd = true) (blank : Blank (t'.server.users fd))
      (calls : CallsKept t.server t'.server fd)
  | task {w : ω} {state : Nat} {te : TaskEvent} {conn : TcpConn} {body : Body} {calls : List EpollCall}
      {faults : List Fault} (event : e = .task w te) (running : t.server.pool.workers w = .running state fd)
      (moves : TaskMoves parse cstate (t.server.users fd) (t.server.bodies w) te conn body calls faults)
      (server : t'.server = worked t.server w fd conn body calls faults)
      (marks : t'.marks = t.marks.task parse fd (t.server.users fd) te)

variable [Fintype ω] {t t' : Traced ω} {e : Event ω}

theorem tracedServer (taken : tracedStep parse cstate t e = some t') : step parse cstate t.server e = some t'.server := by
  obtain ⟨s',stepped,rfl⟩ := Option.map_eq_some_iff.mp taken
  exact stepped

theorem tracedMoves (taken : tracedStep parse cstate t e = some t') : Moves parse cstate t.server e t'.server :=
  stepMoves parse cstate (tracedServer taken)

theorem taskSlot {w : ω} {te : TaskEvent} (taken : tracedStep parse cstate t (.task w te) = some t') (fd : Int) :
    SlotMoves parse cstate t t' (.task w te) fd := by
  obtain ⟨s',stepped,rfl⟩ := Option.map_eq_some_iff.mp taken
  simp only [step,Option.ite_none_right_eq_some,act] at stepped
  obtain ⟨_,stepped⟩ := stepped
  split at stepped <;> try contradiction
  rename_i state userfd running
  have marked : t.marks.act parse t.server (.task w te) = t.marks.task parse userfd (t.server.users userfd) te := by
    simp only [Marks.act,running]
  split at stepped <;> try contradiction
  · rename_i conn body calls faults moved
    cases Option.some.inj stepped
    by_cases own : fd = userfd
    · subst own
      exact .task rfl running (taskMoves parse cstate moved) rfl ((beginSame _ rfl).trans marked)
    · obtain ⟨bufFrom,replyFrom⟩ := taskMarksOther parse t.marks own (t.server.users userfd) te
      refine .same ?_ ((congrFun (congrArg Marks.bufFrom marked) fd).trans bufFrom)
        ((congrFun (congrArg Marks.replyFrom marked) fd).trans replyFrom) (fun v runs _ => ⟨rfl,updateOthers v ?_⟩)
      · simp only [worked,Function.update_of_ne own]
      · rintro rfl
        obtain ⟨_,elsewhere⟩ := runsOnIff.mp runs
        rw [running] at elsewhere
        cases elsewhere
        exact own rfl
  · rename_i what moved
    cases Option.some.inj stepped
    obtain ⟨rfl,undecoded⟩ := taskThrew parse cstate moved
    have unmarked : t.marks.act parse t.server (.task w .parse) = t.marks := by
      simp only [marked,Marks.task,undecoded]
    exact .same rfl (congrFun (congrArg Marks.bufFrom unmarked) fd) (congrFun (congrArg Marks.replyFrom unmarked) fd)
      (fun _ _ _ => ⟨rfl,rfl⟩)

theorem slotMoves (taken : tracedStep parse cstate t e = some t') (fd : Int) : SlotMoves parse cstate t t' e fd := by
  have moves := tracedMoves taken
  have calls (noTask : ∀ w te, e ≠ .task w te) : CallsKept t.server t'.server fd :=
    fun v runs inside => (callKept moves runs inside).resolve_left (fun ⟨te,own⟩ => noTask v te own)
  cases e with
  | task w te => exact taskSlot taken fd
  | add done =>
    obtain ⟨s',stepped,rfl⟩ := Option.map_eq_some_iff.mp taken
    cases done with
    | true => exact .same (slotKept moves (by simp) (by simp) fd) rfl rfl (calls (by simp))
    | false =>
      simp only [step,Option.ite_none_right_eq_some,act] at stepped
      obtain ⟨_,stepped⟩ := stepped
      split at stepped <;> try contradiction
      rename_i userfd rest here
      cases Option.some.inj stepped
      by_cases own : fd = userfd
      · subst own
        refine .unadded (by simp only [here,LoopPc.adds,decide_true]) ?_ (calls (by simp))
        simp only [Function.update_self]
        exact fun _ _ found => zerosBlank found
      · refine .same ?_ ?_ ?_ (calls (by simp))
        · simp only [Function.update_of_ne own]
        · simp only [Marks.begin,Marks.act,here,Function.update_of_ne own]
        · simp only [Marks.begin,Marks.act,here,Function.update_of_ne own]
  | pool pe =>
    obtain ⟨s',stepped,rfl⟩ := Option.map_eq_some_iff.mp taken
    have unmarked : (t.marks.act parse t.server (.pool pe)).bufFrom = t.marks.bufFrom ∧
        (t.marks.act parse t.server (.pool pe)).replyFrom = t.marks.replyFrom := by
      cases pe with
      | dispatch w =>
        simp only [Marks.act]
        split <;> exact ⟨rfl,rfl⟩
      | _ => exact ⟨rfl,rfl⟩
    exact .same (slotKept moves (by simp) (by simp) fd) (congrFun unmarked.1 fd) (congrFun unmarked.2 fd) (calls (by simp))
  | _ =>
    obtain ⟨s',stepped,rfl⟩ := Option.map_eq_some_iff.mp taken
    exact .same (slotKept moves (by simp) (by simp) fd) rfl rfl (calls (by simp))

def Stuck (s : State ω) (fd : Int) : Prop := inService s fd = 1 ∧ carriers s fd = 0

def Tidy (s : State ω) : Prop := ∀ fd, Blank (s.users fd) ∨ Filled s fd ∨ Stuck s fd

theorem stuckStays {s s' : State ω} (covered : Covered s) (moves : Moves parse cstate s e s') {fd : Int} (stuck : Stuck s fd) :
    Stuck s' fd := by
  obtain ⟨served,alone⟩ := stuck
  obtain ⟨lost,sum,_⟩ := movesBalance parse cstate covered moves fd
  have most := inServiceLe s' fd
  exact ⟨by omega,by omega⟩

theorem dropStuck {s : State ω} (covered : Covered s) {w : ω} {state : Nat} {fd : Int} (running : s.pool.workers w = .running state fd)
    (owes : (s.bodies w).owes = true) {conn : TcpConn} {body : Body} {faults : List Fault} (drops : body.owes = false) :
    Stuck (worked s w fd conn body [] faults) fd := by
  have one : owedBy fd (crew s.pool.workers s.bodies w) = 1 := by
    simp only [crew,running,owedBy,owes,and_self,if_true]
  have member := tallyMember (owedBy fd) (crew s.pool.workers s.bodies) w
  have some_ : 0 < carriers s fd := by simp only [carriers]; omega
  obtain ⟨served,total⟩ := covered.sole some_
  have moved := crewTally s.pool.workers s.pool.workers s.bodies (update s.bodies w body) fd w (fun _ _ => rfl) updateOthers
  simp only [running,Function.update_self,owedBy,owes,drops,and_self,and_false,if_true,if_false,Bool.false_eq_true] at moved
  refine ⟨served,?_⟩
  change armedAt s.epoll fd + s.loop.pending.countP (concerns fd) + checkedFor fd (s.pool.clients ()) +
    s.pool.taskQueue.list.countP (names fd) + tally (owedBy fd) (crew s.pool.workers (update s.bodies w body)) = 0
  simp only [carriers] at total
  omega

theorem tracedTidy (covered : Covered t.server) (tidy : Tidy t.server) (taken : tracedStep parse cstate t e = some t') :
    Tidy t'.server := by
  intro fd
  cases slotMoves taken fd with
  | same buffer _ _ calls =>
    rcases tidy fd with blank | filled | stuck
    · exact .inl (fun i b found => blank i b (buffer ▸ found))
    · exact .inr (.inl (filledKept filled calls))
    · exact .inr (.inr (stuckStays covered (tracedMoves taken) stuck))
  | unadded _ blank => exact .inl blank
  | @task w state te conn body calls faults _ running moves server _ =>
    have users : t'.server.users fd = conn := by rw [server]; exact Function.update_self ..
    have bodies : t'.server.bodies w = body := by rw [server]; exact Function.update_self ..
    have runs : runsOn fd (t'.server.pool.workers w) = true := by
      rw [server]
      exact runsOnIff.mpr ⟨state,running⟩
    rcases taskBuffer moves with fill | blank | ⟨rfl,owes,drops⟩ | ⟨same,empty⟩
    · exact .inr (.inl ⟨w,runs,bodies.symm ▸ fill⟩)
    · exact .inl (users.symm ▸ blank)
    · exact .inr (.inr (server ▸ dropStuck covered running owes drops))
    · rcases tidy fd with blank | ⟨v,inside,fill⟩ | stuck
      · exact .inl (fun i b found => blank i b (by rwa [users,same] at found))
      · have other : v ≠ w := by
          rintro rfl
          rw [empty] at fill
          contradiction
        refine .inr (.inl ⟨v,?_,?_⟩)
        · rw [server]
          exact inside
        · rw [server]
          simpa only [worked,Function.update_of_ne other] using fill
      · exact .inr (.inr (stuckStays covered (tracedMoves taken) stuck))

theorem initialTidy {s : State ω} (start : Initial s) : Tidy s := by
  intro fd
  rw [start.2.2.2.2.1 fd]
  exact .inl (fun _ _ found => zerosBlank found)

end Traced
end SimpleChat.Server
