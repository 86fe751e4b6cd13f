import SimpleChat.SqlClients

/-! `SqlConnectionPool::DestroyPool` beside clients of the pool. It is one more
thread of the blocking queue, `none`, whose held list is what it removed; the
test of the loop and the removal in `pop_b` are steps apart. -/
namespace SimpleChat.DestroyPool
open Basis (System tally tallyMember tallyPair)
open Function (update)
open SqlPool (MysqlPtr)
open SqlClients (Owned)

inductive Pc where
  | outside
  | testing
  | waiting
  | admitted
  | closing (con : MysqlPtr)
  | threw (message : String)
  deriving DecidableEq, Repr

structure State (ω : Type) where
  clients : SqlClients.State (Option ω)
  destroying : Pc
  closed : List MysqlPtr

inductive Event (ω : Type) where
  | client (e : SqlClients.Event ω)
  | call
  | test
  | wait
  | pop
  | close
  deriving DecidableEq, Repr

variable {ω : Type}

def asClient : SqlClients.Event ω → SqlClients.Event (Option ω)
  | .wait t => .wait (some t)
  | .pop t => .pop (some t)
  | .release t con => .release (some t) con
  | .post t => .post (some t)
  | .getFreeConn t => .getFreeConn (some t)

def freeList (s : State ω) : List MysqlPtr := s.clients.conlist.queue.list

section Step
variable [DecidableEq ω]

def step (s : State ω) : Event ω → Option (State ω)
  | .client e => do
      let clients ← SqlClients.step s.clients (asClient e)
      some {s with clients := clients}
  | .call => if s.destroying = .outside then some {s with destroying := .testing} else none
  | .test =>
      if s.destroying = .testing then
        some {s with destroying := if s.clients.conlist.queue.empty then .outside else .waiting}
      else none
  | .wait =>
      if s.destroying = .waiting then do
        let clients ← SqlClients.step s.clients (.wait none)
        some {s with clients := clients, destroying := .admitted}
      else none
  | .pop =>
      if s.destroying = .admitted then do
        let clients ← SqlClients.step s.clients (.pop none)
        match SqlClients.received s.clients with
        | con :: _ => some {s with clients := clients, destroying := .closing con}
        | [] => some {s with clients := clients, destroying := .threw "list is empty!"}
      else none
  | .close => match s.destroying with
      | .closing con => some {s with destroying := .testing, closed := s.closed ++ [con]}
      | _ => none

structure Initial (connections : List Nat) (s : State ω) : Prop where
  clients : SqlClients.Initial connections s.clients
  destroying : s.destroying = .outside
  closed : s.closed = []

def system (ω : Type) [DecidableEq ω] (connections : List Nat) : System (State ω) (Event ω) :=
  ⟨Initial connections,step⟩

end Step

/- `DestroyPool` is in `sem_wait` on a zero semaphore, nothing is free, and no
release is between its insertion and its `sem_post`. -/
structure Stuck (s : State ω) : Prop where
  waits : s.destroying = .waiting
  zero : s.clients.conlist.queue.mSem = some 0
  nothing : freeList s = []
  quiet : ∀ t, s.clients.conlist.pcs t ≠ .inserted

def pending : Pc → List MysqlPtr
  | .closing con => [con]
  | _ => []

structure Removal (s : State ω) : Prop where
  once : ∀ con ∈ s.clients.held none, (pending s.destroying ++ s.closed).count con = 1
  sole : ∀ con ∈ s.clients.held none, (∀ t, con ∉ s.clients.held (some t)) ∧ con ∉ freeList s
  own : ∀ con ∈ s.closed, con ∈ s.clients.held none

def Safe (s : State ω) : Prop := ¬ Stuck s ∧ Removal s

/- No client takes the last free connection behind the back of a `DestroyPool`
that has seen it. -/
def LeavesOne (s : State ω) : Event ω → Prop
  | .client (.pop _) => s.destroying = .waiting → 2 ≤ (freeList s).length
  | _ => True

instance (s : State ω) (e) : Decidable (LeavesOne s e) := by
  unfold LeavesOne
  split <;> infer_instance

section Clients
variable [DecidableEq ω]

def thread : SqlClients.Event ω → ω
  | .wait t | .pop t | .release t _ | .post t | .getFreeConn t => t

theorem stepHeld {s s' : SqlClients.State ω} {e : SqlClients.Event ω} (taken : SqlClients.step s e = some s')
    {t : ω} (other : t ≠ thread e) : s'.held t = s.held t := by
  cases e with
  | wait u | post u | getFreeConn u =>
    obtain ⟨conlist,_,taken⟩ := Option.bind_eq_some_iff.mp taken
    cases Option.some.inj taken
    rfl
  | pop u =>
    obtain ⟨conlist,_,taken⟩ := Option.bind_eq_some_iff.mp taken
    cases Option.some.inj taken
    exact Function.update_of_ne other _ _
  | release u con =>
    simp only [SqlClients.step,Option.ite_none_right_eq_some] at taken
    obtain ⟨_,conlist,_,last⟩ := taken.imp_right Option.bind_eq_some_iff.mp
    cases Option.some.inj last
    exact Function.update_of_ne other _ _

theorem popTakes {s s' : SqlClients.State ω} {t : ω} (taken : SqlClients.step s (.pop t) = some s') :
    (∃ con, SqlClients.received s = [con] ∧ s.conlist.queue.list = con :: s'.conlist.queue.list) ∨
    (SqlClients.received s = [] ∧ s.conlist.queue.list = [] ∧ s'.conlist.queue.list = []) := by
  obtain ⟨conlist,moved,last⟩ := Option.bind_eq_some_iff.mp taken
  cases Option.some.inj last
  rcases BlockingQueue.popList moved with ⟨con,list⟩ | ⟨list,rest⟩
  · exact .inl ⟨con,by simp only [SqlClients.received,SafeQueue.removeB,list],list⟩
  · exact .inr ⟨by simp only [SqlClients.received,SafeQueue.removeB,list],list,rest⟩

theorem popHeld {s s' : SqlClients.State ω} {t : ω} (taken : SqlClients.step s (.pop t) = some s') :
    s'.held t = SqlClients.received s ++ s.held t := by
  obtain ⟨conlist,_,last⟩ := Option.bind_eq_some_iff.mp taken
  cases Option.some.inj last
  exact Function.update_self t _ s.held

theorem stepFree {s s' : SqlClients.State ω} {e : SqlClients.Event ω} (taken : SqlClients.step s e = some s')
    (calm : ∀ t, e ≠ .pop t) : s.conlist.queue.list <+: s'.conlist.queue.list := by
  cases e with
  | wait t =>
    obtain ⟨conlist,moved,last⟩ := Option.bind_eq_some_iff.mp taken
    cases Option.some.inj last
    rw [BlockingQueue.waitList moved]
  | pop t => exact absurd rfl (calm t)
  | release t con =>
    simp only [SqlClients.step,Option.ite_none_right_eq_some] at taken
    obtain ⟨_,conlist,moved,last⟩ := taken.imp_right Option.bind_eq_some_iff.mp
    cases Option.some.inj last
    rw [BlockingQueue.pushList moved]
    exact List.prefix_append _ _
  | post t =>
    obtain ⟨conlist,moved,last⟩ := Option.bind_eq_some_iff.mp taken
    cases Option.some.inj last
    rw [BlockingQueue.postList moved]
  | getFreeConn t =>
    obtain ⟨conlist,moved,last⟩ := Option.bind_eq_some_iff.mp taken
    cases Option.some.inj last
    rw [BlockingQueue.readList moved]

omit [DecidableEq ω] in
theorem clientThread (e : SqlClients.Event ω) : none ≠ thread (asClient e) := by
  cases e <;> simp [asClient,thread]

end Clients

variable [Fintype ω]

structure Kept (connections : List Nat) (s : State ω) : Prop where
  owned : Owned connections s.clients
  taken : s.clients.held none = pending s.destroying ++ s.closed.reverse

theorem Kept.removal {connections : List Nat} {s : State ω} (kept : Kept connections s) : Removal s := by
  have total := kept.owned.total
  have once (con : MysqlPtr) : (connections.map some).count con ≤ 1 :=
    List.nodup_iff_count_le_one.mp (kept.owned.distinct.map (Option.some_injective _)) con
  have mine (con : MysqlPtr) (has : con ∈ s.clients.held none) :
      (s.clients.held none).count con = 1 ∧ (freeList s).count con = 0 := by
    have positive := List.count_pos_iff.mpr has
    have part := tallyMember (List.count con) s.clients.held none
    have bound := total con
    have least := once con
    unfold freeList
    omega
  refine ⟨fun con has => ?_,fun con has => ⟨fun t other => ?_,?_⟩,fun con has => ?_⟩
  · have one := (mine con has).1
    rwa [kept.taken,List.count_append,List.count_reverse,← List.count_append] at one
  · have theirs := List.count_pos_iff.mpr other
    have pair := tallyPair (List.count con) s.clients.held (i := none) (j := some t) (by simp)
    have bound := total con
    have least := once con
    have one := (mine con has).1
    omega
  · exact List.count_eq_zero.mp (mine con has).2
  · rw [kept.taken]
    exact List.mem_append_right _ (List.mem_reverse.mpr has)

theorem initialKept {connections : List Nat} {s : State ω} (start : Initial connections s) : Kept connections s :=
  ⟨SqlClients.initialOwned start.clients,by rw [start.clients.nobody,start.destroying,start.closed]; rfl⟩

theorem emptyQuiet {connections : List Nat} {s : State ω} (kept : Kept connections s) (nothing : freeList s = []) :
    s.clients.conlist.queue.mSem = some 0 ∧ ∀ t, s.clients.conlist.pcs t ≠ .inserted := by
  obtain ⟨value,sem⟩ := kept.owned.sound.initialised
  have count := kept.owned.balanced.count
  simp only [BlockingQueue.view,sem,Option.getD_some] at count
  rw [show s.clients.conlist.queue.list = [] from nothing,List.length_nil] at count
  refine ⟨by rw [sem]; congr 1; omega,fun t here => ?_⟩
  have member := tallyMember BlockingQueue.inGapOfPush s.clients.conlist.pcs t
  rw [here] at member
  simp only [BlockingQueue.inGapOfPush] at member
  omega

theorem stuckIff {connections : List Nat} {s : State ω} (kept : Kept connections s) :
    Stuck s ↔ s.destroying = .waiting ∧ freeList s = [] := by
  constructor
  · exact fun stuck => ⟨stuck.waits,stuck.nothing⟩
  · rintro ⟨waits,nothing⟩
    obtain ⟨zero,quiet⟩ := emptyQuiet kept nothing
    exact ⟨waits,zero,nothing,quiet⟩

variable [DecidableEq ω]

theorem stepKept {connections : List Nat} {s s' : State ω} {e : Event ω} (kept : Kept connections s)
    (taken : step s e = some s') : Kept connections s' := by
  cases e with
  | client e =>
    obtain ⟨clients,moved,last⟩ := Option.bind_eq_some_iff.mp taken
    cases Option.some.inj last
    exact ⟨SqlClients.stepOwned kept.owned moved,by rw [stepHeld moved (clientThread e)]; exact kept.taken⟩
  | call =>
    simp only [step,Option.ite_none_right_eq_some,Option.some.injEq] at taken
    obtain ⟨here,rfl⟩ := taken
    exact ⟨kept.owned,by rw [kept.taken,here]; rfl⟩
  | test =>
    simp only [step,Option.ite_none_right_eq_some,Option.some.injEq] at taken
    obtain ⟨here,rfl⟩ := taken
    refine ⟨kept.owned,?_⟩
    rw [kept.taken,here]
    split <;> rfl
  | wait =>
    simp only [step,Option.ite_none_right_eq_some] at taken
    obtain ⟨here,clients,moved,last⟩ := taken.imp_right Option.bind_eq_some_iff.mp
    cases Option.some.inj last
    refine ⟨SqlClients.stepOwned kept.owned moved,?_⟩
    obtain ⟨conlist,_,last⟩ := Option.bind_eq_some_iff.mp moved
    cases Option.some.inj last
    exact kept.taken.trans (by rw [here]; rfl)
  | pop =>
    simp only [step,Option.ite_none_right_eq_some] at taken
    obtain ⟨here,clients,moved,last⟩ := taken.imp_right Option.bind_eq_some_iff.mp
    have owned := SqlClients.stepOwned kept.owned moved
    have mine := popHeld moved
    rw [kept.taken,here] at mine
    rcases popTakes moved with ⟨con,got,_⟩ | ⟨got,_⟩
    · simp only [got] at last mine
      cases Option.some.inj last
      exact ⟨owned,mine⟩
    · simp only [got] at last mine
      cases Option.some.inj last
      exact ⟨owned,mine⟩
  | close =>
    simp only [step] at taken
    split at taken <;> try contradiction
    rename_i con here
    cases Option.some.inj taken
    refine ⟨kept.owned,?_⟩
    rw [kept.taken,here]
    simp [pending]

theorem reachKept {connections : List Nat} {ok : State ω → Event ω → Prop} {s : State ω}
    (reached : (system ω connections).Reach ok s) : Kept connections s :=
  (system ω connections).invariant (fun _ => initialKept) (fun _ _ _ kept _ taken => stepKept kept taken) reached

def Sees (s : State ω) : Prop := s.destroying = .waiting → freeList s ≠ []

theorem stepSees {s s' : State ω} {e : Event ω} (sees : Sees s) (leaves : LeavesOne s e) (taken : step s e = some s') :
    Sees s' := by
  cases e with
  | client e =>
    obtain ⟨clients,moved,last⟩ := Option.bind_eq_some_iff.mp taken
    cases Option.some.inj last
    intro waits
    have some_ := sees waits
    by_cases pops : ∃ t, e = .pop t
    · obtain ⟨t,rfl⟩ := pops
      have two : 2 ≤ (freeList s).length := leaves waits
      rcases popTakes moved with ⟨con,_,list⟩ | ⟨_,list,_⟩
      · intro rest
        rw [freeList,list,List.length_cons,show clients.conlist.queue.list = [] from rest,List.length_nil] at two
        omega
      · exact absurd list some_
    · have longer := stepFree moved (fun t same => pops (by cases e <;> simp_all [asClient]))
      exact fun rest => some_ (List.prefix_nil.mp (rest ▸ longer))
  | test =>
    simp only [step,Option.ite_none_right_eq_some,Option.some.injEq] at taken
    obtain ⟨_,rfl⟩ := taken
    intro waits nothing
    have empty : s.clients.conlist.queue.empty = true := List.isEmpty_iff.mpr nothing
    rw [if_pos empty] at waits
    contradiction
  | call =>
    simp only [step,Option.ite_none_right_eq_some,Option.some.injEq] at taken
    obtain ⟨_,rfl⟩ := taken
    intro waits
    contradiction
  | wait =>
    simp only [step,Option.ite_none_right_eq_some] at taken
    obtain ⟨_,clients,_,last⟩ := taken.imp_right Option.bind_eq_some_iff.mp
    cases Option.some.inj last
    intro waits
    contradiction
  | pop =>
    simp only [step,Option.ite_none_right_eq_some] at taken
    obtain ⟨_,clients,_,last⟩ := taken.imp_right Option.bind_eq_some_iff.mp
    split at last
    · cases Option.some.inj last
      intro waits
      contradiction
    · cases Option.some.inj last
      intro waits
      contradiction
  | close =>
    simp only [step] at taken
    split at taken <;> try contradiction
    cases Option.some.inj taken
    intro waits
    contradiction

theorem leavesSees {connections : List Nat} {s : State ω} (reached : (system ω connections).Reach LeavesOne s) :
    Sees s :=
  (system ω connections).invariant (fun s start waits => by rw [start.destroying] at waits; contradiction)
    (fun _ _ _ sees leaves taken => stepSees sees leaves taken) reached

theorem lastTaken {connections : List Nat} {s s' : State ω} {t : ω} (kept : Kept connections s)
    (waits : s.destroying = .waiting) (few : (freeList s).length < 2)
    (taken : step s (.client (.pop t)) = some s') : Stuck s' := by
  have kept' := stepKept kept taken
  obtain ⟨clients,moved,last⟩ := Option.bind_eq_some_iff.mp taken
  cases Option.some.inj last
  refine (stuckIff kept').mpr ⟨waits,?_⟩
  rcases popTakes moved with ⟨con,_,list⟩ | ⟨_,_,rest⟩
  · rw [freeList,list,List.length_cons] at few
    exact List.eq_nil_of_length_eq_zero (by simp only [freeList]; omega)
  · exact rest

/- `DestroyPool` is never left waiting on an empty pool, in a run, exactly when
no client takes the last free connection between its test and its `sem_wait`;
what it removes it closes once, and no client has it. -/
theorem destroyPoolIff {connections : List Nat} {s : State ω} (start : Initial connections s) (es : List (Event ω)) :
    (system ω connections).Throughout (fun _ _ s' => Safe s') s es ↔
    (system ω connections).Throughout (fun s e _ => LeavesOne s e) s es := by
  refine (system ω connections).throughoutExact (fun s e s' reached taken => ?_) (.init start) es
  have kept := reachKept reached
  have sees := leavesSees reached
  constructor
  · rintro ⟨free,_⟩
    unfold LeavesOne
    split
    · rename_i t
      intro waits
      by_contra few
      exact free (lastTaken kept waits (by omega) taken)
    · trivial
  · intro leaves
    have kept' := stepKept kept taken
    refine ⟨fun stuck => ?_,kept'.removal⟩
    exact stepSees sees leaves taken stuck.waits stuck.nothing

def sampleStart : State Unit :=
  ⟨⟨⟨⟨[some 7],some 1,true,-1⟩,fun _ => .outside,[some 7],[]⟩,fun _ => []⟩,.outside,[]⟩

theorem sampleInitial : Initial [7] sampleStart := ⟨⟨by decide,rfl,fun _ => rfl,rfl,rfl,fun _ => rfl⟩,rfl,rfl⟩

def takenBehind : List (Event Unit) := [.call,.test,.client (.wait ()),.client (.pop ())]

theorem sampleDestroyIff :
    (system Unit [7]).Throughout (fun _ _ s' => Safe s') sampleStart takenBehind ↔
    (system Unit [7]).Throughout (fun s e _ => LeavesOne s e) sampleStart takenBehind :=
  destroyPoolIff sampleInitial takenBehind

instance (s : State ω) : Decidable (Stuck s) :=
  decidable_of_iff (s.destroying = .waiting ∧ s.clients.conlist.queue.mSem = some 0 ∧ freeList s = [] ∧
      ∀ t, s.clients.conlist.pcs t ≠ .inserted)
    ⟨fun ⟨waits,zero,nothing,quiet⟩ => ⟨waits,zero,nothing,quiet⟩,
      fun stuck => ⟨stuck.waits,stuck.zero,stuck.nothing,stuck.quiet⟩⟩

theorem destroyPoolStuck : ∃ s, (system Unit [7]).Reachable s ∧ Stuck s ∧ some 7 ∈ s.clients.held (some ()) := by
  have ends : ((system Unit [7]).run sampleStart takenBehind).map (fun s =>
      decide (Stuck s ∧ some 7 ∈ s.clients.held (some ()))) = some true := by decide +kernel
  obtain ⟨s,ran,stuck⟩ := Option.map_eq_some_iff.mp ends
  exact ⟨s,(system Unit [7]).runReachable (.init sampleInitial) _ ran,of_decide_eq_true stuck⟩

end SimpleChat.DestroyPool
