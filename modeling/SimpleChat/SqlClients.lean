import SimpleChat.SqlPool

/-! The connection pool with clients that call `GetConnection` and
`ReleaseConnection` themselves. A client holds a connection from the removal
inside its `pop_b` to the insertion inside its `push_b`, so a call that has the
connection in its hands counts as a holder. -/
namespace SimpleChat.SqlClients
open Basis (System tally tallyUpdate tallyMember tallyPair)
open Function (update)
open SqlPool (MysqlPtr)

structure State (ω : Type) where
  conlist : BlockingQueue.State ω MysqlPtr
  held : ω → List MysqlPtr

inductive Event (ω : Type) where
  | wait (t : ω)
  | pop (t : ω)
  | release (t : ω) (con : MysqlPtr)
  | post (t : ω)
  | getFreeConn (t : ω)
  deriving DecidableEq, Repr

variable {ω : Type} [DecidableEq ω]

def getFreeConn (s : State ω) : Nat := s.conlist.queue.size

def received (s : State ω) : List MysqlPtr := match s.conlist.queue.removeB with
  | .ok (con,_) => [con]
  | .error _ => []

def step (s : State ω) : Event ω → Option (State ω)
  | .wait t => do
      let conlist ← BlockingQueue.step s.conlist (.wait t)
      some {s with conlist := conlist}
  | .pop t => do
      let conlist ← BlockingQueue.step s.conlist (.popB t)
      some {s with conlist := conlist, held := update s.held t (received s ++ s.held t)}
  | .release t con =>
      if con ∈ s.held t then do
        let conlist ← BlockingQueue.step s.conlist (.pushB t con)
        some {s with conlist := conlist, held := update s.held t ((s.held t).erase con)}
      else none
  | .post t => do
      let conlist ← BlockingQueue.step s.conlist (.post t)
      some {s with conlist := conlist}
  | .getFreeConn t => do
      let conlist ← BlockingQueue.step s.conlist (.read t .size)
      some {s with conlist := conlist}

structure Initial (connections : List Nat) (s : State ω) : Prop where
  distinct : connections.Nodup
  made : SqlPool.init true (connections.map (fun c => ⟨some c,some c⟩)) .new = .ok s.conlist.queue
  outside : ∀ t, s.conlist.pcs t = .outside
  inserted : s.conlist.inserted = connections.map some
  removed : s.conlist.removed = []
  nobody : ∀ t, s.held t = []

def system (ω : Type) [DecidableEq ω] (connections : List Nat) : System (State ω) (Event ω) :=
  ⟨Initial connections,step⟩

def Uses (s : State ω) (t : ω) : Prop := s.held t ≠ [] ∨ s.conlist.pcs t = .admitted

instance (s : State ω) (t) : Decidable (Uses s t) := by unfold Uses; infer_instance

variable [Fintype ω]

/- Every handle of `init` is somewhere once, and the list is as long as the
semaphore and the calls in progress say. -/
structure Owned (connections : List Nat) (s : State ω) : Prop where
  distinct : connections.Nodup
  total : ∀ con, s.conlist.queue.list.count con + tally (List.count con) s.held = (connections.map some).count con
  size : s.conlist.queue.list.length + tally List.length s.held = connections.length
  balanced : Basis.TokenQueue.Balanced (BlockingQueue.view s.conlist)
  sound : BlockingQueue.Sound s.conlist

structure Shared (connections : List Nat) (s : State ω) : Prop where
  place : ∀ c ∈ connections,
    (s.conlist.queue.list.count (some c) = 1 ∧ ∀ t, some c ∉ s.held t) ∨
    (some c ∉ s.conlist.queue.list ∧ ∃ t, (s.held t).count (some c) = 1 ∧ ∀ u, some c ∈ s.held u → u = t)
  clients : (Finset.univ.filter (Uses s)).card ≤ connections.length
  own : ∀ con, (con ∈ received s ∨ ∃ t, con ∈ s.held t) → ∃ c ∈ connections, con = some c
  returns : ∀ t message, s.conlist.pcs t ≠ .threw message
  free : getFreeConn s = connections.length - tally List.length s.held

theorem connectQueue {connections : List Nat} {q q' : SafeQueue MysqlPtr} {value : Nat} (sem : q.mSem = some value)
    (done : SqlPool.connect q (connections.map (fun c => ⟨some c,some c⟩)) = .ok q') :
    q'.mSem = some (value + connections.length) := by
  induction connections generalizing q value with
  | nil => cases done; exact sem
  | cons c rest ih =>
    simp only [List.map_cons,SqlPool.connect,reduceCtorEq,if_false] at done
    have posted : ((q.push (some c)).semPost.getD (q.push (some c))).mSem = some (value + 1) := by
      simp [SafeQueue.semPost,SafeQueue.push,sem]
    rw [ih posted done,List.length_cons]
    congr 1
    omega

omit [DecidableEq ω] in
theorem initialOwned {connections : List Nat} {s : State ω} (start : Initial connections s) : Owned connections s := by
  have list : s.conlist.queue.list = connections.map some := SqlPool.connectList start.made
  have sem : s.conlist.queue.mSem = some (0 + connections.length) := connectQueue rfl start.made
  have idle (weight : List MysqlPtr → Nat) (zero : weight [] = 0) : tally weight s.held = 0 :=
    (Basis.tallyZero _ _).mpr (fun t => by rw [start.nobody t,zero])
  have gaps (weight : BlockingQueue.Pc → Nat) (zero : weight .outside = 0) : tally weight s.conlist.pcs = 0 :=
    (Basis.tallyZero _ _).mpr (fun t => by rw [start.outside t,zero])
  refine ⟨start.distinct,fun con => ?_,?_,⟨?_,?_⟩,⟨⟨_,sem⟩,fun t message threw => ?_⟩⟩
  · rw [list,idle _ List.count_nil,Nat.add_zero]
  · rw [list,idle _ List.length_nil,List.length_map,Nat.add_zero]
  · simp only [BlockingQueue.view,sem,gaps BlockingQueue.inGapOfPush rfl,gaps BlockingQueue.inGapOfPop rfl,list,
      List.length_map,Option.getD_some]
    omega
  · simp only [BlockingQueue.view,start.removed,start.inserted,list,List.nil_append]
  · rw [start.outside t] at threw
    cases threw

theorem Owned.kept {connections : List Nat} {s : State ω} (owned : Owned connections s)
    {conlist : BlockingQueue.State ω MysqlPtr} {e : BlockingQueue.Event ω MysqlPtr}
    (taken : BlockingQueue.step s.conlist e = some conlist) (list : conlist.queue.list = s.conlist.queue.list) :
    Owned connections {s with conlist := conlist} := by
  obtain ⟨balanced,sound⟩ := BlockingQueue.stepSound owned.balanced owned.sound taken
  exact ⟨owned.distinct,fun con => by rw [list]; exact owned.total con,by rw [list]; exact owned.size,balanced,sound⟩

theorem Owned.take {connections : List Nat} {s : State ω} {t : ω} {conlist : BlockingQueue.State ω MysqlPtr}
    (owned : Owned connections s) (taken : BlockingQueue.step s.conlist (.popB t) = some conlist) :
    Owned connections {s with conlist := conlist, held := update s.held t (received s ++ s.held t)} := by
  obtain ⟨balanced,sound⟩ := BlockingQueue.stepSound owned.balanced owned.sound taken
  simp only [BlockingQueue.step,Option.ite_none_right_eq_some] at taken
  obtain ⟨admitted,taken⟩ := taken
  cases list : s.conlist.queue.list with
  | nil =>
    simp only [SafeQueue.removeB,list,Option.some.injEq] at taken
    subst taken
    exact absurd (Function.update_self t _ s.conlist.pcs) (sound.returns t _)
  | cons con rest =>
    have got : received s = [con] := by simp only [received,SafeQueue.removeB,list]
    simp only [SafeQueue.removeB,list,Option.some.injEq] at taken
    subst taken
    refine ⟨owned.distinct,fun p => ?_,?_,balanced,sound⟩
    · have before := owned.total p
      have moved := tallyUpdate (List.count p) s.held t (received s ++ s.held t)
      rw [list,List.count_cons] at before
      rw [got,List.singleton_append,List.count_cons] at moved
      simp only [got,List.singleton_append]
      omega
    · have before := owned.size
      have moved := tallyUpdate List.length s.held t (received s ++ s.held t)
      rw [list,List.length_cons] at before
      rw [got,List.singleton_append,List.length_cons] at moved
      simp only [got,List.singleton_append]
      omega

theorem Owned.giveBack {connections : List Nat} {s : State ω} {t : ω} {con : MysqlPtr}
    {conlist : BlockingQueue.State ω MysqlPtr} (owned : Owned connections s) (mine : con ∈ s.held t)
    (taken : BlockingQueue.step s.conlist (.pushB t con) = some conlist) :
    Owned connections {s with conlist := conlist, held := update s.held t ((s.held t).erase con)} := by
  obtain ⟨balanced,sound⟩ := BlockingQueue.stepSound owned.balanced owned.sound taken
  simp only [BlockingQueue.step,Option.ite_none_right_eq_some,Option.some.injEq] at taken
  obtain ⟨_,rfl⟩ := taken
  refine ⟨owned.distinct,fun p => ?_,?_,balanced,sound⟩
  · have before := owned.total p
    have moved := tallyUpdate (List.count p) s.held t ((s.held t).erase con)
    have own := List.count_pos_iff.mpr mine
    simp only [SafeQueue.push,List.count_append,List.count_singleton,List.count_erase] at moved ⊢
    by_cases same : con = p
    · subst same
      simp only [beq_self_eq_true,if_true] at moved ⊢
      omega
    · simp only [beq_iff_eq,same,if_false] at moved ⊢
      omega
  · have before := owned.size
    have moved := tallyUpdate List.length s.held t ((s.held t).erase con)
    have own := List.length_pos_of_mem mine
    rw [List.length_erase_of_mem mine] at moved
    simp only [SafeQueue.push,List.length_append,List.length_singleton]
    omega

theorem stepOwned {connections : List Nat} {s s' : State ω} {e : Event ω} (owned : Owned connections s)
    (taken : step s e = some s') : Owned connections s' := by
  cases e with
  | wait t =>
    obtain ⟨conlist,moved,taken⟩ := Option.bind_eq_some_iff.mp taken
    cases Option.some.inj taken
    exact owned.kept moved (BlockingQueue.waitList moved)
  | pop t =>
    obtain ⟨conlist,moved,taken⟩ := Option.bind_eq_some_iff.mp taken
    cases Option.some.inj taken
    exact owned.take moved
  | release t con =>
    simp only [step,Option.ite_none_right_eq_some] at taken
    obtain ⟨mine,taken⟩ := taken
    obtain ⟨conlist,moved,taken⟩ := Option.bind_eq_some_iff.mp taken
    cases Option.some.inj taken
    exact owned.giveBack mine moved
  | post t =>
    obtain ⟨conlist,moved,taken⟩ := Option.bind_eq_some_iff.mp taken
    cases Option.some.inj taken
    exact owned.kept moved (BlockingQueue.postList moved)
  | getFreeConn t =>
    obtain ⟨conlist,moved,taken⟩ := Option.bind_eq_some_iff.mp taken
    cases Option.some.inj taken
    exact owned.kept moved (BlockingQueue.readList moved)

theorem reachOwned {connections : List Nat} {s : State ω} (reached : (system ω connections).Reachable s) :
    Owned connections s :=
  (system ω connections).invariant (fun _ => initialOwned) (fun _ _ _ owned _ taken => stepOwned owned taken) reached

section Owned
variable {connections : List Nat} {s : State ω} (owned : Owned connections s)
include owned

omit [DecidableEq ω] in
theorem Owned.place {c : Nat} (member : c ∈ connections) :
    (s.conlist.queue.list.count (some c) = 1 ∧ ∀ t, some c ∉ s.held t) ∨
    (some c ∉ s.conlist.queue.list ∧ ∃ t, (s.held t).count (some c) = 1 ∧ ∀ u, some c ∈ s.held u → u = t) := by
  have once := owned.total (some c)
  rw [List.count_eq_one_of_mem (owned.distinct.map (Option.some_injective _)) (List.mem_map_of_mem member)] at once
  by_cases free : some c ∈ s.conlist.queue.list
  · have here := List.count_pos_iff.mpr free
    refine .inl ⟨by omega,fun t has => ?_⟩
    have mine := List.count_pos_iff.mpr has
    have part := tallyMember (List.count (some c)) s.held t
    omega
  · rw [List.count_eq_zero.mpr free,Nat.zero_add] at once
    obtain ⟨t,has⟩ := (Basis.tallyPos (List.count (some c)) s.held).mp (by omega)
    have part := tallyMember (List.count (some c)) s.held t
    refine .inr ⟨free,t,by omega,fun u others => ?_⟩
    by_contra different
    have theirs := List.count_pos_iff.mpr others
    have pair := tallyPair (List.count (some c)) s.held different
    omega

omit [DecidableEq ω] in
theorem Owned.clients : (Finset.univ.filter (Uses s)).card ≤ connections.length := by
  have each (t : ω) : (if Uses s t then 1 else 0) ≤ (s.held t).length + BlockingQueue.inGapOfPop (s.conlist.pcs t) := by
    split
    · rename_i uses
      rcases uses with some_ | admitted
      · have := List.length_pos_iff.mpr some_
        omega
      · rw [admitted]
        exact Nat.le_add_left 1 _
    · exact Nat.zero_le _
  calc (Finset.univ.filter (Uses s)).card
      = ∑ t, if Uses s t then 1 else 0 := Finset.card_filter _ _
    _ ≤ ∑ t, ((s.held t).length + BlockingQueue.inGapOfPop (s.conlist.pcs t)) := Finset.sum_le_sum (fun t _ => each t)
    _ = tally List.length s.held + tally BlockingQueue.inGapOfPop s.conlist.pcs := Finset.sum_add_distrib
    _ ≤ connections.length := by
      have count := owned.balanced.count
      have size := owned.size
      simp only [BlockingQueue.view] at count
      omega

omit [DecidableEq ω] in
theorem Owned.own {con : MysqlPtr} (has : con ∈ received s ∨ ∃ t, con ∈ s.held t) :
    ∃ c ∈ connections, con = some c := by
  have total := owned.total con
  have present : 0 < (connections.map some).count con := by
    rcases has with got | ⟨t,mine⟩
    · have first : con ∈ s.conlist.queue.list := by
        unfold received SafeQueue.removeB at got
        cases list : s.conlist.queue.list with
        | nil => simp [list] at got
        | cons x rest =>
          have same : con = x := by simpa [list] using got
          exact same ▸ List.mem_cons_self
      have := List.count_pos_iff.mpr first
      omega
    · have := List.count_pos_iff.mpr mine
      have := tallyMember (List.count con) s.held t
      omega
  obtain ⟨c,member,same⟩ := List.mem_map.mp (List.count_pos_iff.mp present)
  exact ⟨c,member,same.symm⟩

end Owned

/- Every created connection is in the free list once or held by one client, no
more clients use one than there are, and `GetFreeConn` counts the others. -/
theorem clientsShare {connections : List Nat} {s : State ω} (reached : (system ω connections).Reachable s) :
    Shared connections s := by
  have owned := reachOwned reached
  refine ⟨fun c => owned.place,owned.clients,fun con => owned.own,owned.sound.returns,?_⟩
  have size := owned.size
  unfold getFreeConn SafeQueue.size
  omega

def sampleStart : State Bool :=
  ⟨⟨⟨[some 7,some 8],some 2,true,-1⟩,fun _ => .outside,[some 7,some 8],[]⟩,fun _ => []⟩

theorem sampleInitial : Initial [7,8] sampleStart := ⟨by decide,rfl,fun _ => rfl,rfl,rfl,fun _ => rfl⟩

theorem sampleShares : ∃ s, (system Bool [7,8]).run sampleStart [.wait false,.pop false,.wait true] = some s ∧
    Shared [7,8] s ∧ s.held false = [some 7] := by
  have ends : ((system Bool [7,8]).run sampleStart [.wait false,.pop false,.wait true]).map (fun s => s.held false) =
      some [some 7] := by decide +kernel
  obtain ⟨s,ran,held⟩ := Option.map_eq_some_iff.mp ends
  exact ⟨s,ran,clientsShare ((system Bool [7,8]).runReachable (.init sampleInitial) _ ran),held⟩

end SimpleChat.SqlClients
