import SimpleChat.SqlPool

/-! `SqlConnectionPool::init` with what a throw leaves behind: the free list, the
mode of the queue, and the handles that `mysql_init` allocated. `mysql_close`
is called nowhere in it. -/
namespace SimpleChat.SqlInit
open SqlPool (MysqlPtr Attempt)

structure State where
  conlist : SafeQueue MysqlPtr
  obtained : List Nat
  closed : List Nat
  deriving DecidableEq, Repr

def connect (s : State) : List Attempt → State × Option String
  | [] => (s,none)
  | attempt :: rest => match attempt.initialised with
      | none => (s,some "mysql_init failed")
      | some handle =>
          let s := {s with obtained := s.obtained ++ [handle]}
          if attempt.connected = none then (s,some "mysql_real_connect failed")
          else connect {s with conlist := s.conlist.pushB attempt.connected} rest

def init (semInit : Bool) (attempts : List Attempt) (conlist : SafeQueue MysqlPtr) : State × Option String :=
  match conlist.setblock semInit with
  | .error message => (⟨conlist,[],[]⟩,some message)
  | .ok blocking => connect ⟨blocking,[],[]⟩ attempts

def outcome (result : State × Option String) : Except String (SafeQueue MysqlPtr) := match result with
  | (s,none) => .ok s.conlist
  | (_,some message) => .error message

theorem connectOutcome (s : State) (attempts : List Attempt) :
    outcome (connect s attempts) = SqlPool.connect s.conlist attempts := by
  induction attempts generalizing s with
  | nil => rfl
  | cons attempt rest ih =>
    obtain ⟨initialised,connected⟩ := attempt
    cases initialised with
    | none => simp [connect,SqlPool.connect,outcome]
    | some handle =>
      simp only [connect,SqlPool.connect,reduceCtorEq,if_false]
      split
      · rfl
      · exact ih _

theorem initOutcome (semInit : Bool) (attempts : List Attempt) (conlist : SafeQueue MysqlPtr) :
    outcome (init semInit attempts conlist) = SqlPool.init semInit attempts conlist := by
  unfold init SqlPool.init
  cases conlist.setblock semInit with
  | error message => rfl
  | ok blocking => exact connectOutcome ⟨blocking,[],[]⟩ attempts

def Succeeds (attempt : Attempt) : Prop := attempt.initialised.isSome ∧ attempt.connected.isSome

instance (attempt) : Decidable (Succeeds attempt) := by unfold Succeeds; infer_instance

/- What a call that throws leaves, if it is to be as if it had not been made. -/
structure Undone (before : SafeQueue MysqlPtr) (after : State) : Prop where
  free : after.conlist.list = before.list
  closed : ∀ handle ∈ after.obtained, handle ∈ after.closed
  retry : ∀ attempts : List Attempt, (∀ attempt ∈ attempts, Succeeds attempt) →
    (init true attempts after.conlist).2 = none ∧
    (init true attempts after.conlist).1.conlist.list.length = attempts.length

def AllOrNothing (semInit : Bool) (attempts : List Attempt) (before : SafeQueue MysqlPtr) : Prop :=
  (init semInit attempts before).2 ≠ none → Undone before (init semInit attempts before).1

theorem connectSuccess {attempts : List Attempt} (good : ∀ attempt ∈ attempts, Succeeds attempt) (rest : List Attempt)
    (s : State) :
    ∃ t, connect s (attempts ++ rest) = connect t rest ∧ t.conlist.list = s.conlist.list ++ attempts.map Attempt.connected ∧
      t.conlist.isblock = s.conlist.isblock ∧ t.obtained = s.obtained ++ attempts.filterMap Attempt.initialised ∧
      t.closed = s.closed := by
  induction attempts generalizing s with
  | nil => exact ⟨s,rfl,by simp,rfl,by simp,rfl⟩
  | cons attempt attempts ih =>
    obtain ⟨⟨handle,initialised⟩,⟨con,connected⟩⟩ := (good attempt List.mem_cons_self).imp
      Option.isSome_iff_exists.mp Option.isSome_iff_exists.mp
    obtain ⟨list,isblock⟩ := s.conlist.pushBFrame attempt.connected
    obtain ⟨t,same,list',isblock',obtained',closed'⟩ := ih (fun a member => good a (List.mem_cons_of_mem _ member))
      {s with conlist := s.conlist.pushB attempt.connected, obtained := s.obtained ++ [handle]}
    refine ⟨t,?_,?_,isblock'.trans isblock,?_,closed'⟩
    · simp only [List.cons_append,connect,initialised,connected,reduceCtorEq,if_false]
      rw [← same,connected]
    · rw [list',list,List.map_cons,List.append_assoc]
      rfl
    · rw [obtained',List.filterMap_cons,initialised]
      simp

theorem connectFails {attempt : Attempt} (fails : ¬ Succeeds attempt) (rest : List Attempt) (s : State) :
    ∃ t message, connect s (attempt :: rest) = (t,some message) ∧ t.conlist = s.conlist ∧
      t.obtained = s.obtained ++ attempt.initialised.toList ∧ t.closed = s.closed := by
  cases initialised : attempt.initialised with
  | none =>
    refine ⟨s,"mysql_init failed",?_,rfl,by simp,rfl⟩
    simp only [connect,initialised]
  | some handle =>
    have missing : attempt.connected = none := by
      rw [Succeeds,initialised] at fails
      simpa using fails
    refine ⟨{s with obtained := s.obtained ++ [handle]},"mysql_real_connect failed",?_,rfl,by simp,rfl⟩
    simp only [connect,initialised,missing,if_true]

theorem setblockAgain {q : SafeQueue MysqlPtr} (blocks : q.isblock = true) (attempts : List Attempt) :
    (init true attempts q).2 = some "Block mode already enabled" := by
  simp [init,SafeQueue.setblock,blocks]

section Failing
variable {q blocking : SafeQueue MysqlPtr} {semInit : Bool} (began : q.setblock semInit = .ok blocking)
  {good : List Attempt} {bad : Attempt} (connects : ∀ attempt ∈ good, Succeeds attempt) (fails : ¬ Succeeds bad)
include began connects fails

/- A call that fails in one of its rounds keeps the connections of the rounds
before it, closes nothing, and leaves a queue on which every later call throws. -/
theorem failedInitLeaves (rest : List Attempt) :
    ∃ t message, init semInit (good ++ bad :: rest) q = (t,some message) ∧
      t.conlist.list = q.list ++ good.map Attempt.connected ∧
      t.obtained = good.filterMap Attempt.initialised ++ bad.initialised.toList ∧ t.closed = [] ∧
      ∀ attempts, (init true attempts t.conlist).2 = some "Block mode already enabled" := by
  obtain ⟨list,_,isblock⟩ := SafeQueue.setblockFresh began
  obtain ⟨s,same,list',isblock',obtained',closed'⟩ := connectSuccess connects (bad :: rest) ⟨blocking,[],[]⟩
  obtain ⟨t,message,threw,conlist,obtained,closed⟩ := connectFails fails rest s
  refine ⟨t,message,?_,?_,?_,closed.trans closed',fun attempts => setblockAgain ?_ attempts⟩
  · simp only [init,began]
    exact same.trans threw
  · rw [conlist,list',list]
  · rw [obtained,obtained',List.nil_append]
  · rw [conlist,isblock']
    exact isblock

theorem failedInitNotUndone (rest : List Attempt) : ¬ AllOrNothing semInit (good ++ bad :: rest) q := by
  obtain ⟨t,message,threw,_,_,_,again⟩ := failedInitLeaves began connects fails rest
  intro undone
  rw [AllOrNothing,threw] at undone
  have later := ((undone (by simp)).retry [] (by simp)).1
  rw [again []] at later
  contradiction

end Failing

def secondFails : List Attempt := [⟨some 7,some 7⟩,⟨some 8,none⟩]

theorem newBlocks : (SafeQueue.new : SafeQueue MysqlPtr).setblock true = .ok ⟨[],some 0,true,-1⟩ := rfl
theorem firstConnects : ∀ attempt ∈ [Attempt.mk (some 7) (some 7)], Succeeds attempt := by decide
theorem secondBroken : ¬ Succeeds ⟨some 8,none⟩ := by decide

theorem sampleNotUndone : ¬ AllOrNothing true secondFails .new :=
  failedInitNotUndone newBlocks firstConnects secondBroken []

theorem secondConnectFails :
    (init true secondFails .new).2 = some "mysql_real_connect failed" ∧
    (init true secondFails .new).1.conlist.list = [some 7] ∧
    (init true secondFails .new).1.obtained = [7,8] ∧ (init true secondFails .new).1.closed = [] ∧
    (init true [⟨some 9,some 9⟩,⟨some 10,some 10⟩] (init true secondFails .new).1.conlist).2 =
      some "Block mode already enabled" ∧
    ¬ Undone .new (init true secondFails .new).1 :=
  ⟨rfl,rfl,rfl,rfl,rfl,fun undone => by have free := undone.free; contradiction⟩

end SimpleChat.SqlInit
