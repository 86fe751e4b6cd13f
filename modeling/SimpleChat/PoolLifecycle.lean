import Mathlib.Data.List.Perm.Basic

/-! The life of a `ThreadPool`: constructor, `start`, `close` and destructor, and
`SimpleChat` that owns one. The vector behind `threads` is owned or freed; what
`pthread_create` answers is an input, and so is what freed memory reads as. -/
namespace SimpleChat.PoolLifecycle

inductive Fault where
  | useAfterFree
  | doubleFree
  deriving DecidableEq, Repr

inductive Vec where
  | owned (ids : List Nat)
  | freed
  deriving DecidableEq, Repr

structure Join where
  id : Nat
  isClose : Bool
  deriving DecidableEq, Repr

structure State where
  threadCount : Int
  isClose : Bool
  threads : Vec
  sem : Nat
  created : List Nat
  joins : List Join
  frees : Nat
  faults : List Fault
  deriving DecidableEq, Repr

def new (threadCount maxrequest : Int) : Except String State :=
  if threadCount ≤ 0 ∨ maxrequest ≤ 0 then .error "ThreadPool constructor invalid argument"
  else .ok ⟨threadCount,true,.owned [],0,[],[],0,[]⟩

def pushBack (s : State) (id : Nat) : State := match s.threads with
  | .owned ids => {s with threads := .owned (ids ++ [id])}
  | .freed => {s with faults := s.faults ++ [.useAfterFree]}

def deleteThreads (s : State) : State := match s.threads with
  | .owned _ => {s with threads := .freed, frees := s.frees + 1}
  | .freed => {s with frees := s.frees + 1, faults := s.faults ++ [.doubleFree]}

def createFrom (pthreadCreate : Nat → Option Nat) : Nat → Nat → State → State × Option String
  | 0, _, s => (s,none)
  | left+1, i, s => match pthreadCreate i with
      | none => (deleteThreads s,some "ThreadPool start pthread_create error")
      | some id => createFrom pthreadCreate left (i + 1) (pushBack {s with created := s.created ++ [id]} id)

def start (pthreadCreate : Nat → Option Nat) (s : State) : State × Option String :=
  createFrom pthreadCreate s.threadCount.toNat 0 {s with isClose := false}

def close (s : State) : State := {s with isClose := true, sem := s.sem + s.threadCount.toNat}

def closes : Nat → State → State
  | 0, s => s
  | n+1, s => closes n (close s)

/- The joins of the destructor; in a freed vector they go by what the memory holds. -/
def joinThreads (stale : List Nat) (s : State) : State := match s.threads with
  | .owned ids => {s with joins := s.joins ++ ids.map (⟨·,s.isClose⟩)}
  | .freed => {s with joins := s.joins ++ stale.map (⟨·,s.isClose⟩), faults := s.faults ++ [.useAfterFree]}

def destroy (stale : List Nat) (s : State) : State := deleteThreads (joinThreads stale (close s))

/- The vector is freed once and not used after, and every thread is joined once,
at a time when it is told to leave its loop. -/
structure Clean (s : State) : Prop where
  freed : s.frees = 1
  sound : s.faults = []
  joined : (s.joins.map Join.id).Perm s.created
  told : ∀ join ∈ s.joins, join.isClose = true

def Recorded (s : State) : Prop := ∃ ids, s.threads = .owned ids ∧ ids.Perm s.created

def Destroyable (stale : List Nat) (s : State) : Prop := Recorded s ∧ Clean (destroy stale s)

def Complete (s t : State) (ids made : List Nat) : Prop :=
  t = {s with threads := .owned (ids ++ made), created := s.created ++ made}

def Broken (s t : State) (made : List Nat) : Prop :=
  t = {s with threads := .freed, created := s.created ++ made, frees := s.frees + 1}

theorem createComplete {pthreadCreate : Nat → Option Nat} (left : Nat) {i : Nat} {s : State} {ids : List Nat}
    (owned : s.threads = .owned ids) (answers : ∀ j, i ≤ j → j < i + left → (pthreadCreate j).isSome) :
    (createFrom pthreadCreate left i s).2 = none ∧
    ∃ made, made.length = left ∧ Complete s (createFrom pthreadCreate left i s).1 ids made := by
  induction left generalizing i s ids with
  | zero =>
    refine ⟨rfl,[],rfl,?_⟩
    simp only [Complete,createFrom,List.append_nil,← owned]
  | succ left ih =>
    obtain ⟨id,answer⟩ := Option.isSome_iff_exists.mp (answers i (Nat.le_refl i) (by omega))
    have pushed : pushBack {s with created := s.created ++ [id]} id =
        {s with threads := .owned (ids ++ [id]), created := s.created ++ [id]} := by
      simp only [pushBack,owned]
    simp only [createFrom,answer,pushed]
    obtain ⟨quiet,made,count,complete⟩ := ih (i := i + 1)
      (s := {s with threads := .owned (ids ++ [id]), created := s.created ++ [id]})
      rfl (fun j low high => answers j (by omega) (by omega))
    refine ⟨quiet,id :: made,by rw [List.length_cons,count],?_⟩
    rw [Complete] at complete ⊢
    rw [complete]
    simp

theorem createBroken {pthreadCreate : Nat → Option Nat} (left : Nat) {i j : Nat} {s : State} {ids : List Nat}
    (owned : s.threads = .owned ids) (low : i ≤ j) (high : j < i + left) (fails : pthreadCreate j = none) :
    (createFrom pthreadCreate left i s).2 = some "ThreadPool start pthread_create error" ∧
    ∃ made, Broken s (createFrom pthreadCreate left i s).1 made := by
  induction left generalizing i s ids with
  | zero => omega
  | succ left ih =>
    cases answer : pthreadCreate i with
    | none =>
      refine ⟨by simp only [createFrom,answer],[],?_⟩
      simp only [Broken,createFrom,answer,deleteThreads,owned,List.append_nil]
    | some id =>
      have later : i + 1 ≤ j := by
        rcases Nat.eq_or_lt_of_le low with same | less
        · rw [same,fails] at answer
          contradiction
        · exact less
      have pushed : pushBack {s with created := s.created ++ [id]} id =
          {s with threads := .owned (ids ++ [id]), created := s.created ++ [id]} := by
        simp only [pushBack,owned]
      simp only [createFrom,answer,pushed]
      obtain ⟨threw,made,broken⟩ := ih (i := i + 1)
        (s := {s with threads := .owned (ids ++ [id]), created := s.created ++ [id]})
        rfl later (by omega)
      refine ⟨threw,id :: made,?_⟩
      rw [Broken] at broken ⊢
      rw [broken]
      simp

theorem closesFrame (n : Nat) (s : State) :
    (closes n s).threads = s.threads ∧ (closes n s).created = s.created ∧ (closes n s).joins = s.joins ∧
    (closes n s).frees = s.frees ∧ (closes n s).faults = s.faults := by
  induction n generalizing s with
  | zero => exact ⟨rfl,rfl,rfl,rfl,rfl⟩
  | succ n ih => exact ih (close s)

theorem newFresh {threadCount maxrequest : Int} {s : State} (made : new threadCount maxrequest = .ok s) :
    s = ⟨threadCount,true,.owned [],0,[],[],0,[]⟩ ∧ 0 < threadCount := by
  unfold new at made
  split at made
  · contradiction
  · rename_i valid
    exact ⟨(Except.ok.inj made).symm,by omega⟩

theorem brokenDestroyed (stale : List Nat) {s : State} (freed : s.threads = .freed) :
    (destroy stale s).frees = s.frees + 1 ∧ (destroy stale s).faults = s.faults ++ [.useAfterFree,.doubleFree] := by
  have ends : destroy stale s = {close s with
      joins := s.joins ++ stale.map (⟨·,true⟩), frees := s.frees + 1, faults := s.faults ++ [.useAfterFree] ++ [.doubleFree]} := by
    simp only [destroy,joinThreads,close,deleteThreads,freed]
  rw [ends]
  exact ⟨rfl,List.append_assoc _ _ _⟩

theorem ownedDestroyed {stale ids : List Nat} {s : State} (owned : s.threads = .owned ids) :
    destroy stale s =
      {close s with threads := .freed, joins := s.joins ++ ids.map (⟨·,true⟩), frees := s.frees + 1} := by
  simp only [destroy,joinThreads,close,deleteThreads,owned]

section Lifecycle
variable {threadCount maxrequest : Int} {s : State} (made : new threadCount maxrequest = .ok s)
  {pthreadCreate : Nat → Option Nat}
include made

theorem startComplete (answers : ∀ j, j < threadCount.toNat → (pthreadCreate j).isSome) :
    (start pthreadCreate s).2 = none ∧
    ∃ ids, (start pthreadCreate s).1 = ⟨threadCount,false,.owned ids,0,ids,[],0,[]⟩ := by
  obtain ⟨rfl,_⟩ := newFresh made
  obtain ⟨quiet,ids,_,complete⟩ := createComplete threadCount.toNat (s := ⟨threadCount,false,.owned [],0,[],[],0,[]⟩) rfl
    (fun j (_ : 0 ≤ j) high => answers j (by omega))
  exact ⟨quiet,ids,complete⟩

theorem startBroken {i : Nat} (inside : i < threadCount.toNat) (fails : pthreadCreate i = none) :
    (start pthreadCreate s).2 = some "ThreadPool start pthread_create error" ∧
    ∃ created, (start pthreadCreate s).1 = ⟨threadCount,false,.freed,0,created,[],1,[]⟩ := by
  obtain ⟨rfl,_⟩ := newFresh made
  obtain ⟨threw,created,broken⟩ := createBroken threadCount.toNat (s := ⟨threadCount,false,.owned [],0,[],[],0,[]⟩) rfl
    (Nat.zero_le i) (by omega) fails
  exact ⟨threw,created,broken⟩

theorem startDestroyable (answers : ∀ j, j < threadCount.toNat → (pthreadCreate j).isSome) (n : Nat) (stale : List Nat) :
    Destroyable stale (closes n (start pthreadCreate s).1) := by
  obtain ⟨_,ids,began⟩ := startComplete made answers
  rw [began]
  obtain ⟨threads,created,joins,frees,faults⟩ := closesFrame n ⟨threadCount,false,.owned ids,0,ids,[],0,[]⟩
  refine ⟨⟨ids,threads,by rw [created]⟩,?_⟩
  rw [ownedDestroyed threads]
  refine ⟨congrArg (· + 1) frees,faults,?_,?_⟩
  · simp [close,created,joins,Function.comp_def]
  · simp [joins]

/- After a failing `start` there is no vector left: what was created is recorded
nowhere, and the destructor reads the freed vector and frees it again. -/
theorem failedStartNotDestroyable {i : Nat} (inside : i < threadCount.toNat) (fails : pthreadCreate i = none) (n : Nat)
    (stale : List Nat) :
    ¬ Recorded (closes n (start pthreadCreate s).1) ∧
    (destroy stale (closes n (start pthreadCreate s).1)).frees = 2 ∧
    (destroy stale (closes n (start pthreadCreate s).1)).faults = [.useAfterFree,.doubleFree] ∧
    ¬ Destroyable stale (closes n (start pthreadCreate s).1) := by
  obtain ⟨_,made,broken⟩ := startBroken made inside fails
  rw [broken]
  obtain ⟨threads,_,_,frees,faults⟩ := closesFrame n ⟨threadCount,false,.freed,0,made,[],1,[]⟩
  obtain ⟨twice,misused⟩ := brokenDestroyed stale threads
  rw [frees] at twice
  rw [faults] at misused
  have unrecorded : ¬ Recorded (closes n ⟨threadCount,false,.freed,0,made,[],1,[]⟩) := by
    rintro ⟨ids,owned,_⟩
    rw [threads] at owned
    contradiction
  exact ⟨unrecorded,twice,misused,fun destroyable => unrecorded destroyable.1⟩

end Lifecycle

structure Chat where
  mPool : Option State
  mThreadCount : Int
  deriving DecidableEq, Repr

def threadPool (pthreadCreate : Nat → Option Nat) (chat : Chat) : Chat × Option String :=
  if chat.mThreadCount ≤ 0 then (chat,some "thread count must be positive")
  else match chat.mPool with
    | some _ => (chat,none)
    | none => match new chat.mThreadCount 10000 with
      | .error message => (chat,some message)
      | .ok pool =>
          let started := start pthreadCreate pool
          ({chat with mPool := some started.1},started.2)

def destroyChat (stale : List Nat) (chat : Chat) : Option State :=
  chat.mPool.map (fun pool => destroy stale (close pool))

theorem chatFreesTwice {threadCount : Int} (positive : 0 < threadCount) {pthreadCreate : Nat → Option Nat} {i : Nat}
    (inside : i < threadCount.toNat) (fails : pthreadCreate i = none) (stale : List Nat) :
    (threadPool pthreadCreate ⟨none,threadCount⟩).2 = some "ThreadPool start pthread_create error" ∧
    ∃ pool, destroyChat stale (threadPool pthreadCreate ⟨none,threadCount⟩).1 = some pool ∧ pool.frees = 2 ∧
      pool.faults = [.useAfterFree,.doubleFree] := by
  have made : new threadCount 10000 = .ok ⟨threadCount,true,.owned [],0,[],[],0,[]⟩ := if_neg (by omega)
  obtain ⟨threw,created,broken⟩ := startBroken made inside fails
  have path : threadPool pthreadCreate ⟨none,threadCount⟩ =
      (⟨some ⟨threadCount,false,.freed,0,created,[],1,[]⟩,threadCount⟩,
        some "ThreadPool start pthread_create error") := by
    simp only [threadPool,if_neg (show ¬ threadCount ≤ 0 by omega),made,broken,threw]
  rw [path]
  obtain ⟨twice,misused⟩ := brokenDestroyed stale
    (s := close ⟨threadCount,false,.freed,0,created,[],1,[]⟩) rfl
  exact ⟨rfl,_,rfl,twice,misused⟩

def secondFails : Nat → Option Nat := fun i => if i = 0 then some 11 else none

def fresh : State := ⟨2,true,.owned [],0,[],[],0,[]⟩

theorem freshMade : new 2 10000 = .ok fresh := rfl

theorem sampleNotDestroyable :
    ¬ Destroyable [] (closes 1 (start secondFails fresh).1) ∧ (destroy [] (closes 1 (start secondFails fresh).1)).frees = 2 :=
  have result := failedStartNotDestroyable freshMade (show 1 < (2 : Int).toNat by decide)
    (show secondFails 1 = none from rfl) 1 []
  ⟨result.2.2.2,result.2.1⟩

theorem secondFailsLeaks :
    new 2 10000 = .ok fresh ∧ (start secondFails fresh).2 = some "ThreadPool start pthread_create error" ∧
    ¬ Clean (destroy [] (closes 1 (start secondFails fresh).1)) ∧
    (destroy [] (closes 1 (start secondFails fresh).1)).created = [11] ∧
    (destroy [] (closes 1 (start secondFails fresh).1)).joins = [] :=
  ⟨rfl,rfl,fun clean => by have once := clean.freed; contradiction,rfl,rfl⟩

end SimpleChat.PoolLifecycle
