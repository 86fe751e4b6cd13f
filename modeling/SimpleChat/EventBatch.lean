import SimpleChat.Server

/-! The `for` loop over one batch of `epoll_wait`, with every call it makes in
the order it makes them, next to the handling of each event in turn. What
`accept` will answer is a list that the listening events use up. -/
namespace SimpleChat.EventBatch
open Server (maxFd)

def EPOLLIN : UInt32 := 0x001
def EPOLLOUT : UInt32 := 0x004
def EPOLLERR : UInt32 := 0x008
def EPOLLHUP : UInt32 := 0x010
def EPOLLRDHUP : UInt32 := 0x2000

structure EpollEvent where
  fd : Int
  events : UInt32
  deriving DecidableEq, Repr

inductive Accepted where
  | client (userfd : Int) (added : Bool)
  | again
  | failed
  deriving DecidableEq, Repr

inductive Effect where
  | accept
  | setFd (fd : Int)
  | add (fd : Int)
  | cleanAllData (fd : Int)
  | delete (fd : Int)
  | close (fd : Int)
  | append (fd state : Int)
  deriving DecidableEq, Repr

def welcome (userfd : Int) (added : Bool) : List Effect :=
  if maxFd ≤ userfd then [.close userfd]
  else [.setFd userfd,.add userfd] ++ if added then [] else [.cleanAllData userfd,.close userfd]

def acceptLoop : List Accepted → List Effect × List Accepted
  | [] => ([.accept],[])
  | .again :: rest => ([.accept],rest)
  | .failed :: rest => ([.accept],rest)
  | .client userfd added :: rest =>
      let later := acceptLoop rest
      (.accept :: welcome userfd added ++ later.1,later.2)

def handleTask (mPool : Bool) (sockfd state : Int) : List Effect :=
  if maxFd ≤ sockfd ∨ mPool = false then [] else [.append sockfd state]

def handleRead (mPool : Bool) (sockfd : Int) : List Effect := handleTask mPool sockfd 0
def handleWrite (mPool : Bool) (sockfd : Int) : List Effect := handleTask mPool sockfd 1

def hangs (events : UInt32) : Bool := events &&& (EPOLLERR ||| EPOLLRDHUP ||| EPOLLHUP) ≠ 0
def readable (events : UInt32) : Bool := events &&& EPOLLIN ≠ 0
def writable (events : UInt32) : Bool := events &&& EPOLLOUT ≠ 0

variable (mPool : Bool) (mLfd : Int)

def batchLoop (backlog : List Accepted) : List EpollEvent → List Effect × List Accepted
  | [] => ([],backlog)
  | e :: rest =>
      if e.fd = mLfd then
        let accepts := acceptLoop backlog
        let later := batchLoop accepts.2 rest
        (accepts.1 ++ later.1,later.2)
      else if hangs e.events then
        -- `break` leaves the loop over the batch.
        ([.delete e.fd,.close e.fd],backlog)
      else if readable e.events then
        let later := batchLoop backlog rest
        (handleRead mPool e.fd ++ later.1,later.2)
      else if writable e.events then
        let later := batchLoop backlog rest
        (handleWrite mPool e.fd ++ later.1,later.2)
      else batchLoop backlog rest

inductive Waited where
  | batch (events : List EpollEvent)
  | interrupted
  | failed
  deriving DecidableEq, Repr

def eventLoop (backlog : List Accepted) : List Waited → List Effect × Option String
  | [] => ([],none)
  | .interrupted :: rest => eventLoop backlog rest
  | .failed :: _ => ([],some "epoll_wait error")
  | .batch events :: rest =>
      let now := batchLoop mPool mLfd backlog events
      let later := eventLoop now.2 rest
      (now.1 ++ later.1,later.2)

def clientDue (e : EpollEvent) : List Effect :=
  if hangs e.events then [.delete e.fd,.close e.fd]
  else if readable e.events then [.append e.fd 0]
  else if writable e.events then [.append e.fd 1]
  else []

def due (backlog : List Accepted) (e : EpollEvent) : List Effect × List Accepted :=
  if e.fd = mLfd then acceptLoop backlog else (clientDue e,backlog)

def eachInTurn (backlog : List Accepted) : List EpollEvent → List Effect × List Accepted
  | [] => ([],backlog)
  | e :: rest =>
      let now := due mLfd backlog e
      let later := eachInTurn now.2 rest
      (now.1 ++ later.1,later.2)

def waitsInTurn (backlog : List Accepted) : List Waited → List Effect × Option String
  | [] => ([],none)
  | .interrupted :: rest => waitsInTurn backlog rest
  | .failed :: _ => ([],some "epoll_wait error")
  | .batch events :: rest =>
      let now := eachInTurn mLfd backlog events
      let later := waitsInTurn now.2 rest
      (now.1 ++ later.1,later.2)

def HangsUp (e : EpollEvent) : Prop := e.fd ≠ mLfd ∧ hangs e.events = true
def Asks (e : EpollEvent) : Prop := e.fd = mLfd ∨ hangs e.events = true ∨ readable e.events = true ∨ writable e.events = true

instance (e) : Decidable (HangsUp mLfd e) := by unfold HangsUp; infer_instance
instance (e) : Decidable (Asks mLfd e) := by unfold Asks; infer_instance

/- No event that asks for anything comes behind a hang-up. -/
def HangUpsLast (batch : List EpollEvent) : Prop := batch.Pairwise (fun e e' => HangsUp mLfd e → ¬ Asks mLfd e')

theorem acceptsSome (backlog : List Accepted) : (acceptLoop backlog).1 ≠ [] := by
  cases backlog with
  | nil => exact List.cons_ne_nil _ _
  | cons answer rest => cases answer <;> exact List.cons_ne_nil _ _

theorem clientDueNone {e : EpollEvent} : clientDue e = [] ↔ hangs e.events = false ∧ readable e.events = false ∧ writable e.events = false := by
  unfold clientDue
  split
  · simp [*]
  · split
    · simp [*]
    · split <;> simp_all

section
variable {mLfd}

theorem dueNone {backlog : List Accepted} {e : EpollEvent} : (due mLfd backlog e).1 = [] ↔ ¬ Asks mLfd e := by
  unfold due Asks
  by_cases listening : e.fd = mLfd
  · simp [listening,acceptsSome]
  · simp [listening,clientDueNone]

theorem dueQuiet {backlog : List Accepted} {e : EpollEvent} (quiet : ¬ Asks mLfd e) :
    due mLfd backlog e = ([],backlog) := by
  have other : e.fd ≠ mLfd := fun same => quiet (.inl same)
  have nothing : (due mLfd backlog e).1 = [] := dueNone.mpr quiet
  rw [due,if_neg other] at nothing ⊢
  exact Prod.ext nothing rfl

theorem eachQuiet {backlog : List Accepted} {batch : List EpollEvent} :
    eachInTurn mLfd backlog batch = ([],backlog) ↔ ∀ e ∈ batch, ¬ Asks mLfd e := by
  induction batch with
  | nil => simp [eachInTurn]
  | cons e rest ih =>
    rw [List.forall_mem_cons,← ih]
    constructor
    · intro same
      simp only [eachInTurn,Prod.mk.injEq,List.append_eq_nil_iff] at same
      have quiet := dueNone.mp same.1.1
      rw [dueQuiet quiet] at same
      exact ⟨quiet,Prod.ext same.1.2 same.2⟩
    · rintro ⟨quiet,same⟩
      simp only [eachInTurn,dueQuiet quiet,same,List.append_nil]

end

theorem batchLoopCons {backlog : List Accepted} {e : EpollEvent} (rest : List EpollEvent) (range : e.fd < maxFd) :
    batchLoop true mLfd backlog (e :: rest) =
      if HangsUp mLfd e then due mLfd backlog e
      else ((due mLfd backlog e).1 ++ (batchLoop true mLfd (due mLfd backlog e).2 rest).1,
        (batchLoop true mLfd (due mLfd backlog e).2 rest).2) := by
  have below : ¬ (maxFd ≤ e.fd ∨ true = false) := by simpa using range
  by_cases listening : e.fd = mLfd
  · simp [batchLoop,due,HangsUp,listening]
  · by_cases hang : hangs e.events
    · simp [batchLoop,due,clientDue,HangsUp,listening,hang]
    · simp only [batchLoop,due,clientDue,HangsUp,listening,hang,handleRead,handleWrite,handleTask,if_neg below]
      by_cases read : readable e.events
      · simp [read]
      · by_cases write : writable e.events <;> simp [read,write]

/- With the pool there and every descriptor in its range, a batch is handled as
its events would be one by one exactly when no hang-up comes before an event
that asks for something. -/
theorem batchInTurnIff (backlog : List Accepted) {batch : List EpollEvent} (range : ∀ e ∈ batch, e.fd < maxFd) :
    batchLoop true mLfd backlog batch = eachInTurn mLfd backlog batch ↔ HangUpsLast mLfd batch := by
  induction batch generalizing backlog with
  | nil => simp [batchLoop,eachInTurn,HangUpsLast]
  | cons e rest ih =>
    obtain ⟨low,range⟩ := List.forall_mem_cons.mp range
    rw [batchLoopCons mLfd rest low,HangUpsLast,List.pairwise_cons]
    by_cases hang : HangsUp mLfd e
    · have kept : (due mLfd backlog e).2 = backlog := by rw [due,if_neg hang.1]
      simp only [if_pos hang,eachInTurn,kept]
      constructor
      · intro same
        have nothing : (eachInTurn mLfd backlog rest).1 = [] := by
          have := congrArg Prod.fst same
          simpa using this.symm
        have left : (eachInTurn mLfd backlog rest).2 = backlog := by rw [← congrArg Prod.snd same,kept]
        have quiet := eachQuiet.mp (Prod.ext nothing left)
        refine ⟨fun e' member _ => quiet e' member,?_⟩
        exact List.pairwise_of_forall_mem_list (fun _ _ e' member _ => quiet e' member)
      · rintro ⟨quiet,_⟩
        rw [eachQuiet.mpr (fun e' member => quiet e' member hang),List.append_nil]
        exact Prod.ext rfl kept
    · rw [if_neg hang]
      simp only [eachInTurn,Prod.mk.injEq,List.append_cancel_left_eq,hang,false_implies,implies_true,true_and]
      rw [← Prod.ext_iff]
      exact ih _ range

theorem waitsInTurnOf (backlog : List Accepted) {waits : List Waited}
    (good : ∀ events, .batch events ∈ waits → (∀ e ∈ events, e.fd < maxFd) ∧ HangUpsLast mLfd events) :
    eventLoop true mLfd backlog waits = waitsInTurn mLfd backlog waits := by
  induction waits generalizing backlog with
  | nil => rfl
  | cons waited rest ih =>
    have later (backlog : List Accepted) := ih backlog (fun events member => good events (List.mem_cons_of_mem _ member))
    cases waited with
    | batch events =>
      obtain ⟨range,last⟩ := good events List.mem_cons_self
      rw [eventLoop,waitsInTurn,(batchInTurnIff mLfd backlog range).mpr last,later]
    | interrupted => rw [eventLoop,waitsInTurn,later]
    | failed => rfl

theorem hangUpLast :
    batchLoop true 3 [] [⟨5,EPOLLIN⟩,⟨6,EPOLLOUT⟩,⟨7,EPOLLIN ||| EPOLLRDHUP⟩] =
      eachInTurn 3 [] [⟨5,EPOLLIN⟩,⟨6,EPOLLOUT⟩,⟨7,EPOLLIN ||| EPOLLRDHUP⟩] :=
  (batchInTurnIff 3 [] (by decide)).mpr (by unfold HangUpsLast; decide)

theorem hangUpFirst :
    batchLoop true 3 [] [⟨5,EPOLLIN ||| EPOLLRDHUP⟩,⟨6,EPOLLIN⟩] = ([.delete 5,.close 5],[]) ∧
    eachInTurn 3 [] [⟨5,EPOLLIN ||| EPOLLRDHUP⟩,⟨6,EPOLLIN⟩] = ([.delete 5,.close 5,.append 6 0],[]) ∧
    batchLoop true 3 [] [⟨5,EPOLLIN ||| EPOLLRDHUP⟩,⟨6,EPOLLIN⟩] ≠
      eachInTurn 3 [] [⟨5,EPOLLIN ||| EPOLLRDHUP⟩,⟨6,EPOLLIN⟩] := by
  decide

section Server
variable {ω : Type} [DecidableEq ω] [Fintype ω]

def bits (mask : Server.Mask) : UInt32 :=
  (if mask.err then EPOLLERR else 0) ||| (if mask.hup then EPOLLHUP else 0) ||| (if mask.rdhup then EPOLLRDHUP else 0) |||
  (if mask.inp then EPOLLIN else 0) ||| (if mask.out then EPOLLOUT else 0)

def ofReady (ready : Server.Ready) : EpollEvent := match ready with
  | .listening => ⟨mLfd,EPOLLIN⟩
  | .client fd mask => ⟨fd,bits mask⟩

def ahead : Server.LoopPc → List Server.Ready
  | .batch rest | .accepting rest | .adding _ rest | .appending rest => rest

theorem bitsShow (mask : Server.Mask) :
    hangs (bits mask) = mask.hangs ∧ readable (bits mask) = mask.inp ∧ writable (bits mask) = mask.out := by
  obtain ⟨err,hup,rdhup,inp,out,_⟩ := mask
  unfold hangs readable writable bits Server.Mask.hangs
  revert err hup rdhup inp out
  dsimp only
  decide

theorem handleAhead {s s' : Server.State ω} {fd state : Int} {rest : List Server.Ready}
    (taken : Server.handleTask s fd state rest = some s') : ahead s'.loop = rest := by
  unfold Server.handleTask at taken
  split at taken
  · cases Option.some.inj taken
    rfl
  · obtain ⟨pool,_,taken⟩ := Option.bind_eq_some_iff.mp taken
    cases Option.some.inj taken
    dsimp only
    split <;> rfl

theorem serverAhead {parse : Text → Except String Json} {cstate : ConnState} {s s' : Server.State ω}
    {e : Server.Ready} {rest : List Server.Ready} (here : s.loop = .batch (e :: rest)) (client : e.fd? ≠ some mLfd)
    (taken : Server.step parse cstate s .handle = some s') :
    ahead s'.loop = if HangsUp mLfd (ofReady mLfd e) then [] else rest := by
  simp only [Server.step,Option.ite_none_right_eq_some] at taken
  obtain ⟨_,taken⟩ := taken
  cases e with
  | listening =>
    simp only [Server.act,here,Option.some.injEq] at taken
    subst taken
    rw [if_neg (fun hang => hang.1 rfl)]
    rfl
  | client fd mask =>
    have other : fd ≠ mLfd := fun same => client (congrArg some same)
    simp only [Server.act,here] at taken
    simp only [ofReady,HangsUp,(bitsShow mask).1,other,not_false_eq_true,true_and,ne_eq]
    by_cases hang : mask.hangs = true
    · rw [if_pos hang] at taken ⊢
      cases Option.some.inj taken
      rfl
    · rw [if_neg hang] at taken ⊢
      split at taken
      · exact handleAhead taken
      · split at taken
        · exact handleAhead taken
        · cases Option.some.inj taken
          rfl

end Server
end SimpleChat.EventBatch
