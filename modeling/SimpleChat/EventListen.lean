import SimpleChat.Basis.Transition

/-! `SimpleChat::eventListen` and the destructor over the descriptors that
`socket` and `epoll_create` returned. What the system calls return is an input;
the kernel hands out no number that is open, and may hand out a closed one again. -/
namespace SimpleChat.EventListen
open Basis (System)

structure State where
  mLfd : Int
  epollFd : Int
  epSize : Nat
  users : Bool
  epfd : Int
  opened : List Int
  wrong : List Int
  deriving DecidableEq, Repr

def new : State := ⟨-1,-1,0,false,-1,[],[]⟩

structure Answers where
  socket : Int
  bind : Int
  listen : Int
  getFl : Int
  setFl : Int
  epollCreate : Int
  epollCtl : Int
  deriving DecidableEq, Repr

def setNonBlock (getFl setFl : Int) : Int := if getFl = -1 then -1 else if setFl = -1 then -1 else 0

def opens (s : State) (fd : Int) : State := {s with opened := fd :: s.opened}

def close (s : State) (fd : Int) : State :=
  if fd ∈ s.opened then {s with opened := s.opened.erase fd} else {s with wrong := s.wrong ++ [fd]}

/- The text is what the call throws. Nothing looks at the first `setNonBlock`,
which runs before the test of `socket`. -/
def eventListen (s : State) (a : Answers) : State × Option String :=
  if a.socket = -1 then (s,some "socket init defeat")
  else
    let s := opens s a.socket
    if a.bind = -1 then (close s a.socket,some "bind error")
    else if a.listen = -1 then (close s a.socket,some "listen error")
    else if setNonBlock a.getFl a.setFl = -1 then (close s a.socket,some "set nonblock error")
    else
      let s := {s with mLfd := a.socket}
      if a.epollCreate = -1 then ({close s s.mLfd with mLfd := -1},some "epoll_create1 error")
      else
        let s := {opens s a.epollCreate with epfd := a.epollCreate}
        if a.epollCtl = -1 then (close s a.epollCreate,some "epoll_ctl add listen fd error")
        else ({s with epollFd := a.epollCreate, epSize := 1024, users := true},none)

def closeEpoll (s : State) : State := if s.epollFd ≠ -1 then {close s s.epollFd with epollFd := -1} else s
def closeListening (s : State) : State := if s.mLfd ≠ -1 then {close s s.mLfd with mLfd := -1} else s

def destroy (s : State) : State := closeListening (closeEpoll s)

def Fresh (s : State) (a : Answers) : Prop :=
  (a.socket ≠ -1 → 0 ≤ a.socket ∧ a.socket ∉ s.opened) ∧
  (a.epollCreate ≠ -1 → 0 ≤ a.epollCreate ∧ a.epollCreate ∉ s.opened ∧ a.epollCreate ≠ a.socket)

instance (s a) : Decidable (Fresh s a) := by unfold Fresh; infer_instance

def step (s : State) (a : Answers) : Option State := if Fresh s a then some (eventListen s a).1 else none

def system : System State Answers := ⟨fun s => s = new,step⟩

def Listens (a : Answers) : Prop :=
  a.socket ≠ -1 ∧ a.bind ≠ -1 ∧ a.listen ≠ -1 ∧ setNonBlock a.getFl a.setFl ≠ -1

instance (a) : Decidable (Listens a) := by unfold Listens; infer_instance

theorem closeOpened (s : State) (fd : Int) : close (opens s fd) fd = s := by
  simp [close,opens]

inductive Ends (s : State) (a : Answers) : State × Option String → Prop where
  | refused (text : String) (short : ¬ Listens a) : Ends s a (s,some text)
  | noEpoll (listens : Listens a) (failed : a.epollCreate = -1) :
      Ends s a ({s with mLfd := -1},some "epoll_create1 error")
  | noControl (listens : Listens a) (created : a.epollCreate ≠ -1) (failed : a.epollCtl = -1) :
      Ends s a ({s with mLfd := a.socket, epfd := a.epollCreate, opened := a.socket :: s.opened},
        some "epoll_ctl add listen fd error")
  | listening (listens : Listens a) (created : a.epollCreate ≠ -1) (added : a.epollCtl ≠ -1) :
      Ends s a (⟨a.socket,a.epollCreate,1024,true,a.epollCreate,a.epollCreate :: a.socket :: s.opened,s.wrong⟩,none)

theorem listenEnds (s : State) (a : Answers) : Ends s a (eventListen s a) := by
  by_cases socket : a.socket = -1
  · rw [eventListen,if_pos socket]
    exact .refused _ (fun listens => listens.1 socket)
  simp only [eventListen,if_neg socket]
  by_cases bind : a.bind = -1
  · rw [if_pos bind,closeOpened]
    exact .refused _ (fun listens => listens.2.1 bind)
  rw [if_neg bind]
  by_cases listen : a.listen = -1
  · rw [if_pos listen,closeOpened]
    exact .refused _ (fun listens => listens.2.2.1 listen)
  rw [if_neg listen]
  by_cases blocks : setNonBlock a.getFl a.setFl = -1
  · rw [if_pos blocks,closeOpened]
    exact .refused _ (fun listens => listens.2.2.2 blocks)
  have listens : Listens a := ⟨socket,bind,listen,blocks⟩
  rw [if_neg blocks]
  by_cases create : a.epollCreate = -1
  · rw [if_pos create]
    have ended := Ends.noEpoll (s := s) listens create
    simpa [close,opens] using ended
  rw [if_neg create]
  by_cases control : a.epollCtl = -1
  · rw [if_pos control]
    have ended := Ends.noControl (s := s) listens create control
    simpa [close,opens] using ended
  · rw [if_neg control]
    exact .listening listens create control

/- What a caller may rely on after each call: a throw changes nothing, the
connections are not left with a closed epoll descriptor, and the destructor,
if it is next, closes everything that is open and nothing else. -/
structure Accounted (s : State) (a : Answers) (s' : State) : Prop where
  undone : (eventListen s a).2 ≠ none → s'.mLfd = s.mLfd ∧ s'.epollFd = s.epollFd ∧ s'.opened = s.opened
  named : s'.epfd = -1 ∨ s'.epfd ∈ s'.opened
  released : (destroy s').opened = [] ∧ (destroy s').wrong = []

def Once (s : State) (a : Answers) : Prop :=
  Listens a → s.mLfd = -1 ∧ (a.epollCreate ≠ -1 → a.epollCtl ≠ -1)

instance (s a) : Decidable (Once s a) := by unfold Once; infer_instance

inductive Owned : State → Prop where
  | closed (epSize : Nat) (users : Bool) : Owned ⟨-1,-1,epSize,users,-1,[],[]⟩
  | open_ (lfd epoll : Int) (epSize : Nat) (users : Bool) (socket : 0 ≤ lfd) (created : 0 ≤ epoll)
      (apart : epoll ≠ lfd) : Owned ⟨lfd,epoll,epSize,users,epoll,[epoll,lfd],[]⟩

theorem ownedReleased {s : State} (owned : Owned s) : (destroy s).opened = [] ∧ (destroy s).wrong = [] := by
  cases owned with
  | closed => exact ⟨rfl,rfl⟩
  | open_ lfd epoll epSize users socket created apart =>
    have lfdSet : lfd ≠ -1 := by omega
    have epollSet : epoll ≠ -1 := by omega
    simp [destroy,closeListening,closeEpoll,close,lfdSet,epollSet]

theorem ownedNamed {s : State} (owned : Owned s) : s.epfd = -1 ∨ s.epfd ∈ s.opened := by
  cases owned with
  | closed => exact .inl rfl
  | open_ => exact .inr List.mem_cons_self

theorem ownedStep {s s' : State} {a : Answers} (owned : Owned s) (once : Once s a) (taken : step s a = some s') :
    Owned s' ∧ Accounted s a s' := by
  simp only [step,Option.ite_none_right_eq_some,Option.some.injEq] at taken
  obtain ⟨fresh,moved⟩ := taken
  have kept : Owned s' ∧ ((eventListen s a).2 ≠ none → s' = s) := by
    have ends := listenEnds s a
    rcases result : eventListen s a with ⟨after,thrown⟩
    rw [result] at moved ends
    subst moved
    cases ends with
    | refused text short => exact ⟨owned,fun _ => rfl⟩
    | noEpoll listens failed =>
      have free := (once listens).1
      have same : {s with mLfd := -1} = s := by rw [← free]
      rw [same]
      exact ⟨owned,fun _ => rfl⟩
    | noControl listens created failed => exact absurd failed ((once listens).2 created)
    | listening listens created added =>
      have free := (once listens).1
      cases owned with
      | closed =>
        exact ⟨.open_ _ _ _ _ (fresh.1 listens.1).1 (fresh.2 created).1 (fresh.2 created).2.2,
          fun threw => absurd rfl threw⟩
      | open_ lfd epoll epSize users socket created' apart =>
        have lfdClosed : lfd = -1 := free
        omega
  refine ⟨kept.1,fun threw => ?_,ownedNamed kept.1,ownedReleased kept.1⟩
  rw [kept.2 threw]
  exact ⟨rfl,rfl,rfl⟩

theorem accountedOnce {s s' : State} {a : Answers} (owned : Owned s) (taken : step s a = some s')
    (accounted : Accounted s a s') : Once s a := by
  simp only [step,Option.ite_none_right_eq_some,Option.some.injEq] at taken
  obtain ⟨fresh,moved⟩ := taken
  intro listens
  have ends := listenEnds s a
  have undone := accounted.undone
  have released := accounted.released.1
  rcases result : eventListen s a with ⟨after,thrown⟩
  rw [result] at moved ends undone
  subst moved
  have socketOpen : 0 ≤ a.socket := (fresh.1 listens.1).1
  cases ends with
  | refused text short => exact absurd listens short
  | noEpoll _ failed =>
    have same := (undone (by simp)).1
    exact ⟨same.symm,fun created => absurd failed created⟩
  | noControl _ created failed =>
    have same := (undone (by simp)).2.2
    exact absurd same (by simp)
  | listening _ created added =>
    refine ⟨?_,fun _ => added⟩
    cases owned with
    | closed => rfl
    | open_ lfd epoll epSize users socket created' apart =>
      have lfdSet : a.socket ≠ -1 := listens.1
      simp [destroy,closeListening,closeEpoll,close,lfdSet,created] at released

/- In every sequence of calls the descriptors are accounted for exactly where
each call that gets a socket listening finds `m_lfd` at -1 and its `epoll_ctl`
does not fail. -/
theorem listenAccounted {s : State} (start : system.init s) (calls : List Answers) :
    system.Throughout Accounted s calls ↔ system.Throughout (fun s a _ => Once s a) s calls := by
  refine system.throughoutExact ?_ (.init start) calls
  intro s a s' reached taken
  have owned : Owned s := by
    refine system.invariant ?_ ?_ reached
    · rintro s rfl
      exact .closed 0 false
    · intro s a s' owned once taken
      exact (ownedStep owned once taken).1
  exact ⟨accountedOnce owned taken,fun once => (ownedStep owned once taken).2⟩

theorem retriedListen : system.Throughout Accounted new
    [⟨3,-1,0,0,0,4,0⟩,⟨3,0,0,0,0,-1,0⟩,⟨-1,0,0,0,0,4,0⟩,⟨3,0,0,0,0,4,0⟩,⟨5,-1,0,0,0,6,0⟩] :=
  (listenAccounted rfl _).mpr (by decide)

theorem failedControl : (eventListen new ⟨3,0,0,0,0,4,-1⟩).2 = some "epoll_ctl add listen fd error" ∧
    (eventListen new ⟨3,0,0,0,0,4,-1⟩).1 = ⟨3,-1,0,false,4,[3],[]⟩ ∧
    ¬ system.Throughout Accounted new [⟨3,0,0,0,0,4,-1⟩] ∧
    ¬ system.Throughout Accounted new [⟨3,0,0,0,0,4,0⟩,⟨5,0,0,0,0,6,0⟩] := by
  refine ⟨rfl,rfl,fun good => ?_,fun good => ?_⟩
  · exact absurd (good _ rfl).1.named (by decide)
  · exact absurd ((good _ rfl).2 _ rfl).1.released.1 (by decide)

end SimpleChat.EventListen
