import SimpleChat.Basis.Custody
import SimpleChat.EchoServer

/-! `main` of the echo server: a thread for each connection, which is handed the
descriptor in a cell of the heap. The kernel and the allocator choose any number
that is not in use. -/
namespace SimpleChat.EchoThreads
open Basis (System Simulation)
open EchoServer (answer handleClient)
open Function (update)

/- A call on a descriptor that is not open, on a cell that is not allocated, and
`pthread_detach` of a `thread_id` that no `pthread_create` has set. -/
inductive Misuse where
  | close (fd : Int)
  | load (cell : Nat)
  | free (cell : Nat)
  | detach
  deriving DecidableEq, Repr

inductive MainPc where
  | accepting
  | accepted (newFd : Int)
  | filled (newFd : Int) (cell : Nat)
  | refused (newFd : Int) (cell : Nat)
  | freeing (cell : Nat)
  | detaching (threadId : Option Nat)
  | crashed (newFd : Int)
  deriving DecidableEq, Repr

inductive ThreadPc where
  | absent
  | born (cell : Nat)
  | reading (clientFd : Int)
  | replying (clientFd : Int) (read : Text)
  | closing (clientFd : Int)
  | ended
  deriving DecidableEq, Repr

structure State where
  main : MainPc
  threads : Nat → ThreadPc
  opened : Int → Bool
  heap : Nat → Option Int
  reads : Int → List Text
  sent : Int → List Text
  wrong : List Misuse

/- `malloc none` is an allocation that fails, whose result `main` stores through. -/
inductive Event where
  | accept (result : Option Int)
  | malloc (cell : Option Nat)
  | create (thread : Option Nat)
  | closeNew
  | freeNew
  | detach
  | begin (t : Nat)
  | read (t : Nat) (data : Text)
  | send (t : Nat)
  | close (t : Nat)
  deriving DecidableEq, Repr

def close (s : State) (fd : Int) : State :=
  if s.opened fd then {s with opened := update s.opened fd false} else {s with wrong := s.wrong ++ [.close fd]}

def free (s : State) (cell : Nat) : State :=
  if (s.heap cell).isSome then {s with heap := update s.heap cell none} else {s with wrong := s.wrong ++ [.free cell]}

def act (s : State) : Event → Option State
  | .accept result => match s.main, result with
      | .accepting, none => some s
      | .accepting, some newFd =>
          if newFd < 0 ∨ s.opened newFd = true then none
          else some {s with main := .accepted newFd, opened := update s.opened newFd true,
                            reads := update s.reads newFd [], sent := update s.sent newFd []}
      | _, _ => none
  | .malloc cell => match s.main, cell with
      | .accepted newFd, none => some {s with main := .crashed newFd}
      | .accepted newFd, some cell =>
          if (s.heap cell).isSome then none
          else some {s with main := .filled newFd cell, heap := update s.heap cell (some newFd)}
      | _, _ => none
  | .create thread => match s.main, thread with
      | .filled _ cell, some t =>
          if s.threads t = .absent then some {s with main := .detaching (some t), threads := update s.threads t (.born cell)}
          else none
      | .filled newFd cell, none => some {s with main := .refused newFd cell}
      | _, _ => none
  | .closeNew => match s.main with
      | .refused newFd cell => some {close s newFd with main := .freeing cell}
      | _ => none
  | .freeNew => match s.main with
      | .freeing cell => some {free s cell with main := .detaching none}
      | _ => none
  | .detach => match s.main with
      | .detaching (some _) => some {s with main := .accepting}
      | .detaching none => some {s with main := .accepting, wrong := s.wrong ++ [.detach]}
      | _ => none
  | .begin t => match s.threads t with
      | .born cell => match s.heap cell with
          | some clientFd => some {free s cell with threads := update s.threads t (.reading clientFd)}
          | none => some {s with threads := update s.threads t .ended, wrong := s.wrong ++ [.load cell]}
      | _ => none
  | .read t data => match s.threads t with
      | .reading clientFd =>
          if data = [] then some {s with threads := update s.threads t (.closing clientFd)}
          else if data.length < EchoServer.bufferSize then
            some {s with threads := update s.threads t (.replying clientFd data),
                         reads := update s.reads clientFd (s.reads clientFd ++ [data])}
          else none
      | _ => none
  | .send t => match s.threads t with
      | .replying clientFd data =>
          some {s with threads := update s.threads t (.reading clientFd),
                       sent := update s.sent clientFd (s.sent clientFd ++ [answer data])}
      | _ => none
  | .close t => match s.threads t with
      | .closing clientFd => some {close s clientFd with threads := update s.threads t .ended}
      | _ => none

def step (s : State) (e : Event) : Option State := match s.main with
  | .crashed _ => none
  | _ => act s e

def start : State := ⟨.accepting,fun _ => .absent,fun _ => false,fun _ => none,fun _ => [],fun _ => [],[]⟩

def system : System State Event := ⟨fun s => s = start,step⟩

inductive Moves (s : State) : Event → State → Prop where
  | noClient (here : s.main = .accepting) : Moves s (.accept none) s
  | accepted {newFd : Int} (here : s.main = .accepting) (unused : s.opened newFd = false) :
      Moves s (.accept (some newFd))
        {s with main := .accepted newFd, opened := update s.opened newFd true,
                reads := update s.reads newFd [], sent := update s.sent newFd []}
  | crashed {newFd : Int} (here : s.main = .accepted newFd) : Moves s (.malloc none) {s with main := .crashed newFd}
  | filled {newFd : Int} {cell : Nat} (here : s.main = .accepted newFd) (unused : s.heap cell = none) :
      Moves s (.malloc (some cell)) {s with main := .filled newFd cell, heap := update s.heap cell (some newFd)}
  | created {newFd : Int} {cell t : Nat} (here : s.main = .filled newFd cell) (unused : s.threads t = .absent) :
      Moves s (.create (some t)) {s with main := .detaching (some t), threads := update s.threads t (.born cell)}
  | refused {newFd : Int} {cell : Nat} (here : s.main = .filled newFd cell) :
      Moves s (.create none) {s with main := .refused newFd cell}
  | closeNew {newFd : Int} {cell : Nat} (here : s.main = .refused newFd cell) :
      Moves s .closeNew {close s newFd with main := .freeing cell}
  | freeNew {cell : Nat} (here : s.main = .freeing cell) : Moves s .freeNew {free s cell with main := .detaching none}
  | detached {t : Nat} (here : s.main = .detaching (some t)) : Moves s .detach {s with main := .accepting}
  | misdetached (here : s.main = .detaching none) :
      Moves s .detach {s with main := .accepting, wrong := s.wrong ++ [.detach]}
  | begins {t cell : Nat} {clientFd : Int} (here : s.threads t = .born cell) (content : s.heap cell = some clientFd) :
      Moves s (.begin t) {free s cell with threads := update s.threads t (.reading clientFd)}
  | lost {t cell : Nat} (here : s.threads t = .born cell) (freed : s.heap cell = none) :
      Moves s (.begin t) {s with threads := update s.threads t .ended, wrong := s.wrong ++ [.load cell]}
  | ends {t : Nat} {clientFd : Int} (here : s.threads t = .reading clientFd) :
      Moves s (.read t []) {s with threads := update s.threads t (.closing clientFd)}
  | reads {t : Nat} {clientFd : Int} {data : Text} (here : s.threads t = .reading clientFd) (some_ : data ≠ []) :
      Moves s (.read t data)
        {s with threads := update s.threads t (.replying clientFd data),
                reads := update s.reads clientFd (s.reads clientFd ++ [data])}
  | sends {t : Nat} {clientFd : Int} {data : Text} (here : s.threads t = .replying clientFd data) :
      Moves s (.send t)
        {s with threads := update s.threads t (.reading clientFd),
                sent := update s.sent clientFd (s.sent clientFd ++ [answer data])}
  | closes {t : Nat} {clientFd : Int} (here : s.threads t = .closing clientFd) :
      Moves s (.close t) {close s clientFd with threads := update s.threads t .ended}

theorem actMoves {s s' : State} {e : Event} (taken : act s e = some s') : Moves s e s' := by
  cases e with
  | accept result =>
    simp only [act] at taken
    split at taken <;> try contradiction
    · rename_i here
      cases Option.some.inj taken
      exact .noClient here
    · rename_i newFd here
      split at taken <;> try contradiction
      rename_i fresh
      cases Option.some.inj taken
      exact .accepted here (by simpa using (not_or.mp fresh).2)
  | malloc cell =>
    simp only [act] at taken
    split at taken <;> try contradiction
    · rename_i newFd here
      cases Option.some.inj taken
      exact .crashed here
    · rename_i newFd cell here
      split at taken <;> try contradiction
      rename_i unused
      cases Option.some.inj taken
      exact .filled here (by simpa using unused)
  | create thread =>
    simp only [act] at taken
    split at taken <;> try contradiction
    · rename_i newFd cell t here
      split at taken <;> try contradiction
      rename_i unused
      cases Option.some.inj taken
      exact .created here unused
    · rename_i newFd cell here
      cases Option.some.inj taken
      exact .refused here
  | closeNew =>
    simp only [act] at taken
    split at taken <;> try contradiction
    rename_i newFd cell here
    cases Option.some.inj taken
    exact .closeNew here
  | freeNew =>
    simp only [act] at taken
    split at taken <;> try contradiction
    rename_i cell here
    cases Option.some.inj taken
    exact .freeNew here
  | detach =>
    simp only [act] at taken
    split at taken <;> try contradiction
    · rename_i t here
      cases Option.some.inj taken
      exact .detached here
    · rename_i here
      cases Option.some.inj taken
      exact .misdetached here
  | begin t =>
    simp only [act] at taken
    split at taken <;> try contradiction
    rename_i cell here
    split at taken
    · rename_i clientFd content
      cases Option.some.inj taken
      exact .begins here content
    · rename_i freed
      cases Option.some.inj taken
      exact .lost here freed
  | read t data =>
    simp only [act] at taken
    split at taken <;> try contradiction
    rename_i clientFd here
    split at taken
    · rename_i nothing
      cases Option.some.inj taken
      subst nothing
      exact .ends here
    · rename_i some_
      simp only [Option.ite_none_right_eq_some,Option.some.injEq] at taken
      obtain ⟨_,rfl⟩ := taken
      exact .reads here some_
  | send t =>
    simp only [act] at taken
    split at taken <;> try contradiction
    rename_i clientFd data here
    cases Option.some.inj taken
    exact .sends here
  | close t =>
    simp only [act] at taken
    split at taken <;> try contradiction
    rename_i clientFd here
    cases Option.some.inj taken
    exact .closes here

theorem stepMoves {s s' : State} {e : Event} (taken : step s e = some s') : Moves s e s' := by
  unfold step at taken
  split at taken
  · cases taken
  · exact actMoves taken

section Custody

def MainPc.cell : MainPc → Option Nat
  | .filled _ cell | .refused _ cell | .freeing cell => some cell
  | .accepting | .accepted _ | .detaching _ | .crashed _ => none

def ThreadPc.cell : ThreadPc → Option Nat
  | .born cell => some cell
  | .absent | .reading _ | .replying _ _ | .closing _ | .ended => none

def MainPc.fd : MainPc → Option Int
  | .accepted fd | .filled fd _ | .refused fd _ | .crashed fd => some fd
  | .accepting | .freeing _ | .detaching _ => none

def ThreadPc.fd (heap : Nat → Option Int) : ThreadPc → Option Int
  | .born cell => heap cell
  | .reading fd | .replying fd _ | .closing fd => some fd
  | .absent | .ended => none

/- `main` is the holder `none`. -/
def holders {R : Type} (main : Option R) (threads : Nat → Option R) (h : Option Nat) : Option R := h.elim main threads

def cellView (s : State) : Basis.Custody.State (Option Nat) Nat :=
  ⟨fun cell => (s.heap cell).isSome,holders s.main.cell (fun t => (s.threads t).cell)⟩

def fdView (s : State) : Basis.Custody.State (Option Nat) Int :=
  ⟨s.opened,holders s.main.fd (fun t => (s.threads t).fd s.heap)⟩

variable {R : Type}

theorem holdersMain (main main' : Option R) (threads : Nat → Option R) :
    holders main' threads = update (holders main threads) none main' := by
  funext h
  cases h with
  | none => simp only [holders,Option.elim_none,Function.update_self]
  | some t => simp [holders]

theorem holdersThread (main : Option R) (threads : Nat → Option R) (t : Nat) (x : Option R) :
    holders main (update threads t x) = update (holders main threads) (some t) x := by
  funext h
  cases h with
  | none => simp [holders]
  | some u =>
    by_cases own : u = t
    · simp only [holders,own,Option.elim_some,Function.update_self]
    · simp [holders,own]

theorem threadMoved {β : Type} {f : ThreadPc → β} (threads : Nat → ThreadPc) (t : Nat) (pc : ThreadPc) :
    (fun u => f (update threads t pc u)) = update (fun u => f (threads u)) t (f pc) :=
  Function.comp_update f threads t pc

theorem threadStays {β : Type} {f : ThreadPc → β} {threads : Nat → ThreadPc} {t : Nat} {pc : ThreadPc}
    (same : f pc = f (threads t)) : (fun u => f (update threads t pc u)) = fun u => f (threads u) := by
  rw [threadMoved,same]
  exact Function.update_eq_self t (fun u => f (threads u))

variable {s s' : State} {e : Event}

theorem bornAlive (cells : Basis.Custody.Kept (cellView s)) {t cell : Nat} (here : s.threads t = .born cell)
    (freed : s.heap cell = none) : False := by
  have had : (cellView s).held (some t) = some cell := congrArg ThreadPc.cell here
  have alive := cells.live (some t) cell had
  simp only [cellView,freed] at alive
  cases alive

theorem freeHeld (cells : Basis.Custody.Kept (cellView s)) {h : Option Nat} {cell : Nat} (had : (cellView s).held h = some cell) :
    free s cell = {s with heap := update s.heap cell none} :=
  if_pos (cells.live h cell had)

theorem closeHeld (fds : Basis.Custody.Kept (fdView s)) {h : Option Nat} {fd : Int} (had : (fdView s).held h = some fd) :
    close s fd = {s with opened := update s.opened fd false} :=
  if_pos (fds.live h fd had)

theorem allocLive (heap : Nat → Option Int) (cell : Nat) (x : Option Int) :
    (fun c => (update heap cell x c).isSome) = update (fun c => (heap c).isSome) cell x.isSome :=
  Function.comp_update Option.isSome heap cell x

theorem cellStep (cells : Basis.Custody.Kept (cellView s)) (moves : Moves s e s') :
    cellView s' = cellView s ∨ ∃ f, Basis.Custody.step (cellView s) f = some (cellView s') := by
  cases moves with
  | noClient => exact .inl rfl
  | accepted here | crashed here | detached here | misdetached here | refused here =>
    exact .inl (by simp only [cellView,here,MainPc.cell])
  | @filled newFd cell here unused =>
    refine .inr ⟨.obtain_ none cell,?_⟩
    have fresh : (cellView s).live cell = false ∧ (cellView s).held none = none := by
      simp [cellView,holders,here,unused,MainPc.cell]
    rw [Basis.Custody.step,if_pos fresh]
    simp only [cellView,allocLive,Option.isSome_some,MainPc.cell,← holdersMain]
  | @created newFd cell t here unused =>
    refine .inr ⟨.pass none (some t),?_⟩
    have empty : (cellView s).held (some t) = none := congrArg ThreadPc.cell unused
    have had : (cellView s).held none = some cell := congrArg MainPc.cell here
    rw [Basis.Custody.step,if_pos empty,had]
    simp only [cellView,threadMoved (f := ThreadPc.cell),← holdersMain,← holdersThread]
    rfl
  | @closeNew newFd cell here =>
    refine .inl ?_
    unfold close
    split <;> simp only [cellView,here,MainPc.cell]
  | @freeNew cell here =>
    refine .inr ⟨.release none,?_⟩
    have had : (cellView s).held none = some cell := congrArg MainPc.cell here
    rw [Basis.Custody.releaseHeld had,freeHeld cells had]
    simp only [cellView,allocLive,Option.isSome_none,← holdersMain,MainPc.cell]
  | @begins t cell clientFd here content =>
    refine .inr ⟨.release (some t),?_⟩
    have had : (cellView s).held (some t) = some cell := congrArg ThreadPc.cell here
    rw [Basis.Custody.releaseHeld had,freeHeld cells had]
    simp only [cellView,allocLive,Option.isSome_none,threadMoved (f := ThreadPc.cell),← holdersThread]
    rfl
  | lost here freed => exact (bornAlive cells here freed).elim
  | ends here | reads here | sends here =>
    refine .inl ?_
    simp only [cellView]
    rw [threadStays (f := ThreadPc.cell) (by rw [here]; rfl)]
  | @closes t clientFd here =>
    refine .inl ?_
    unfold close
    split <;>
    · simp only [cellView]
      rw [threadStays (f := ThreadPc.cell) (by rw [here]; rfl)]

theorem fdsHeap {threads : Nat → ThreadPc} {heap heap' : Nat → Option Int}
    (same : ∀ t cell, threads t = .born cell → heap' cell = heap cell) :
    (fun t => (threads t).fd heap') = fun t => (threads t).fd heap := by
  funext t
  cases here : threads t with
  | born cell => exact same t cell here
  | _ => rfl

theorem bornOther (cells : Basis.Custody.Kept (cellView s)) {h : Option Nat} {cell : Nat} (had : (cellView s).held h = some cell)
    {t c : Nat} (born : s.threads t = .born c) (other : some t ≠ h) (x : Option Int) : update s.heap cell x c = s.heap c := by
  have has : (cellView s).held (some t) = some c := congrArg ThreadPc.cell born
  have apart : c ≠ cell := fun same => other (cells.only _ _ _ has (same ▸ had))
  exact Function.update_of_ne apart _ _

def fdEvent : Event → Option (Basis.Custody.Event (Option Nat) Int)
  | .accept (some newFd) => some (.obtain_ none newFd)
  | .create (some t) => some (.pass none (some t))
  | .closeNew => some (.release none)
  | .close t => some (.release (some t))
  | _ => none

theorem fdStep (cells : Basis.Custody.Kept (cellView s)) (fds : Basis.Custody.Kept (fdView s))
    (content : ∀ fd cell, s.main = .filled fd cell → s.heap cell = some fd) (moves : Moves s e s') :
    fdView s' = fdView s ∨ ∃ f, fdEvent e = some f ∧ Basis.Custody.step (fdView s) f = some (fdView s') := by
  cases moves with
  | noClient => exact .inl rfl
  | crashed here | detached here | misdetached here | refused here => exact .inl (by simp only [fdView,here,MainPc.fd])
  | @accepted newFd here unused =>
    refine .inr ⟨.obtain_ none newFd,rfl,?_⟩
    have fresh : (fdView s).live newFd = false ∧ (fdView s).held none = none := by
      simp [fdView,holders,here,unused,MainPc.fd]
    rw [Basis.Custody.step,if_pos fresh]
    simp only [fdView,MainPc.fd,← holdersMain]
  | @filled newFd cell here unused =>
    refine .inl ?_
    simp only [fdView,here,MainPc.fd]
    rw [fdsHeap]
    intro t c born
    have alive := cells.live (some t) c (congrArg ThreadPc.cell born)
    have apart : c ≠ cell := fun same => by
      simp only [cellView,same,unused] at alive
      cases alive
    exact Function.update_of_ne apart _ _
  | @created newFd cell t here unused =>
    refine .inr ⟨.pass none (some t),rfl,?_⟩
    have empty : (fdView s).held (some t) = none := congrArg (ThreadPc.fd s.heap) unused
    have had : (fdView s).held none = some newFd := congrArg MainPc.fd here
    have own : (ThreadPc.born cell).fd s.heap = some newFd := content newFd cell here
    rw [Basis.Custody.step,if_pos empty,had]
    simp only [fdView,threadMoved (f := ThreadPc.fd s.heap),own,← holdersMain,← holdersThread]
    rfl
  | @closeNew newFd cell here =>
    refine .inr ⟨.release none,rfl,?_⟩
    have had : (fdView s).held none = some newFd := congrArg MainPc.fd here
    rw [Basis.Custody.releaseHeld had,closeHeld fds had]
    simp only [fdView,MainPc.fd,← holdersMain]
  | @freeNew cell here =>
    refine .inl ?_
    have had : (cellView s).held none = some cell := congrArg MainPc.cell here
    rw [freeHeld cells had]
    simp only [fdView,here,MainPc.fd]
    rw [fdsHeap (fun t c born => bornOther cells had born (by simp) none)]
  | @begins t cell clientFd here content =>
    refine .inl ?_
    have had : (cellView s).held (some t) = some cell := congrArg ThreadPc.cell here
    rw [freeHeld cells had]
    simp only [fdView]
    have others : (fun u => (update s.threads t (.reading clientFd) u).fd (update s.heap cell none)) =
        fun u => (update s.threads t (.reading clientFd) u).fd s.heap := by
      refine fdsHeap (fun u c born => ?_)
      by_cases own : u = t
      · rw [own,Function.update_self] at born
        cases born
      · rw [Function.update_of_ne own] at born
        exact bornOther cells had born (by simpa using own) none
    rw [others,threadStays (f := ThreadPc.fd s.heap) (by rw [here]; exact content.symm)]
  | lost here freed => exact (bornAlive cells here freed).elim
  | ends here | reads here | sends here =>
    refine .inl ?_
    simp only [fdView]
    rw [threadStays (f := ThreadPc.fd s.heap) (by rw [here]; rfl)]
  | @closes t clientFd here =>
    refine .inr ⟨.release (some t),rfl,?_⟩
    have had : (fdView s).held (some t) = some clientFd := congrArg (ThreadPc.fd s.heap) here
    rw [Basis.Custody.releaseHeld had,closeHeld fds had]
    simp only [fdView,threadMoved (f := ThreadPc.fd s.heap),← holdersThread]
    rfl

end Custody
section Served

def ThreadPc.pending : ThreadPc → List Text
  | .replying _ data => [answer data]
  | .absent | .born _ | .reading _ | .closing _ | .ended => []

def pending (s : State) (h : Option Nat) : List Text := h.elim [] (fun t => (s.threads t).pending)

def Served (s : State) (h : Option Nat) (fd : Int) : Prop :=
  s.sent fd ++ pending s h = (s.reads fd).map answer ∧ ∀ read ∈ s.reads fd, read ≠ []

structure Sound (s : State) : Prop where
  cells : Basis.Custody.Kept (cellView s)
  fds : Basis.Custody.Kept (fdView s)
  content : ∀ fd cell, s.main = .filled fd cell → s.heap cell = some fd
  misuse : ∀ m ∈ s.wrong, m = .detach
  served : ∀ h fd, (fdView s).held h = some fd → Served s h fd

variable {s s' : State} {e : Event}

theorem contentStep (sound : Sound s) (moves : Moves s e s') (fd : Int) (cell : Nat) (here' : s'.main = .filled fd cell) :
    s'.heap cell = some fd := by
  cases moves with
  | filled => cases here'; exact Function.update_self ..
  | @begins t c clientFd here content =>
    have had : (cellView s).held (some t) = some c := congrArg ThreadPc.cell here
    rw [freeHeld sound.cells had] at here' ⊢
    have main : (cellView s).held none = some cell := congrArg MainPc.cell here'
    have apart : cell ≠ c := fun same => by
      cases sound.cells.only _ _ _ main (same ▸ had)
    simp only [Function.update_of_ne apart,sound.content fd cell here']
  | @closes t clientFd here =>
    have had : (fdView s).held (some t) = some clientFd := congrArg (ThreadPc.fd s.heap) here
    rw [closeHeld sound.fds had] at here' ⊢
    exact sound.content fd cell here'
  | noClient | lost | ends | reads | sends => exact sound.content fd cell here'
  | _ => cases here'

theorem misuseStep (sound : Sound s) (moves : Moves s e s') :
    s'.wrong = s.wrong ++ if s.main = .detaching none ∧ e = .detach then [.detach] else [] := by
  have other {wrong : List Misuse} (same : wrong = s.wrong) (fine : ¬ (s.main = .detaching none ∧ e = .detach)) :
      wrong = s.wrong ++ if s.main = .detaching none ∧ e = .detach then [.detach] else [] := by
    rw [if_neg fine,List.append_nil,same]
  cases moves with
  | misdetached here => rw [if_pos ⟨here,rfl⟩]
  | detached here => exact other rfl (by simp [here])
  | @closeNew newFd cell here =>
    have had : (fdView s).held none = some newFd := congrArg MainPc.fd here
    exact other (by rw [closeHeld sound.fds had]) (by simp)
  | @freeNew cell here =>
    have had : (cellView s).held none = some cell := congrArg MainPc.cell here
    exact other (by rw [freeHeld sound.cells had]) (by simp)
  | @begins t cell clientFd here =>
    have had : (cellView s).held (some t) = some cell := congrArg ThreadPc.cell here
    exact other (by rw [freeHeld sound.cells had]) (by simp)
  | lost here freed => exact (bornAlive sound.cells here freed).elim
  | @closes t clientFd here =>
    have had : (fdView s).held (some t) = some clientFd := congrArg (ThreadPc.fd s.heap) here
    exact other (by rw [closeHeld sound.fds had]) (by simp)
  | _ => exact other rfl (by simp)

theorem heldBefore (sound : Sound s) (moves : Moves s e s') {h : Option Nat} {fd : Int} (held : (fdView s').held h = some fd) :
    (fdView s).held h = some fd ∨ (e = .accept (some fd) ∧ h = none) ∨
    ∃ t, e = .create (some t) ∧ h = some t ∧ (fdView s).held none = some fd := by
  rcases fdStep sound.cells sound.fds sound.content moves with same | ⟨f,hands,taken⟩
  · exact .inl (same ▸ held)
  · rcases Basis.Custody.heldFrom taken held with had | ⟨rfl,_⟩ | ⟨g,rfl,had⟩
    · exact .inl had
    · cases e with
      | accept result =>
        cases result with
        | none => cases hands
        | some newFd => cases hands; exact .inr (.inl ⟨rfl,rfl⟩)
      | create thread => cases thread <;> cases hands
      | _ => cases hands
    · cases e with
      | accept result => cases result <;> cases hands
      | create thread =>
        cases thread with
        | none => cases hands
        | some t => cases hands; exact .inr (.inr ⟨t,rfl,rfl,had⟩)
      | _ => cases hands

theorem servedStep (sound : Sound s) (moves : Moves s e s') (h : Option Nat) (fd : Int) (held : (fdView s').held h = some fd) :
    Served s' h fd := by
  have before := heldBefore sound moves held
  have kept (had : (fdView s).held h = some fd) (sent : s'.sent fd = s.sent fd) (reads : s'.reads fd = s.reads fd)
      (same : pending s' h = pending s h) : Served s' h fd := by
    have served := sound.served h fd had
    unfold Served at served ⊢
    rwa [sent,reads,same]
  have quiet {t : Nat} {pc : ThreadPc} (threads : s'.threads = update s.threads t pc) (same : pc.pending = (s.threads t).pending) :
      pending s' h = pending s h := by
    rw [pending,threads,threadStays (f := ThreadPc.pending) same,pending]
  have elsewhere {t : Nat} {pc : ThreadPc} (threads : s'.threads = update s.threads t pc) (other : h ≠ some t) :
      pending s' h = pending s h := by
    cases h with
    | none => rfl
    | some u =>
      have apart : u ≠ t := fun same => other (congrArg some same)
      simp only [pending,Option.elim_some,threads,Function.update_of_ne apart]
  cases moves with
  | @accepted newFd here unused =>
    rcases before with had | ⟨event,rfl⟩ | ⟨t,event,_⟩
    · have apart : fd ≠ newFd := fun same => by
        have alive := sound.fds.live h fd had
        simp only [fdView,same,unused] at alive
        cases alive
      exact kept had (Function.update_of_ne apart _ _) (Function.update_of_ne apart _ _) rfl
    · cases event
      simp [Served,pending]
    · cases event
  | @created newFd cell t here unused =>
    have still := quiet rfl (by rw [unused]; rfl)
    rcases before with had | ⟨event,_⟩ | ⟨u,event,rfl,had⟩
    · exact kept had rfl rfl still
    · cases event
    · cases event
      have served := sound.served none fd had
      simpa [Served,pending,ThreadPc.pending] using served
  | @reads t clientFd data here some_ =>
    have own : (fdView s).held (some t) = some clientFd := congrArg (ThreadPc.fd s.heap) here
    have had : (fdView s).held h = some fd := before.resolve_right (by simp)
    by_cases mine : h = some t
    · subst mine
      cases Option.some.inj (own.symm.trans had)
      obtain ⟨answers,filled⟩ := sound.served (some t) fd had
      simp only [pending,Option.elim_some,here,ThreadPc.pending,List.append_nil] at answers
      refine ⟨?_,?_⟩
      · simp only [pending,Option.elim_some,Function.update_self,ThreadPc.pending,answers,List.map_append,List.map_singleton]
      · simp only [Function.update_self,List.mem_append,List.mem_singleton]
        rintro read (old | rfl)
        · exact filled read old
        · exact some_
    · have apart : fd ≠ clientFd := fun same => mine (sound.fds.only _ _ _ had (same ▸ own))
      exact kept had rfl (Function.update_of_ne apart _ _) (elsewhere rfl mine)
  | @sends t clientFd data here =>
    have own : (fdView s).held (some t) = some clientFd := congrArg (ThreadPc.fd s.heap) here
    have had : (fdView s).held h = some fd := before.resolve_right (by simp)
    by_cases mine : h = some t
    · subst mine
      cases Option.some.inj (own.symm.trans had)
      obtain ⟨answers,filled⟩ := sound.served (some t) fd had
      simp only [pending,Option.elim_some,here,ThreadPc.pending] at answers
      refine ⟨?_,filled⟩
      simp only [pending,Option.elim_some,Function.update_self,ThreadPc.pending,List.append_nil,answers]
    · have apart : fd ≠ clientFd := fun same => mine (sound.fds.only _ _ _ had (same ▸ own))
      exact kept had (Function.update_of_ne apart _ _) rfl (elsewhere rfl mine)
  | ends here | lost here => exact kept (before.resolve_right (by simp)) rfl rfl (quiet rfl (by rw [here]; rfl))
  | @begins t cell clientFd here content =>
    have had : (cellView s).held (some t) = some cell := congrArg ThreadPc.cell here
    rw [freeHeld sound.cells had] at kept quiet ⊢
    exact kept (before.resolve_right (by simp)) rfl rfl (quiet rfl (by rw [here]; rfl))
  | @closes t clientFd here =>
    have had : (fdView s).held (some t) = some clientFd := congrArg (ThreadPc.fd s.heap) here
    rw [closeHeld sound.fds had] at kept quiet ⊢
    exact kept (before.resolve_right (by simp)) rfl rfl (quiet rfl (by rw [here]; rfl))
  | @closeNew newFd cell here =>
    have had : (fdView s).held none = some newFd := congrArg MainPc.fd here
    rw [closeHeld sound.fds had] at kept ⊢
    exact kept (before.resolve_right (by simp)) rfl rfl rfl
  | @freeNew cell here =>
    have had : (cellView s).held none = some cell := congrArg MainPc.cell here
    rw [freeHeld sound.cells had] at kept ⊢
    exact kept (before.resolve_right (by simp)) rfl rfl rfl
  | _ => exact kept (before.resolve_right (by simp)) rfl rfl rfl

theorem soundStep (sound : Sound s) (taken : step s e = some s') : Sound s' := by
  have moves := stepMoves taken
  refine ⟨?_,?_,contentStep sound moves,fun m member => ?_,servedStep sound moves⟩
  · rcases cellStep sound.cells moves with same | ⟨f,stepped⟩
    · exact same ▸ sound.cells
    · exact Basis.Custody.stepKept sound.cells stepped
  · rcases fdStep sound.cells sound.fds sound.content moves with same | ⟨f,_,stepped⟩
    · exact same ▸ sound.fds
    · exact Basis.Custody.stepKept sound.fds stepped
  · rw [misuseStep sound moves] at member
    rcases List.mem_append.mp member with old | new
    · exact sound.misuse m old
    · split at new
      · exact List.mem_singleton.mp new
      · cases new

theorem startSound : Sound start := by
  have nobody : ∀ h, (fdView start).held h = none := fun h => by cases h <;> rfl
  refine ⟨Basis.Custody.startKept (fun _ => rfl) (fun h => by cases h <;> rfl),
    Basis.Custody.startKept (fun _ => rfl) nobody,fun fd cell here => ?_,fun m member => ?_,fun h fd held => ?_⟩
  · cases here
  · cases member
  · rw [nobody h] at held
    cases held

end Served

def MainPc.refusing : MainPc → Nat
  | .refused _ _ | .freeing _ | .detaching none => 1
  | .accepting | .accepted _ | .filled _ _ | .detaching (some _) | .crashed _ => 0

def Event.refuses : Event → Bool
  | .create none => true
  | _ => false

variable {s s' : State} {e : Event}

theorem freeMain (s : State) (cell : Nat) : (free s cell).main = s.main := by
  unfold free
  split <;> rfl

theorem closeMain (s : State) (fd : Int) : (close s fd).main = s.main := by
  unfold close
  split <;> rfl

theorem refusedStep (sound : Sound s) (taken : step s e = some s') :
    s'.wrong.length + s'.main.refusing = s.wrong.length + s.main.refusing + if e.refuses then 1 else 0 := by
  have moves := stepMoves taken
  rw [misuseStep sound moves,List.length_append]
  cases moves with
  | misdetached here | detached here | accepted here | crashed here => simp [here,MainPc.refusing,Event.refuses]
  | filled here | created here | refused here | closeNew here | freeNew here => simp [here,MainPc.refusing,Event.refuses]
  | begins => simp [freeMain,Event.refuses]
  | closes => simp [closeMain,Event.refuses]
  | _ => simp [Event.refuses]

/- Each connection is served by one thread and answered as if it were alone; every
descriptor and every cell has one owner, which closes or frees it once, and no call
goes wrong but a `pthread_detach` for each `pthread_create` that failed. -/
theorem eachClientServed {es : List Event} (ran : system.run start es = some s) :
    (∀ fd, s.opened fd = true → ∃! h, (fdView s).held h = some fd) ∧
    (∀ cell, (s.heap cell).isSome = true → ∃! h, (cellView s).held h = some cell) ∧
    (∀ t fd, s.threads t = .reading fd ∨ s.threads t = .closing fd → s.sent fd = handleClient (s.reads fd)) ∧
    (∀ m ∈ s.wrong, m = .detach) ∧ s.wrong.length + s.main.refusing = es.countP Event.refuses := by
  have kept : ∀ s (h : List Event) e s', Sound s ∧ s.wrong.length + s.main.refusing = h.countP Event.refuses →
      system.step s e = some s' → Sound s' ∧ s'.wrong.length + s'.main.refusing = (e :: h).countP Event.refuses := by
    rintro s h e s' ⟨sound,count⟩ taken
    refine ⟨soundStep sound taken,?_⟩
    rw [refusedStep sound taken,count,List.countP_cons]
  obtain ⟨sound,count⟩ := system.runFold (h := []) kept ⟨startSound,rfl⟩ es ran
  rw [List.foldl_flip_cons_eq_append',List.append_nil,List.countP_reverse] at count
  refine ⟨fun fd => sound.fds.holder,fun cell => sound.cells.holder,fun t fd here => ?_,sound.misuse,count⟩
  have held : (fdView s).held (some t) = some fd := by
    rcases here with here | here <;> exact congrArg (ThreadPc.fd s.heap) here
  obtain ⟨answers,filled⟩ := sound.served (some t) fd held
  have nothing : pending s (some t) = [] := by
    rcases here with here | here <;> exact congrArg ThreadPc.pending here
  rw [EchoServer.handleClientAnswers filled,← answers,nothing,List.append_nil]

def sampleClients : List Event :=
  [.accept (some 5),.malloc (some 0),.create none,.closeNew,.freeNew,.detach,.accept (some 5),.malloc (some 0),
   .create (some 1),.detach,.begin 1,.read 1 (ascii "hi\n"),.send 1,.read 1 []]

theorem secondServed : ∃ s, system.run start sampleClients = some s ∧ s.wrong = [.detach] ∧ s.wrong.length + s.main.refusing = 1 ∧
    s.sent 5 = handleClient [ascii "hi\n"] := by
  have runs : (system.run start sampleClients).isSome = true := by decide +kernel
  obtain ⟨s,ran⟩ := Option.isSome_iff_exists.mp runs
  have law := eachClientServed ran
  cases Option.some.inj ran
  exact ⟨_,ran,rfl,law.2.2.2.2,law.2.2.1 1 5 (.inr rfl)⟩

end SimpleChat.EchoThreads
