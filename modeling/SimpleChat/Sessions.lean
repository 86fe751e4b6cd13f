import SimpleChat.Exclusion

/-! The running server with marks on the side: which connection of a descriptor
each byte in `m_buf` came from, and which one the reply in `m_writebuf`
answers. Each `accept` of the descriptor begins a new connection. The marks
follow the server and change nothing in it. -/
namespace SimpleChat.Server
open Basis (System)
open Function (update)

/- `gen` numbers the connections of a descriptor, and `session` is the number
that was current when the worker entered its call. -/
structure Marks (ω : Type) where
  gen : Int → Nat
  bufFrom : Int → Nat → Option Nat
  replyFrom : Int → List (Option Nat)
  session : ω → Nat

structure Traced (ω : Type) where
  server : State ω
  marks : Marks ω

variable {ω : Type} [DecidableEq ω]

def handed (c : TcpConn) (bufFrom : Nat → Option Nat) : List (Option Nat) :=
  (List.range (cString c.mBuf).length).map bufFrom

def arrived (c : TcpConn) (data : Text) (gen : Nat) (bufFrom : Nat → Option Nat) (i : Nat) : Option Nat :=
  if c.alllen ≤ i ∧ i < c.alllen + data.length then some gen else bufFrom i

variable (parse : Text → Except String Json) (cstate : ConnState)

/- A reply belongs to the connection it is computed for and to those its request
came from; the NUL that `strcpy` puts behind it ends what is sent of `m_writebuf`. -/
def Marks.task (marks : Marks ω) (fd : Int) (c : TcpConn) : TaskEvent → Marks ω
  | .read (.bytes data) =>
      {marks with bufFrom := update marks.bufFrom fd (arrived c data (marks.gen fd) (marks.bufFrom fd))}
  | .read (.ends .eof) | .resetBuf => {marks with bufFrom := update marks.bufFrom fd (fun _ => none)}
  | .parse => match c.request parse with
      | .ok request =>
          if (TcpConn.answer request.id).isSome then
            {marks with replyFrom := update marks.replyFrom fd (some (marks.gen fd) :: handed c (marks.bufFrom fd))}
          else marks
      | .error _ => marks
  | .clear => {marks with replyFrom := update marks.replyFrom fd []}
  | _ => marks

def Marks.act (marks : Marks ω) (s : State ω) : Event ω → Marks ω
  | .add false => match s.loop with
      | .adding fd _ =>
          {marks with bufFrom := update marks.bufFrom fd (fun _ => none), replyFrom := update marks.replyFrom fd []}
      | _ => marks
  | .pool (.dispatch w) => match s.pool.workers w with
      | .popped (_,some fd) => {marks with session := update marks.session w (marks.gen fd)}
      | _ => marks
  | .task w e => match s.pool.workers w with
      | .running _ fd => marks.task parse fd (s.users fd) e
      | _ => marks
  | _ => marks

def opens (s s' : State ω) (fd : Int) : Bool := !s.opened fd && s'.opened fd

def Marks.begin (marks : Marks ω) (s s' : State ω) : Marks ω :=
  {marks with gen := fun fd => if opens s s' fd then marks.gen fd + 1 else marks.gen fd}

def Marks.fresh : Marks ω := ⟨fun _ => 0,fun _ _ => none,fun _ => [],fun _ => 0⟩

def runsOn (fd : Int) : ThreadPool.WorkerPc Int → Bool
  | .running _ reqstruct => decide (reqstruct = fd)
  | _ => false

def TaskIsolated (marks : Marks ω) (c : TcpConn) (fd : Int) : TaskEvent → Prop
  | .parse => ∀ mark ∈ handed c (marks.bufFrom fd), mark = some (marks.gen fd)
  | .write _ => c.pendingReply ≠ [] →
      marks.replyFrom fd ≠ [] ∧ ∀ mark ∈ marks.replyFrom fd, mark = some (marks.gen fd)
  | _ => True

/- `parseData` gets bytes of the current connection only, and what `sendData`
hands to `write` answers a request of that connection. -/
def Isolated (t : Traced ω) : Event ω → Prop
  | .task w e => match t.server.pool.workers w with
      | .running _ fd => TaskIsolated t.marks (t.server.users fd) fd e
      | _ => True
  | _ => True

def Settled (t : Traced ω) (fd : Int) : Prop :=
  ∀ v, runsOn fd (t.server.pool.workers v) = true → t.server.bodies v = .resetting → t.marks.session v = t.marks.gen fd

def ParsesSettled (t : Traced ω) : Event ω → Prop
  | .task w .parse => match t.server.pool.workers w with
      | .running _ fd => Settled t fd
      | _ => True
  | _ => True

instance (marks : Marks ω) (c fd e) : Decidable (TaskIsolated marks c fd e) := match e with
  | .parse => inferInstanceAs (Decidable (∀ mark ∈ handed c (marks.bufFrom fd), mark = some (marks.gen fd)))
  | .write _ => inferInstanceAs (Decidable (c.pendingReply ≠ [] →
      marks.replyFrom fd ≠ [] ∧ ∀ mark ∈ marks.replyFrom fd, mark = some (marks.gen fd)))
  | .guard | .read _ | .modify | .resetBuf | .resetLen | .delete | .clear | .resume => .isTrue trivial

instance (t : Traced ω) (e) : Decidable (Isolated t e) := by
  unfold Isolated
  split
  · split <;> infer_instance
  · infer_instance

instance [Fintype ω] (t : Traced ω) (fd) : Decidable (Settled t fd) := by
  unfold Settled
  infer_instance

instance [Fintype ω] (t : Traced ω) (e) : Decidable (ParsesSettled t e) := by
  unfold ParsesSettled
  split
  · split <;> infer_instance
  · infer_instance

theorem runsOnIff {fd : Int} {pc : ThreadPool.WorkerPc Int} : runsOn fd pc = true ↔ ∃ state, pc = .running state fd := by
  cases pc with
  | running state reqstruct => simp [runsOn]
  | _ => simp [runsOn]

variable [Fintype ω]

def tracedStep (t : Traced ω) (e : Event ω) : Option (Traced ω) :=
  (step parse cstate t.server e).map (fun s => ⟨s,(t.marks.act parse t.server e).begin t.server s⟩)

def tracedSystem (ω : Type) [DecidableEq ω] [Fintype ω] (parse : Text → Except String Json) (cstate : ConnState) :
    System (Traced ω) (Event ω) :=
  ⟨fun t => Initial t.server ∧ t.marks = .fresh,tracedStep parse cstate⟩

theorem tracedRun (t : Traced ω) (es : List (Event ω)) :
    ((tracedSystem ω parse cstate).run t es).map Traced.server = (system ω parse cstate).run t.server es := by
  induction es generalizing t with
  | nil => rfl
  | cons e es ih =>
    simp only [System.run,tracedSystem,system,tracedStep] at ih ⊢
    cases step parse cstate t.server e with
    | none => rfl
    | some s => exact ih _

end SimpleChat.Server
