import SimpleChat.Basis.Transition
import SimpleChat.Task

/-! One connection and its peer: bytes arrive and the peer may close at any
time, also between two reads of one call. What counts as a disconnect is that
`read_once` throws away bytes it has read, or takes the descriptor out of the
epoll set. -/
namespace SimpleChat.Disconnect
open Basis (System)

structure Link where
  conn : TcpConn
  body : Body
  pending : Text
  closed : Bool
  registered : Bool
  deriving DecidableEq, Repr

inductive Event where
  | arrive (data : Text)
  | close
  | enter (body : Body)
  | task (e : TaskEvent)
  deriving DecidableEq, Repr

/- A `read` of no bytes returns 0; any other one returns 0 at the end of the
stream only, and EAGAIN where there is nothing to read yet. -/
def Answers (s : Link) : TaskEvent → Prop
  | .read (.bytes data) => data <+: s.pending
  | .read (.ends .eof) => maxReadLen ≤ s.conn.alllen ∨ s.pending = [] ∧ s.closed = true
  | .read (.ends .eagain) => s.pending = [] ∧ s.closed = false
  | _ => True

instance (s e) : Decidable (Answers s e) := match e with
  | .read (.bytes data) => inferInstanceAs (Decidable (data <+: s.pending))
  | .read (.ends .eof) => inferInstanceAs (Decidable (maxReadLen ≤ s.conn.alllen ∨ s.pending = [] ∧ s.closed = true))
  | .read (.ends .eagain) => inferInstanceAs (Decidable (s.pending = [] ∧ s.closed = false))
  | .read (.ends .failed) | .guard | .parse | .modify | .resetBuf | .resetLen | .delete | .write _ | .clear | .resume =>
      .isTrue trivial

def consumed : TaskEvent → Nat
  | .read (.bytes data) => data.length
  | _ => 0

variable (parse : Text → Except String Json) (cstate : ConnState)

/- A text that throws ends the process, so nothing comes behind it. -/
def step (s : Link) : Event → Option Link
  | .arrive data => if s.closed = true then none else some {s with pending := s.pending ++ data}
  | .close => some {s with closed := true}
  | .enter body =>
      if s.body = .returned ∧ (body = .construct ∨ body = .sending) then some {s with body := body} else none
  | .task e =>
      if Answers s e then match taskStep parse cstate s.conn s.body e with
        | some (.next conn body calls _) =>
            some {s with conn := conn, body := body, pending := s.pending.drop (consumed e),
                         registered := s.registered && calls.all EpollCall.isModify}
        | _ => none
      else none

def system : System Link Event := ⟨fun s => s.body = .returned,step parse cstate⟩

def Drops (s s' : Link) : Prop :=
  s.body = .reading ∧ s'.conn.alllen < s.conn.alllen ∨ s.registered = true ∧ s'.registered = false

def OnlyClosed (s : Link) (_ : Event) (s' : Link) : Prop := Drops s s' → s.closed = true

instance (s e s') : Decidable (OnlyClosed s e s') := by unfold OnlyClosed Drops; infer_instance

def ReadsWithRoom (s : Link) : Event → Prop
  | .task (.read _) => s.conn.alllen < maxReadLen ∨ s.closed = true
  | _ => True

theorem receivedMore (c : TcpConn) (data : Text) : c.alllen ≤ (c.received cstate data).1.alllen := by
  cases cstate <;> exact Nat.le_add_right _ _

section Task
variable {cstate} {c c' : TcpConn} {body body' : Body} {e : TaskEvent} {calls : List EpollCall} {faults : List Fault}

theorem taskDrops (taken : taskStep parse cstate c body e = some (.next c' body' calls faults)) :
    (body = .reading → e ≠ .read (.ends .eof) → c.alllen ≤ c'.alllen) ∧
    (calls.all EpollCall.isModify = false → body = .deleting) ∧
    (body' = .deleting → body = .reading ∧ e = .read (.ends .eof)) := by
  cases taskMoves parse cstate taken with
  | @bytes data => exact ⟨fun _ _ => receivedMore cstate c data,by simp,by simp⟩
  | eof => exact ⟨fun _ other => absurd rfl other,by simp,fun _ => ⟨rfl,rfl⟩⟩
  | failed => exact ⟨fun _ _ => Nat.le_refl _,by simp,by simp⟩
  | eagain => exact ⟨fun _ _ => by cases cstate <;> exact Nat.le_refl _,by simp,by simp⟩
  | delete => exact ⟨by simp,fun _ => rfl,by simp⟩
  | full | room | answered | unanswered | resetBuf | resetLen | unwritten | written | clear =>
    exact ⟨by simp,by simp,by simp⟩
  | modify | resume => exact ⟨by simp,by simp [TcpConn.updateEvents,EpollCall.isModify],by simp⟩

theorem readRoom {result : ReadResult}
    (taken : taskStep parse cstate c body (.read result) = some (.next c' body' calls faults)) :
    c.alllen < maxReadLen ∨ result = .ends .eof := by
  cases taskMoves parse cstate taken with
  | bytes some_ fits =>
    have := List.length_pos_iff.mpr some_
    exact .inl (by omega)
  | failed space | eagain space => exact .inl space
  | eof => exact .inr rfl

theorem endsReading (taken : taskStep parse cstate c body (.read (.ends .eof)) = some (.next c' body' calls faults)) :
    body = .reading ∧ c'.alllen = 0 := by
  cases taskMoves parse cstate taken with
  | eof => exact ⟨rfl,rfl⟩

end Task

def Sound (s : Link) : Prop := s.body = .deleting → s.closed = true

theorem soundStep {s s' : Link} {e : Event} (sound : Sound s) (room : ReadsWithRoom s e)
    (taken : step parse cstate s e = some s') : Sound s' := by
  cases e with
  | arrive data =>
    simp only [step,Option.ite_none_left_eq_some,Option.some.injEq] at taken
    obtain ⟨_,rfl⟩ := taken
    exact sound
  | close =>
    cases Option.some.inj taken
    exact fun _ => rfl
  | enter body =>
    simp only [step,Option.ite_none_right_eq_some,Option.some.injEq] at taken
    obtain ⟨⟨_,rfl | rfl⟩,rfl⟩ := taken <;> exact fun deleting => by cases deleting
  | task e =>
    simp only [step,Option.ite_none_right_eq_some] at taken
    obtain ⟨answers,taken⟩ := taken
    split at taken <;> try contradiction
    rename_i conn body calls faults stepped
    cases Option.some.inj taken
    intro deleting
    obtain ⟨_,rfl⟩ := (taskDrops parse stepped).2.2 deleting
    exact room.elim (fun space => (answers.resolve_left (Nat.not_le_of_lt space)).2) id

theorem reachSound {s : Link} (reached : (system parse cstate).Reach ReadsWithRoom s) : Sound s := by
  induction reached with
  | init start =>
    intro deleting
    rw [show Link.body _ = .returned from start] at deleting
    cases deleting
  | step _ room taken sound => exact soundStep parse cstate sound room taken

theorem stepDrops {s s' : Link} {e : Event} (sound : Sound s) (taken : step parse cstate s e = some s') :
    OnlyClosed s e s' ↔ ReadsWithRoom s e := by
  cases e with
  | arrive data =>
    simp only [step,Option.ite_none_left_eq_some,Option.some.injEq] at taken
    obtain ⟨_,rfl⟩ := taken
    simp [OnlyClosed,Drops,ReadsWithRoom]
  | close =>
    cases Option.some.inj taken
    simp [OnlyClosed,Drops,ReadsWithRoom]
  | enter body =>
    simp only [step,Option.ite_none_right_eq_some,Option.some.injEq] at taken
    obtain ⟨_,rfl⟩ := taken
    simp [OnlyClosed,Drops,ReadsWithRoom]
  | task e =>
    simp only [step,Option.ite_none_right_eq_some] at taken
    obtain ⟨answers,taken⟩ := taken
    split at taken <;> try contradiction
    rename_i conn body calls faults stepped
    cases Option.some.inj taken
    obtain ⟨longer,leaves,_⟩ := taskDrops parse stepped
    by_cases ends : e = .read (.ends .eof)
    · subst ends
      obtain ⟨reading,emptied⟩ := endsReading parse stepped
      constructor
      · intro only
        by_cases space : s.conn.alllen < maxReadLen
        · exact .inl space
        · have full : 0 < s.conn.alllen := Nat.lt_of_lt_of_le (Nat.zero_lt_succ 1023) (Nat.not_lt.mp space)
          exact .inr (only (.inl ⟨reading,emptied ▸ full⟩))
      · exact fun room _ => room.elim (fun space => (answers.resolve_left (Nat.not_le_of_lt space)).2) id
    · constructor
      · intro _
        cases e with
        | read result => exact .inl ((readRoom parse stepped).resolve_right (fun same => ends (congrArg TaskEvent.read same)))
        | _ => exact trivial
      · rintro _ (⟨reading,shorter⟩ | ⟨here,gone⟩)
        · exact absurd (longer reading ends) (Nat.not_le_of_lt shorter)
        · rw [here,Bool.true_and] at gone
          exact sound (leaves gone)

/- In a run of any length, what was read is thrown away and the descriptor leaves
the epoll set only after the peer closed, exactly when every `read` before that
is made with room in the buffer. -/
theorem onlyClosedIff {s : Link} (idle : s.body = .returned) (es : List Event) :
    (system parse cstate).Throughout OnlyClosed s es ↔
    (system parse cstate).Throughout (fun s e _ => ReadsWithRoom s e) s es :=
  (system parse cstate).throughoutExact
    (fun _ _ _ reached => stepDrops parse cstate (reachSound parse cstate reached))
    (.init idle) es

instance (s e) : Decidable (ReadsWithRoom s e) := match e with
  | .task (.read _) => inferInstanceAs (Decidable (s.conn.alllen < maxReadLen ∨ s.closed = true))
  | .task .guard | .task .parse | .task .modify | .task .resetBuf | .task .resetLen | .task .delete | .task (.write _)
  | .task .clear | .task .resume | .arrive _ | .close | .enter _ => .isTrue trivial

def accepted : Link := ⟨TcpConn.new.setFd 5,.returned,[],false,true⟩

def brief : List Event := [.arrive (ascii "[0,"),.enter .construct,.task .guard,.task (.read (.bytes (ascii "[0,"))),
  .close,.task (.read (.ends .eof)),.task .delete]

theorem briefOnlyClosed : (system TcpConn.sampleParse .LT).Throughout OnlyClosed accepted brief :=
  (onlyClosedIff _ _ rfl brief).mpr (by decide +kernel)

def piece : List Event := [.arrive (List.replicate 64 97),.task (.read (.bytes (List.replicate 64 97)))]
def filling : List Event :=
  [.enter .construct,.task .guard] ++ (List.replicate 16 piece).flatten ++ [.task (.read (.ends .eof)),.task .delete]

theorem fullBufferDisconnects :
    ¬ (system TcpConn.sampleParse .LT).Throughout OnlyClosed accepted filling ∧
    ¬ (system TcpConn.sampleParse .ET).Throughout OnlyClosed accepted filling ∧
    ((system TcpConn.sampleParse .LT).run accepted filling).map (fun s => (s.closed,s.registered)) = some (false,false) := by
  decide +kernel

end SimpleChat.Disconnect
