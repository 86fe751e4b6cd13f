import SimpleChat.ReadOnce

/-! The two functions in `funbox` as a worker runs them: each access that
another thread could come between is one step, on the connection as it is at
that moment. `Body` is where the worker is; a call left alone comes to what
`readOnce` and `sendData` compute. -/
namespace SimpleChat
open TcpConn (Ending Reads Outcome)

inductive Body where
  | construct
  | reading
  | parsing
  | rearming
  | resetting
  | shrinking
  | deleting
  | sending
  | clearing
  | resuming
  | returned
  deriving DecidableEq, Repr

inductive ReadResult where
  | bytes (data : Text)
  | ends (ending : Ending)
  deriving DecidableEq, Repr

inductive TaskEvent where
  | guard
  | read (result : ReadResult)
  | parse
  | modify
  | resetBuf
  | resetLen
  | delete
  | write (written : Int)
  | clear
  | resume
  deriving DecidableEq, Repr

inductive TaskResult where
  | next (conn : TcpConn) (body : Body) (calls : List EpollCall) (faults : List Fault)
  | threw (what : String)
  deriving DecidableEq, Repr

variable (parse : Text → Except String Json) (cstate : ConnState)

/- One step of `read_once` (up to `delete`) or of `sendData`. The kernel returns
at most the bytes asked for, and answers a `read` of none with 0. -/
def taskStep (c : TcpConn) : Body → TaskEvent → Option TaskResult
  | .construct, .guard => some (.next c (if maxReadLen ≤ c.alllen then .returned else .reading) [] [])
  | .reading, .read (.bytes data) =>
      if data ≠ [] ∧ data.length ≤ maxReadLen - c.alllen then
        let read := c.received cstate data
        some (.next read.1 .reading [] read.2)
      else none
  | .reading, .read (.ends .eof) => some (.next c.reset .deleting [] [])
  | .reading, .read (.ends .failed) => if c.alllen < maxReadLen then some (.next c .returned [] []) else none
  | .reading, .read (.ends .eagain) =>
      if c.alllen < maxReadLen then some (.next (c.terminated cstate) .parsing [] []) else none
  | .parsing, .parse => match c.request parse with
      | .error what => some (.threw what)
      | .ok request =>
          let replied := c.reply request
          some (.next replied.1 (if replied.2 = [] then .resetting else .rearming) [] [])
  | .rearming, .modify => some (.next c .resetting [c.updateEvents .writeEvent] [])
  | .resetting, .resetBuf => some (.next c.resetBuf .shrinking [] [])
  | .shrinking, .resetLen => some (.next c.resetLen .returned [] [])
  | .deleting, .delete => some (.next c .returned [c.removeFd] [])
  | .sending, .write written => some (.next c (if written < 0 then .returned else .clearing) [] [])
  | .clearing, .clear => some (.next {c with mWritebuf := zeros 1024} .resuming [] [])
  | .resuming, .resume => some (.next c .returned [c.updateEvents .readEvent] [])
  | _, _ => none

inductive TaskMoves (c : TcpConn) : Body → TaskEvent → TcpConn → Body → List EpollCall → List Fault → Prop where
  | full (past : maxReadLen ≤ c.alllen) : TaskMoves c .construct .guard c .returned [] []
  | room (space : c.alllen < maxReadLen) : TaskMoves c .construct .guard c .reading [] []
  | bytes {data : Text} (some_ : data ≠ []) (fits : data.length ≤ maxReadLen - c.alllen) :
      TaskMoves c .reading (.read (.bytes data)) (c.received cstate data).1 .reading [] (c.received cstate data).2
  | eof : TaskMoves c .reading (.read (.ends .eof)) c.reset .deleting [] []
  | failed (space : c.alllen < maxReadLen) : TaskMoves c .reading (.read (.ends .failed)) c .returned [] []
  | eagain (space : c.alllen < maxReadLen) :
      TaskMoves c .reading (.read (.ends .eagain)) (c.terminated cstate) .parsing [] []
  | answered {request : Request} (decoded : c.request parse = .ok request)
      (known : (TcpConn.answer request.id).isSome = true) :
      TaskMoves c .parsing .parse (c.reply request).1 .rearming [] []
  | unanswered {request : Request} (decoded : c.request parse = .ok request)
      (unknown : (TcpConn.answer request.id).isSome = false) : TaskMoves c .parsing .parse c .resetting [] []
  | modify : TaskMoves c .rearming .modify c .resetting [c.updateEvents .writeEvent] []
  | resetBuf : TaskMoves c .resetting .resetBuf c.resetBuf .shrinking [] []
  | resetLen : TaskMoves c .shrinking .resetLen c.resetLen .returned [] []
  | delete : TaskMoves c .deleting .delete c .returned [c.removeFd] []
  | unwritten {written : Int} (failed : written < 0) : TaskMoves c .sending (.write written) c .returned [] []
  | written {written : Int} (fine : 0 ≤ written) : TaskMoves c .sending (.write written) c .clearing [] []
  | clear : TaskMoves c .clearing .clear {c with mWritebuf := zeros 1024} .resuming [] []
  | resume : TaskMoves c .resuming .resume c .returned [c.updateEvents .readEvent] []

theorem replyUnanswered {c : TcpConn} {request : Request} (unknown : (TcpConn.answer request.id).isSome = false) :
    c.reply request = (c,[]) := by
  unfold TcpConn.reply
  split
  · simp_all
  · rfl

theorem replyAnswered {c : TcpConn} {request : Request} (known : (TcpConn.answer request.id).isSome = true) :
    (c.reply request).2 = [c.updateEvents .writeEvent] := by
  unfold TcpConn.reply
  split
  · rfl
  · simp_all

theorem taskMoves {c c' : TcpConn} {body body' : Body} {e : TaskEvent} {calls : List EpollCall} {faults : List Fault}
    (taken : taskStep parse cstate c body e = some (.next c' body' calls faults)) :
    TaskMoves parse cstate c body e c' body' calls faults := by
  cases e with
  | guard =>
    cases body <;> try contradiction
    cases Option.some.inj taken
    split
    · exact .full (by assumption)
    · exact .room (by omega)
  | read result =>
    cases body <;> try contradiction
    cases result with
    | bytes data =>
      simp only [taskStep,Option.ite_none_right_eq_some] at taken
      obtain ⟨⟨some_,fits⟩,taken⟩ := taken
      cases Option.some.inj taken
      exact .bytes some_ fits
    | ends ending =>
      cases ending with
      | eof =>
        cases Option.some.inj taken
        exact .eof
      | eagain =>
        simp only [taskStep,Option.ite_none_right_eq_some] at taken
        obtain ⟨space,taken⟩ := taken
        cases Option.some.inj taken
        exact .eagain space
      | failed =>
        simp only [taskStep,Option.ite_none_right_eq_some] at taken
        obtain ⟨space,taken⟩ := taken
        cases Option.some.inj taken
        exact .failed space
  | parse =>
    cases body <;> try contradiction
    simp only [taskStep] at taken
    cases decoded : c.request parse with
    | error what => rw [decoded] at taken; cases Option.some.inj taken
    | ok request =>
      rw [decoded] at taken
      cases known : (TcpConn.answer request.id).isSome with
      | true =>
        simp only [replyAnswered known,List.cons_ne_nil,if_false] at taken
        cases Option.some.inj taken
        exact .answered decoded known
      | false =>
        simp only [replyUnanswered known,if_true] at taken
        cases Option.some.inj taken
        exact .unanswered decoded known
  | write written =>
    cases body <;> try contradiction
    cases Option.some.inj taken
    split
    · exact .unwritten (by assumption)
    · exact .written (by omega)
  | modify =>
    cases body <;> try contradiction
    cases Option.some.inj taken
    exact .modify
  | resetBuf =>
    cases body <;> try contradiction
    cases Option.some.inj taken
    exact .resetBuf
  | resetLen =>
    cases body <;> try contradiction
    cases Option.some.inj taken
    exact .resetLen
  | delete =>
    cases body <;> try contradiction
    cases Option.some.inj taken
    exact .delete
  | clear =>
    cases body <;> try contradiction
    cases Option.some.inj taken
    exact .clear
  | resume =>
    cases body <;> try contradiction
    cases Option.some.inj taken
    exact .resume

theorem taskThrew {c : TcpConn} {body : Body} {e : TaskEvent} {what : String}
    (threw : taskStep parse cstate c body e = some (.threw what)) : e = .parse ∧ c.request parse = .error what := by
  cases e with
  | parse =>
    cases body <;> try contradiction
    simp only [taskStep] at threw
    cases decoded : c.request parse with
    | error other =>
      rw [decoded] at threw
      cases Option.some.inj threw
      exact ⟨rfl,rfl⟩
    | ok request => rw [decoded] at threw; cases Option.some.inj threw
  | read result =>
    cases body <;> try contradiction
    cases result with
    | bytes data =>
      simp only [taskStep,Option.ite_none_right_eq_some] at threw
      cases Option.some.inj threw.2
    | ends ending =>
      cases ending with
      | eof => cases Option.some.inj threw
      | eagain | failed =>
        simp only [taskStep,Option.ite_none_right_eq_some] at threw
        cases Option.some.inj threw.2
  | _ =>
    cases body <;> try contradiction
    all_goals cases Option.some.inj threw

/- The call still has to arm the connection again, or to take it out of the epoll set. -/
def Body.owes : Body → Bool
  | .construct | .reading | .parsing | .rearming | .deleting | .sending | .clearing | .resuming => true
  | .resetting | .shrinking | .returned => false

/- The call has still to touch `m_sql`, `m_buf`, `alllen` or `m_writebuf`. -/
def Body.occupies : Body → Bool
  | .construct | .reading | .parsing | .rearming | .resetting | .shrinking | .sending | .clearing => true
  | .deleting | .resuming | .returned => false

/- Between `parseData`, which armed the connection, and the last of the resets behind it. -/
def Body.inWindow : Body → Bool
  | .resetting | .shrinking => true
  | _ => false

theorem Body.window {body : Body} (occupies : body.occupies = true) : body.owes = true ∨ body.inWindow = true := by
  cases body <;> simp_all [Body.occupies,Body.owes,Body.inWindow]

def Answered : Except String Request → Prop
  | .ok request => (TcpConn.answer request.id).isSome
  | .error _ => True

instance (decoded) : Decidable (Answered decoded) := match decoded with
  | .ok request => inferInstanceAs (Decidable ((TcpConn.answer request.id).isSome))
  | .error _ => .isTrue trivial

/- The steps after which the call still arms the connection: it finds room in
the buffer, `read` neither fails nor ends the stream, the request has an answer
and `write` does not fail. -/
def TaskRearms (c : TcpConn) : TaskEvent → Prop
  | .guard => c.alllen < maxReadLen
  | .read (.ends ending) => ending ≠ .failed
  | .parse => Answered (c.request parse)
  | .delete => False
  | .write written => 0 ≤ written
  | _ => True

instance (c e) : Decidable (TaskRearms parse c e) := match e with
  | .guard => inferInstanceAs (Decidable (c.alllen < maxReadLen))
  | .read (.ends ending) => inferInstanceAs (Decidable (ending ≠ .failed))
  | .parse => inferInstanceAs (Decidable (Answered (c.request parse)))
  | .delete => .isFalse id
  | .write written => inferInstanceAs (Decidable (0 ≤ written))
  | .read (.bytes _) | .modify | .resetBuf | .resetLen | .clear | .resume => .isTrue trivial

def InBounds (c : TcpConn) : TaskEvent → Prop
  | .read (.bytes data) => data.length ≤ sempbufSize ∧ (cstate = .LT → c.alllen + data.length < maxReadLen)
  | _ => True

instance (c e) : Decidable (InBounds cstate c e) := match e with
  | .read (.bytes data) => inferInstanceAs
      (Decidable (data.length ≤ sempbufSize ∧ (cstate = .LT → c.alllen + data.length < maxReadLen)))
  | .read (.ends _) | .guard | .parse | .modify | .resetBuf | .resetLen | .delete | .write _ | .clear | .resume =>
      .isTrue trivial

def Duty (c : TcpConn) (body body' : Body) (calls : List EpollCall) (rearms : Prop) : Prop :=
  (calls = [] ∧ body'.owes = body.owes) ∨
  (body.owes = true ∧ body'.owes = false ∧
    ((∃ events, calls = [.modify c.mFd events]) ∨ ((calls = [] ∨ calls = [.delete c.mFd]) ∧ ¬ rearms)))

theorem receivedFd (c : TcpConn) (data : Text) : (c.received cstate data).1.mFd = c.mFd := by
  cases cstate <;> rfl

theorem terminatedFd (c : TcpConn) : (c.terminated cstate).mFd = c.mFd := by
  cases cstate <;> rfl

theorem replyFd (c : TcpConn) (request : Request) : (c.reply request).1.mFd = c.mFd := by
  unfold TcpConn.reply
  split <;> rfl

theorem taskSpec {c c' : TcpConn} {body body' : Body} {e : TaskEvent} {calls : List EpollCall}
    {faults : List Fault} (taken : taskStep parse cstate c body e = some (.next c' body' calls faults)) :
    c'.mFd = c.mFd ∧ (body'.occupies = true → body.occupies = true) ∧
    Duty c body body' calls (TaskRearms parse c e) := by
  cases taskMoves parse cstate taken with
  | full past =>
    exact ⟨rfl,fun _ => rfl,.inr ⟨rfl,rfl,.inr ⟨.inl rfl,fun room => absurd past (Nat.not_le_of_lt room)⟩⟩⟩
  | bytes => exact ⟨receivedFd cstate c _,id,.inl ⟨rfl,rfl⟩⟩
  | room | eof | resetBuf | resetLen | written | clear => exact ⟨rfl,fun _ => rfl,.inl ⟨rfl,rfl⟩⟩
  | failed => exact ⟨rfl,fun _ => rfl,.inr ⟨rfl,rfl,.inr ⟨.inl rfl,fun reads => reads rfl⟩⟩⟩
  | eagain => exact ⟨terminatedFd cstate c,fun _ => rfl,.inl ⟨rfl,rfl⟩⟩
  | @answered request => exact ⟨replyFd c request,fun _ => rfl,.inl ⟨rfl,rfl⟩⟩
  | unanswered decoded unknown =>
    refine ⟨rfl,fun _ => rfl,.inr ⟨rfl,rfl,.inr ⟨.inl rfl,fun answers => ?_⟩⟩⟩
    simp only [TaskRearms,decoded,Answered,unknown] at answers
    contradiction
  | modify => exact ⟨rfl,fun _ => rfl,.inr ⟨rfl,rfl,.inl ⟨_,rfl⟩⟩⟩
  | delete => exact ⟨rfl,fun used => used,.inr ⟨rfl,rfl,.inr ⟨.inr rfl,id⟩⟩⟩
  | unwritten failed =>
    exact ⟨rfl,fun _ => rfl,.inr ⟨rfl,rfl,.inr ⟨.inl rfl,fun fine => absurd failed (Int.not_lt.mpr fine)⟩⟩⟩
  | resume => exact ⟨rfl,fun used => used,.inr ⟨rfl,rfl,.inl ⟨_,rfl⟩⟩⟩

section Alone

def TaskResult.after (calls : List EpollCall) (faults : List Fault) : TaskResult → TaskResult
  | .next conn body calls' faults' => .next conn body (calls ++ calls') (faults ++ faults')
  | .threw what => .threw what

def taskRun : TcpConn → Body → List TaskEvent → Option TaskResult
  | c, body, [] => some (.next c body [] [])
  | c, body, e :: es => match taskStep parse cstate c body e with
      | none => none
      | some (.threw what) => some (.threw what)
      | some (.next c' body' calls faults) => (taskRun c' body' es).map (TaskResult.after calls faults)

def ofRun (run : TcpConn.Run) : TaskResult := match run.outcome with
  | .returned _ => .next run.conn .returned run.calls run.faults
  | .threw what => .threw what

theorem finishTask {c : TcpConn} {ending : Ending} (room : c.alllen < maxReadLen ∨ ending = .eof) :
    ∃ es, taskRun parse cstate c .reading es = some (ofRun (TcpConn.finish parse cstate c ending)) := by
  cases ending with
  | eof => exact ⟨[.read (.ends .eof),.delete],rfl⟩
  | failed =>
    have space : c.alllen < maxReadLen := room.resolve_right (fun ends => by contradiction)
    exact ⟨[.read (.ends .failed)],by simp [taskRun,taskStep,space,ofRun,TcpConn.finish,TaskResult.after]⟩
  | eagain =>
    have space : c.alllen < maxReadLen := room.resolve_right (fun ends => by contradiction)
    cases decoded : (c.terminated cstate).request parse with
    | error what =>
      exact ⟨[.read (.ends .eagain),.parse],by
        simp [taskRun,taskStep,space,decoded,ofRun,TcpConn.finish,TaskResult.after]⟩
    | ok request =>
      cases answered : TcpConn.answer request.id with
      | none =>
        exact ⟨[.read (.ends .eagain),.parse,.resetBuf,.resetLen],by
          simp [taskRun,taskStep,space,decoded,answered,ofRun,TcpConn.finish,TcpConn.reply,TcpConn.reset,
            TaskResult.after]⟩
      | some text =>
        exact ⟨[.read (.ends .eagain),.parse,.modify,.resetBuf,.resetLen],by
          simp [taskRun,taskStep,space,decoded,answered,ofRun,TcpConn.finish,TcpConn.reply,TcpConn.reset,
            TcpConn.updateEvents,TaskResult.after]⟩

theorem readLoopTask {c : TcpConn} {chunks : List Text} {ending : Ending} (some_ : ∀ chunk ∈ chunks, chunk ≠ [])
    (fits : chunks.flatten.length ≤ maxReadLen - c.alllen)
    (full : chunks.flatten.length = maxReadLen - c.alllen → ending = .eof) :
    ∃ es, taskRun parse cstate c .reading es = some (ofRun (TcpConn.readLoop parse cstate c ending chunks)) := by
  induction chunks generalizing c with
  | nil =>
    refine finishTask parse cstate ?_
    by_cases space : c.alllen < maxReadLen
    · exact .inl space
    · exact .inr (full (by simp; omega))
  | cons data rest ih =>
    obtain ⟨bytes,bytes'⟩ := List.forall_mem_cons.mp some_
    simp only [List.flatten_cons,List.length_append] at fits full
    have len : (c.received cstate data).1.alllen = c.alllen + data.length := by cases cstate <;> rfl
    obtain ⟨es,ran⟩ := @ih (c.received cstate data).1 bytes' (by omega) (fun last => full (by omega))
    refine ⟨.read (.bytes data) :: es,?_⟩
    have space : data ≠ [] ∧ data.length ≤ maxReadLen - c.alllen := ⟨bytes,by omega⟩
    simp only [taskRun,taskStep,if_pos space,ran,Option.map_some,TcpConn.readLoop]
    cases outcome : (TcpConn.readLoop parse cstate (c.received cstate data).1 ending rest).outcome <;>
      simp [ofRun,outcome,TaskResult.after]

/- Whatever `read` answers, some order of the steps comes to what `read_once` computes. -/
theorem readOnceTask {c : TcpConn} {reads : Reads} (feasible : TcpConn.Feasible (maxReadLen - c.alllen) reads) :
    ∃ es, taskRun parse cstate c .construct es = some (ofRun (TcpConn.readOnce parse cstate c reads)) := by
  by_cases full : maxReadLen ≤ c.alllen
  · exact ⟨[.guard],by simp [taskRun,taskStep,full,ofRun,TcpConn.readOnce,TaskResult.after]⟩
  · obtain ⟨es,ran⟩ := readLoopTask parse cstate feasible.1 feasible.2.1 feasible.2.2
    refine ⟨.guard :: es,?_⟩
    simp only [taskRun,taskStep,if_neg full,ran,Option.map_some,TcpConn.readOnce]
    cases outcome : (TcpConn.readLoop parse cstate c reads.ending reads.chunks).outcome <;>
      simp [ofRun,outcome,TaskResult.after]

theorem sendDataTask (c : TcpConn) (written : Int) :
    ∃ es, taskRun parse cstate c .sending es =
      some (.next (c.sendData written).1 .returned (c.sendData written).2.1 []) := by
  by_cases failed : written < 0
  · exact ⟨[.write written],by simp [taskRun,taskStep,failed,TcpConn.sendData,TaskResult.after]⟩
  · exact ⟨[.write written,.clear,.resume],by
      simp [taskRun,taskStep,failed,TcpConn.sendData,TcpConn.updateEvents,TaskResult.after]⟩

end Alone
end SimpleChat
