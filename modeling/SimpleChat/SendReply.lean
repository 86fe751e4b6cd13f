import SimpleChat.Server

/-! A reply on its way out: `sendData` tasks one after another, each for a
writable event of the one-shot registration, against what `write` takes of the
bytes it is handed. -/
namespace SimpleChat.SendReply
open Basis (System)
open Server (Registration epollCtl)

structure Sending where
  conn : TcpConn
  wire : Text
  registration : Option Registration
  deriving DecidableEq, Repr

def registered (fd : Int) (calls : List EpollCall) : Option Registration :=
  calls.foldl epollCtl (Function.update (fun _ => none) fd (some .disarmed)) fd

/- The socket takes all, a part or nothing of what it is handed, and says -1 when it takes nothing. -/
def step (s : Sending) (written : Int) : Option Sending :=
  if s.registration = some (.armed .writeEvent) ∧ -1 ≤ written ∧ written ≤ s.conn.pendingReply.length then
    let sent := s.conn.sendData written
    some ⟨sent.1,s.wire ++ s.conn.pendingReply.take written.toNat,registered s.conn.mFd sent.2.1⟩
  else none

structure Start (reply : Text) (s : Sending) : Prop where
  pending : s.conn.pendingReply = reply
  wire : s.wire = []
  armed : s.registration = some (.armed .writeEvent)

def system (reply : Text) : System Sending Int := ⟨Start reply,step⟩

/- What sending a reply is for: it is out whole, the buffer is cleared and the
connection waits for the next request; or it is out in part, and the
connection is armed to write the rest. -/
def Delivers (reply : Text) (s : Sending) : Prop :=
  (s.wire = reply ∧ s.conn.mWritebuf = zeros 1024 ∧ s.registration = some (.armed .readEvent)) ∨
  (s.wire ++ s.conn.pendingReply = reply ∧ s.conn.pendingReply ≠ [] ∧ s.registration = some (.armed .writeEvent))

instance (reply s) : Decidable (Delivers reply s) := by unfold Delivers; infer_instance

def TakesAll (s : Sending) (written : Int) : Prop := written = s.conn.pendingReply.length
instance (s written) : Decidable (TakesAll s written) := by unfold TakesAll; infer_instance

@[simp] theorem registeredNone (fd : Int) : registered fd [] = some .disarmed := by
  simp [registered]

@[simp] theorem registeredModify (fd : Int) (events : Interest) :
    registered fd [.modify fd events] = some (.armed events) := by
  simp [registered,epollCtl]

theorem answerText {id : Int} {text : Text} (answers : TcpConn.answer id = some text) :
    text ≠ [] ∧ (0 : UInt8) ∉ text ∧ text.length < 1024 := by
  unfold TcpConn.answer at answers
  split at answers
  · cases Option.some.inj answers
    decide +kernel
  · split at answers
    · cases Option.some.inj answers
      decide +kernel
    · split at answers
      · cases Option.some.inj answers
        decide +kernel
      · cases answers

theorem replyStarts {c : TcpConn} {request : Request} {text : Text} (size : c.mWritebuf.length = 1024)
    (answers : TcpConn.answer request.id = some text) :
    text ≠ [] ∧ Start text ⟨(c.reply request).1,[],registered c.mFd (c.reply request).2⟩ := by
  obtain ⟨some_,clean,short⟩ := answerText answers
  refine ⟨some_,?_,rfl,?_⟩
  · simp only [TcpConn.reply,answers,TcpConn.pendingReply]
    exact cStringCopied clean (by omega)
  · simp only [TcpConn.reply,answers,TcpConn.updateEvents,registeredModify]

theorem Start.delivers {reply : Text} {s : Sending} (start : Start reply s) (some_ : reply ≠ []) : Delivers reply s :=
  .inr ⟨by rw [start.wire,start.pending,List.nil_append],start.pending.symm ▸ some_,start.armed⟩

theorem stepDelivers {reply : Text} {s s' : Sending} {written : Int} (before : Delivers reply s)
    (taken : step s written = some s') : Delivers reply s' ↔ TakesAll s written := by
  simp only [step,Option.ite_none_right_eq_some,Option.some.injEq] at taken
  obtain ⟨⟨armed,_,most⟩,rfl⟩ := taken
  rcases before with ⟨_,_,other⟩ | ⟨whole,rest,_⟩
  · rw [armed] at other
    cases other
  · by_cases refused : written < 0
    · simp only [TcpConn.sendData,if_pos refused,registeredNone,Delivers,TakesAll]
      constructor
      · rintro (⟨_,_,disarmed⟩ | ⟨_,_,disarmed⟩) <;> cases disarmed
      · omega
    · simp only [TcpConn.sendData,if_neg refused,TcpConn.updateEvents,registeredModify,Delivers,TakesAll]
      constructor
      · rintro (⟨out,_,_⟩ | ⟨_,_,other⟩)
        · have same := congrArg List.length (whole.trans out.symm)
          simp only [List.length_append,List.length_take] at same
          omega
        · cases other
      · rintro rfl
        exact .inl ⟨by rw [Int.toNat_natCast,List.take_length,whole],trivial,trivial⟩

theorem reachDelivers {reply : Text} (some_ : reply ≠ []) {s : Sending}
    (reached : (system reply).Reach TakesAll s) : Delivers reply s := by
  induction reached with
  | init start => exact Start.delivers start some_
  | step _ all taken delivers => exact (stepDelivers delivers taken).mpr all

/- Over any number of tasks a reply goes out whole and once exactly when `write`
takes the whole of it at the first try. -/
theorem deliversIff {reply : Text} (some_ : reply ≠ []) {s : Sending} (start : Start reply s) (outcomes : List Int) :
    (system reply).Throughout (fun _ _ s' => Delivers reply s') s outcomes ↔
    (system reply).Throughout (fun s written _ => TakesAll s written) s outcomes :=
  (system reply).throughoutExact (fun _ _ _ reached => stepDelivers (reachDelivers some_ reached)) (.init start) outcomes

def answered : Sending :=
  let replied := TcpConn.new.reply ⟨TcpConn.LOGIN,ascii "a",ascii "b",ascii "c"⟩
  ⟨replied.1,[],registered (-1) replied.2⟩

theorem answeredStarts : Start (ascii "[2]") answered :=
  (replyStarts (c := TcpConn.new) (by decide +kernel) (by decide +kernel)).2

theorem wholeDelivers : (system (ascii "[2]")).Throughout (fun _ _ s' => Delivers (ascii "[2]") s') answered [3] :=
  (deliversIff (by decide +kernel) answeredStarts [3]).mpr (by decide +kernel)

theorem shortWriteLosesReply :
    Start (ascii "[2]") answered ∧
    ¬ (system (ascii "[2]")).Throughout (fun _ _ s' => Delivers (ascii "[2]") s') answered [1] ∧
    ¬ (system (ascii "[2]")).Throughout (fun _ _ s' => Delivers (ascii "[2]") s') answered [-1] ∧
    (step answered 1).map (fun s => (s.wire,s.conn.pendingReply,s.registration)) =
      some (ascii "[",[],some (.armed .readEvent)) ∧
    (step answered (-1)).map (fun s => (s.wire,s.conn.pendingReply,s.registration)) =
      some ([],ascii "[2]",some .disarmed) := by
  refine ⟨answeredStarts,?_,?_,by decide +kernel,by decide +kernel⟩ <;> decide +kernel

end SimpleChat.SendReply
