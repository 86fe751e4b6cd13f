import SimpleChat.Places
import SimpleChat.SendReply

/-! The replies of whole runs. Beside the server runs a ledger of the answers
that `parseData` has computed and no `write` has been given yet. -/
namespace SimpleChat.Server
open Basis (System)
open Function (update)

variable {ω : Type}

structure Booked (ω : Type) where
  server : State ω
  owed : Int → Option Text

section Ledger
variable (parse : Text → Except String Json)

/- An answer is owed from the `strcpy` on, and to nobody once it is handed to `write`. -/
def owedTask (owed : Int → Option Text) (fd : Int) (c : TcpConn) : TaskEvent → Int → Option Text
  | .parse => match c.request parse with
      | .ok request => match TcpConn.answer request.id with
          | some text => update owed fd (some text)
          | none => owed
      | .error _ => owed
  | .write _ => update owed fd none
  | _ => owed

def owedAct (owed : Int → Option Text) (s : State ω) : Event ω → Int → Option Text
  | .handle => match s.loop with
      | .batch (.client fd mask :: _) => if mask.hangs then update owed fd none else owed
      | _ => owed
  | .task w e => match s.pool.workers w with
      | .running _ fd => owedTask parse owed fd (s.users fd) e
      | _ => owed
  | _ => owed

variable [DecidableEq ω] [Fintype ω] (cstate : ConnState)

def bookedStep (t : Booked ω) (e : Event ω) : Option (Booked ω) :=
  (step parse cstate t.server e).map (fun s => ⟨s,owedAct parse t.owed t.server e⟩)

def bookedSystem (ω : Type) [DecidableEq ω] [Fintype ω] (parse : Text → Except String Json) (cstate : ConnState) :
    System (Booked ω) (Event ω) := ⟨fun t => Initial t.server ∧ t.owed = fun _ => none,bookedStep parse cstate⟩

end Ledger

/- `parseData` finds no answer still owed when it computes the next one, and
`write` is handed the answer that is owed, whole, as the one thing it is ever handed. -/
def TaskInTurn (parse : Text → Except String Json) (owed : Option Text) (c : TcpConn) : TaskEvent → Prop
  | .parse => ∀ request text, c.request parse = .ok request → TcpConn.answer request.id = some text → owed = none
  | .write _ => owed = some c.pendingReply ∧ ∃ id, TcpConn.answer id = some c.pendingReply
  | _ => True

def InTurn (parse : Text → Except String Json) (t : Booked ω) : Event ω → Prop
  | .task w e => match t.server.pool.workers w with
      | .running _ fd => TaskInTurn parse (t.owed fd) (t.server.users fd) e
      | _ => True
  | _ => True

inductive Phase where
  | reading
  | writing
  | leaving
  deriving DecidableEq, Repr

def Place.phase : Place ω → Phase
  | .armed .readEvent => .reading
  | .armed .writeEvent => .writing
  | .event mask => if mask.hangs then .leaving else if mask.inp then .reading else .writing
  | .checked state | .queued state | .popped _ state => if state = 0 then .reading else .writing
  | .inside _ .sending | .inside _ .rearming => .writing
  | .inside _ _ => .reading

theorem maskPhase {mask : Mask} {events : Interest} (within_ : mask.within events = true) :
    (Place.event mask : Place ω).phase = .leaving ∨ (Place.event mask : Place ω).phase = (Place.armed events : Place ω).phase := by
  have reported := mask.reported
  simp only [Place.phase]
  split
  · exact .inl rfl
  · rename_i calm
    right
    cases events with
    | readEvent =>
      have readable : mask.inp = true := by
        simp only [Mask.within,Bool.not_eq_true'] at within_
        simp only [Mask.hangs,Bool.or_eq_true,not_or,Bool.not_eq_true] at calm
        simpa only [within_,calm,Bool.or_false,Bool.false_or] using reported
      rw [if_pos readable]
    | writeEvent =>
      simp only [Mask.within,Bool.not_eq_true'] at within_
      rw [within_]
      rfl

theorem goesPhase {p q : Place ω} (goes : Goes p q) :
    q.phase = .leaving ∨ q.phase = p.phase ∨ ∃ w, (p = .inside w .parsing ∧ q = .inside w .rearming) ∨
      (p = .inside w .sending ∧ q = .inside w .clearing) := by
  cases goes with
  | reported within_ => exact (maskPhase within_).imp_right .inl
  | read calm readable => exact .inr (.inl (by simp [Place.phase,calm,readable]))
  | write calm unreadable => exact .inr (.inl (by simp [Place.phase,calm,unreadable]))
  | @follows w body body' next =>
    cases next with
    | answers => exact .inr (.inr ⟨w,.inl ⟨rfl,rfl⟩⟩)
    | writes => exact .inr (.inr ⟨w,.inr ⟨rfl,rfl⟩⟩)
    | _ => exact .inr (.inl rfl)
  | _ => exact .inr (.inl rfl)

section Steps
variable [DecidableEq ω] {parse : Text → Except String Json} {cstate : ConnState}

inductive Writes (parse : Text → Except String Json) (owed : Int → Option Text) (fd : Int) (c c' : TcpConn) (body body' : Body)
    (e : TaskEvent) : Prop where
  | keeps (buffer : c'.mWritebuf = c.mWritebuf) (same : owedTask parse owed fd c e = owed) (noParse : body' ≠ .rearming)
      (noWrite : body ≠ .sending)
  | answers {text : Text} {id : Int} (answer : TcpConn.answer id = some text) (from_ : body = .parsing) (into : body' = .rearming)
      (buffer : c'.mWritebuf = strcpy c.mWritebuf text) (owes : owedTask parse owed fd c e = update owed fd (some text))
  | hands (buffer : c'.mWritebuf = c.mWritebuf) (from_ : body = .sending) (leaves : body' ≠ .sending)
      (owes : owedTask parse owed fd c e = update owed fd none)
  | clears (buffer : c'.mWritebuf = zeros 1024) (from_ : body = .clearing) (into : body' = .resuming)
      (same : owedTask parse owed fd c e = owed)

omit [DecidableEq ω] in
theorem taskWrites (owed : Int → Option Text) (fd : Int) {c c' : TcpConn} {body body' : Body} {e : TaskEvent}
    {calls : List EpollCall} {faults : List Fault} (moves : TaskMoves parse cstate c body e c' body' calls faults) :
    Writes parse owed fd c c' body body' e := by
  cases moves with
  | bytes =>
    refine .keeps ?_ rfl (by decide) (by decide)
    cases cstate <;> rfl
  | eagain =>
    refine .keeps ?_ rfl (by decide) (by decide)
    cases cstate <;> rfl
  | @answered request decoded known =>
    obtain ⟨text,answer⟩ := Option.isSome_iff_exists.mp known
    refine .answers answer rfl rfl ?_ ?_
    · simp only [TcpConn.reply,answer]
    · simp only [owedTask,decoded,answer]
  | @unanswered request decoded unknown =>
    have none := Option.isNone_iff_eq_none.mp (Option.isSome_eq_false_iff.mp unknown)
    exact .keeps rfl (by simp only [owedTask,decoded,none]) (by decide) (by decide)
  | unwritten => exact .hands rfl rfl (by decide) rfl
  | written => exact .hands rfl rfl (by decide) rfl
  | clear => exact .clears rfl rfl rfl rfl
  | _ => exact .keeps rfl rfl (by decide) (by decide)

variable (parse cstate) in
inductive ReplyMoves (t t' : Booked ω) (e : Event ω) (fd : Int) : Prop where
  | same (buffer : (t'.server.users fd).mWritebuf = (t.server.users fd).mWritebuf) (owed : t'.owed fd = t.owed fd)
      (open_ : t.server.opened fd = true → t'.server.opened fd = true) (calls : CallsKept t.server t'.server fd)
  | closed (shut : t'.server.opened fd = false) (size : (t'.server.users fd).mWritebuf.length = (t.server.users fd).mWritebuf.length ∨
      (t'.server.users fd).mWritebuf = zeros 1024)
      (owed : t'.owed fd = none ∨ (t'.owed fd = t.owed fd ∧ t.server.loop.adds fd = true))
  | task {w : ω} {state : Nat} {te : TaskEvent} {conn : TcpConn} {body : Body} {calls : List EpollCall}
      {faults : List Fault} (event : e = .task w te) (running : t.server.pool.workers w = .running state fd)
      (moves : TaskMoves parse cstate (t.server.users fd) (t.server.bodies w) te conn body calls faults)
      (server : t'.server = worked t.server w fd conn body calls faults)
      (owed : t'.owed = owedTask parse t.owed fd (t.server.users fd) te)

omit [DecidableEq ω] in
theorem owedOther (owed : Int → Option Text) {fd g : Int} (other : g ≠ fd) (c : TcpConn) (e : TaskEvent) :
    owedTask parse owed fd c e g = owed g := by
  cases e with
  | parse =>
    simp only [owedTask]
    cases c.request parse with
    | error what => rfl
    | ok request =>
      dsimp only
      cases TcpConn.answer request.id with
      | none => rfl
      | some text => exact Function.update_of_ne other _ _
  | write => exact Function.update_of_ne other _ _
  | _ => rfl

variable [Fintype ω] {t t' : Booked ω} {e : Event ω}

theorem bookedServer (taken : bookedStep parse cstate t e = some t') :
    step parse cstate t.server e = some t'.server ∧ t'.owed = owedAct parse t.owed t.server e := by
  obtain ⟨s',stepped,rfl⟩ := Option.map_eq_some_iff.mp taken
  exact ⟨stepped,rfl⟩

theorem taskReply {w : ω} {te : TaskEvent} (taken : bookedStep parse cstate t (.task w te) = some t') (fd : Int) :
    ReplyMoves parse cstate t t' (.task w te) fd := by
  obtain ⟨s',stepped,rfl⟩ := Option.map_eq_some_iff.mp taken
  simp only [step,Option.ite_none_right_eq_some,act] at stepped
  obtain ⟨_,stepped⟩ := stepped
  split at stepped <;> try contradiction
  rename_i state userfd running
  have booked : owedAct parse t.owed t.server (.task w te) = owedTask parse t.owed userfd (t.server.users userfd) te := by
    simp only [owedAct,running]
  split at stepped <;> try contradiction
  · rename_i conn body calls faults moved
    cases Option.some.inj stepped
    by_cases own : fd = userfd
    · subst own
      exact .task rfl running (taskMoves parse cstate moved) rfl booked
    · refine .same ?_ ?_ id (fun v runs _ => ⟨rfl,updateOthers v ?_⟩)
      · simp only [worked,Function.update_of_ne own]
      · exact (congrFun booked fd).trans (owedOther t.owed own _ _)
      · rintro rfl
        obtain ⟨_,elsewhere⟩ := runsOnIff.mp runs
        rw [running] at elsewhere
        cases elsewhere
        exact own rfl
  · rename_i what moved
    cases Option.some.inj stepped
    obtain ⟨rfl,undecoded⟩ := taskThrew parse cstate moved
    refine .same rfl ?_ id (fun _ _ _ => ⟨rfl,rfl⟩)
    exact (congrFun booked fd).trans (by simp only [owedTask,undecoded])

theorem handleUsers {s s' : State ω} {sockfd state : Int} {rest : List Ready} (taken : handleTask s sockfd state rest = some s') :
    s'.users = s.users ∧ s'.opened = s.opened := by
  unfold handleTask at taken
  split at taken
  · cases Option.some.inj taken
    exact ⟨rfl,rfl⟩
  · obtain ⟨pool,_,taken⟩ := Option.bind_eq_some_iff.mp taken
    cases Option.some.inj taken
    exact ⟨rfl,rfl⟩

theorem handleReply (taken : bookedStep parse cstate t .handle = some t') (fd : Int) :
    ReplyMoves parse cstate t t' .handle fd := by
  obtain ⟨s',stepped,rfl⟩ := Option.map_eq_some_iff.mp taken
  have calls : CallsKept t.server s' fd := fun v runs inside =>
    (callKept (stepMoves parse cstate stepped) runs inside).resolve_left (fun ⟨_,event⟩ => by cases event)
  simp only [step,Option.ite_none_right_eq_some,act] at stepped
  obtain ⟨_,stepped⟩ := stepped
  split at stepped <;> try contradiction
  · rename_i rest here
    cases Option.some.inj stepped
    exact .same rfl (by simp only [owedAct,here]) id calls
  · rename_i userfd mask rest here
    split at stepped
    · rename_i hangs
      cases Option.some.inj stepped
      by_cases own : fd = userfd
      · exact .closed (by simp [own]) (.inl rfl) (.inl (by simp only [owedAct,here,hangs,if_true,own,Function.update_self]))
      · refine .same rfl ?_ (fun open_ => by simpa [own] using open_) calls
        simp only [owedAct,here,hangs,if_true,Function.update_of_ne own]
    · rename_i calm
      have kept : s'.users = t.server.users ∧ s'.opened = t.server.opened := by
        split at stepped
        · exact handleUsers stepped
        · split at stepped
          · exact handleUsers stepped
          · cases Option.some.inj stepped
            exact ⟨rfl,rfl⟩
      refine .same (by rw [kept.1]) ?_ (fun open_ => kept.2 ▸ open_) calls
      simp only [owedAct,here,if_neg calm]

theorem replyMoves (taken : bookedStep parse cstate t e = some t') (fd : Int) : ReplyMoves parse cstate t t' e fd := by
  have moves := stepMoves parse cstate (bookedServer taken).1
  have calls (noTask : ∀ w te, e ≠ .task w te) : CallsKept t.server t'.server fd := fun v runs inside =>
    (callKept moves runs inside).resolve_left (fun ⟨te,event⟩ => noTask v te event)
  cases e with
  | task w te => exact taskReply taken fd
  | handle => exact handleReply taken fd
  | accept result =>
    obtain ⟨s',stepped,rfl⟩ := Option.map_eq_some_iff.mp taken
    cases moves with
    | @accepted userfd rest here unused range =>
      by_cases own : fd = userfd
      · exact .same (by simp only [own,Function.update_self,TcpConn.setFd]) rfl (fun _ => by simp [own]) (calls (by simp))
      · exact .same (by simp only [Function.update_of_ne own]) rfl (fun open_ => by simpa [own] using open_) (calls (by simp))
    | _ => exact .same rfl rfl id (calls (by simp))
  | add done =>
    obtain ⟨s',stepped,rfl⟩ := Option.map_eq_some_iff.mp taken
    cases moves with
    | @addFails userfd rest here =>
      by_cases own : fd = userfd
      · refine .closed (by simp [own]) (.inr ?_) (.inr ⟨rfl,by rw [here]; exact decide_eq_true own.symm⟩)
        simp only [own,Function.update_self,TcpConn.cleanAllData]
      · exact .same (by simp only [Function.update_of_ne own]) rfl (fun open_ => by simpa [own] using open_) (calls (by simp))
    | _ => exact .same rfl rfl id (calls (by simp))
  | wait | push | post | pool | finish =>
    obtain ⟨s',stepped,rfl⟩ := Option.map_eq_some_iff.mp taken
    cases moves <;> exact .same rfl rfl id (calls (by simp))

omit [Fintype ω] in
theorem servedStays {s s' : State ω} (moves : Moves parse cstate s e s') {fd : Int} (served : inService s fd = 1)
    (open_ : s'.opened fd = true) : inService s' fd = 1 := by
  obtain ⟨was,noAdd⟩ := serving.mp served
  refine serving.mpr ⟨open_,?_⟩
  cases moves with
  | @accepted userfd rest here unused =>
    refine decide_eq_false ?_
    rintro rfl
    rw [was] at unused
    cases unused
  | wait | listening | hangup | dropped | checked | noMore | addFails | added | post => rfl
  | tooHigh | push | worker | pop | dispatch | task | threw => exact noAdd

structure Ledgered (t : Booked ω) : Prop where
  covered : Covered t.server
  kinds : Kinds t.server
  sized : ∀ fd, (t.server.users fd).mWritebuf.length = 1024
  held : ∀ fd text, t.owed fd = some text → inService t.server fd = 1 ∧ ∃ id, TcpConn.answer id = some text
  phased : ∀ fd p, At t.server fd p → (p.phase = .reading → t.owed fd = none) ∧
    (p.phase = .writing → t.owed fd = some (t.server.users fd).pendingReply)

theorem sizedStep (sized : ∀ fd, (t.server.users fd).mWritebuf.length = 1024) (taken : bookedStep parse cstate t e = some t')
    (fd : Int) : (t'.server.users fd).mWritebuf.length = 1024 := by
  cases replyMoves taken fd with
  | same buffer => rw [buffer,sized fd]
  | closed _ size =>
    rcases size with size | size
    · rw [size,sized fd]
    · simp only [size,zeros,List.length_replicate]
  | @task w state te conn body calls faults _ running moves server =>
    have users : t'.server.users fd = conn := by rw [server]; exact Function.update_self ..
    rw [users]
    cases taskWrites t.owed fd moves with
    | keeps buffer => rw [buffer,sized fd]
    | hands buffer => rw [buffer,sized fd]
    | clears buffer => simp only [buffer,zeros,List.length_replicate]
    | @answers text id answer _ _ buffer =>
      rw [buffer,strcpy,overwriteLength _ _ _ (Nat.zero_le _),sized fd]

omit [DecidableEq ω] [Fintype ω] in
theorem insideRunning {s : State ω} {w : ω} {state : Nat} {fd : Int} {body : Body} (running : s.pool.workers w = .running state fd)
    (here : s.bodies w = body) (owes : body.owes = true) : At s fd (.inside w body) :=
  ⟨runsOnIff.mpr ⟨state,running⟩,here,owes⟩

theorem owedSource (ledgered : Ledgered t) (taken : bookedStep parse cstate t e = some t') {fd : Int} {text : Text}
    (owes : t'.owed fd = some text) : inService t.server fd = 1 ∧ (t.server.opened fd = true → t'.server.opened fd = true) ∧
      ∃ id, TcpConn.answer id = some text := by
  cases replyMoves taken fd with
  | same _ owed open_ =>
    obtain ⟨served,answer⟩ := ledgered.held fd text (owed ▸ owes)
    exact ⟨served,open_,answer⟩
  | closed _ _ owed =>
    rcases owed with none | ⟨same,adds⟩
    · rw [none] at owes
      cases owes
    · have served := (ledgered.held fd text (same ▸ owes)).1
      rw [(serving.mp served).2] at adds
      cases adds
  | @task w state te conn body calls faults event running moves server owed =>
    have open_ (was : t.server.opened fd = true) : t'.server.opened fd = true := by rwa [server]
    have before (same : t'.owed fd = t.owed fd) : inService t.server fd = 1 ∧
        (t.server.opened fd = true → t'.server.opened fd = true) ∧ ∃ id, TcpConn.answer id = some text := by
      obtain ⟨served,answer⟩ := ledgered.held fd text (same ▸ owes)
      exact ⟨served,open_,answer⟩
    cases taskWrites t.owed fd moves with
    | keeps _ same => exact before (congrFun (owed.trans same) fd)
    | clears _ _ _ same => exact before (congrFun (owed.trans same) fd)
    | hands _ _ _ cleared =>
      rw [owed,cleared,Function.update_self] at owes
      cases owes
    | @answers _ id answer from_ _ _ booked =>
      rw [owed,booked,Function.update_self] at owes
      cases owes
      exact ⟨(atServed ledgered.covered (insideRunning running from_ rfl)).2,open_,id,answer⟩

theorem ledBy {w : ω} {state : Nat} {conn : TcpConn} {body : Body} {calls : List EpollCall}
    {faults : List Fault} {fd : Int} {p q : Place ω} (covered : Covered t.server)
    (running : t.server.pool.workers w = .running state fd) (owes : (t.server.bodies w).owes = true)
    (server : t'.server = worked t.server w fd conn body calls faults) (from_ : At t.server fd q) (goes : Goes q p)
    (at_ : At t'.server fd p) : (p = .inside w body ∧ (t.server.bodies w = body ∨ Follows (t.server.bodies w) body)) ∨
      (p = .armed .writeEvent ∧ t.server.bodies w = .rearming) ∨ (p = .armed .readEvent ∧ t.server.bodies w = .resuming) := by
  have here : q = .inside w (t.server.bodies w) := insideOnly covered (insideRunning running rfl owes) from_
  have bodies : t'.server.bodies w = body := by rw [server]; exact Function.update_self ..
  subst here
  generalize t.server.bodies w = old at goes
  cases goes with
  | stays => exact .inl ⟨by rw [← at_.2.1,bodies],.inl (by rw [← at_.2.1,bodies])⟩
  | follows next =>
    have same := at_.2.1
    rw [bodies] at same
    exact .inl ⟨by rw [same],.inr (same ▸ next)⟩
  | arms => exact .inr (.inl ⟨rfl,rfl⟩)
  | resumes => exact .inr (.inr ⟨rfl,rfl⟩)

def Phased (owed : Option Text) (c : TcpConn) (p : Place ω) : Prop :=
  (p.phase = .reading → owed = none) ∧ (p.phase = .writing → owed = some c.pendingReply)

omit [DecidableEq ω] [Fintype ω] in
theorem quietPhased {fd : Int} {p q : Place ω} (before : Phased (t.owed fd) (t.server.users fd) q)
    (from_ : At t.server fd q) (goes : Goes q p) (at_ : At t'.server fd p)
    (buffer : (t'.server.users fd).mWritebuf = (t.server.users fd).mWritebuf) (owed : t'.owed fd = t.owed fd)
    (noParse : ∀ v, runsOn fd (t.server.pool.workers v) = true → t.server.bodies v = .parsing →
      t'.server.bodies v ≠ .rearming)
    (noWrite : ∀ v, runsOn fd (t.server.pool.workers v) = true → t.server.bodies v = .sending →
      t'.server.bodies v ≠ .clearing) : Phased (t'.owed fd) (t'.server.users fd) p := by
  have pending : (t'.server.users fd).pendingReply = (t.server.users fd).pendingReply := by
    rw [TcpConn.pendingReply,TcpConn.pendingReply,buffer]
  rcases goesPhase goes with leaving | same | ⟨w,⟨rfl,rfl⟩ | ⟨rfl,rfl⟩⟩
  · exact ⟨fun reading => absurd (leaving.symm.trans reading) (by decide),
      fun writing => absurd (leaving.symm.trans writing) (by decide)⟩
  · unfold Phased at before ⊢
    rwa [same,owed,pending]
  · exact absurd at_.2.1 (noParse w from_.1 from_.2.1)
  · exact absurd at_.2.1 (noWrite w from_.1 from_.2.1)

theorem phasedTask (ledgered : Ledgered t) {w : ω} {state : Nat} {te : TaskEvent} {conn : TcpConn} {body : Body}
    {calls : List EpollCall} {faults : List Fault} {fd : Int} {p q : Place ω}
    (running : t.server.pool.workers w = .running state fd)
    (moves : TaskMoves parse cstate (t.server.users fd) (t.server.bodies w) te conn body calls faults)
    (server : t'.server = worked t.server w fd conn body calls faults)
    (owed : t'.owed = owedTask parse t.owed fd (t.server.users fd) te) (from_ : At t.server fd q) (goes : Goes q p)
    (at_ : At t'.server fd p) : Phased (t'.owed fd) (t'.server.users fd) p := by
  have users : t'.server.users fd = conn := by rw [server]; exact Function.update_self ..
  have led (owes : (t.server.bodies w).owes = true) := ledBy ledgered.covered running owes server from_ goes at_
  have before := ledgered.phased fd q from_
  cases taskWrites t.owed fd moves with
  | keeps buffer same noParse noWrite =>
    refine quietPhased before from_ goes at_ (by rw [users,buffer]) (congrFun (owed.trans same) fd) (fun v _ parsing => ?_)
      (fun v _ sending => ?_)
    · by_cases own : v = w
      · rw [server,own]
        simpa only [worked,Function.update_self] using noParse
      · simp only [server,worked,Function.update_of_ne own,parsing,ne_eq,reduceCtorEq,not_false_eq_true]
    · by_cases own : v = w
      · exact absurd (own ▸ sending) noWrite
      · simp only [server,worked,Function.update_of_ne own,sending,ne_eq,reduceCtorEq,not_false_eq_true]
  | @answers text id answer fromParse into buffer booked =>
    rcases led (by rw [fromParse]; rfl) with ⟨rfl,_⟩ | ⟨_,here⟩ | ⟨_,here⟩
    · subst into
      refine ⟨fun phase => absurd phase (by simp [Place.phase]),fun _ => ?_⟩
      obtain ⟨_,clean,short⟩ := SendReply.answerText answer
      rw [owed,booked,Function.update_self,users,TcpConn.pendingReply,buffer,
        cStringCopied clean (by rw [ledgered.sized fd]; exact short)]
    · rw [fromParse] at here
      cases here
    · rw [fromParse] at here
      cases here
  | hands buffer fromSend leaves booked =>
    rcases led (by rw [fromSend]; rfl) with ⟨rfl,same | next⟩ | ⟨_,here⟩ | ⟨_,here⟩
    · exact absurd (same.symm.trans fromSend) leaves
    · rw [fromSend] at next
      cases next
      exact ⟨fun _ => by rw [owed,booked,Function.update_self],fun phase => by cases phase⟩
    · rw [fromSend] at here
      cases here
    · rw [fromSend] at here
      cases here
  | clears buffer fromClear into same =>
    have here : q = .inside w .clearing := fromClear ▸ insideOnly ledgered.covered
      (insideRunning running rfl (by rw [fromClear]; rfl)) from_
    rcases led (by rw [fromClear]; rfl) with ⟨rfl,_⟩ | ⟨_,other⟩ | ⟨_,other⟩
    · subst into here
      exact ⟨fun _ => (congrFun (owed.trans same) fd).trans (before.1 rfl),fun phase => by cases phase⟩
    · rw [fromClear] at other
      cases other
    · rw [fromClear] at other
      cases other

theorem phasedStep (ledgered : Ledgered t) (covered : Covered t'.server) (taken : bookedStep parse cstate t e = some t')
    (fd : Int) (p : Place ω) (at_ : At t'.server fd p) : Phased (t'.owed fd) (t'.server.users fd) p := by
  rcases stepPlace ledgered.covered ledgered.kinds (bookedServer taken).1 at_ with ⟨q,from_,goes⟩ | ⟨rfl,adds⟩
  · cases replyMoves taken fd with
    | same buffer owed _ calls =>
      refine quietPhased (ledgered.phased fd q from_) from_ goes at_ buffer owed (fun v runs parsing => ?_)
        (fun v runs sending => ?_)
      · rw [(calls v runs (by rw [parsing]; decide)).2,parsing]
        decide
      · rw [(calls v runs (by rw [sending]; decide)).2,sending]
        decide
    | closed shut =>
      have open_ := (serving.mp (atServed covered at_).2).1
      rw [shut] at open_
      cases open_
    | task _ running moves server owed => exact phasedTask ledgered running moves server owed from_ goes at_
  · refine ⟨fun _ => ?_,fun phase => by cases phase⟩
    cases owes : t'.owed fd with
    | none => rfl
    | some text =>
      have served := (owedSource ledgered taken owes).1
      rw [(serving.mp served).2] at adds
      cases adds

theorem ledgeredStep (ledgered : Ledgered t) (taken : bookedStep parse cstate t e = some t') : Ledgered t' := by
  have moves := stepMoves parse cstate (bookedServer taken).1
  have covered := movesCovered parse cstate ledgered.covered moves
  refine ⟨covered,movesKinds ledgered.kinds moves,sizedStep ledgered.sized taken,fun fd text owes => ?_,
    phasedStep ledgered covered taken⟩
  obtain ⟨served,open_,answer⟩ := owedSource ledgered taken owes
  exact ⟨servedStays moves served (open_ (serving.mp served).1),answer⟩

theorem initialLedgered (start : Initial t.server ∧ t.owed = fun _ => none) : Ledgered t := by
  obtain ⟨begins,nothing⟩ := start
  obtain ⟨covered,_⟩ := initialCovered begins
  refine ⟨covered,(initialServed begins).attended.kinds,fun fd => ?_,fun fd text owes => ?_,fun fd p at_ => ?_⟩
  · rw [begins.2.2.2.2.1 fd]
    exact List.length_replicate
  · rw [nothing] at owes
    cases owes
  · have open_ := (serving.mp (atServed covered at_).2).1
    rw [begins.2.2.1 fd] at open_
    cases open_

theorem turnStep (ledgered : Ledgered t) (taken : bookedStep parse cstate t e = some t') : InTurn parse t e := by
  cases e with
  | task w te =>
    simp only [InTurn]
    split <;> try trivial
    rename_i state fd running
    obtain ⟨stepped,_⟩ := bookedServer taken
    simp only [step,Option.ite_none_right_eq_some,act,running] at stepped
    cases te with
    | parse =>
      intro request text decoded answer
      have parsing : t.server.bodies w = .parsing := by
        cases here : t.server.bodies w <;> rw [here] at stepped <;> first | rfl | cases stepped.2
      exact (ledgered.phased fd _ (insideRunning running parsing rfl)).1 rfl
    | write written =>
      have sending := writeSending (bookedServer taken).1 running
      have owes := (ledgered.phased fd _ (insideRunning running sending rfl)).2 rfl
      exact ⟨owes,(ledgered.held fd _ owes).2⟩
    | _ => trivial
  | _ => trivial

/- Whatever the clients send and however the threads interleave: between two
answers of a connection lies the one `write` that is handed the first of them. -/
theorem repliesInTurn (start : Initial t.server ∧ t.owed = fun _ => none) (es : List (Event ω)) :
    (bookedSystem ω parse cstate).Throughout (fun t e _ => InTurn parse t e) t es :=
  (bookedSystem ω parse cstate).throughoutKept
    (fun _ _ _ ledgered taken => ⟨ledgeredStep ledgered taken,turnStep ledgered taken⟩) (initialLedgered start) es

end Steps

def bookedStart : Booked Bool := ⟨sampleStart Bool,fun _ => none⟩

theorem orderlyInTurn :
    (bookedSystem Bool TcpConn.sampleParse .LT).Throughout (fun t e _ => InTurn TcpConn.sampleParse t e) bookedStart orderlyRun ∧
    ((bookedSystem Bool TcpConn.sampleParse .LT).run bookedStart orderlyRun.dropLast).map (fun t => t.owed 5) =
      some (some (ascii "[2]")) :=
  ⟨repliesInTurn ⟨sampleInitial Bool,rfl⟩ orderlyRun,by decide +kernel⟩

end SimpleChat.Server
