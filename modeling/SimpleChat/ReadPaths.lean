import SimpleChat.ReadOnce

/-! What one `read_once` call asks of `read`, stores in its arrays and hands to
`parseData`, in the level-triggered and in the edge-triggered branch. -/
namespace SimpleChat.TcpConn

inductive Access where
  | request (count : Nat)
  | copy (offset len : Nat)
  | store (index : Nat)
  | advance (alllen : Nat)
  deriving DecidableEq, Repr

def finishAccesses (cstate : ConnState) (c : TcpConn) (ending : Ending) : List Access := match cstate, ending with
  | .ET, .eagain => [.store c.alllen]
  | _, _ => []

def receiveAccesses (cstate : ConnState) (c : TcpConn) (data : Text) : List Access :=
  let alllen := c.alllen + data.length
  match cstate with
  | .LT => [.copy c.alllen data.length,.advance alllen,.store alllen]
  | .ET => [.copy c.alllen data.length,.advance alllen]

def loopAccesses (cstate : ConnState) (c : TcpConn) (ending : Ending) : List Text → List Access
  | [] => .request (maxReadLen - c.alllen) :: finishAccesses cstate c ending
  | data :: rest => .request (maxReadLen - c.alllen) :: receiveAccesses cstate c data ++
      loopAccesses cstate (c.received cstate data).1 ending rest

def accesses (cstate : ConnState) (c : TcpConn) (reads : Reads) : List Access :=
  if maxReadLen ≤ c.alllen then [] else loopAccesses cstate c reads.ending reads.chunks

/- A request fits `sempbuf`, a store lies in `m_buf`, and `alllen` stays in its range. -/
def Access.Inside : Access → Prop
  | .request count => count ≤ sempbufSize
  | .copy offset len => offset + len ≤ 1024
  | .store index => index < 1024
  | .advance alllen => alllen ≤ maxReadLen

@[simp] theorem requestInside (count : Nat) : (Access.request count).Inside ↔ count ≤ sempbufSize := Iff.rfl

def StaysInside (cstate : ConnState) (c : TcpConn) (reads : Reads) : Prop := ∀ a ∈ accesses cstate c reads, a.Inside

/- A call decodes the strings it hands to `parseData`, or throws on one of them. -/
def Run.Parses (parse : Text → Except String Json) (run : Run) : Prop :=
  run.decoded.toList = run.parsed.filterMap (fun text => (parse text >>= decode).toOption) ∧
  ∀ what, run.outcome = .threw what ↔ ∃ text ∈ run.parsed, parse text >>= decode = .error what

structure Ready (c : TcpConn) : Prop where
  room : c.alllen < maxReadLen
  size : c.mBuf.length = 1024
  clear : ∀ i b, c.alllen ≤ i → c.mBuf[i]? = some b → b = 0

theorem Ready.holds {c : TcpConn} (ready : Ready c) : Holds c (c.mBuf.take c.alllen) := by
  have room : c.alllen < 1024 := ready.room
  have len : (c.mBuf.take c.alllen).length = c.alllen := by rw [List.length_take,ready.size]; omega
  refine ⟨len.symm,by omega,?_⟩
  have tail : c.mBuf.drop c.alllen = zeros (1024 - c.alllen) := by
    refine List.eq_replicate_iff.mpr ⟨by rw [List.length_drop,ready.size],fun b member => ?_⟩
    obtain ⟨i,found⟩ := List.mem_iff_getElem?.mp member
    rw [List.getElem?_drop] at found
    exact ready.clear _ b (Nat.le_add_right _ _) found
  rw [len,← tail,List.take_append_drop]

theorem Holds.ready {c : TcpConn} {content : Text} (holds : Holds c content) (short : content.length < maxReadLen) :
    Ready c := by
  refine ⟨holds.len ▸ short,?_,fun i b behind found => ?_⟩
  · have fits := holds.fits
    rw [holds.buf,List.length_append,zeros,List.length_replicate]
    omega
  · rw [holds.buf,List.getElem?_append_right (holds.len ▸ behind)] at found
    exact List.eq_of_mem_replicate (List.mem_of_getElem? found)

section Inside
variable {cstate : ConnState} {c : TcpConn}

theorem receivedLen (cstate : ConnState) (c : TcpConn) (data : Text) :
    (c.received cstate data).1.alllen = c.alllen + data.length := by
  cases cstate <;> rfl

theorem receivedInside (data : Text) (fits : c.alllen + data.length ≤ maxReadLen) :
    (∀ a ∈ receiveAccesses cstate c data, a.Inside) ↔ (cstate = .LT → c.alllen + data.length < maxReadLen) := by
  have copied : c.alllen + data.length ≤ 1024 := fits
  cases cstate <;> simp [receiveAccesses,Access.Inside,copied,maxReadLen]

/- The first request is the longest one, so it decides for all of them; the last
chunk of the level-triggered branch puts its terminator furthest behind. -/
theorem loopInside {ending : Ending} {chunks : List Text} (fits : c.alllen + chunks.flatten.length ≤ maxReadLen)
    (ends : c.alllen + chunks.flatten.length = maxReadLen → ending = .eof) :
    (∀ a ∈ loopAccesses cstate c ending chunks, a.Inside) ↔
    maxReadLen - c.alllen ≤ sempbufSize ∧
      (cstate = .LT → chunks ≠ [] → c.alllen + chunks.flatten.length < maxReadLen) := by
  induction chunks generalizing c with
  | nil =>
    have last : ∀ a ∈ finishAccesses cstate c ending, a.Inside := by
      intro a member
      cases cstate <;> cases ending <;> simp [finishAccesses] at member
      subst member
      have room : c.alllen ≠ maxReadLen := fun full => by cases ends (by simpa using full)
      simp only [List.flatten_nil,List.length_nil,Nat.add_zero] at fits
      exact Nat.lt_of_le_of_ne fits room
    simp only [loopAccesses,List.forall_mem_cons,requestInside,ne_eq,not_true_eq_false,false_implies,implies_true,
      and_true]
    exact and_iff_left last
  | cons data rest ih =>
    simp only [List.flatten_cons,List.length_append] at fits ends ⊢
    have next := receivedLen cstate c data
    have later := @ih (c.received cstate data).1 (by rw [next]; omega) (by rw [next]; intro full; exact ends (by omega))
    rw [next] at later
    simp only [loopAccesses,List.cons_append,List.forall_mem_cons,List.forall_mem_append,requestInside,later,
      receivedInside data (by omega : c.alllen + data.length ≤ maxReadLen)]
    constructor
    · rintro ⟨first,stored,_,below⟩
      refine ⟨first,fun lt _ => ?_⟩
      cases rest with
      | nil => simpa using stored lt
      | cons more rest =>
        have := below lt (List.cons_ne_nil _ _)
        omega
    · rintro ⟨first,below⟩
      refine ⟨first,fun lt => ?_,by omega,fun lt _ => ?_⟩ <;>
        have := below lt (List.cons_ne_nil _ _) <;> omega

end Inside

/- A call stays inside its arrays exactly when the buffer has at most as much
room left as `sempbuf` has, and the level-triggered branch does not fill it. -/
theorem staysInsideIff {cstate : ConnState} {c : TcpConn} (room : c.alllen < maxReadLen) {reads : Reads}
    (feasible : Feasible (maxReadLen - c.alllen) reads) :
    StaysInside cstate c reads ↔
    maxReadLen - c.alllen ≤ sempbufSize ∧
      (cstate = .LT → c.alllen + reads.chunks.flatten.length < maxReadLen) := by
  obtain ⟨_,fits,ends⟩ := feasible
  rw [StaysInside,accesses,if_neg (Nat.not_le_of_lt room),loopInside (by omega) (fun full => ends (by omega))]
  refine and_congr_right (fun _ => imp_congr_right (fun _ => ?_))
  by_cases none : reads.chunks = []
  · simp [none,room]
  · simp [none]

theorem insideNoFault (parse : Text → Except String Json) {cstate : ConnState} {c : TcpConn} {reads : Reads}
    (room : c.alllen < maxReadLen) (feasible : Feasible (maxReadLen - c.alllen) reads)
    (inside : StaysInside cstate c reads) : (readOnce parse cstate c reads).faults = [] := by
  obtain ⟨first,below⟩ := (staysInsideIff room feasible).mp inside
  have fits := feasible.2.1
  rw [readOnce,if_neg (Nat.not_le_of_lt room)]
  clear room feasible inside
  generalize reads.chunks = chunks at fits below
  induction chunks generalizing c with
  | nil => exact finishFaults parse cstate c reads.ending
  | cons data rest ih =>
    simp only [List.flatten_cons,List.length_append] at fits below
    have next := receivedLen cstate c data
    have later := @ih (c.received cstate data).1 (by rw [next]; omega) (by rw [next]; omega)
      (fun lt => by have := below lt; rw [next]; omega)
    have short : ¬ sempbufSize < data.length := by omega
    have clean : (c.received cstate data).2 = [] := by
      cases cstate with
      | LT =>
        have less : c.alllen + data.length < maxReadLen := by have := below rfl; omega
        simp only [received,if_neg short,if_pos less,List.append_nil]
      | ET => simp only [received,if_neg short]
    rw [readLoop,clean,later,List.append_nil]

def lateConn : TcpConn := {new with alllen := 964}

theorem sampleInside : StaysInside .ET lateConn ⟨[ascii "[0,\"a\""],.eagain⟩ :=
  (staysInsideIff (by decide) ⟨by decide +kernel,by decide +kernel,by decide +kernel⟩).mpr ⟨by decide,nofun⟩

theorem firstReadTooLong : ¬ StaysInside .LT new ⟨[],.eagain⟩ ∧ ¬ StaysInside .ET new ⟨[],.eagain⟩ :=
  ⟨fun inside => absurd ((requestInside 1024).mp (inside _ (by decide))) (by decide),
   fun inside => absurd ((requestInside 1024).mp (inside _ (by decide))) (by decide)⟩

section Paths
variable {c : TcpConn} {content : Text}

theorem finishParsed (parse : Text → Except String Json) (cstate : ConnState) (holds : Holds c content) (ending : Ending) :
    (finish parse cstate c ending).parsed = if ending = .eagain then [cString content] else [] := by
  cases ending with
  | eagain =>
    have text : cString c.mBuf = cString content := by rw [holds.buf,cStringTail]
    simp only [finish,holds.terminated,text,if_true]
    split <;> rfl
  | _ => rfl

theorem finishParses (parse : Text → Except String Json) (cstate : ConnState) (c : TcpConn) (ending : Ending) :
    (finish parse cstate c ending).Parses parse := by
  cases ending with
  | eagain =>
    have asked : (c.terminated cstate).request parse = parse (cString (c.terminated cstate).mBuf) >>= decode := rfl
    unfold Run.Parses
    simp only [finish,asked]
    cases result : parse (cString (c.terminated cstate).mBuf) >>= decode with
    | error what =>
      rw [List.filterMap_cons,result]
      simp [result,Except.toOption]
    | ok request =>
      rw [List.filterMap_cons,result]
      simp [result,Except.toOption]
  | _ => exact ⟨rfl,by simp [finish]⟩

theorem Holds.same {c' : TcpConn} (holds : Holds c content) (holds' : Holds c' content) (fd : c.mFd = c'.mFd)
    (writebuf : c.mWritebuf = c'.mWritebuf) : c = c' := by
  have len := holds.len.trans holds'.len.symm
  have buf := holds.buf.trans holds'.buf.symm
  cases c
  cases c'
  simp only at fd writebuf len buf
  rw [fd,writebuf,len,buf]

theorem finishAgrees (parse : Text → Except String Json) (holds : Holds c content) (ending : Ending) :
    (finish parse .LT c ending).conn = (finish parse .ET c ending).conn ∧
    (finish parse .LT c ending).calls = (finish parse .ET c ending).calls := by
  cases ending with
  | eagain => simp only [finish,holds.terminated,and_self]
  | _ => exact ⟨rfl,rfl⟩

theorem finishReady (parse : Text → Except String Json) {cstate : ConnState} (holds : Holds c content)
    (ending : Ending) (short : ending = .eof ∨ content.length < maxReadLen) :
    Ready (finish parse cstate c ending).conn := by
  cases ending with
  | eof => exact (resetHolds c).ready (by decide)
  | failed => exact holds.ready (short.resolve_left (fun ends => by contradiction))
  | eagain =>
    have room : content.length < maxReadLen := short.resolve_left (fun ends => by contradiction)
    simp only [finish,holds.terminated]
    cases c.request parse with
    | error what => exact holds.ready room
    | ok request => exact (resetHolds _).ready (by decide)

end Paths

/- The two branches hand the same strings to `parseData` (what was buffered and
what was read, up to its first NUL), decode what it makes of them, leave the same
connection behind, which can start a call again, and take it out of the epoll set
in the same cases. -/
theorem pathsAgree (parse : Text → Except String Json) {c : TcpConn} (ready : Ready c) {reads : Reads}
    (feasible : Feasible (maxReadLen - c.alllen) reads) :
    (∀ cstate, (readOnce parse cstate c reads).parsed =
      (if reads.ending = .eagain then [cString (c.mBuf.take c.alllen ++ reads.chunks.flatten)] else []) ∧
      (readOnce parse cstate c reads).Parses parse) ∧
    (readOnce parse .LT c reads).conn = (readOnce parse .ET c reads).conn ∧
    (readOnce parse .LT c reads).calls = (readOnce parse .ET c reads).calls ∧
    Ready (readOnce parse .LT c reads).conn := by
  have holds := ready.holds
  have room : ¬ maxReadLen ≤ c.alllen := Nat.not_le_of_lt ready.room
  obtain ⟨_,fits,ends⟩ := feasible
  rw [holds.len] at fits ends
  have handed (cstate : ConnState) : (readOnce parse cstate c reads).parsed =
      (if reads.ending = .eagain then [cString (c.mBuf.take c.alllen ++ reads.chunks.flatten)] else []) ∧
      (readOnce parse cstate c reads).Parses parse := by
    obtain ⟨c',faults,holds',_,_,run,_⟩ := @readLoopResult parse cstate c _ holds reads.chunks reads.ending fits
    simp only [readOnce,if_neg room,run]
    exact ⟨finishParsed parse cstate holds' reads.ending,finishParses parse cstate c' reads.ending⟩
  obtain ⟨lt,faults,holdsLt,fdLt,writeLt,runLt,_⟩ := @readLoopResult parse .LT c _ holds reads.chunks reads.ending fits
  obtain ⟨et,faults',holdsEt,fdEt,writeEt,runEt,_⟩ := @readLoopResult parse .ET c _ holds reads.chunks reads.ending fits
  have same : et = lt := holdsEt.same holdsLt (fdEt.trans fdLt.symm) (writeEt.trans writeLt.symm)
  subst same
  have agrees := finishAgrees parse holdsLt reads.ending
  have short : reads.ending = .eof ∨ (c.mBuf.take c.alllen ++ reads.chunks.flatten).length < maxReadLen := by
    rw [List.length_append,← holds.len]
    have room := ready.room
    rw [← holds.len] at fits ends
    by_cases full : reads.chunks.flatten.length = maxReadLen - c.alllen
    · exact .inl (ends full)
    · exact .inr (by omega)
  refine ⟨handed,?_⟩
  simp only [readOnce,if_neg room,runLt,runEt]
  exact ⟨agrees.1,agrees.2,finishReady parse holdsLt _ short⟩

theorem newReady : Ready new := newHolds.ready (by decide)

theorem samplePaths :
    (readOnce sampleParse .ET new loginReads).parsed = [loginText] ∧
    (readOnce sampleParse .LT new loginReads).conn = (readOnce sampleParse .ET new loginReads).conn := by
  have feasible : Feasible (maxReadLen - new.alllen) loginReads := ⟨by decide +kernel,by decide +kernel,by decide +kernel⟩
  have law := pathsAgree sampleParse newReady feasible
  exact ⟨(law.1 .ET).1.trans (by decide +kernel),law.2.1⟩

end SimpleChat.TcpConn
