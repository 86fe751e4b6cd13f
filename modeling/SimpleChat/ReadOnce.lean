import SimpleChat.TcpConn

/-! One `read_once` call, for everything `read` may answer. The receive buffer
is its content followed by zeros; a call gives it back empty unless it cannot
read, `read` fails with bytes buffered, or `parseData` throws. -/
namespace SimpleChat.TcpConn

/- `content` is what the connection has received and not yet parsed. -/
structure Holds (c : TcpConn) (content : Text) : Prop where
  len : c.alllen = content.length
  fits : content.length ≤ 1024
  buf : c.mBuf = content ++ zeros (1024 - content.length)

def Clean (c : TcpConn) : Prop := c.mBuf = zeros 1024 ∧ c.alllen = 0

/- What `read` can answer: every count is positive and at most the one asked
for, and a `read` of no bytes returns 0, which ends the call. -/
def Feasible (room : Nat) (reads : Reads) : Prop :=
  (∀ chunk ∈ reads.chunks, chunk ≠ []) ∧ reads.chunks.flatten.length ≤ room ∧
  (reads.chunks.flatten.length = room → reads.ending = .eof)

def Survives (run : Run) : Prop :=
  (∃ value, run.outcome = .returned value) ∧ Clean run.conn ∧ run.faults = []

def Typed (js : Json) : Prop :=
  ∃ id name password email more,
    js = .array (id :: .string name :: .string password :: .string email :: more) ∧ id.IsArithmetic

def Benign (parse : Text → Except String Json) (cstate : ConnState) (content : Text) (reads : Reads) : Prop :=
  content.length < maxReadLen ∧ (∀ chunk ∈ reads.chunks, chunk.length ≤ sempbufSize) ∧
  (cstate = .LT → (content ++ reads.chunks.flatten).length < maxReadLen) ∧
  match reads.ending with
  | .eof => True
  | .failed => content = [] ∧ reads.chunks = []
  | .eagain => ∃ js, parse (cString (content ++ reads.chunks.flatten)) = .ok js ∧ Typed js

theorem newHolds : Holds new [] := ⟨rfl,Nat.zero_le _,rfl⟩
theorem resetHolds (c : TcpConn) : Holds c.reset [] := ⟨rfl,Nat.zero_le _,rfl⟩
theorem resetClean (c : TcpConn) : Clean c.reset := ⟨rfl,rfl⟩

theorem Holds.clean {c : TcpConn} {content : Text} (holds : Holds c content) : Clean c ↔ content = [] := by
  constructor
  · intro clean
    exact List.eq_nil_of_length_eq_zero (holds.len ▸ clean.2)
  · rintro rfl
    exact ⟨holds.buf,holds.len⟩

theorem Holds.received {c : TcpConn} {content data : Text} {cstate : ConnState} (holds : Holds c content)
    (room : data.length ≤ 1024 - content.length) : Holds (c.received cstate data).1 (content ++ data) := by
  have rest : 1024 - content.length - data.length = 1024 - (content ++ data).length := by simp; omega
  have copied : overwrite c.mBuf c.alllen data = content ++ data ++ zeros (1024 - (content ++ data).length) := by
    rw [holds.buf,holds.len,overwriteTail room,rest]
  have len : c.alllen + data.length = (content ++ data).length := by rw [holds.len]; simp
  have fits : (content ++ data).length ≤ 1024 := by
    have := holds.fits
    simp only [List.length_append]
    omega
  cases cstate with
  | LT =>
    refine ⟨len,fits,?_⟩
    simp only [TcpConn.received,copied,len]
    exact terminateTail _ _
  | ET => exact ⟨len,fits,copied⟩

theorem Holds.noFault {c : TcpConn} {content data : Text} {cstate : ConnState} (holds : Holds c content) :
    (c.received cstate data).2 = [] ↔
    data.length ≤ sempbufSize ∧ (cstate = .LT → (content ++ data).length < maxReadLen) := by
  cases cstate <;> simp [TcpConn.received,holds.len]

theorem Holds.terminated {c : TcpConn} {content : Text} {cstate : ConnState} (holds : Holds c content) :
    c.terminated cstate = c := by
  cases cstate with
  | LT => rfl
  | ET =>
    have same : c.mBuf.set c.alllen 0 = c.mBuf := by rw [holds.buf,holds.len,terminateTail]
    simp only [TcpConn.terminated,same]

theorem Holds.request {c : TcpConn} {content : Text} (parse : Text → Except String Json)
    (holds : Holds c content) : c.request parse = (parse (cString content)) >>= decode := by
  simp only [TcpConn.request,holds.buf,cStringTail]

theorem decodeArray (items : List Json) : decode (.array items) = (do
    let id ← (items.getD 0 .null).getInt
    let name ← (items.getD 1 .null).getString
    let password ← (items.getD 2 .null).getString
    let email ← (items.getD 3 .null).getString
    return ⟨id,name,password,email⟩) := by
  obtain ⟨a,first⟩ := Json.indexArray items 0
  obtain ⟨b,second⟩ := Json.indexArray (items ++ List.replicate a .null) 1
  obtain ⟨c,third⟩ := Json.indexArray (items ++ List.replicate a .null ++ List.replicate b .null) 2
  obtain ⟨d,fourth⟩ := Json.indexArray
    (items ++ List.replicate a .null ++ List.replicate b .null ++ List.replicate c .null) 3
  simp only [Json.filledGet] at second third fourth
  simp only [decode,first,second,third,fourth,bind,Except.bind]

theorem decodeTyped {js : Json} : (∃ request, decode js = .ok request) ↔ Typed js := by
  constructor
  · rintro ⟨request,decoded⟩
    cases js with
    | array items =>
      rw [decodeArray] at decoded
      obtain ⟨value,number,decoded⟩ := Json.bindOk.mp decoded
      obtain ⟨name,first,decoded⟩ := Json.bindOk.mp decoded
      obtain ⟨password,second,decoded⟩ := Json.bindOk.mp decoded
      obtain ⟨email,third,_⟩ := Json.bindOk.mp decoded
      rw [Json.getStringTyped] at first second third
      rcases items with _ | ⟨id,_ | ⟨a,_ | ⟨b,_ | ⟨c,more⟩⟩⟩⟩ <;> try contradiction
      cases first
      cases second
      cases third
      exact ⟨id,name,password,email,more,rfl,Json.getIntTyped.mp ⟨value,number⟩⟩
    | _ => contradiction
  · rintro ⟨id,name,password,email,more,rfl,typed⟩
    obtain ⟨value,number⟩ := Json.getIntTyped.mpr typed
    refine ⟨⟨value,name,password,email⟩,?_⟩
    rw [decodeArray]
    simp only [List.getD_cons_zero,List.getD_cons_succ,number,Json.getString]
    rfl

theorem finishSurvives (parse : Text → Except String Json) {cstate : ConnState} {c : TcpConn} {content : Text}
    (holds : Holds c content) (ending : Ending) :
    Survives (finish parse cstate c ending) ↔
    match ending with
    | .eof => True
    | .failed => content = []
    | .eagain => ∃ js, parse (cString content) = .ok js ∧ Typed js := by
  cases ending with
  | eof => exact ⟨fun _ => trivial,fun _ => ⟨⟨_,rfl⟩,resetClean c,rfl⟩⟩
  | failed => exact ⟨fun survives => holds.clean.mp survives.2.1,fun empty => ⟨⟨_,rfl⟩,holds.clean.mpr empty,rfl⟩⟩
  | eagain =>
    have parsed := holds.request parse
    simp only [finish,holds.terminated]
    constructor
    · rintro ⟨⟨value,returned⟩,_,_⟩
      cases result : c.request parse with
      | error what => rw [result] at returned; contradiction
      | ok request =>
        rw [parsed] at result
        obtain ⟨js,read,decoded⟩ := Json.bindOk.mp result
        exact ⟨js,read,decodeTyped.mp ⟨request,decoded⟩⟩
    · rintro ⟨js,read,typed⟩
      obtain ⟨request,decoded⟩ := decodeTyped.mpr typed
      rw [parsed,Json.bindOk.mpr ⟨js,read,decoded⟩]
      exact ⟨⟨_,rfl⟩,resetClean _,rfl⟩

/- The loop reads one chunk after another into the buffer, and ends as the call
would that found all of them there. -/
theorem readLoopResult (parse : Text → Except String Json) {cstate : ConnState} {c : TcpConn} {content : Text}
    (holds : Holds c content) (chunks : List Text) (ending : Ending)
    (room : chunks.flatten.length ≤ 1024 - content.length) :
    ∃ c' faults, Holds c' (content ++ chunks.flatten) ∧ c'.mFd = c.mFd ∧ c'.mWritebuf = c.mWritebuf ∧
      readLoop parse cstate c ending chunks = {finish parse cstate c' ending with faults := faults} ∧
      (faults = [] ↔ (∀ chunk ∈ chunks, chunk.length ≤ sempbufSize) ∧
        (cstate = .LT → chunks ≠ [] → (content ++ chunks.flatten).length < maxReadLen)) := by
  induction chunks generalizing c content with
  | nil =>
    refine ⟨c,[],by simpa using holds,rfl,rfl,?_,by simp⟩
    cases ending with
    | eagain => simp only [readLoop,finish]; split <;> rfl
    | _ => rfl
  | cons data rest ih =>
    simp only [List.flatten_cons,List.length_append] at room
    have next := @Holds.received c content data cstate holds (by omega)
    obtain ⟨c',faults,holds',fd,writebuf,run,clean⟩ := ih next (by simp only [List.length_append]; omega)
    refine ⟨c',(c.received cstate data).2 ++ faults,?_,?_,?_,?_,?_⟩
    · simpa only [List.flatten_cons,List.append_assoc] using holds'
    · rw [fd]; cases cstate <;> rfl
    · rw [writebuf]; cases cstate <;> rfl
    · simp only [readLoop,run]
    · rw [List.append_eq_nil_iff,holds.noFault,clean]
      simp only [List.forall_mem_cons,List.flatten_cons,List.append_assoc,List.length_append,ne_eq,
        reduceCtorEq,not_false_eq_true,forall_const]
      constructor
      · rintro ⟨⟨short,below⟩,shorts,belows⟩
        refine ⟨⟨short,shorts⟩,fun lt => ?_⟩
        by_cases last : rest = []
        · have := below lt
          simp [last]
          omega
        · exact belows lt last
      · rintro ⟨⟨short,shorts⟩,below⟩
        exact ⟨⟨short,fun lt => by have := below lt; omega⟩,shorts,fun lt _ => below lt⟩

theorem finishFaults (parse : Text → Except String Json) (cstate : ConnState) (c : TcpConn) (ending : Ending) :
    (finish parse cstate c ending).faults = [] := by
  cases ending with
  | eagain => simp only [finish]; split <;> rfl
  | _ => rfl

theorem flattenNil {chunks : List Text} (some_ : ∀ chunk ∈ chunks, chunk ≠ []) :
    chunks.flatten = [] ↔ chunks = [] := by
  cases chunks with
  | nil => simp
  | cons chunk rest => simp [some_ chunk List.mem_cons_self]

/- A call comes back with its buffer clean exactly when there was room to read,
no read was longer than `sempbuf`, the level-triggered branch never filled the
buffer, and the call ended with the end of the stream, with a failure before the
first byte, or with a text that is one array of the types `parseData` asks for. -/
theorem readOnceSurvivesIff (parse : Text → Except String Json) (cstate : ConnState) {c : TcpConn}
    {content : Text} (holds : Holds c content) {reads : Reads} (feasible : Feasible (1024 - content.length) reads) :
    Survives (readOnce parse cstate c reads) ↔ Benign parse cstate content reads := by
  by_cases full : maxReadLen ≤ c.alllen
  · have long : ¬ content.length < maxReadLen := by rw [← holds.len]; omega
    simp only [readOnce,if_pos full]
    constructor
    · rintro ⟨_,clean,_⟩
      exact absurd (by rw [holds.clean.mp clean]; decide) long
    · exact fun benign => absurd benign.1 long
  · have below : content.length < maxReadLen := by rw [← holds.len]; omega
    obtain ⟨c',faults,holds',_,_,run,clean⟩ :=
      @readLoopResult parse cstate c content holds reads.chunks reads.ending feasible.2.1
    have ends := @finishSurvives parse cstate c' _ holds' reads.ending
    simp only [Survives,finishFaults,and_true] at ends
    have nothing : content ++ reads.chunks.flatten = [] ↔ content = [] ∧ reads.chunks = [] := by
      rw [List.append_eq_nil_iff,flattenNil feasible.1]
    have space : (cstate = .LT → reads.chunks ≠ [] → (content ++ reads.chunks.flatten).length < maxReadLen) ↔
        (cstate = .LT → (content ++ reads.chunks.flatten).length < maxReadLen) := by
      by_cases none : reads.chunks = []
      · simp [none,below]
      · simp [none]
    simp only [readOnce,if_neg full,run,Survives,clean,Benign,below,true_and,space,nothing] at ends ⊢
    rw [← and_assoc,ends]
    exact ⟨fun ⟨last,shorts,below⟩ => ⟨shorts,below,last⟩,fun ⟨shorts,below,last⟩ => ⟨last,shorts,below⟩⟩

def loginText : Text := ascii "[0,\"a\",\"b\",\"c\"]"
def sampleParse (text : Text) : Except String Json :=
  if text = loginText then
    .ok (.array [.numberUnsigned 0,.string (ascii "a"),.string (ascii "b"),.string (ascii "c")])
  else .error "[json.exception.parse_error.101] parse error"

def loginReads : Reads := ⟨[ascii "[0,\"a\"",ascii ",\"b\",\"c\"]"],.eagain⟩

theorem sampleSurvives : Survives (readOnce sampleParse .LT new loginReads) :=
  (readOnceSurvivesIff sampleParse .LT newHolds ⟨by decide +kernel,by decide +kernel,by decide +kernel⟩).mpr
    ⟨by decide +kernel,by decide +kernel,by decide +kernel,_,rfl,_,_,_,_,_,rfl,trivial⟩

def pingReads : Reads := ⟨[ascii "ping" ++ [0]],.eagain⟩

theorem pingStopsServer :
    Feasible 1024 pingReads ∧
    (readOnce sampleParse .LT new pingReads).outcome = .threw "[json.exception.parse_error.101] parse error" ∧
    ¬ Survives (readOnce sampleParse .LT new pingReads) := by
  have thrown : (readOnce sampleParse .LT new pingReads).outcome =
      .threw "[json.exception.parse_error.101] parse error" := by decide +kernel
  have feasible : Feasible 1024 pingReads := ⟨by decide +kernel,by decide +kernel,by decide +kernel⟩
  refine ⟨feasible,thrown,fun survives => ?_⟩
  obtain ⟨value,returned⟩ := survives.1
  rw [thrown] at returned
  cases returned

end SimpleChat.TcpConn
