import SimpleChat.JsonSpace
import SimpleChat.ReadOnce

/-! A client's byte stream, cut into arrivals. Each read event runs `read_once`
on the arrivals up to the next EAGAIN; there is a next one only when
`parseData` armed the connection for writing and `sendData` armed it for
reading again. -/
namespace SimpleChat.TcpConn
open Json (trim)
open Json.Lexer (isSpace)

/- What the reads of one call answer: an arrival at a time, cut where the buffer is full. -/
def socketReads (room : Nat) : List Text → Reads
  | [] => ⟨[],if room = 0 then .eof else .eagain⟩
  | arrival :: rest =>
      if arrival.length ≤ room then
        let reads := socketReads (room - arrival.length) rest
        {reads with chunks := arrival :: reads.chunks}
      else ⟨if room = 0 then [] else [arrival.take room],.eof⟩

structure Session where
  decoded : List Request
  faults : List Fault
  deriving DecidableEq, Repr

def drainRun (cstate : ConnState) (c : TcpConn) (arrivals : List Text) : Run :=
  readOnce Json.parse cstate c (socketReads (maxReadLen - c.alllen) arrivals)

/- `drains` lists, for each read event, what arrives before EAGAIN. -/
def session (cstate : ConnState) (c : TcpConn) : List (List Text) → Session
  | [] => ⟨[],[]⟩
  | arrivals :: rest =>
      let run := drainRun cstate c arrivals
      if run.calls.any EpollCall.isModify then
        let sent := run.conn.sendData run.conn.pendingReply.length
        let later := session cstate sent.1 rest
        ⟨run.decoded.toList ++ later.decoded,run.faults ++ later.faults⟩
      else ⟨run.decoded.toList,run.faults⟩

structure Sent where
  text : Text
  request : Request
  deriving DecidableEq, Repr

def openBracket : UInt8 := 91

/- The text of an array, with any white space around it. -/
structure WellFormed (sent : Sent) : Prop where
  opens : (sent.text.dropWhile isSpace).head? = some openBracket
  clean : (0 : UInt8) ∉ sent.text
  short : sent.text.length < maxReadLen
  parsed : ∃ id, Json.parse sent.text = .ok (.array
    [id,.string sent.request.name,.string sent.request.password,.string sent.request.email]) ∧
    id.getInt = .ok sent.request.id

def Known (id : Int) : Prop := id = LOGIN ∨ id = REGISTER ∨ id = SENDMESSAGE
instance (id) : Decidable (Known id) := by unfold Known; infer_instance

def Faithful (session : Session) (sent : List Sent) : Prop :=
  session.decoded = sent.map Sent.request ∧ session.faults = []

def Short (arrivals : List Text) : Prop := ∀ arrival ∈ arrivals, arrival.length ≤ sempbufSize
instance (arrivals) : Decidable (Short arrivals) := by unfold Short; infer_instance

/- Each read event brings one whole request, apart from the white space around it,
in fewer bytes than `m_buf` has and in reads no longer than `sempbuf`. Only the last
request may have an `id` that gets no answer. White space left behind it, where it
gets a read event of its own, is thrown on. -/
def OnePerDrain : List Sent → List (List Text) → Prop
  | [], drains => ∀ drain ∈ drains.head?, Short drain
  | _ :: _, [] => False
  | s :: others, drain :: rest =>
      trim drain.flatten = trim s.text ∧ drain.flatten.length < maxReadLen ∧ Short drain ∧
      if Known s.request.id then OnePerDrain others rest else others = []

theorem socketReadsFits {arrivals : List Text} {room : Nat} (fits : arrivals.flatten.length < room) :
    socketReads room arrivals = ⟨arrivals,.eagain⟩ := by
  induction arrivals generalizing room with
  | nil =>
    rw [socketReads,if_neg (by simp at fits; omega)]
  | cons arrival rest ih =>
    simp only [List.flatten_cons,List.length_append] at fits
    rw [socketReads,if_pos (by omega),ih (by omega)]

theorem socketReadsFull {arrivals : List Text} {room : Nat} (full : room ≤ arrivals.flatten.length) :
    (socketReads room arrivals).ending = .eof ∧ (socketReads room arrivals).chunks.flatten.length ≤ room := by
  induction arrivals generalizing room with
  | nil =>
    have none : room = 0 := by simpa using full
    simp [socketReads,none]
  | cons arrival rest ih =>
    simp only [List.flatten_cons,List.length_append] at full
    by_cases fits : arrival.length ≤ room
    · obtain ⟨ends,short⟩ := @ih (room - arrival.length) (by omega)
      rw [socketReads,if_pos fits]
      refine ⟨ends,?_⟩
      simp only [List.flatten_cons,List.length_append]
      omega
    · rw [socketReads,if_neg fits]
      refine ⟨rfl,?_⟩
      by_cases none : room = 0
      · simp [none]
      · rw [if_neg none,List.flatten_singleton]
        exact List.length_take_le _ _

theorem answerKnown {id : Int} : (answer id).isSome ↔ Known id := by
  unfold answer Known
  split
  · simp [*]
  · split
    · simp [*]
    · split <;> simp [*]

section Drain
variable {cstate : ConnState} {c : TcpConn} (holds : Holds c []) (arrivals : List Text)

include holds in
theorem drainLong (long : maxReadLen ≤ arrivals.flatten.length) :
    (drainRun cstate c arrivals).decoded = none ∧
    (drainRun cstate c arrivals).calls.any EpollCall.isModify = false := by
  have start : c.alllen = 0 := holds.len
  obtain ⟨ends,fits⟩ := socketReadsFull long
  obtain ⟨c',faults,_,_,_,run,_⟩ := @readLoopResult Json.parse cstate c [] holds _ .eof fits
  unfold drainRun readOnce
  rw [start,if_neg (by decide),Nat.sub_zero,ends,run]
  exact ⟨rfl,rfl⟩

include holds in
theorem drainShort (short : arrivals.flatten.length < maxReadLen) :
    ((drainRun cstate c arrivals).faults = [] ↔ Short arrivals) ∧
    match Json.parse (cString arrivals.flatten) >>= decode with
    | .error _ => (drainRun cstate c arrivals).decoded = none ∧
        (drainRun cstate c arrivals).calls.any EpollCall.isModify = false
    | .ok request => (drainRun cstate c arrivals).decoded = some request ∧
        Holds (drainRun cstate c arrivals).conn [] ∧
        ((drainRun cstate c arrivals).calls.any EpollCall.isModify = true ↔ Known request.id) := by
  have start : c.alllen = 0 := holds.len
  obtain ⟨c',faults,holds',_,_,run,clean⟩ := @readLoopResult Json.parse cstate c [] holds arrivals .eagain
    (Nat.le_of_lt short)
  rw [List.nil_append] at holds' clean
  have whole : drainRun cstate c arrivals = {finish Json.parse cstate c' .eagain with faults := faults} := by
    unfold drainRun readOnce
    rw [start,if_neg (by decide),Nat.sub_zero,socketReadsFits short,run]
  rw [whole,← holds'.request Json.parse]
  refine ⟨clean.trans ⟨And.left,fun shorts => ⟨shorts,fun _ _ => short⟩⟩,?_⟩
  simp only [finish,holds'.terminated]
  cases c'.request Json.parse with
  | error what => exact ⟨rfl,rfl⟩
  | ok request =>
    refine ⟨rfl,resetHolds _,?_⟩
    rw [← answerKnown]
    simp only [reply]
    cases answer request.id <;> simp [updateEvents,EpollCall.isModify]

end Drain

def bytes (drains : List (List Text)) : Text := (drains.map List.flatten).flatten
def texts (sent : List Sent) : Text := (sent.map Sent.text).flatten

/- What is still to come is what is still to be decoded, but for white space in front. -/
structure Ahead (sent : List Sent) (drains : List (List Text)) : Prop where
  same : (bytes drains).dropWhile isSpace = (texts sent).dropWhile isSpace
  clean : (0 : UInt8) ∉ bytes drains
  short : sent = [] → (bytes drains).length < maxReadLen

theorem textsCons (s : Sent) (others : List Sent) : texts (s :: others) = s.text ++ texts others := by
  simp [texts]

theorem bytesCons (drain : List Text) (rest : List (List Text)) : bytes (drain :: rest) = drain.flatten ++ bytes rest := by
  simp [bytes]

theorem streamClean {sent : List Sent} (wellFormed : ∀ s ∈ sent, WellFormed s) : (0 : UInt8) ∉ texts sent := by
  intro member
  obtain ⟨text,here,zero⟩ := List.mem_flatten.mp member
  obtain ⟨s,sends,rfl⟩ := List.mem_map.mp here
  exact (wellFormed s sends).clean zero

theorem sentHolds {c : TcpConn} {content : Text} (holds : Holds c content) (written : Int) :
    Holds (c.sendData written).1 content := by
  unfold sendData
  split
  · exact holds
  · exact ⟨holds.len,holds.fits,holds.buf⟩

theorem WellFormed.ahead {s : Sent} {others : List Sent} (first : WellFormed s) :
    (texts (s :: others)).dropWhile isSpace ≠ [] := by
  obtain ⟨rest,bare⟩ := List.head?_eq_some_iff.mp first.opens
  rw [textsCons,List.dropWhile_append,bare]
  simp

section Piece
variable {s : Sent} {others : List Sent} {drain : List Text} {rest : List (List Text)}

theorem drainDecodes (first : WellFormed s) (ahead : Ahead (s :: others) (drain :: rest)) (request : Request) :
    Json.parse drain.flatten >>= decode = .ok request ↔ request = s.request ∧ trim drain.flatten = trim s.text := by
  obtain ⟨id,parsed,value⟩ := first.parsed
  have clean := ahead.clean
  have same := ahead.same
  rw [bytesCons] at clean
  rw [bytesCons,textsCons] at same
  obtain ⟨alone,_⟩ := Json.arrayAlone first.opens first.clean (fun member => clean (List.mem_append_left _ member)) parsed same
  have decodes : decode (.array [id,.string s.request.name,.string s.request.password,.string s.request.email]) =
      .ok s.request := by
    rw [decodeArray]
    simp only [List.getD_cons_zero,List.getD_cons_succ,value,Json.getString]
    rfl
  rw [Json.bindOk]
  constructor
  · rintro ⟨js,read,decoded⟩
    obtain ⟨rfl,trims⟩ := (alone js).mp read
    exact ⟨Except.ok.inj (decoded.symm.trans decodes),trims⟩
  · rintro ⟨rfl,trims⟩
    exact ⟨_,(alone _).mpr ⟨rfl,trims⟩,decodes⟩

theorem aheadNext (first : WellFormed s) (ahead : Ahead (s :: others) (drain :: rest))
    (trims : trim drain.flatten = trim s.text) (later : ∀ o ∈ others, WellFormed o) : Ahead others rest := by
  obtain ⟨id,parsed,value⟩ := first.parsed
  have clean := ahead.clean
  have same := ahead.same
  rw [bytesCons] at clean
  rw [bytesCons,textsCons] at same
  obtain ⟨_,next⟩ := Json.arrayAlone first.opens first.clean (fun member => clean (List.mem_append_left _ member)) parsed same
  refine ⟨(next trims).1,fun member => clean (List.mem_append_right _ member),?_⟩
  rintro rfl
  exact Nat.lt_of_le_of_lt ((next trims).2 rfl) first.short

end Piece

section Session
variable {cstate : ConnState} {c : TcpConn} {drain : List Text} {rest : List (List Text)} {s : Sent} {others : List Sent}

theorem silentLoses (nothing : (drainRun cstate c drain).decoded = none)
    (quiet : (drainRun cstate c drain).calls.any EpollCall.isModify = false) :
    ¬ Faithful (session cstate c (drain :: rest)) (s :: others) := by
  rintro ⟨decoded,_⟩
  simp [session,quiet,nothing] at decoded

theorem answeredGoesOn (decoded : (drainRun cstate c drain).decoded = some s.request)
    (armed : (drainRun cstate c drain).calls.any EpollCall.isModify = true) :
    Faithful (session cstate c (drain :: rest)) (s :: others) ↔
    (drainRun cstate c drain).faults = [] ∧ Faithful (session cstate ((drainRun cstate c drain).conn.sendData
      (drainRun cstate c drain).conn.pendingReply.length).1 rest) others := by
  simp only [Faithful,session,armed,if_true,decoded,Option.toList_some,List.map_cons,List.singleton_append,
    List.cons.injEq,true_and,List.append_eq_nil_iff]
  exact and_left_comm

theorem unansweredStops (decoded : (drainRun cstate c drain).decoded = some s.request)
    (quiet : ¬ (drainRun cstate c drain).calls.any EpollCall.isModify = true) :
    Faithful (session cstate c (drain :: rest)) (s :: others) ↔
    (drainRun cstate c drain).faults = [] ∧ others = [] := by
  simp only [Faithful,session,if_neg quiet,decoded,Option.toList_some,List.map_cons,List.cons.injEq,true_and]
  rw [and_comm,@eq_comm _ [],List.map_eq_nil_iff]

theorem blankLeft (holds : Holds c []) (ahead : Ahead [] (drain :: rest)) :
    Faithful (session cstate c (drain :: rest)) [] ↔ Short drain := by
  have fits := ahead.short rfl
  have clean := ahead.clean
  have same := ahead.same
  rw [bytesCons] at fits clean same
  rw [List.length_append] at fits
  obtain ⟨faults,run⟩ := @drainShort cstate c holds drain (Nat.lt_of_le_of_lt (Nat.le_add_right _ _) fits)
  have white : Json.Grammar.Space drain.flatten := by
    have all : ∀ b ∈ drain.flatten ++ bytes rest, isSpace b = true := List.dropWhile_eq_nil_iff.mp same
    exact Json.spaceIff.mpr (fun b member => all b (List.mem_append_left _ member))
  rw [cStringWhole (fun member => clean (List.mem_append_left _ member))] at run
  cases result : Json.parse drain.flatten >>= decode with
  | ok request =>
    obtain ⟨js,read,_⟩ := Json.bindOk.mp result
    exact absurd read (Json.blankNoDocument white)
  | error what =>
    rw [result] at run
    simp only [Faithful,session,run,Bool.false_eq_true,if_false,Option.toList_none,List.map_nil,true_and,faults]

end Session

theorem sessionFaithful {cstate : ConnState} {c : TcpConn} (holds : Holds c []) {sent : List Sent}
    (wellFormed : ∀ s ∈ sent, WellFormed s) {drains : List (List Text)} (ahead : Ahead sent drains) :
    Faithful (session cstate c drains) sent ↔ OnePerDrain sent drains := by
  induction drains generalizing c sent with
  | nil =>
    cases sent with
    | nil => simp [Faithful,session,OnePerDrain]
    | cons s others => exact absurd ahead.same.symm (wellFormed s List.mem_cons_self).ahead
  | cons drain rest ih =>
    cases sent with
    | nil =>
      rw [blankLeft holds ahead,OnePerDrain]
      simp
    | cons s others =>
      obtain ⟨first,later⟩ := List.forall_mem_cons.mp wellFormed
      rw [OnePerDrain]
      by_cases short : drain.flatten.length < maxReadLen
      · obtain ⟨faults,run⟩ := @drainShort cstate c holds drain short
        have clean : (0 : UInt8) ∉ drain.flatten := fun member =>
          ahead.clean (by rw [bytesCons]; exact List.mem_append_left _ member)
        rw [cStringWhole clean] at run
        cases result : Json.parse drain.flatten >>= decode with
        | error what =>
          rw [result] at run
          refine iff_of_false (silentLoses run.1 run.2) (fun one => ?_)
          have decodes := (drainDecodes first ahead s.request).mpr ⟨rfl,one.1⟩
          rw [result] at decodes
          contradiction
        | ok request =>
          rw [result] at run
          obtain ⟨decoded,empty,armed⟩ := run
          obtain ⟨rfl,trims⟩ := (drainDecodes first ahead request).mp result
          by_cases known : Known s.request.id
          · have resumed := sentHolds empty (drainRun cstate c drain).conn.pendingReply.length
            rw [answeredGoesOn decoded (armed.mpr known),ih resumed later (aheadNext first ahead trims later),faults,
              if_pos known]
            simp only [trims,short,true_and]
          · rw [unansweredStops decoded (armed.not.mpr known),faults,if_neg known]
            simp only [trims,short,true_and]
      · obtain ⟨nothing,quiet⟩ := @drainLong cstate c holds drain (Nat.le_of_not_lt short)
        exact iff_of_false (silentLoses nothing quiet) (fun one => short one.2.1)

/- The requests are decoded as sent exactly when each read event brings one of them. -/
theorem requestsDecodedIff {cstate : ConnState} {c : TcpConn} (holds : Holds c []) {sent : List Sent}
    (wellFormed : ∀ s ∈ sent, WellFormed s) {drains : List (List Text)} (stream : bytes drains = texts sent) :
    Faithful (session cstate c drains) sent ↔ OnePerDrain sent drains := by
  refine sessionFaithful holds wellFormed ⟨by rw [stream],fun member => streamClean wellFormed (stream ▸ member),?_⟩
  rintro rfl
  rw [stream]
  decide

def loginSent : Sent := ⟨loginText,⟨0,ascii "a",ascii "b",ascii "c"⟩⟩

def lineSent : Sent := {loginSent with text := loginText ++ [10]}

theorem sampleWellFormed : ∀ s ∈ [lineSent,loginSent], WellFormed s := by
  have parsed : Json.parse [91,48,44,34,97,34,44,34,98,34,44,34,99,34,93] =
    .ok (.array [.numberUnsigned 0,.string [97],.string [98],.string [99]]) := rfl
  have parsed' : Json.parse [91,48,44,34,97,34,44,34,98,34,44,34,99,34,93,10] =
    .ok (.array [.numberUnsigned 0,.string [97],.string [98],.string [99]]) := rfl
  have text : loginText = [91,48,44,34,97,34,44,34,98,34,44,34,99,34,93] := by decide +kernel
  have line : WellFormed lineSent :=
    ⟨by decide +kernel,by decide +kernel,by decide +kernel,_,by rw [lineSent,text]; exact parsed',rfl⟩
  have login : WellFormed loginSent :=
    ⟨by decide +kernel,by decide +kernel,by decide +kernel,_,by rw [loginSent,text]; exact parsed,rfl⟩
  simp [line,login]

def lineDrains : List (List Text) := [[loginText],[10 :: ascii "[0,\"a\"",ascii ",\"b\",\"c\"]"]]

theorem sampleDecoded : Faithful (session .LT new lineDrains) [lineSent,loginSent] :=
  (requestsDecodedIff newHolds sampleWellFormed (by decide +kernel)).mpr
    ⟨by decide +kernel,by decide +kernel,by decide +kernel,by decide +kernel,by decide +kernel,by decide +kernel,
      fun drain none_ => by cases none_⟩

def cutDrains : List (List Text) := [[ascii "[0,\"a\""],[ascii ",\"b\",\"c\"]"]]

theorem cutAndMergedLost :
    WellFormed loginSent ∧ bytes cutDrains = texts [loginSent] ∧
    (session .LT new cutDrains).decoded = [] ∧ ¬ Faithful (session .LT new cutDrains) [loginSent] ∧
    (session .LT new [[loginText,loginText]]).decoded = [] := by
  have cut : (session .LT new cutDrains).decoded = [] := by decide +kernel
  refine ⟨sampleWellFormed loginSent (by simp),by decide +kernel,cut,fun faithful => ?_,by decide +kernel⟩
  rw [Faithful,cut] at faithful
  simp at faithful

end SimpleChat.TcpConn
