import SimpleChat.Log

/-! The echo server for Qt clients: `handle_client` answers each `read` with one
`send`. A read is the bytes it stored, and no bytes where `recv_len <= 0`. The
locale is UTF-8. -/
namespace SimpleChat.EchoServer
open Log (snprintf)

def bufferSize : Nat := 1024

def utf8 (s : String) : Text := s.toList.flatMap String.utf8EncodeChar

structure Pending where
  tails : Nat
  low : UInt8
  high : UInt8
  deriving DecidableEq, Repr

def settled : Pending := ⟨0,0x80,0xBF⟩

def readByte (state : Pending) (b : UInt8) : Option Pending :=
  if 0 < state.tails then if state.low ≤ b ∧ b ≤ state.high then some {settled with tails := state.tails - 1} else none
  else if b ≤ 0x7F then some settled
  else if b < 0xC2 then none
  else if b ≤ 0xDF then some {settled with tails := 1}
  else if b ≤ 0xEF then
    some ⟨2,if b = 0xE0 then 0xA0 else 0x80,if b = 0xED then 0x9F else 0xBF⟩
  else if b ≤ 0xF7 then some ⟨3,if b = 0xF0 then 0x90 else 0x80,0xBF⟩
  else if b ≤ 0xFB then some ⟨4,if b = 0xF8 then 0x88 else 0x80,0xBF⟩
  else if b ≤ 0xFD then some ⟨5,if b = 0xFC then 0x84 else 0x80,0xBF⟩
  else none

/- Whether `mbstowcs` finds characters from end to end, those of up to six bytes
that glibc takes included; a text that stops inside one ends at a NUL there. -/
def mbstowcs (text : Text) : Bool := match text.foldlM readByte settled with
  | some state => decide (state.tails = 0)
  | none => false

def strcspn (buffer : Text) : Nat := ((cString buffer).takeWhile (· ≠ newline)).length

def received (read : Text) : Text := overwrite (zeros bufferSize) 0 read
def bufferText (read : Text) : Text := cString ((received read).set (strcspn (received read)) 0)

def errMsg : Text := utf8 "收到非法 UTF-8 数据\n"
def greeting : Text := utf8 "服务端已收到："

def reply (text : Text) : Text := greeting ++ text ++ [newline]

def answer (read : Text) : Text :=
  if mbstowcs (bufferText read) then snprintf bufferSize (reply (bufferText read)) else errMsg

def handleClient : List Text → List Text
  | [] => []
  | read :: reads => if read = [] then [] else answer read :: handleClient reads

theorem cStringSet {array : Text} {i : Nat} (inside : i < array.length) (clean : (0 : UInt8) ∉ array.take i) :
    cString (array.set i 0) = array.take i := by
  rw [List.set_eq_take_append_cons_drop,if_pos inside,cStringFront clean]
  simp [cString]

def firstPiece (read : Text) : Text := read.takeWhile (· ≠ newline)

theorem firstPieceTake (read : Text) : read.take (firstPiece read).length = firstPiece read :=
  (List.prefix_iff_eq_take.mp (List.takeWhile_prefix _)).symm

theorem pieceOneLine (read : Text) : newline ∉ firstPiece read := fun member => by
  have other := List.mem_takeWhile_imp member
  simp at other

theorem pieceWhole {line : Text} (oneLine : newline ∉ line) : firstPiece (line ++ [newline]) = line := by
  rw [firstPiece,List.takeWhile_append_of_pos]
  · simp
  · intro b member
    simp only [decide_eq_true_eq]
    rintro rfl
    exact oneLine member

theorem bufferTextPiece {read : Text} (fits : read.length < bufferSize) (clean : (0 : UInt8) ∉ read) :
    bufferText read = firstPiece read := by
  have stored : received read = read ++ zeros (bufferSize - read.length) := by
    have tail := @overwriteTail [] read bufferSize (Nat.le_of_lt fits)
    simpa [received] using tail
  have found : strcspn (received read) = (firstPiece read).length := by
    rw [strcspn,stored,cStringTail,cStringWhole clean,firstPiece]
  have short : (firstPiece read).length ≤ read.length := (List.takeWhile_prefix _).length_le
  have taken : (read ++ zeros (bufferSize - read.length)).take (firstPiece read).length = firstPiece read := by
    rw [List.take_append_of_le_length short,firstPieceTake]
  rw [bufferText,found,stored,cStringSet,taken]
  · simp only [List.length_append,zeros,List.length_replicate]
    omega
  · rw [taken]
    exact fun member => clean ((List.takeWhile_prefix _).subset member)

theorem greetingLength : greeting.length = 21 := by decide
theorem errMsgOther : errMsg[1]? ≠ greeting[1]? := by decide

theorem replyLength (text : Text) : (reply text).length = text.length + 22 := by
  simp only [reply,List.length_append,greetingLength,List.length_singleton]
  omega

theorem replyInjective {text text' : Text} (same : reply text = reply text') : text = text' := by
  rw [reply,reply,List.append_assoc,List.append_assoc] at same
  exact List.append_cancel_right (List.append_cancel_left same)

theorem errMsgNoReply (text : Text) : errMsg ≠ reply text := by
  intro same
  have second := congrArg (fun bytes : Text => bytes[1]?) same
  rw [reply,List.append_assoc] at second
  exact errMsgOther (second.trans (List.getElem?_append_left (by decide)))

theorem replyCut {text text' : Text} (oneLine : newline ∉ text) :
    snprintf bufferSize (reply text) = reply text' ↔ text = text' ∧ text.length ≤ 1001 := by
  have whole := replyLength text
  by_cases fits : text.length ≤ 1001
  · have kept : snprintf bufferSize (reply text) = reply text :=
      List.take_of_length_le (by rw [whole,bufferSize]; omega)
    rw [kept]
    exact ⟨fun same => ⟨replyInjective same,fits⟩,fun same => by rw [same.1]⟩
  · refine ⟨fun same => ?_,fun same => absurd same.2 fits⟩
    have length : (reply text').length = 1023 := by
      rw [← same,snprintf,List.length_take,whole,bufferSize]
      omega
    have lastNewline : (reply text')[1022]? = some newline := by
      have place : 1022 = (greeting ++ text').length := by
        rw [replyLength] at length
        rw [List.length_append,greetingLength]
        omega
      rw [place,reply]
      exact List.getElem?_concat_length
    have lastOfLine : (reply text')[1022]? = text[1001]? := by
      rw [← same,snprintf,List.getElem?_take_of_lt (by decide),reply,List.append_assoc,
        List.getElem?_append_right (by rw [greetingLength]; decide),greetingLength,
        List.getElem?_append_left (by omega)]
    rw [lastOfLine] at lastNewline
    exact absurd (List.mem_of_getElem? lastNewline) oneLine

structure Line (line : Text) : Prop where
  oneLine : newline ∉ line
  clean : (0 : UInt8) ∉ line
  valid : mbstowcs line = true

instance (line) : Decidable (Line line) :=
  decidable_of_iff (newline ∉ line ∧ (0 : UInt8) ∉ line ∧ mbstowcs line = true)
    ⟨fun sound => ⟨sound.1,sound.2.1,sound.2.2⟩,fun sound => ⟨sound.oneLine,sound.clean,sound.valid⟩⟩

def stream (lines : List Text) : Text := lines.flatMap (fun line => line ++ [newline])

structure Reads (lines reads : List Text) : Prop where
  whole : reads.flatten = stream lines
  sizes : ∀ read ∈ reads, read ≠ [] ∧ read.length < bufferSize

theorem Reads.clean {lines reads : List Text} (split : Reads lines reads) (sound : ∀ line ∈ lines, Line line) :
    ∀ read ∈ reads, (0 : UInt8) ∉ read := by
  intro read member zero
  have inStream : (0 : UInt8) ∈ reads.flatten := List.mem_flatten.mpr ⟨read,member,zero⟩
  rw [split.whole] at inStream
  obtain ⟨line,inLines,inLine⟩ := List.mem_flatMap.mp inStream
  rcases List.mem_append.mp inLine with inside | last
  · exact (sound line inLines).clean inside
  · exact absurd (List.mem_singleton.mp last) (by decide)

theorem answerPiece {read : Text} (fits : read.length < bufferSize) (clean : (0 : UInt8) ∉ read) :
    answer read =
      if mbstowcs (firstPiece read) then snprintf bufferSize (reply (firstPiece read)) else errMsg := by
  rw [answer,bufferTextPiece fits clean]

theorem answerExactly {read line : Text} (fits : read.length < bufferSize) (clean : (0 : UInt8) ∉ read)
    (sound : Line line) : answer read = reply line ↔ firstPiece read = line ∧ line.length ≤ 1001 := by
  rw [answerPiece fits clean]
  by_cases valid : mbstowcs (firstPiece read) = true
  · rw [if_pos valid,replyCut (pieceOneLine read)]
    constructor
    · rintro ⟨rfl,short⟩
      exact ⟨rfl,short⟩
    · rintro ⟨rfl,short⟩
      exact ⟨rfl,short⟩
  · rw [if_neg valid]
    refine ⟨fun same => absurd same (errMsgNoReply line),?_⟩
    rintro ⟨rfl,_⟩
    exact absurd sound.valid valid

theorem handleClientAnswers {reads : List Text} (filled : ∀ read ∈ reads, read ≠ []) :
    handleClient reads = reads.map answer := by
  induction reads with
  | nil => rfl
  | cons read reads ih =>
    rw [handleClient,if_neg (filled read List.mem_cons_self),List.map_cons,
      ih (fun r member => filled r (List.mem_cons_of_mem _ member))]

theorem answersExactly {reads lines : List Text} (fits : ∀ read ∈ reads, read.length < bufferSize)
    (clean : ∀ read ∈ reads, (0 : UInt8) ∉ read) (sound : ∀ line ∈ lines, Line line) :
    reads.map answer = lines.map reply ↔ reads.map firstPiece = lines ∧ ∀ line ∈ lines, line.length ≤ 1001 := by
  induction reads generalizing lines with
  | nil => cases lines <;> simp
  | cons read reads ih =>
    cases lines with
    | nil => simp
    | cons line lines =>
      have head := answerExactly (fits read List.mem_cons_self) (clean read List.mem_cons_self)
        (sound line List.mem_cons_self)
      have rest := ih (fun r member => fits r (List.mem_cons_of_mem _ member))
        (fun r member => clean r (List.mem_cons_of_mem _ member))
        (fun l member => sound l (List.mem_cons_of_mem _ member))
      simp only [List.map_cons,List.cons.injEq,head,rest,List.forall_mem_cons]
      exact and_and_and_comm

/- One reply for each line, exactly where each read is answered by the line that
stands first in it: a line cut by a read is answered in pieces, and what follows
the first newline of a read is dropped. -/
theorem echoExactly {lines reads : List Text} (sound : ∀ line ∈ lines, Line line) (split : Reads lines reads) :
    handleClient reads = lines.map reply ↔
      reads.map firstPiece = lines ∧ ∀ line ∈ lines, line.length ≤ 1001 := by
  rw [handleClientAnswers (fun read member => (split.sizes read member).1)]
  exact answersExactly (fun read member => (split.sizes read member).2) (split.clean sound) sound

def behind (read : Text) : Text := read.dropWhile (· ≠ newline)

theorem pieceBehind (read : Text) : firstPiece read ++ behind read = read := List.takeWhile_append_dropWhile

def letters (text : Text) : Nat := text.countP (· ≠ newline)

theorem lettersAppend (left right : Text) : letters (left ++ right) = letters left + letters right :=
  List.countP_append

theorem lettersAll {text : Text} (oneLine : newline ∉ text) : letters text = text.length :=
  List.countP_eq_length.mpr (fun b member => by
    simp only [decide_eq_true_eq]
    rintro rfl
    exact oneLine member)

theorem pieceLetters (read : Text) : letters read = (firstPiece read).length + letters (behind read) := by
  rw [← lettersAll (pieceOneLine read),← lettersAppend,pieceBehind]

theorem piecesLetters (reads : List Text) : (reads.map firstPiece).flatten.length ≤ letters reads.flatten := by
  induction reads with
  | nil => simp
  | cons read reads ih =>
    have here := pieceLetters read
    simp only [List.map_cons,List.flatten_cons,List.length_append,lettersAppend]
    omega

theorem behindNewlines {reads : List Text} (all : (reads.map firstPiece).flatten.length = letters reads.flatten) :
    ∀ read ∈ reads, ∀ b ∈ behind read, b = newline := by
  induction reads with
  | nil => simp
  | cons read reads ih =>
    have here := pieceLetters read
    have later := piecesLetters reads
    simp only [List.map_cons,List.flatten_cons,List.length_append,lettersAppend] at all
    intro r member
    rcases List.mem_cons.mp member with rfl | inside
    · intro b dropped
      have none_ : letters (behind r) = 0 := by omega
      have same := List.countP_eq_zero.mp none_ b dropped
      simpa using same
    · exact ih (by omega) r inside

theorem streamLetters {lines : List Text} (sound : ∀ line ∈ lines, newline ∉ line) :
    letters (stream lines) = lines.flatten.length := by
  induction lines with
  | nil => rfl
  | cons first rest ih =>
    have later := ih (fun l member => sound l (List.mem_cons_of_mem _ member))
    have here := lettersAll (sound first List.mem_cons_self)
    have last : letters [newline] = 0 := rfl
    rw [stream] at later ⊢
    simp only [List.flatMap_cons,lettersAppend,List.flatten_cons,List.length_append,here,last,later]
    rfl

theorem streamHead {lines : List Text} (rest : Text) (sound : ∀ line ∈ lines, line ≠ [] ∧ newline ∉ line) :
    stream lines ≠ newline :: rest := by
  cases lines with
  | nil => simp [stream]
  | cons first lines =>
    obtain ⟨filled,oneLine⟩ := sound first List.mem_cons_self
    cases first with
    | nil => exact absurd rfl filled
    | cons b first =>
      simp only [stream,List.flatMap_cons,List.cons_append,ne_eq,List.cons.injEq,not_and]
      rintro rfl
      exact absurd List.mem_cons_self oneLine

theorem readsInStep {reads : List Text} (filled : ∀ read ∈ reads, read ≠ [])
    (sound : ∀ read ∈ reads, firstPiece read ≠ []) (newlines : ∀ read ∈ reads, ∀ b ∈ behind read, b = newline)
    (whole : reads.flatten = stream (reads.map firstPiece)) :
    reads = (reads.map firstPiece).map (fun line => line ++ [newline]) := by
  induction reads with
  | nil => rfl
  | cons read reads ih =>
    have later : ∀ line ∈ reads.map firstPiece, line ≠ [] ∧ newline ∉ line := by
      intro line member
      obtain ⟨r,inside,rfl⟩ := List.mem_map.mp member
      exact ⟨sound r (List.mem_cons_of_mem _ inside),pieceOneLine r⟩
    have after : behind read ++ reads.flatten = newline :: stream (reads.map firstPiece) := by
      have parted : firstPiece read ++ (behind read ++ reads.flatten) =
          firstPiece read ++ (newline :: stream (reads.map firstPiece)) := by
        rw [← List.append_assoc,pieceBehind]
        simpa [stream] using whole
      exact List.append_cancel_left parted
    cases dropped : behind read with
    | nil =>
      rw [dropped,List.nil_append] at after
      cases reads with
      | nil => simp at after
      | cons next reads =>
        have inside : next ∈ read :: next :: reads := by simp
        cases next with
        | nil => exact absurd rfl (filled _ inside)
        | cons b next =>
          have first : b = newline := by simpa using (List.cons.inj after).1
          subst first
          exact absurd rfl (sound _ inside)
    | cons b more =>
      rw [dropped,List.cons_append] at after
      obtain ⟨rfl,rest⟩ := List.cons.inj after
      cases more with
      | nil =>
        have tail := ih (fun r inside => filled r (List.mem_cons_of_mem _ inside))
          (fun r inside => sound r (List.mem_cons_of_mem _ inside))
          (fun r inside => newlines r (List.mem_cons_of_mem _ inside)) rest
        have here := pieceBehind read
        rw [dropped] at here
        rw [List.map_cons,List.map_cons,here,← tail]
      | cons c more =>
        have again := newlines read List.mem_cons_self c (by rw [dropped]; simp)
        subst again
        exact absurd rest.symm (streamHead _ later)

/- Where no line is empty, that is: each read is one line with its newline. -/
theorem readsAreLines {lines reads : List Text} (sound : ∀ line ∈ lines, line ≠ [] ∧ newline ∉ line)
    (split : Reads lines reads) :
    reads.map firstPiece = lines ↔ reads = lines.map (fun line => line ++ [newline]) := by
  constructor
  · rintro rfl
    have whole : reads.flatten = stream (reads.map firstPiece) := split.whole
    have all := streamLetters (fun line member => (sound line member).2)
    rw [← whole] at all
    exact readsInStep (fun read inside => (split.sizes read inside).1)
      (fun read inside => (sound _ (List.mem_map_of_mem inside)).1) (behindNewlines all.symm) whole
  · rintro rfl
    have same : lines.map (firstPiece ∘ fun line => line ++ [newline]) = lines.map id :=
      List.map_congr_left (fun line member => pieceWhole (sound line member).2)
    rw [List.map_map,same,List.map_id]

theorem oneReadEach : handleClient [ascii "hi\n",utf8 "行\n"] = [ascii "hi",utf8 "行"].map reply :=
  (echoExactly (by decide) ⟨by decide,by decide⟩).mpr ⟨by decide,by decide⟩

theorem repliesPerRead :
    handleClient [ascii "hi\nyo\n"] = [reply (ascii "hi")] ∧
    handleClient [ascii "h",ascii "i\n"] = [reply (ascii "h"),reply (ascii "i")] ∧
    (∀ line ∈ [ascii "hi",ascii "yo"], Line line) ∧ Reads [ascii "hi",ascii "yo"] [ascii "hi\nyo\n"] ∧
    handleClient [ascii "hi\nyo\n"] ≠ [ascii "hi",ascii "yo"].map reply := by
  have together : handleClient [ascii "hi\nyo\n"] = [reply (ascii "hi")] := by
    rw [handleClientAnswers (by decide),List.map_singleton,answerPiece (by decide) (by decide)]
    decide
  have apart : handleClient [ascii "h",ascii "i\n"] = [reply (ascii "h"),reply (ascii "i")] := by
    rw [handleClientAnswers (by decide),List.map_cons,List.map_singleton,answerPiece (by decide) (by decide),
      answerPiece (by decide) (by decide)]
    decide
  refine ⟨together,apart,by decide,⟨by decide,by decide⟩,?_⟩
  rw [together]
  exact fun same => absurd (congrArg List.length same) (by decide)

end SimpleChat.EchoServer
