import SimpleChat.JsonValues
import SimpleChat.ReadOnce

/-! `parseData` with the parser of `json.hpp`: which texts are requests, and what
their fields can hold. -/
namespace SimpleChat.TcpConn
open Basis Json.Grammar

def Asks (js : Json) (r : Request) : Prop :=
  ∃ id more, js = .array (id :: .string r.name :: .string r.password :: .string r.email :: more) ∧ id.getInt = .ok r.id

theorem decodeAsks {id : Json} {name password email : Text} {more : List Json} :
    decode (.array (id :: .string name :: .string password :: .string email :: more)) =
      id.getInt >>= fun value => .ok ⟨value,name,password,email⟩ := by
  rw [decodeArray]
  rfl

theorem decodeExact {js : Json} {r : Request} : decode js = .ok r ↔ Asks js r := by
  constructor
  · intro decoded
    obtain ⟨id,name,password,email,more,rfl,_⟩ := decodeTyped.mp ⟨r,decoded⟩
    rw [decodeAsks] at decoded
    obtain ⟨value,number,same⟩ := Json.bindOk.mp decoded
    cases same
    exact ⟨id,more,rfl,number⟩
  · rintro ⟨id,more,rfl,number⟩
    rw [decodeAsks]
    exact Json.bindOk.mpr ⟨r.id,number,rfl⟩

theorem getIntRange {js : Json} {value : Int} (number : js.getInt = .ok value) : -2 ^ 31 ≤ value ∧ value < 2 ^ 31 := by
  have wrapped (n : Int) : -2 ^ 31 ≤ Json.toInt32 n ∧ Json.toInt32 n < 2 ^ 31 := by
    unfold Json.toInt32
    have low := @Int.le_bmod n 4294967296 (by decide)
    have high := @Int.bmod_lt n 4294967296 (by decide)
    omega
  have whole (q : Rat) : -2 ^ 31 ≤ Json.truncate q ∧ Json.truncate q < 2 ^ 31 := by
    unfold Json.truncate intMax
    dsimp only
    split <;> omega
  cases js with
  | numberUnsigned n => exact Except.ok.inj number ▸ wrapped n
  | numberInteger n => exact Except.ok.inj number ▸ wrapped n
  | numberFloat q => exact Except.ok.inj number ▸ whole q
  | boolean b =>
    cases number
    cases b <;> decide
  | _ => cases number

theorem acceptedFields {text : Text} {js : Json} {r : Request} (document : Document js text) (asks : Asks js r) :
    Utf8.WellFormed r.name ∧ Utf8.WellFormed r.password ∧ Utf8.WellFormed r.email ∧ -2 ^ 31 ≤ r.id ∧ r.id < 2 ^ 31 := by
  obtain ⟨id,more,rfl,number⟩ := asks
  have held := Json.parseHeld (Json.parseExact.mpr document)
  cases held with
  | array held =>
    simp only [List.forall_mem_cons] at held
    obtain ⟨_,name,password,email,_⟩ := held
    cases name with
    | string name =>
      cases password with
      | string password =>
        cases email with
        | string email => exact ⟨name,password,email,getIntRange number⟩

/- The requests are the documents that ask for something, each with its fields,
where the reads end in EAGAIN and none is longer than `sempbuf`. -/
theorem acceptedExactly {cstate : ConnState} {c : TcpConn} {content : Text} (holds : Holds c content) {reads : Reads}
    (feasible : Feasible (maxReadLen - content.length) reads) {r : Request} :
    ((readOnce Json.parse cstate c reads).decoded = some r ∧ (readOnce Json.parse cstate c reads).faults = [] ↔
      reads.ending = .eagain ∧ (∀ chunk ∈ reads.chunks, chunk.length ≤ sempbufSize) ∧
      ∃ js, Document js (cString (content ++ reads.chunks.flatten)) ∧ Asks js r) ∧
    ((readOnce Json.parse cstate c reads).decoded = some r →
      Utf8.WellFormed r.name ∧ Utf8.WellFormed r.password ∧ Utf8.WellFormed r.email ∧ -2 ^ 31 ≤ r.id ∧ r.id < 2 ^ 31) := by
  have documented : (Json.parse (cString (content ++ reads.chunks.flatten)) >>= decode) = .ok r ↔
      ∃ js, Document js (cString (content ++ reads.chunks.flatten)) ∧ Asks js r := by
    constructor
    · intro accepted
      obtain ⟨js,read,asks⟩ := Json.bindOk.mp accepted
      exact ⟨js,Json.parseExact.mp read,decodeExact.mp asks⟩
    · rintro ⟨js,document,asks⟩
      exact Json.bindOk.mpr ⟨js,Json.parseExact.mpr document,decodeExact.mpr asks⟩
  by_cases full : maxReadLen ≤ c.alllen
  · have nothing : maxReadLen - content.length = 0 := by rw [← holds.len]; omega
    have ends : reads.ending = .eof := feasible.2.2 (by have := feasible.2.1; omega)
    simp only [readOnce,if_pos full,ends]
    simp
  · have room : content.length < maxReadLen := by rw [← holds.len]; omega
    obtain ⟨c',faults,holds',_,_,run,clean⟩ :=
      @readLoopResult Json.parse cstate c content holds reads.chunks reads.ending feasible.2.1
    have decoded : (readOnce Json.parse cstate c reads).decoded = some r ↔ reads.ending = .eagain ∧
        ∃ js, Document js (cString (content ++ reads.chunks.flatten)) ∧ Asks js r := by
      rw [readOnce,if_neg full,run,← documented,← holds'.request Json.parse]
      cases reads.ending with
      | eagain =>
        simp only [finish,holds'.terminated,true_and]
        cases c'.request Json.parse <;> simp
      | _ => simp [finish]
    have kept : reads.ending = .eagain → ((readOnce Json.parse cstate c reads).faults = [] ↔
        ∀ chunk ∈ reads.chunks, chunk.length ≤ sempbufSize) := by
      intro ends
      have short : (content ++ reads.chunks.flatten).length < maxReadLen := by
        have partly : reads.chunks.flatten.length ≠ maxReadLen - content.length := fun whole => by
          have := feasible.2.2 whole
          rw [ends] at this
          contradiction
        have := feasible.2.1
        rw [List.length_append]
        omega
      rw [readOnce,if_neg full,run]
      exact clean.trans ⟨And.left,fun shorts => ⟨shorts,fun _ _ => short⟩⟩
    rw [decoded]
    constructor
    · constructor
      · rintro ⟨⟨ends,asked⟩,fine⟩
        exact ⟨ends,(kept ends).mp fine,asked⟩
      · rintro ⟨ends,shorts,asked⟩
        exact ⟨⟨ends,asked⟩,(kept ends).mpr shorts⟩
    · rintro ⟨_,js,document,asks⟩
      exact acceptedFields document asks

theorem acceptedExactlyHere :
    (readOnce Json.parse .ET new ⟨[[91,48,44,34,97],[34,44,34,98,34,44,34,99,34,93]],.eagain⟩).decoded = some ⟨0,[97],[98],[99]⟩ ∧
    Utf8.WellFormed [97] := by
  have parsed : Json.parse [91,48,44,34,97,34,44,34,98,34,44,34,99,34,93] =
    .ok (.array [.numberUnsigned 0,.string [97],.string [98],.string [99]]) := rfl
  have asks : Asks (.array [.numberUnsigned 0,.string [97],.string [98],.string [99]]) ⟨0,[97],[98],[99]⟩ := ⟨_,[],rfl,rfl⟩
  have law := @acceptedExactly .ET new [] newHolds ⟨[[91,48,44,34,97],[34,44,34,98,34,44,34,99,34,93]],.eagain⟩
    ⟨by decide,by decide,by decide⟩ ⟨0,[97],[98],[99]⟩
  have read := law.1.mpr ⟨rfl,by decide,_,Json.parseExact.mp parsed,asks⟩
  exact ⟨read.1,(law.2 read.1).1⟩

end SimpleChat.TcpConn
