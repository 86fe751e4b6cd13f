import SimpleChat.JsonLexer

/-! The serializer of `nlohmann::json` as `dump()` calls it: no pretty printing,
and an exception for what is not UTF-8. `dump_float` is the parameter `toChars`. -/
namespace SimpleChat.Json
namespace Serializer

def utf8d : List Nat :=
  List.replicate 128 0 ++ List.replicate 16 1 ++ List.replicate 16 9 ++ List.replicate 32 7 ++
  [8,8] ++ List.replicate 30 2 ++ [10,3,3,3,3,3,3,3,3,3,3,3,3,4,3,3] ++ [11,6,6,6,5] ++ List.replicate 11 8 ++
  [0,1,2,3,5,8,7,1,1,1,4,6,1,1,1,1] ++
  [1,1,1,1,1,1,1,1,1,1,1,1,1,1,1,1] ++ [1,0,1,1,1,1,1,0,1,0,1,1,1,1,1,1] ++
  [1,2,1,1,1,1,1,2,1,2,1,1,1,1,1,1] ++ [1,1,1,1,1,1,1,2,1,1,1,1,1,1,1,1] ++
  [1,2,1,1,1,1,1,1,1,2,1,1,1,1,1,1] ++ [1,1,1,1,1,1,1,3,1,3,1,1,1,1,1,1] ++
  [1,3,1,1,1,1,1,3,1,3,1,1,1,1,1,1] ++ [1,3,1,1,1,1,1,1,1,1,1,1,1,1,1,1]

def utf8Accept : Nat := 0
def utf8Reject : Nat := 1

def decode (state codep : Nat) (byte : UInt8) : Nat × Nat :=
  let type := utf8d.getD byte.toNat 0
  (utf8d.getD (256 + state * 16 + type) 0,
   if state ≠ utf8Accept then ((byte.toNat &&& 0x3F) ||| (codep <<< 6)) % 4294967296
   else (0xFF >>> type) &&& byte.toNat)

def stringBufferSize : Nat := 512

/- `stringBuffer` holds the first `bytes` of the array, `extent` is one more than the
greatest index stored so far, and `output` is what `o` has been given. -/
structure Escaping where
  state : Nat
  codepoint : Nat
  stringBuffer : Text
  extent : Nat
  output : Text
  deriving DecidableEq, Repr

namespace Escaping

def start : Escaping := ⟨utf8Accept,0,[],0,[]⟩

/- Stores, of which the first `kept` bytes count: `snprintf` puts a NUL behind its text. -/
def store (e : Escaping) (text : Text) (kept : Nat) : Escaping :=
  {e with stringBuffer := e.stringBuffer ++ text.take kept, extent := max e.extent (e.stringBuffer.length + text.length)}

def put (e : Escaping) (text : Text) : Escaping := e.store text text.length

def flush (e : Escaping) : Escaping :=
  if stringBufferSize - e.stringBuffer.length < 13 then {e with output := e.output ++ e.stringBuffer, stringBuffer := []}
  else e

end Escaping

def Escaping.decoded (e : Escaping) (byte : UInt8) : Escaping :=
  {e with state := (decode e.state e.codepoint byte).1, codepoint := (decode e.state e.codepoint byte).2}

def hex4 (n : Nat) : Text :=
  let digits := ascii (String.ofList (Nat.toDigits 16 n))
  List.replicate (4 - digits.length) (48 : UInt8) ++ digits

def u16 (n : Nat) : Nat := n % 65536

def shortEscapes : List (Nat × UInt8) := [(0x08,98),(0x09,116),(0x0A,110),(0x0C,102),(0x0D,114),(0x22,34),(0x5C,92)]

def accepted (ensureAscii : Bool) (byte : UInt8) (e : Escaping) : Escaping := match shortEscapes.lookup e.codepoint with
  | some letter => e.put [92,letter]
  | none =>
      if e.codepoint ≤ 0x1F ∨ (ensureAscii = true ∧ 0x7F ≤ e.codepoint) then
        if e.codepoint ≤ 0xFFFF then e.store (92 :: 117 :: (hex4 (u16 e.codepoint) ++ [0])) 6
        else e.store (92 :: 117 :: (hex4 (u16 (0xD7C0 + (e.codepoint >>> 10))) ++
          92 :: 117 :: (hex4 (u16 (0xDC00 + (e.codepoint &&& 0x3FF))) ++ [0]))) 12
      else e.put [byte]

def invalidByte (i : Nat) (byte : UInt8) : String :=
  typeError 316 ("invalid UTF-8 byte at index " ++ toString i ++ ": 0x" ++ Lexer.hexText 2 byte.toNat)

def incomplete (last : UInt8) : String :=
  typeError 316 ("incomplete UTF-8 string; last byte: 0x" ++ Lexer.hexText 2 last.toNat)

def escapeStep (ensureAscii : Bool) (i : Nat) (e : Escaping) (byte : UInt8) : Except String Escaping :=
  let e := e.decoded byte
  if e.state = utf8Accept then .ok (accepted ensureAscii byte e).flush
  else if e.state = utf8Reject then .error (invalidByte i byte)
  else .ok (if ensureAscii then e else e.put [byte])

def escapeLoop (ensureAscii : Bool) : Nat → Escaping → Text → Except String Escaping
  | _, e, [] => .ok e
  | i, e, byte :: rest => match escapeStep ensureAscii i e byte with
      | .error what => .error what
      | .ok e => escapeLoop ensureAscii (i + 1) e rest

def dumpEscaped (ensureAscii : Bool) (s : Text) : Except String Text :=
  match escapeLoop ensureAscii 0 .start s with
  | .error what => .error what
  | .ok e =>
      if e.state = utf8Accept then .ok (e.output ++ e.stringBuffer) else .error (incomplete (s.getLastD 0))

def digitsTo99 (index : Nat) : Text := [UInt8.ofNat (48 + index / 10),UInt8.ofNat (48 + index % 10)]

def countDigits (x : Nat) : Nat :=
  if x < 10 then 1 else if x < 100 then 2 else if x < 1000 then 3 else if x < 10000 then 4 else countDigits (x / 10000) + 4

def fillDigits (absValue : Nat) : Text :=
  if 100 ≤ absValue then fillDigits (absValue / 100) ++ digitsTo99 (absValue % 100)
  else if 10 ≤ absValue then digitsTo99 absValue
  else [UInt8.ofNat (48 + absValue)]

/- The least `int64_t` has no `std::abs`; where the code runs it becomes 2 ^ 63 as an unsigned number. -/
def dumpInteger (x : Int) : Text :=
  if x = 0 then [48] else if x < 0 then 45 :: fillDigits x.natAbs else fillDigits x.natAbs

section Dump
variable (toChars : Rat → Text) (ensureAscii : Bool)

def quoted (s : Text) : Except String Text := do
  let text ← dumpEscaped ensureAscii s
  .ok (34 :: (text ++ [34]))

mutual

def dump : Json → Except String Text
  | .null => .ok [110,117,108,108]
  | .boolean true => .ok [116,114,117,101]
  | .boolean false => .ok [102,97,108,115,101]
  | .numberInteger value => .ok (dumpInteger value)
  | .numberUnsigned value => .ok (dumpInteger value)
  | .numberFloat value => .ok (toChars value)
  | .string value => quoted ensureAscii value
  | .array items => do
      let text ← dumpItems items
      .ok (91 :: (text ++ [93]))
  | .object members => do
      let text ← dumpMembers members
      .ok (123 :: (text ++ [125]))

def dumpItems : List Json → Except String Text
  | [] => .ok []
  | [js] => dump js
  | js :: items => do
      let first ← dump js
      let more ← dumpItems items
      .ok (first ++ 44 :: more)

def dumpMembers : List (Text × Json) → Except String Text
  | [] => .ok []
  | [(key,js)] => do
      let name ← quoted ensureAscii key
      let value ← dump js
      .ok (name ++ 58 :: value)
  | (key,js) :: members => do
      let name ← quoted ensureAscii key
      let value ← dump js
      let more ← dumpMembers members
      .ok (name ++ 58 :: (value ++ 44 :: more))

end

end Dump

end Serializer
end SimpleChat.Json
