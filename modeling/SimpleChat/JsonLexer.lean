import Mathlib.Data.Int.Log
import Mathlib.Data.Rat.Floor
import SimpleChat.Basis.Utf8
import SimpleChat.Dates
import SimpleChat.Json

/-! The lexer of `nlohmann::json` on a buffer in memory, byte by byte: tokens, the
position and the text kept for messages. A token carries the value that the
getters would hand out. Loops of the source take a count that their callers
choose above the bytes left. -/
namespace SimpleChat.Json
open Basis.Utf8 (Span)

inductive TokenType where
  | uninitialized
  | literalTrue
  | literalFalse
  | literalNull
  | valueString
  | valueUnsigned
  | valueInteger
  | valueFloat
  | beginArray
  | beginObject
  | endArray
  | endObject
  | nameSeparator
  | valueSeparator
  | parseError
  | endOfInput
  | literalOrValue
  deriving DecidableEq, Repr

def tokenTypeName : TokenType → String
  | .uninitialized => "<uninitialized>"
  | .literalTrue => "true literal"
  | .literalFalse => "false literal"
  | .literalNull => "null literal"
  | .valueString => "string literal"
  | .valueUnsigned | .valueInteger | .valueFloat => "number literal"
  | .beginArray => "'['"
  | .beginObject => "'\x7b'"
  | .endArray => "']'"
  | .endObject => "'\x7d'"
  | .nameSeparator => "':'"
  | .valueSeparator => "','"
  | .parseError => "<parse error>"
  | .endOfInput => "end of input"
  | .literalOrValue => "'[', '\x7b', or a literal"

/- `valueFloat none` is a number too large for a `double`. -/
inductive Token where
  | literalTrue
  | literalFalse
  | literalNull
  | valueString (text : Text)
  | valueUnsigned (value : Nat)
  | valueInteger (value : Int)
  | valueFloat (value : Option Rat)
  | beginArray
  | beginObject
  | endArray
  | endObject
  | nameSeparator
  | valueSeparator
  | parseError
  | endOfInput
  deriving DecidableEq, Repr

def Token.type : Token → TokenType
  | .literalTrue => .literalTrue
  | .literalFalse => .literalFalse
  | .literalNull => .literalNull
  | .valueString _ => .valueString
  | .valueUnsigned _ => .valueUnsigned
  | .valueInteger _ => .valueInteger
  | .valueFloat _ => .valueFloat
  | .beginArray => .beginArray
  | .beginObject => .beginObject
  | .endArray => .endArray
  | .endObject => .endObject
  | .nameSeparator => .nameSeparator
  | .valueSeparator => .valueSeparator
  | .parseError => .parseError
  | .endOfInput => .endOfInput

structure Position where
  charsReadTotal : Nat
  charsReadCurrentLine : Nat
  linesRead : Nat
  deriving DecidableEq, Repr

/- `ia` holds the bytes behind the cursor; `current` is none at the end of them. -/
structure Lexer where
  ia : Text
  current : Option UInt8
  nextUnget : Bool
  position : Position
  tokenString : Text
  tokenBuffer : Text
  errorMessage : String
  deriving DecidableEq, Repr

namespace Lexer

def new (text : Text) : Lexer := ⟨text,none,false,⟨0,0,0⟩,[],[],""⟩

def reset (l : Lexer) : Lexer := {l with tokenBuffer := [], tokenString := l.current.toList}

def advanced (p : Position) (current : Option UInt8) : Position :=
  if current = some 10 then ⟨p.charsReadTotal + 1,0,p.linesRead + 1⟩
  else ⟨p.charsReadTotal + 1,p.charsReadCurrentLine + 1,p.linesRead⟩

def get (l : Lexer) : Lexer :=
  let current := if l.nextUnget then l.current else l.ia.head?
  {l with ia := if l.nextUnget then l.ia else l.ia.tail, current := current, nextUnget := false,
          position := advanced l.position current, tokenString := l.tokenString ++ current.toList}

def unget (l : Lexer) : Lexer :=
  let p := l.position
  {l with nextUnget := true,
          position := ⟨p.charsReadTotal - 1,p.charsReadCurrentLine - 1,
            if p.charsReadCurrentLine = 0 then p.linesRead - 1 else p.linesRead⟩,
          tokenString := if l.current.isSome then l.tokenString.dropLast else l.tokenString}

def add (l : Lexer) (b : UInt8) : Lexer := {l with tokenBuffer := l.tokenBuffer ++ [b]}
def complain (l : Lexer) (message : String) : Lexer := {l with errorMessage := message}

def hexDigit (b : UInt8) : Option Nat :=
  if 48 ≤ b ∧ b ≤ 57 then some (b.toNat - 0x30)
  else if 65 ≤ b ∧ b ≤ 70 then some (b.toNat - 0x37)
  else if 97 ≤ b ∧ b ≤ 102 then some (b.toNat - 0x57)
  else none

def codepointLoop (codepoint : Nat) (l : Lexer) : List Nat → Option Nat × Lexer
  | [] => (some codepoint,l)
  | factor :: factors =>
      let l := l.get
      match l.current.bind hexDigit with
      | none => (none,l)
      | some digit => codepointLoop (codepoint + digit <<< factor) l factors

def getCodepoint (l : Lexer) : Option Nat × Lexer := codepointLoop 0 l [12,8,4,0]

def rangeLoop (l : Lexer) : List Span → Except Lexer Lexer
  | [] => .ok l
  | range :: ranges =>
      let l := l.get
      match l.current with
      | some b => if range.Has b then rangeLoop (l.add b) ranges
          else .error (l.complain "invalid string: ill-formed UTF-8 byte")
      | none => .error (l.complain "invalid string: ill-formed UTF-8 byte")

def nextByteInRange (l : Lexer) (ranges : List Span) : Except Lexer Lexer :=
  rangeLoop (l.add (l.current.getD 0)) ranges

def codepointBytes (codepoint : Nat) : Text :=
  if codepoint < 0x80 then [UInt8.ofNat codepoint]
  else if codepoint ≤ 0x7FF then
    [UInt8.ofNat (0xC0 ||| codepoint >>> 6),UInt8.ofNat (0x80 ||| codepoint &&& 0x3F)]
  else if codepoint ≤ 0xFFFF then
    [UInt8.ofNat (0xE0 ||| codepoint >>> 12),UInt8.ofNat (0x80 ||| (codepoint >>> 6) &&& 0x3F),
     UInt8.ofNat (0x80 ||| codepoint &&& 0x3F)]
  else
    [UInt8.ofNat (0xF0 ||| codepoint >>> 18),UInt8.ofNat (0x80 ||| (codepoint >>> 12) &&& 0x3F),
     UInt8.ofNat (0x80 ||| (codepoint >>> 6) &&& 0x3F),UInt8.ofNat (0x80 ||| codepoint &&& 0x3F)]

def addCodepoint (l : Lexer) (codepoint : Nat) : Lexer :=
  {l with tokenBuffer := l.tokenBuffer ++ codepointBytes codepoint}

def hexMessage : String := "invalid string: '\\u' must be followed by 4 hex digits"
def lowMessage : String := "invalid string: surrogate U+DC00..U+DFFF must be followed by U+DC00..U+DFFF"
def highMessage : String := "invalid string: surrogate U+DC00..U+DFFF must follow U+D800..U+DBFF"

/- The escape `\u`; `.error` is `return token_type::parse_error`. -/
def scanUnicode (l : Lexer) : Except Lexer Lexer := match l.getCodepoint with
  | (none,l) => .error (l.complain hexMessage)
  | (some codepoint1,l) =>
      if 0xD800 ≤ codepoint1 ∧ codepoint1 ≤ 0xDBFF then
        if l.get.current = some 92 then
          if l.get.get.current = some 117 then match l.get.get.getCodepoint with
            | (none,l) => .error (l.complain hexMessage)
            | (some codepoint2,l) =>
                if 0xDC00 ≤ codepoint2 ∧ codepoint2 ≤ 0xDFFF then
                  .ok (l.addCodepoint (codepoint1 <<< 10 + codepoint2 - 0x35FDC00))
                else .error (l.complain lowMessage)
          else .error (l.get.get.complain lowMessage)
        else .error (l.get.complain lowMessage)
      else if 0xDC00 ≤ codepoint1 ∧ codepoint1 ≤ 0xDFFF then .error (l.complain highMessage)
      else .ok (l.addCodepoint codepoint1)

def escaped (b : UInt8) : Option UInt8 :=
  if b = 34 then some 34
  else if b = 92 then some 92
  else if b = 47 then some 47
  else if b = 98 then some 8
  else if b = 102 then some 12
  else if b = 110 then some 10
  else if b = 114 then some 13
  else if b = 116 then some 9
  else none

def scanEscape (l : Lexer) : Except Lexer Lexer :=
  let l := l.get
  if l.current = some 117 then l.scanUnicode
  else match l.current.bind escaped with
    | some b => .ok (l.add b)
    | none => .error (l.complain "invalid string: forbidden character after backslash")

def controlNames : List String :=
  ["NUL","SOH","STX","ETX","EOT","ENQ","ACK","BEL","BS","HT","LF","VT","FF","CR","SO","SI","DLE","DC1","DC2","DC3",
   "DC4","NAK","SYN","ETB","CAN","EM","SUB","ESC","FS","GS","RS","US"]

def hexText (width n : Nat) : String :=
  let digits := (Nat.toDigits 16 n).map Char.toUpper
  String.ofList (List.replicate (width - digits.length) '0' ++ digits)

def shortEscape (b : UInt8) : String :=
  if b = 8 then " or \\b" else if b = 9 then " or \\t" else if b = 10 then " or \\n"
  else if b = 12 then " or \\f" else if b = 13 then " or \\r" else ""

def controlMessage (b : UInt8) : String :=
  let number := hexText 4 b.toNat
  "invalid string: control character U+" ++ number ++ " (" ++ controlNames.getD b.toNat "" ++
    ") must be escaped to \\u" ++ number ++ shortEscape b

inductive StringStep where
  | closed (l : Lexer)
  | more (l : Lexer)
  | failed (l : Lexer)

def StringStep.ofExcept : Except Lexer Lexer → StringStep
  | .ok l => .more l
  | .error l => .failed l

def stringStep (l : Lexer) : StringStep :=
  let l := l.get
  match l.current with
  | none => .failed (l.complain "invalid string: missing closing quote")
  | some b =>
      if b = 34 then .closed l
      else if b = 92 then .ofExcept l.scanEscape
      else if b < 0x20 then .failed (l.complain (controlMessage b))
      else if b ≤ 0x7F then .more (l.add b)
      else if 0xC2 ≤ b ∧ b ≤ 0xDF then .ofExcept (l.nextByteInRange [⟨0x80,0xBF⟩])
      else if b = 0xE0 then .ofExcept (l.nextByteInRange [⟨0xA0,0xBF⟩,⟨0x80,0xBF⟩])
      else if (0xE1 ≤ b ∧ b ≤ 0xEC) ∨ b = 0xEE ∨ b = 0xEF then
        .ofExcept (l.nextByteInRange [⟨0x80,0xBF⟩,⟨0x80,0xBF⟩])
      else if b = 0xED then .ofExcept (l.nextByteInRange [⟨0x80,0x9F⟩,⟨0x80,0xBF⟩])
      else if b = 0xF0 then .ofExcept (l.nextByteInRange [⟨0x90,0xBF⟩,⟨0x80,0xBF⟩,⟨0x80,0xBF⟩])
      else if 0xF1 ≤ b ∧ b ≤ 0xF3 then .ofExcept (l.nextByteInRange [⟨0x80,0xBF⟩,⟨0x80,0xBF⟩,⟨0x80,0xBF⟩])
      else if b = 0xF4 then .ofExcept (l.nextByteInRange [⟨0x80,0x8F⟩,⟨0x80,0xBF⟩,⟨0x80,0xBF⟩])
      else .failed (l.complain "invalid string: ill-formed UTF-8 byte")

def stringLoop : Nat → Lexer → Token × Lexer
  | 0, l => (.parseError,l)
  | count + 1, l => match l.stringStep with
      | .closed l => (.valueString l.tokenBuffer,l)
      | .more l => stringLoop count l
      | .failed l => (.parseError,l)

def scanString (l : Lexer) : Token × Lexer := stringLoop (l.ia.length + 1) l.reset

inductive NumberState where
  | minus
  | zero
  | any1
  | decimal1
  | decimal2
  | exponent
  | sign
  | any2
  deriving DecidableEq, Repr

inductive NumberType where
  | unsigned
  | integer
  | float
  deriving DecidableEq, Repr

def NumberState.retype (type : NumberType) : NumberState → NumberType
  | .minus => .integer
  | .decimal1 | .exponent => .float
  | _ => type

inductive NumberStep where
  | goto (state : NumberState)
  | done
  | failed (message : String)
  deriving DecidableEq, Repr

def numberStep (state : NumberState) (current : Option UInt8) : NumberStep :=
  let digit := current.any (fun b => decide (isDigit b))
  let mark := current = some 101 ∨ current = some 69
  match state with
  | .minus =>
      if current = some 48 then .goto .zero
      else if digit then .goto .any1
      else .failed "invalid number; expected digit after '-'"
  | .zero => if current = some 46 then .goto .decimal1 else if mark then .goto .exponent else .done
  | .any1 =>
      if digit then .goto .any1
      else if current = some 46 then .goto .decimal1
      else if mark then .goto .exponent
      else .done
  | .decimal1 => if digit then .goto .decimal2 else .failed "invalid number; expected digit after '.'"
  | .decimal2 => if digit then .goto .decimal2 else if mark then .goto .exponent else .done
  | .exponent =>
      if current = some 43 ∨ current = some 45 then .goto .sign
      else if digit then .goto .any2
      else .failed "invalid number; expected '+', '-', or digit after exponent"
  | .sign => if digit then .goto .any2 else .failed "invalid number; expected digit after exponent sign"
  | .any2 => if digit then .goto .any2 else .done

/- The nearest `double`, the one with an even last bit between two; none for an
infinity. A `double` is a whole number below 2 ^ 53 times a power of two. -/
def nearestDouble (value : Rat) : Option Rat :=
  if value = 0 then some 0
  else
    let size := |value|
    let exponent := max (Int.log 2 size - 52) (-1074)
    let scaled := size / 2 ^ exponent
    let below := ⌊scaled⌋
    let left := scaled - below
    let whole := if left < 1 / 2 ∨ (left = 1 / 2 ∧ below % 2 = 0) then below else below + 1
    let rounded := (whole : Rat) * 2 ^ exponent
    if (2 : Rat) ^ (1024 : Nat) ≤ rounded then none else some (if value < 0 then -rounded else rounded)

def digits (text : Text) : Text := text.takeWhile (fun b => decide (isDigit b))

def literalValue (negative : Bool) (whole fraction : Text) (exponent : Int) : Rat :=
  let size := (numberOf (whole ++ fraction) : Rat) * 10 ^ (exponent - fraction.length)
  if negative then -size else size

def exponentOf (text : Text) : Int := match text with
  | 43 :: rest => numberOf (digits rest)
  | 45 :: rest => -numberOf (digits rest)
  | rest => numberOf (digits rest)

def strtod (text : Text) : Option Rat :=
  let negative := decide (text.head? = some 45)
  let text := if negative then text.tail else text
  let whole := digits text
  let text := text.drop whole.length
  let fraction := if text.head? = some 46 then digits text.tail else []
  let text := if text.head? = some 46 then text.drop (fraction.length + 1) else text
  let exponent := if text.head? = some 101 ∨ text.head? = some 69 then exponentOf text.tail else 0
  nearestDouble (literalValue negative whole fraction exponent)

def strtoull (text : Text) : Option Nat :=
  let value := numberOf (digits text)
  if value < 2 ^ 64 then some value else none

def strtoll (text : Text) : Option Int :=
  let value : Int := if text.head? = some 45 then -(numberOf (digits text.tail) : Int) else numberOf (digits text)
  if -2 ^ 63 ≤ value ∧ value < 2 ^ 63 then some value else none

def numberToken (type : NumberType) (text : Text) : Token := match type with
  | .unsigned => match strtoull text with
      | some value => .valueUnsigned value
      | none => .valueFloat (strtod text)
  | .integer => match strtoll text with
      | some value => .valueInteger value
      | none => .valueFloat (strtod text)
  | .float => .valueFloat (strtod text)

def numberLoop : Nat → NumberState → NumberType → Lexer → Token × Lexer
  | 0, _, _, l => (.parseError,l)
  | count + 1, state, type, l =>
      let type := state.retype type
      let l := l.get
      match numberStep state l.current with
      | .goto next => numberLoop count next type (l.add (l.current.getD 0))
      | .done => (numberToken type l.tokenBuffer,l.unget)
      | .failed message => (.parseError,l.complain message)

def scanNumber (l : Lexer) : Token × Lexer :=
  let state : NumberState :=
    if l.current = some 45 then .minus else if l.current = some 48 then .zero else .any1
  numberLoop (l.ia.length + 2) state .unsigned (l.reset.add (l.current.getD 0))

def scanLiteral (token : Token) (l : Lexer) : Text → Token × Lexer
  | [] => (token,l)
  | b :: rest =>
      let l := l.get
      if l.current = some b then scanLiteral token l rest else (.parseError,l.complain "invalid literal")

def skipBom (l : Lexer) : Bool × Lexer :=
  let l := l.get
  if l.current = some 0xEF then
    let l := l.get
    if l.current = some 0xBB then
      let l := l.get
      (decide (l.current = some 0xBF),l)
    else (false,l)
  else (true,l.unget)

def isSpace (b : UInt8) : Bool := b = 32 || b = 9 || b = 10 || b = 13

def skipSpace : Nat → Lexer → Lexer
  | 0, l => l
  | count + 1, l =>
      let l := l.get
      if l.current.any isSpace then skipSpace count l else l

def scanCurrent (l : Lexer) : Token × Lexer := match l.current with
  | none => (.endOfInput,l)
  | some b =>
      if b = 91 then (.beginArray,l)
      else if b = 93 then (.endArray,l)
      else if b = 123 then (.beginObject,l)
      else if b = 125 then (.endObject,l)
      else if b = 58 then (.nameSeparator,l)
      else if b = 44 then (.valueSeparator,l)
      else if b = 116 then scanLiteral .literalTrue l [114,117,101]
      else if b = 102 then scanLiteral .literalFalse l [97,108,115,101]
      else if b = 110 then scanLiteral .literalNull l [117,108,108]
      else if b = 34 then l.scanString
      else if b = 45 ∨ isDigit b then l.scanNumber
      else if b = 0 then (.endOfInput,l)
      else (.parseError,l.complain "invalid literal")

def scanToken (l : Lexer) : Token × Lexer := (skipSpace (l.ia.length + 2) l).scanCurrent

def scan (l : Lexer) : Token × Lexer :=
  if l.position.charsReadTotal = 0 then
    let bom := l.skipBom
    if bom.1 then bom.2.scanToken else (.parseError,bom.2.complain "invalid BOM; must be 0xEF 0xBB 0xBF if given")
  else l.scanToken

def getTokenString (l : Lexer) : String :=
  String.join (l.tokenString.map (fun b =>
    if b ≤ 0x1F then "<U+" ++ hexText 4 b.toNat ++ ">" else String.singleton (Char.ofNat b.toNat)))

end Lexer
end SimpleChat.Json
