import SimpleChat.JsonParser

/-! What a JSON text says, without a machine that reads it: pieces of strings,
numerals, the texts of tokens, values as rows of tokens, and documents. -/
namespace SimpleChat.Json.Grammar
open Basis

def IsSpace (b : UInt8) : Prop := b = 32 ∨ b = 9 ∨ b = 10 ∨ b = 13
def Space (text : Text) : Prop := ∀ b ∈ text, IsSpace b

inductive Hex : Nat → Text → Prop
  | digits {a b c d : UInt8} {x y z w : Nat} (first : Lexer.hexDigit a = some x) (second : Lexer.hexDigit b = some y)
      (third : Lexer.hexDigit c = some z) (fourth : Lexer.hexDigit d = some w) :
      Hex (x * 4096 + y * 256 + z * 16 + w) [a,b,c,d]

/- A character of a string, and how it may be written there: as it is, as a short
escape, by its number, or by two surrogates. -/
inductive Piece : Char → Text → Prop
  | plain {c : Char} (printed : 0x20 ≤ c.val.toNat) (noQuote : c.val.toNat ≠ 34) (noBackslash : c.val.toNat ≠ 92) :
      Piece c (String.utf8EncodeChar c)
  | short {b : UInt8} {c : Char} (escape : Lexer.escaped b = some (UInt8.ofNat c.val.toNat)) (small : c.val.toNat < 0x80) :
      Piece c [92,b]
  | number {c : Char} {hex : Text} (value : Hex c.val.toNat hex) : Piece c (92 :: 117 :: hex)
  | pair {c : Char} {high low : Nat} {hex hex' : Text} (first : Hex high hex) (second : Hex low hex')
      (isHigh : 0xD800 ≤ high ∧ high ≤ 0xDBFF) (isLow : 0xDC00 ≤ low ∧ low ≤ 0xDFFF)
      (value : c.val.toNat = 0x10000 + (high - 0xD800) * 0x400 + (low - 0xDC00)) :
      Piece c (92 :: 117 :: (hex ++ 92 :: 117 :: hex'))

inductive Pieces : List Char → Text → Prop
  | nil : Pieces [] []
  | cons {c : Char} {chars : List Char} {text more : Text} (piece : Piece c text) (pieces : Pieces chars more) :
      Pieces (c :: chars) (text ++ more)

def utf8 (chars : List Char) : Text := chars.flatMap String.utf8EncodeChar

def Digits (text : Text) : Prop := text ≠ [] ∧ ∀ b ∈ text, isDigit b

structure Power where
  mark : UInt8
  sign : Text
  digits : Text

namespace Power

def text (p : Power) : Text := p.mark :: (p.sign ++ p.digits)
def value (p : Power) : Int := if p.sign = [45] then -(numberOf p.digits : Int) else numberOf p.digits

structure Good (p : Power) : Prop where
  mark : p.mark = 101 ∨ p.mark = 69
  sign : p.sign = [] ∨ p.sign = [43] ∨ p.sign = [45]
  digits : Digits p.digits

end Power

structure Numeral where
  negative : Bool
  whole : Text
  fraction : Option Text
  power : Option Power

namespace Numeral

def sign (n : Numeral) : Text := if n.negative then [45] else []
def point (n : Numeral) : Text := n.fraction.elim [] (46 :: ·)
def scale (n : Numeral) : Text := n.power.elim [] Power.text
def text (n : Numeral) : Text := n.sign ++ n.whole ++ n.point ++ n.scale

structure Good (n : Numeral) : Prop where
  whole : Digits n.whole
  noZero : n.whole.head? = some 48 → n.whole = [48]
  fraction : ∀ f ∈ n.fraction, Digits f
  power : ∀ p ∈ n.power, p.Good

def value (n : Numeral) : Rat :=
  Lexer.literalValue n.negative n.whole (n.fraction.getD []) (n.power.elim 0 Power.value)

def double (n : Numeral) : Token := .valueFloat (Lexer.nearestDouble n.value)

def token (n : Numeral) : Token := match n.fraction, n.power, n.negative with
  | none, none, false => if numberOf n.whole < 2 ^ 64 then .valueUnsigned (numberOf n.whole) else n.double
  | none, none, true => if numberOf n.whole ≤ 2 ^ 63 then .valueInteger (-(numberOf n.whole : Int)) else n.double
  | _, _, _ => n.double

end Numeral

def fixedText : Token → Option Text
  | .beginArray => some [91]
  | .endArray => some [93]
  | .beginObject => some [123]
  | .endObject => some [125]
  | .nameSeparator => some [58]
  | .valueSeparator => some [44]
  | .literalTrue => some [116,114,117,101]
  | .literalFalse => some [102,97,108,115,101]
  | .literalNull => some [110,117,108,108]
  | _ => none

inductive Lexeme : Token → Text → Prop
  | fixed {token : Token} {text : Text} (spelled : fixedText token = some text) : Lexeme token text
  | string {chars : List Char} {text : Text} (pieces : Pieces chars text) :
      Lexeme (.valueString (utf8 chars)) (34 :: (text ++ [34]))
  | number {n : Numeral} (good : n.Good) : Lexeme n.token n.text

/- Tokens with white space before each of them, and the bytes that are left. -/
inductive Spelled : List Token → Text → Text → Prop
  | nil {tail : Text} : Spelled [] tail tail
  | cons {token : Token} {tokens : List Token} {space text rest tail : Text} (blank : Space space)
      (lexeme : Lexeme token text) (later : Spelled tokens rest tail) :
      Spelled (token :: tokens) (space ++ (text ++ rest)) tail

def valueOf : Token → Option Json
  | .literalTrue => some (boolean true)
  | .literalFalse => some (boolean false)
  | .literalNull => some null
  | .valueString text => some (string text)
  | .valueUnsigned value => some (numberUnsigned value)
  | .valueInteger value => some (numberInteger value)
  | .valueFloat value => value.map numberFloat
  | _ => none

inductive Part where
  | value (js : Json)
  | items (items : List Json)
  | members (members : List (Text × Json))

/- Values, and the items or members of a container as far as a comma. Of members
with one key the last counts. -/
inductive Row : Part → List Token → Prop
  | single {token : Token} {js : Json} (one : valueOf token = some js) : Row (.value js) [token]
  | emptyArray : Row (.value (array [])) [.beginArray,.endArray]
  | array {before : List Json} {js : Json} {tokens tokens' : List Token} (items : Row (.items before) tokens)
      (last : Row (.value js) tokens') :
      Row (.value (array (before ++ [js]))) (.beginArray :: (tokens ++ (tokens' ++ [.endArray])))
  | emptyObject : Row (.value (object [])) [.beginObject,.endObject]
  | object {before : List (Text × Json)} {key : Text} {js : Json} {tokens tokens' : List Token}
      (members : Row (.members before) tokens) (last : Row (.value js) tokens') :
      Row (.value (object (assign key js before)))
        (.beginObject :: (tokens ++ (.valueString key :: .nameSeparator :: (tokens' ++ [.endObject]))))
  | noItems : Row (.items []) []
  | item {before : List Json} {js : Json} {tokens tokens' : List Token} (items : Row (.items before) tokens)
      (next : Row (.value js) tokens') : Row (.items (before ++ [js])) (tokens ++ (tokens' ++ [.valueSeparator]))
  | noMembers : Row (.members []) []
  | member {before : List (Text × Json)} {key : Text} {js : Json} {tokens tokens' : List Token}
      (members : Row (.members before) tokens) (next : Row (.value js) tokens') :
      Row (.members (assign key js before))
        (tokens ++ (.valueString key :: .nameSeparator :: (tokens' ++ [.valueSeparator])))

/- What may stand behind a document: white space, up to a NUL. -/
def Ended (tail : Text) : Prop := ∃ space rest, tail = space ++ rest ∧ Space space ∧ (rest = [] ∨ rest.head? = some 0)

def byteOrderMark : Text := [0xEF,0xBB,0xBF]

def Document (js : Json) (text : Text) : Prop :=
  ∃ mark body tokens tail, text = mark ++ body ∧ (mark = [] ∨ mark = byteOrderMark) ∧ Row (.value js) tokens ∧
    Spelled tokens body tail ∧ Ended tail

end SimpleChat.Json.Grammar
