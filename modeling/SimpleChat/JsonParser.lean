import SimpleChat.JsonLexer

/-! The parser of `nlohmann::json`: one token ahead, a stack that says which kind
of container is open, and the handler that builds the value. The handler's
`ref_stack` points into the value under construction; here each open container
holds what is finished in it, and goes into the one around it when it closes. -/
namespace SimpleChat.Json

inductive Container where
  | array (items : List Json)
  | object (members : List (Text × Json)) (element : Text)

/- `std::map` keeps its keys in order; an assignment to a key that is there replaces its value. -/
def assign (key : Text) (value : Json) : List (Text × Json) → List (Text × Json)
  | [] => [(key,value)]
  | (k,v) :: rest =>
      if k = key then (k,value) :: rest
      else if key < k then (key,value) :: (k,v) :: rest
      else (k,v) :: assign key value rest

def lookup (key : Text) (members : List (Text × Json)) : Option Json :=
  (members.find? (fun m => decide (m.1 = key))).map Prod.snd

structure SaxDomParser where
  root : Json
  refStack : List Container

namespace SaxDomParser

def handleValue (s : SaxDomParser) (value : Json) : SaxDomParser := match s.refStack with
  | [] => {s with root := value}
  | .array items :: rest => {s with refStack := .array (items ++ [value]) :: rest}
  | .object members element :: rest => {s with refStack := .object (assign element value members) element :: rest}

def startObject (s : SaxDomParser) : SaxDomParser := {s with refStack := .object [] [] :: s.refStack}
def startArray (s : SaxDomParser) : SaxDomParser := {s with refStack := .array [] :: s.refStack}

/- `operator[]` puts null where the key is new. -/
def key (s : SaxDomParser) (val : Text) : SaxDomParser := match s.refStack with
  | .object members _ :: rest =>
      {s with refStack := .object (if (lookup val members).isSome then members else assign val null members) val :: rest}
  | _ => s

def close (s : SaxDomParser) : SaxDomParser := match s.refStack with
  | [] => s
  | .array items :: rest => handleValue {s with refStack := rest} (array items)
  | .object members _ :: rest => handleValue {s with refStack := rest} (object members)

def endObject (s : SaxDomParser) : SaxDomParser := s.close
def endArray (s : SaxDomParser) : SaxDomParser := s.close

end SaxDomParser

structure Parser where
  lastToken : Token
  mLexer : Lexer

namespace Parser

def ofScan (scanned : Token × Lexer) : Parser := ⟨scanned.1,scanned.2⟩
def new (text : Text) : Parser := ofScan (Lexer.new text).scan
def getToken (p : Parser) : Parser := ofScan p.mLexer.scan

def exceptionMessage (p : Parser) (expected : TokenType) (context : String) : String :=
  "syntax error " ++ (if context = "" then "" else "while parsing " ++ context ++ " ") ++ "- " ++
  (if p.lastToken = .parseError then p.mLexer.errorMessage ++ "; last read: '" ++ p.mLexer.getTokenString ++ "'"
    else "unexpected " ++ tokenTypeName p.lastToken.type) ++
  (if expected = .uninitialized then "" else "; expected " ++ tokenTypeName expected)

def parseError (p : Parser) (what : String) : String :=
  "[json.exception.parse_error.101] parse error at line " ++ toString (p.mLexer.position.linesRead + 1) ++
    ", column " ++ toString p.mLexer.position.charsReadCurrentLine ++ ": " ++ what

def error (p : Parser) (expected : TokenType) (context : String) : String :=
  p.parseError (p.exceptionMessage expected context)

def overflow (p : Parser) : String :=
  "[json.exception.out_of_range.406] number overflow parsing '" ++ p.mLexer.getTokenString ++ "'"

end Parser

/- The end of `states` where the source pushes is the head here; true is an array. -/
structure Config where
  parser : Parser
  states : List Bool
  sax : SaxDomParser
  skip : Bool

inductive Progress where
  | next (c : Config)
  | finished (c : Config)

def parseKey (p : Parser) (sax : SaxDomParser) : Except String (Parser × SaxDomParser) := match p.lastToken with
  | .valueString text =>
      if p.getToken.lastToken = .nameSeparator then .ok (p.getToken.getToken,sax.key text)
      else .error (p.getToken.error .nameSeparator "object separator")
  | _ => .error (p.error .valueString "object key")

def evaluate (c : Config) : Except String Progress := match c.states with
  | [] => .ok (.finished c)
  | true :: states =>
      let p := c.parser.getToken
      if p.lastToken = .valueSeparator then .ok (.next {c with parser := p.getToken, skip := false})
      else if p.lastToken = .endArray then .ok (.next ⟨p,states,c.sax.endArray,true⟩)
      else .error (p.error .endArray "array")
  | false :: states =>
      let p := c.parser.getToken
      if p.lastToken = .valueSeparator then do
        let member ← parseKey p.getToken c.sax
        .ok (.next {c with parser := member.1, sax := member.2, skip := false})
      else if p.lastToken = .endObject then .ok (.next ⟨p,states,c.sax.endObject,true⟩)
      else .error (p.error .endObject "object")

def scalar (c : Config) (value : Json) : Except String Progress := evaluate {c with sax := c.sax.handleValue value}

def parseValue (c : Config) : Except String Progress := match c.parser.lastToken with
  | .beginObject =>
      let p := c.parser.getToken
      if p.lastToken = .endObject then evaluate {c with parser := p, sax := c.sax.startObject.endObject}
      else do
        let member ← parseKey p c.sax.startObject
        .ok (.next ⟨member.1,false :: c.states,member.2,false⟩)
  | .beginArray =>
      let p := c.parser.getToken
      if p.lastToken = .endArray then evaluate {c with parser := p, sax := c.sax.startArray.endArray}
      else .ok (.next ⟨p,true :: c.states,c.sax.startArray,false⟩)
  | .valueFloat none => .error c.parser.overflow
  | .valueFloat (some value) => scalar c (numberFloat value)
  | .literalFalse => scalar c (boolean false)
  | .literalNull => scalar c null
  | .literalTrue => scalar c (boolean true)
  | .valueInteger value => scalar c (numberInteger value)
  | .valueString text => scalar c (string text)
  | .valueUnsigned value => scalar c (numberUnsigned value)
  | .parseError => .error (c.parser.error .uninitialized "value")
  | _ => .error (c.parser.error .literalOrValue "value")

def parseStep (c : Config) : Except String Progress := if c.skip then evaluate c else parseValue c

def saxParseInternal : Nat → Config → Except String Config
  | 0, c => .error (c.parser.error .literalOrValue "value")
  | count + 1, c => match parseStep c with
      | .error what => .error what
      | .ok (.finished c) => .ok c
      | .ok (.next c) => saxParseInternal count c

/- `json::parse` with exceptions, on the bytes up to the NUL of its argument. -/
def parse (text : Text) : Except String Json := match saxParseInternal (text.length + 2) ⟨.new text,[],⟨null,[]⟩,false⟩ with
  | .error what => .error what
  | .ok c =>
      let p := c.parser.getToken
      if p.lastToken = .endOfInput then .ok c.sax.root else .error (p.error .endOfInput "value")

end SimpleChat.Json
