import SimpleChat.Json

/-! `tcp_conn`: one client's buffers, and `read_once`, `parseData` and
`sendData` on them. The parser is the parameter `parse`; `m_sql` and the guard
on it are `SqlPool`'s. What the kernel answers is an input, and each call to
`epoll_ctl` is an output, so that these functions are also the parts a worker
thread interleaves with others. -/
namespace SimpleChat

def maxReadLen : Nat := 1024
def sempbufSize : Nat := 100

inductive Interest where
  | readEvent
  | writeEvent
  deriving DecidableEq, Repr

inductive EpollCall where
  | modify (fd : Int) (events : Interest)
  | delete (fd : Int)
  deriving DecidableEq, Repr

def EpollCall.isModify : EpollCall → Bool
  | .modify _ _ => true
  | .delete _ => false

/- `mode` is the constant 0, so the other branch of the first state is never taken. -/
inductive ConnState where
  | LT
  | ET
  deriving DecidableEq, Repr

structure Request where
  id : Int
  name : Text
  password : Text
  email : Text
  deriving DecidableEq, Repr

/- Stores behind the end of `sempbuf` or of `m_buf`; the bytes still arrive where they are read. -/
inductive Fault where
  | sempbuf
  | terminator
  deriving DecidableEq, Repr

structure TcpConn where
  mFd : Int
  mBuf : Text
  mWritebuf : Text
  alllen : Nat
  deriving DecidableEq, Repr

namespace TcpConn

def new : TcpConn := ⟨-1,zeros 1024,zeros 1024,0⟩
def setFd (c : TcpConn) (fd : Int) : TcpConn := {c with mFd := fd}
def resetBuf (c : TcpConn) : TcpConn := {c with mBuf := zeros 1024}
def resetLen (c : TcpConn) : TcpConn := {c with alllen := 0}
def reset (c : TcpConn) : TcpConn := c.resetBuf.resetLen
def cleanAllData (c : TcpConn) : TcpConn := {c.reset with mWritebuf := zeros 1024}

def updateEvents (c : TcpConn) (events : Interest) : EpollCall := .modify c.mFd events
def removeFd (c : TcpConn) : EpollCall := .delete c.mFd

/- One successful `read`: the bytes pass through `sempbuf` to the end of `m_buf`. -/
def received (cstate : ConnState) (c : TcpConn) (data : Text) : TcpConn × List Fault :=
  let alllen := c.alllen + data.length
  let mBuf := overwrite c.mBuf c.alllen data
  let long := if sempbufSize < data.length then [Fault.sempbuf] else []
  match cstate with
  | .LT =>
      let behind := if alllen < maxReadLen then [] else [Fault.terminator]
      ({c with mBuf := mBuf.set alllen 0, alllen := alllen},long ++ behind)
  | .ET => ({c with mBuf := mBuf, alllen := alllen},long)

def decode (js : Json) : Except String Request := do
  let (first,js) ← js.index 0
  let id ← first.getInt
  let (second,js) ← js.index 1
  let name ← second.getString
  let (third,js) ← js.index 2
  let password ← third.getString
  let (fourth,_) ← js.index 3
  let email ← fourth.getString
  return ⟨id,name,password,email⟩

def LOGIN : Int := 0
def REGISTER : Int := 1
def SENDMESSAGE : Int := 2
def REGISTER_SUCCESS : Nat := 3

/- 我收到消息了 -/
def gotMessage : Text :=
  [0xE6,0x88,0x91,0xE6,0x94,0xB6,0xE5,0x88,0xB0,0xE6,0xB6,0x88,0xE6,0x81,0xAF,0xE4,0xBA,0x86]

/- An `id` that is none of the three gets no answer. -/
def answer (id : Int) : Option Text :=
  if id = LOGIN then some (ascii "[2]")
  else if id = REGISTER then some (ascii "[" ++ decimal REGISTER_SUCCESS ++ ascii "]")
  else if id = SENDMESSAGE then some gotMessage
  else none

def reply (c : TcpConn) (request : Request) : TcpConn × List EpollCall := match answer request.id with
  | some text => ({c with mWritebuf := strcpy c.mWritebuf text},[c.updateEvents .writeEvent])
  | none => (c,[])

variable (parse : Text → Except String Json)

def request (c : TcpConn) : Except String Request := do
  let js ← parse (cString c.mBuf)
  decode js

inductive Ending where
  | eof
  | eagain
  | failed
  deriving DecidableEq, Repr

structure Reads where
  chunks : List Text
  ending : Ending
  deriving DecidableEq, Repr

inductive Outcome where
  | returned (value : Bool)
  | threw (what : String)
  deriving DecidableEq, Repr

/- `parsed` lists the strings handed to `parse`. -/
structure Run where
  conn : TcpConn
  parsed : List Text
  decoded : Option Request
  calls : List EpollCall
  faults : List Fault
  outcome : Outcome
  deriving DecidableEq, Repr

/- The NUL that the edge-triggered branch puts behind the bytes before it parses them. -/
def terminated (cstate : ConnState) (c : TcpConn) : TcpConn := match cstate with
  | .LT => c
  | .ET => {c with mBuf := c.mBuf.set c.alllen 0}

def finish (cstate : ConnState) (c : TcpConn) : Ending → Run
  | .eof => ⟨c.reset,[],none,[c.removeFd],[],.returned (cstate = .ET)⟩
  | .failed => ⟨c,[],none,[],[],.returned false⟩
  | .eagain =>
      let full := c.terminated cstate
      let text := cString full.mBuf
      match full.request parse with
      | .error what => ⟨full,[text],none,[],[],.threw what⟩
      | .ok decoded =>
          let replied := full.reply decoded
          ⟨replied.1.reset,[text],some decoded,replied.2,[],.returned true⟩

def readLoop (cstate : ConnState) (c : TcpConn) (ending : Ending) : List Text → Run
  | [] => finish parse cstate c ending
  | data :: rest =>
      let read := c.received cstate data
      let run := readLoop cstate read.1 ending rest
      {run with faults := read.2 ++ run.faults}

def readOnce (cstate : ConnState) (c : TcpConn) (reads : Reads) : Run :=
  if maxReadLen ≤ c.alllen then ⟨c,[],none,[],[],.returned false⟩
  else readLoop parse cstate c reads.ending reads.chunks

def pendingReply (c : TcpConn) : Text := cString c.mWritebuf

def sendData (c : TcpConn) (written : Int) : TcpConn × List EpollCall × Bool :=
  if written < 0 then (c,[],false)
  else ({c with mWritebuf := zeros 1024},[c.updateEvents .readEvent],true)

end TcpConn
end SimpleChat
