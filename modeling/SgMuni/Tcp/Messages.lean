import SgMuni.C.Blocks
import SgMuni.Heap.Owners
import SgMuni.Request.Parser
import SgMuni.Transition.System

/-!
# The blocks of the messages

Each message in `recv_q` and `send_q` is a pointer to a block with the fields of an
`SgTcpMessage`, whose `data` points to a second block. `io_loop` and the callers of
`SgTcpServer_send` allocate the two, `worker_loop` and `send_loop` free them.

## Implementation notes

`malloc` gives any address that is not in use, so that the address of a block that was freed
comes again. An access to a block that is not allocated, or to fields that were not stored, is
a fault. A queue holds pointers; the rest of a `Parcel`, and the two histories, are what was
handed over, and no step reads them. As in the source, no allocation fails. A run ends before
`SgTcpServer_free` destroys the queues; a thread that has left its loop takes no more steps.
-/

namespace SgMuni

/-- The two queues of a server. -/
inductive Chan
  | recv
  | send
deriving DecidableEq

/-- The fields of an `SgTcpMessage`, with the pointer `data`. -/
structure MessageFields where
  clientFd : Fd
  data : Nat
  len : Nat

inductive Block
  | data (bytes : List UInt8)
  | message (fields : Option MessageFields)

/-- A pointer to a message, and what it was when it was handed over. -/
structure Parcel where
  msg : Nat
  data : Nat
  fd : Fd
  bytes : List UInt8

/-- Positions of a thread that posts a message: `io_loop` between `malloc` and `rb_push`, and
the callers of `SgTcpServer_send`. -/
inductive PostPc
  | idle
  | reading (fd : Fd) (buf : Nat)
  | failed (buf : Nat)
  | called (fd : Fd) (data : List UInt8)
  | copying (fd : Fd) (data : List UInt8) (buf : Nat)
  | boxing (fd : Fd) (data : List UInt8) (buf : Nat)
  | filling (fd : Fd) (data : List UInt8) (buf msg : Nat)
  | pushing (p : Parcel)

/-- Positions in `worker_loop` and `send_loop`. -/
inductive LoopPc
  | popping
  | popped (p : Parcel)
  | used (p : Parcel)
  | freeing (p : Parcel)

/-- The threads that post are `io_loop`, which is `none`, and the callers. -/
structure Mail (ι : Type) where
  heap : Nat → Option Block
  poster : Option ι → PostPc
  queue : Chan → List Parcel
  loop : Chan → LoopPc
  fault : Bool
  posted : Chan → List (Fd × List UInt8)
  used : Chan → List (Fd × List UInt8)

/-- The queue on which a thread posts. -/
def chan {ι : Type} : Option ι → Chan
  | none => .recv
  | some _ => .send

def Parcel.value (p : Parcel) : Fd × List UInt8 := (p.fd, p.bytes)

namespace Mail

variable {ι : Type} [DecidableEq ι]

/-- The thread `k` moves to `pc` and leaves the heap as `heap`. -/
def post (s : Mail ι) (k : Option ι) (heap : Nat → Option Block) (pc : PostPc) : Mail ι :=
  { s with heap, poster := Function.update s.poster k pc }

/-- The loop of `c` moves to `pc` and leaves the heap as `heap`. -/
def run (s : Mail ι) (c : Chan) (heap : Nat → Option Block) (pc : LoopPc) : Mail ι :=
  { s with heap, loop := Function.update s.loop c pc }

def faulted (s : Mail ι) : Mail ι := { s with fault := true }

/-- Bytes are stored at the start of a block; the thread goes on at `pc`. -/
def fillData (s : Mail ι) (k : Option ι) (buf : Nat) (bytes : List UInt8) (pc : PostPc) : Mail ι :=
  match s.heap buf with
  | some (.data old) =>
      match C.store old 0 bytes with
      | .ok new => s.post k (Function.update s.heap buf (some (.data new))) pc
      | _ => s.faulted
  | _ => s.faulted

inductive PostAct
  | event (fd : Fd) (buf : Nat) (fresh : List UInt8)
  | read (bytes : List UInt8)
  | readFail
  | freeBuf
  | call (fd : Fd) (data : List UInt8)
  | malloc (buf : Nat) (fresh : List UInt8)
  | memcpy
  | mallocMsg (msg : Nat)
  | fill
  | push

/-- `io_loop` takes the actions up to `freeBuf`, a caller the next three. -/
def postNext (cap : Nat) (s : Mail ι) (k : Option ι) : PostAct → Option (Mail ι)
  | .event fd buf fresh =>
      match k, s.poster k with
      | none, .idle =>
          if s.heap buf = none ∧ fresh.length = maxMessage then
            some (s.post k (Function.update s.heap buf (some (.data fresh))) (.reading fd buf))
          else none
      | _, _ => none
  | .read bytes =>
      match s.poster k with
      | .reading fd buf =>
          if bytes ≠ [] ∧ bytes.length ≤ maxMessage then
            some (s.fillData k buf bytes (.boxing fd bytes buf))
          else none
      | _ => none
  | .readFail =>
      match s.poster k with
      | .reading _ buf => some (s.post k s.heap (.failed buf))
      | _ => none
  | .freeBuf =>
      match s.poster k with
      | .failed buf =>
          match s.heap buf with
          | some _ => some (s.post k (Function.update s.heap buf none) .idle)
          | none => some s.faulted
      | _ => none
  | .call fd data =>
      match k, s.poster k with
      | some _, .idle => some (s.post k s.heap (.called fd data))
      | _, _ => none
  | .malloc buf fresh =>
      match s.poster k with
      | .called fd data =>
          if s.heap buf = none ∧ fresh.length = data.length then
            some (s.post k (Function.update s.heap buf (some (.data fresh)))
              (.copying fd data buf))
          else none
      | _ => none
  | .memcpy =>
      match s.poster k with
      | .copying fd data buf => some (s.fillData k buf data (.boxing fd data buf))
      | _ => none
  | .mallocMsg msg =>
      match s.poster k with
      | .boxing fd data buf =>
          if s.heap msg = none then
            some (s.post k (Function.update s.heap msg (some (.message none)))
              (.filling fd data buf msg))
          else none
      | _ => none
  | .fill =>
      match s.poster k with
      | .filling fd data buf msg =>
          match s.heap msg with
          | some (.message _) =>
              some (s.post k
                (Function.update s.heap msg (some (.message (some ⟨fd, buf, data.length⟩))))
                (.pushing ⟨msg, buf, fd, data⟩))
          | _ => some s.faulted
      | _ => none
  | .push =>
      match s.poster k with
      | .pushing p =>
          if (s.queue (chan k)).length < cap then
            some { s.post k s.heap .idle with
              queue := Function.update s.queue (chan k) (s.queue (chan k) ++ [p])
              posted := Function.update s.posted (chan k) (s.posted (chan k) ++ [p.value]) }
          else none
      | _ => none

/-- The fields of a message that were stored. -/
def fields (s : Mail ι) (p : Parcel) : Option MessageFields :=
  match s.heap p.msg with
  | some (.message fields) => fields
  | _ => none

inductive LoopAct
  | pop
  | use
  | cleanup
  | freeData
  | freeMsg

/-- `use` is the call of `on_msg` or of `send`, which gets the first `len` bytes. Behind a
`send` that failed, `send_loop` reads the descriptor once more for `cleanup_connection`. -/
def loopNext (s : Mail ι) (c : Chan) : LoopAct → Option (Mail ι)
  | .pop =>
      match s.loop c, s.queue c with
      | .popping, p :: rest =>
          some { s.run c s.heap (.popped p) with queue := Function.update s.queue c rest }
      | _, _ => none
  | .use =>
      match s.loop c with
      | .popped p =>
          match s.fields p with
          | some m =>
              match s.heap m.data with
              | some (.data bytes) =>
                  if m.len ≤ bytes.length then
                    some { s.run c s.heap (.used p) with
                      used := Function.update s.used c
                        (s.used c ++ [(m.clientFd, bytes.take m.len)]) }
                  else some s.faulted
              | _ => some s.faulted
          | none => some s.faulted
      | _ => none
  | .cleanup =>
      match c, s.loop c with
      | .send, .used p =>
          match s.fields p with
          | some _ => some s
          | none => some s.faulted
      | _, _ => none
  | .freeData =>
      match s.loop c with
      | .used p =>
          match s.fields p with
          | some m =>
              match s.heap m.data with
              | some _ => some (s.run c (Function.update s.heap m.data none) (.freeing p))
              | none => some s.faulted
          | none => some s.faulted
      | _ => none
  | .freeMsg =>
      match s.loop c with
      | .freeing p =>
          match s.heap p.msg with
          | some _ => some (s.run c (Function.update s.heap p.msg none) .popping)
          | none => some s.faulted
      | _ => none

inductive Action (ι : Type)
  | post (k : Option ι) (a : PostAct)
  | loop (c : Chan) (a : LoopAct)

def next (cap : Nat) (s : Mail ι) : Action ι → Option (Mail ι)
  | .post k a => s.postNext cap k a
  | .loop c a => s.loopNext c a

/-- The queues are empty and no block of theirs is allocated. -/
def start : Mail ι where
  heap _ := none
  poster _ := .idle
  queue _ := []
  loop _ := .popping
  fault := false
  posted _ := []
  used _ := []

def system (ι : Type) [DecidableEq ι] (cap : Nat) : Transition.System (Mail ι) (Action ι) where
  init s := s = start
  next := next cap

end Mail

end SgMuni
