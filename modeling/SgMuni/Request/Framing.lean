import SgMuni.Request.Parser
import SgMuni.Stream.Segments
import SgMuni.Queue.Bounded

/-!
# From reads to requests

`io_loop` turns every read into one message on `recv_q` and `worker_loop` hands
each message to `on_message`, which parses its first command. The kernel may
cut a client's stream into any reads, and the rest of a block that `malloc`
returned holds any bytes.
-/

namespace SgMuni

/-- `recv_q` with the history of its messages, and what `on_message` obtained
from `parse_client_request` for each message it was given. -/
structure Pipeline (cap : Nat) where
  recvQ : Queue.Fifo SgTcpMessage cap
  requests : List (Fd × Option (MsgType × ClientRequest))

namespace Pipeline

variable {cap : Nat}

/-- `read` returns the bytes `seg` of a client; `fill` is the rest of the block. -/
inductive Action
  | read (fd : Fd) (seg fill : List UInt8)
  | handle

/-- The message that a read of `seg` into a block gives. -/
def block (fd : Fd) (seg fill : List UInt8) : SgTcpMessage where
  clientFd := fd
  data := seg ++ fill
  len := seg.length

def next (s : Pipeline cap) : Action → Option (Pipeline cap)
  | .read fd seg fill =>
      if room : s.recvQ.items.length < cap then
        if seg ≠ [] ∧ seg.length + fill.length = maxMessage then
          some { s with recvQ := s.recvQ.push (block fd seg fill) room }
        else none
      else none
  | .handle =>
      if nonempty : s.recvQ.items ≠ [] then
        let msg := s.recvQ.items.head nonempty
        some {
          recvQ := s.recvQ.pop nonempty
          requests := s.requests ++ [(msg.clientFd, onMessageTask msg)] }
      else none

def system (cap : Nat) : Transition.System (Pipeline cap) Action where
  init s := s = { recvQ := .empty cap, requests := [] }
  next := next

/-- The reads of a client, in order. -/
def segments (s : Pipeline cap) (fd : Fd) : List (List UInt8) :=
  (s.recvQ.pushed.filter (·.clientFd = fd)).map fun m => m.data.take m.len

/-- The pairs that `on_message` obtained for a client, in order. -/
def obtained (s : Pipeline cap) (fd : Fd) : List (Option (MsgType × Int)) :=
  (s.requests.filter (·.1 = fd)).map fun r => r.2.map fun p => (p.1, p.2.bincount)

/-- No message of the client waits in `recv_q`. -/
def Drained (s : Pipeline cap) (fd : Fd) : Prop :=
  ∀ m ∈ s.recvQ.items, m.clientFd ≠ fd

/-- The pair that `on_message` obtains from a message. -/
def pairOf (m : SgTcpMessage) : Option (MsgType × Int) :=
  (onMessageTask m).map fun p => (p.1, p.2.bincount)

variable {s s' : Pipeline cap}

theorem requests_next {a : Action} (hn : s.next a = some s')
    (h : s.requests = s.recvQ.popped.map fun m => (m.clientFd, onMessageTask m)) :
    s'.requests = s'.recvQ.popped.map fun m => (m.clientFd, onMessageTask m) := by
  cases a with
  | read fd seg fill =>
      simp only [next, Option.dite_none_right_eq_some, Option.ite_none_right_eq_some,
        Option.some.injEq] at hn
      obtain ⟨room, -, rfl⟩ := hn
      exact h
  | handle =>
      simp only [next, Option.dite_none_right_eq_some, Option.some.injEq] at hn
      obtain ⟨nonempty, rfl⟩ := hn
      simp [Queue.Fifo.pop, h]

/-- `on_message` has been given exactly the messages that left `recv_q`. -/
theorem requests_eq (h : (system cap).Reachable s) :
    s.requests = s.recvQ.popped.map fun m => (m.clientFd, onMessageTask m) :=
  h.invariant (fun _ hs => by subst hs; rfl) fun _ _ _ _ hn hi => requests_next hn hi

/-- A drained client has had one request per read, each parsed from its block. -/
theorem obtained_eq (h : (system cap).Reachable s) {fd : Fd} (hd : s.Drained fd) :
    s.obtained fd = (s.recvQ.pushed.filter (·.clientFd = fd)).map pairOf := by
  have hwaiting : s.recvQ.items.filter (·.clientFd = fd) = [] := by
    simpa [List.filter_eq_nil_iff, Drained] using hd
  rw [← s.recvQ.law, List.filter_append, hwaiting, List.append_nil, obtained, requests_eq h,
    List.filter_map, List.map_map]
  rfl

theorem length_obtained (h : (system cap).Reachable s) {fd : Fd} (hd : s.Drained fd) :
    (s.obtained fd).length = (s.segments fd).length := by
  simp [obtained_eq h hd, segments]

/-- A read of exactly one command is understood, whatever the block held. -/
theorem pairOf_encode {m : SgTcpMessage} {c : Command} (h : m.data.take m.len = c.encode) :
    pairOf m = some c.pair := by
  have hdata : m.data = c.encode ++ m.data.drop m.len := by rw [← h, List.take_append_drop]
  have htask := onMessageTask_encode m.clientFd c (m.data.drop m.len) m.len
  rw [← hdata] at htask
  simp [pairOf, htask]

theorem map_pairOf_encode {ms : List SgTcpMessage} {cmds : List Command}
    (h : ms.map (fun m => m.data.take m.len) = cmds.map Command.encode) :
    ms.map pairOf = cmds.map (some ∘ Command.pair) := by
  induction cmds generalizing ms with
  | nil => simpa using h
  | cons c cmds ih =>
      cases ms with
      | nil => simp at h
      | cons m ms =>
          simp only [List.map_cons, List.cons.injEq] at h ⊢
          exact ⟨pairOf_encode h.1, ih h.2⟩

/-- The block of a read whose rest is zero. -/
def zeroBlock (fd : Fd) (seg : List UInt8) : SgTcpMessage :=
  block fd seg (List.replicate (maxMessage - seg.length) 0)

@[simp] theorem take_zeroBlock (fd : Fd) (seg : List UInt8) :
    (zeroBlock fd seg).data.take (zeroBlock fd seg).len = seg :=
  List.take_left

@[simp] theorem clientFd_zeroBlock (fd : Fd) (seg : List UInt8) :
    (zeroBlock fd seg).clientFd = fd := rfl

/-- Every segmentation of a stream has a run that drains it. -/
theorem exists_run (hcap : 0 < cap) (fd : Fd) (segs : List (List UInt8))
    (hsegs : ∀ seg ∈ segs, seg ≠ [] ∧ seg.length ≤ maxMessage) :
    ∃ s : Pipeline cap, (system cap).Reachable s ∧ s.recvQ.items = [] ∧
      s.recvQ.pushed = segs.map (zeroBlock fd) := by
  induction segs using List.reverseRecOn with
  | nil => exact ⟨_, .of_init rfl, rfl, rfl⟩
  | append_singleton segs seg ih =>
      obtain ⟨s, hs, hitems, hpushed⟩ := ih fun t ht => hsegs t (by simp [ht])
      obtain ⟨hne, hlen⟩ := hsegs seg (by simp)
      have room : s.recvQ.items.length < cap := by simpa [hitems] using hcap
      let t : Pipeline cap := { s with recvQ := s.recvQ.push (zeroBlock fd seg) room }
      have ht : (system cap).next s
          (.read fd seg (List.replicate (maxMessage - seg.length) 0)) = some t := by
        simp [system, next, room, hne, t, zeroBlock, Nat.add_sub_cancel' hlen]
      have nonempty : t.recvQ.items ≠ [] := by simp [t, Queue.Fifo.push]
      refine ⟨_, (hs.next trivial ht).next (a := .handle) trivial (dif_pos nonempty), ?_, ?_⟩
      · simp [Queue.Fifo.pop, Queue.Fifo.push, t, hitems]
      · simp [Queue.Fifo.pop, Queue.Fifo.push, t, hpushed]

/-- A read into a cleared block that is understood starts with a brace. -/
theorem head_of_pairOf {fd : Fd} {seg : List UInt8} (hne : seg ≠ []) {c : Command}
    (h : pairOf (zeroBlock fd seg) = some c.pair) : seg.head? = some 123 := by
  obtain ⟨⟨t, req⟩, htask, hpair⟩ := Option.map_eq_some_iff.mp h
  have ht : t ≠ .unknown := by
    have htype : t = c.pair.1 := (Prod.mk.inj hpair).1
    cases c <;> simp [htype, Command.pair]
  obtain ⟨b, rest, rfl⟩ := List.exists_cons_of_ne_nil hne
  simpa [zeroBlock, block] using parseClientRequest_head htask ht

/-- The only brace that opens in a command is its first byte. -/
theorem marked_encode (c : Command) : Stream.Marked 123 c.encode := by
  cases c with
  | query => exact ⟨_, rfl, by decide⟩
  | clear => exact ⟨_, rfl, by decide⟩
  | ack n =>
      refine ⟨ascii ['B', 'I', 'N', '='] ++ n.digits ++ cmdEnd, rfl, ?_⟩
      simp only [List.mem_append, not_or]
      exact ⟨⟨by decide, fun h => absurd (n.isdigit 123 h) (by decide)⟩, by decide⟩

/-- For every stream of complete commands and every cut of it into reads,
`on_message` obtains one pair for each read, and it obtains the commands of the
stream in every run exactly when every read returns one complete command. -/
theorem requests_framed_iff (hcap : 0 < cap) (fd : Fd) (cmds : List Command)
    (segs : List (List UInt8)) (hsegs : ∀ seg ∈ segs, seg ≠ [] ∧ seg.length ≤ maxMessage)
    (hstream : segs.flatten = (cmds.map Command.encode).flatten) :
    (∀ s, (system cap).Reachable s → s.Drained fd →
      (s.obtained fd).length = (s.segments fd).length) ∧
    ((∀ s, (system cap).Reachable s → s.Drained fd → s.segments fd = segs →
      s.obtained fd = cmds.map (some ∘ Command.pair)) ↔ segs = cmds.map Command.encode) := by
  refine ⟨fun s hs hd => length_obtained hs hd, ?_, ?_⟩
  · intro hall
    obtain ⟨s, hs, hitems, hpushed⟩ := exists_run hcap fd segs hsegs
    have hfilter : s.recvQ.pushed.filter (·.clientFd = fd) = segs.map (zeroBlock fd) := by
      rw [hpushed, List.filter_eq_self]
      intro m hm
      obtain ⟨seg, -, rfl⟩ := List.mem_map.mp hm
      simp
    have hd : s.Drained fd := by simp [Drained, hitems]
    have hcut : s.segments fd = segs := by
      rw [segments, hfilter, List.map_map, List.map_congr_left (g := id), List.map_id]
      intro seg _
      simp
    have hpairs : segs.map (fun seg => pairOf (zeroBlock fd seg)) =
        cmds.map (some ∘ Command.pair) := by
      have hobt := hall s hs hd hcut
      rwa [obtained_eq hs hd, hfilter, List.map_map] at hobt
    have hlen : segs.length = (cmds.map Command.encode).length := by
      simpa using congrArg List.length hpairs
    refine Stream.segments_unique (m := 123) ?_ ?_ hstream hlen
    · intro seg hseg
      have hmem : pairOf (zeroBlock fd seg) ∈ cmds.map (some ∘ Command.pair) :=
        hpairs ▸ List.mem_map.mpr ⟨seg, hseg, rfl⟩
      obtain ⟨c, -, hc⟩ := List.mem_map.mp hmem
      exact head_of_pairOf (hsegs seg hseg).1 hc.symm
    · intro b hb
      obtain ⟨c, -, rfl⟩ := List.mem_map.mp hb
      exact marked_encode c
  · rintro rfl s hs hd hcut
    rw [obtained_eq hs hd]
    exact map_pairOf_encode hcut

/-- A read per command: both are obtained. -/
theorem requests_framed_iff_one_each :
    ∃ s : Pipeline 1, (system 1).Reachable s ∧ s.segments 5 = [cmdQues, cmdClr] ∧
      s.obtained 5 = [some (.binQuery, 0), some (.clrQuery, 0)] := by
  have hreads : ∀ seg ∈ [cmdQues, cmdClr], seg ≠ [] ∧ seg.length ≤ maxMessage := by decide
  obtain ⟨s, hs, hitems, hpushed⟩ := exists_run (by decide : 0 < 1) 5 [cmdQues, cmdClr] hreads
  have hd : s.Drained 5 := by simp [Drained, hitems]
  have hcut : s.segments 5 = [cmdQues, cmdClr] := by simp [segments, hpushed]
  exact ⟨s, hs, hcut, (requests_framed_iff (by decide : 0 < 1) 5 [.query, .clear]
    [cmdQues, cmdClr] hreads rfl).2.mpr rfl s hs hd hcut⟩

/-- One read of two commands: the second is lost. -/
theorem coalesced_command_lost :
    ∃ s : Pipeline 1, (system 1).Reachable s ∧ s.Drained 5 ∧
      (s.segments 5).flatten = ([Command.query, .clear].map Command.encode).flatten ∧
      s.obtained 5 ≠ [Command.query, .clear].map (some ∘ Command.pair) := by
  obtain ⟨s, hs, hitems, hpushed⟩ := exists_run (by decide : 0 < 1) 5
    [cmdQues ++ cmdClr] (by decide)
  have hd : s.Drained 5 := by simp [Drained, hitems]
  have hcut : s.segments 5 = [cmdQues ++ cmdClr] := by
    simp [segments, hpushed]
  refine ⟨s, hs, hd, by rw [hcut]; rfl, fun hobt => ?_⟩
  have hlen := length_obtained hs hd
  rw [hobt, hcut] at hlen
  contradiction

end Pipeline

end SgMuni
