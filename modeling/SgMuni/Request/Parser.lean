import SgMuni.C.Text

/-!
# Client requests

The commands of `sg-comm.h` and `parse_client_request`. The parser is given a
pointer into a block of memory and stops at whatever bytes are there; `none`
means that it reads behind the block.
-/

namespace SgMuni

/-- A file descriptor. -/
abbrev Fd := Int

/-- A message read from a client: the block it was read into and the number of
bytes read. -/
structure SgTcpMessage where
  clientFd : Fd
  data : List UInt8
  len : Nat
deriving DecidableEq

/-- The size of the block that `io_loop` allocates for one read. -/
def maxMessage : Nat := 4096

inductive MsgType
  | unknown
  | binQuery
  | clrQuery
  | binAck
deriving DecidableEq

structure ClientRequest where
  clientFd : Fd
  bincount : Int
deriving DecidableEq

/-- The ASCII bytes of a text. -/
def ascii (text : List Char) : List UInt8 := text.map fun c => UInt8.ofNat c.toNat

def cmdQues : List UInt8 := ascii ['{', 'B', 'I', 'N', '?', ';', '}']

def cmdClr : List UInt8 := ascii ['{', 'C', 'L', 'R', '?', ';', '}']

def cmdEql : List UInt8 := ascii ['{', 'B', 'I', 'N', '=']

/-- The bytes that end an acknowledgement. -/
def cmdEnd : List UInt8 := ascii [';', '}']

/-- `strncmp(msg, cmd, n) == 0` for a string literal. -/
def startsWith (msg cmd : List UInt8) (n : Nat) : Option Bool :=
  (C.strncmp msg (cmd ++ [0]) n).map (· == 0)

/-- The `CMD_EQL` branch of `parse_client_request`, at `p = msg + 5`. -/
def parseAck (req : ClientRequest) (p : List UInt8) : Option (MsgType × ClientRequest) :=
  match p with
  | [] => none
  | c :: _ =>
      if C.isdigit c then
        match C.scanDigits 0 p with
        | some (value, e :: f :: _) =>
            if [e, f] = cmdEnd then some (.binAck, { req with bincount := value })
            else some (.unknown, req)
        | some (_, [e]) => if [e] = ascii [';'] then none else some (.unknown, req)
        | _ => none
      else some (.unknown, req)

def parseClientRequest (req : ClientRequest) (msg : List UInt8) :
    Option (MsgType × ClientRequest) :=
  match startsWith msg cmdQues 7 with
  | none => none
  | some true => some (.binQuery, req)
  | some false =>
      match startsWith msg cmdClr 7 with
      | none => none
      | some true => some (.clrQuery, req)
      | some false =>
          match startsWith msg cmdEql 5 with
          | none => none
          | some true => parseAck req (msg.drop 5)
          | some false => some (.unknown, req)

/-- The first lines of `on_message`: a cleared task for the client, filled in
by the parser. -/
def onMessageTask (msg : SgTcpMessage) : Option (MsgType × ClientRequest) :=
  parseClientRequest { clientFd := msg.clientFd, bincount := 0 } msg.data

/-- A digit run whose number is an `int`. -/
structure DigitRun where
  digits : List UInt8
  ne_nil : digits ≠ []
  isdigit : ∀ c ∈ digits, C.isdigit c = true
  le_intMax : (C.value digits : Int) ≤ C.intMax

/-- The complete commands of the protocol. -/
inductive Command
  | query
  | clear
  | ack (n : DigitRun)

namespace Command

/-- The bytes that a client sends. -/
def encode : Command → List UInt8
  | .query => cmdQues
  | .clear => cmdClr
  | .ack n => cmdEql ++ n.digits ++ cmdEnd

/-- The request type and the `bincount` that a command stands for. -/
def pair : Command → MsgType × Int
  | .query => (.binQuery, 0)
  | .clear => (.clrQuery, 0)
  | .ack n => (.binAck, C.value n.digits)

end Command

theorem startsWith_eq_true_iff {cmd : List UInt8} (hz : 0 ∉ cmd) (msg : List UInt8) :
    startsWith msg cmd cmd.length = some true ↔ cmd <+: msg := by
  rw [← C.strncmp_eq_zero_iff hz msg [0]]
  simp [startsWith]

theorem startsWith_append {cmd : List UInt8} (hz : 0 ∉ cmd) (rest : List UInt8) :
    startsWith (cmd ++ rest) cmd cmd.length = some true :=
  (startsWith_eq_true_iff hz _).mpr (List.prefix_append _ _)

/-- A comparison that fails at the byte behind a common prefix. -/
theorem startsWith_of_ne (text : List UInt8) (hz : 0 ∉ text) {a b : UInt8} (hab : a ≠ b)
    {n : Nat} (hn : text.length < n) (s t : List UInt8) :
    startsWith (text ++ a :: s) (text ++ b :: t) n = some false := by
  have hne : (a.toNat : Int) - b.toNat ≠ 0 := by
    intro h
    exact hab (UInt8.toNat_inj.mp (by omega))
  have hcmp := C.strncmp_of_ne hz hab hn s (t ++ [0])
  simp only [startsWith, List.append_assoc, List.cons_append, hcmp, Option.map_some,
    Option.some.injEq]
  simpa using hne

/-- The acknowledgement branch reads a complete acknowledgement. -/
theorem parseAck_append (req : ClientRequest) (n : DigitRun) (rest : List UInt8) :
    parseAck req (n.digits ++ cmdEnd ++ rest) =
      some (.binAck, { req with bincount := C.value n.digits }) := by
  obtain ⟨c, ds, hcons⟩ := List.exists_cons_of_ne_nil n.ne_nil
  have hc : C.isdigit c = true := n.isdigit c (by simp [hcons])
  have hscan : C.scanDigits 0 (n.digits ++ cmdEnd ++ rest) =
      some ((C.value n.digits : Int), cmdEnd ++ rest) := by
    rw [List.append_assoc]
    exact C.scanDigits_append n.isdigit (c := 59) (by decide) (v := 0) n.le_intMax (125 :: rest)
  have hp : n.digits ++ cmdEnd ++ rest = c :: (ds ++ cmdEnd ++ rest) := by simp [hcons]
  rw [parseAck.eq_def]
  split
  · next h => simp [hp] at h
  · next e q h =>
      obtain ⟨rfl, -⟩ := List.cons.inj (h.symm.trans hp)
      rw [if_pos hc, hscan]
      simp [cmdEnd, ascii]

/-- A message that begins as an acknowledgement is neither of the other commands. -/
theorem parseClientRequest_cmdEql (req : ClientRequest) (p : List UInt8) :
    parseClientRequest req (cmdEql ++ p) = parseAck req p := by
  have hques : startsWith (cmdEql ++ p) cmdQues 7 = some false :=
    startsWith_of_ne (ascii ['{', 'B', 'I', 'N'])
      (by decide) (by decide) (by decide) _ (ascii [';', '}'])
  have hclr : startsWith (cmdEql ++ p) cmdClr 7 = some false :=
    startsWith_of_ne (ascii ['{'])
      (by decide) (by decide) (by decide) _ (ascii ['L', 'R', '?', ';', '}'])
  have h : startsWith (cmdEql ++ p) cmdEql 5 = some true :=
    startsWith_append (by decide) _
  simp only [parseClientRequest, hques, hclr, h]
  rfl

/-- A complete command is recognised whatever follows it. -/
theorem parseClientRequest_encode (req : ClientRequest) (c : Command) (rest : List UInt8) :
    parseClientRequest req (c.encode ++ rest) =
      some (c.pair.1, match c with
        | .ack n => { req with bincount := C.value n.digits }
        | _ => req) := by
  cases c with
  | query =>
      have h : startsWith (cmdQues ++ rest) cmdQues 7 = some true :=
        startsWith_append (by decide) rest
      simp [parseClientRequest, Command.encode, Command.pair, h]
  | clear =>
      have hques : startsWith (cmdClr ++ rest) cmdQues 7 = some false :=
        startsWith_of_ne (ascii ['{'])
          (by decide) (by decide) (by decide) _ (ascii ['I', 'N', '?', ';', '}'])
      have h : startsWith (cmdClr ++ rest) cmdClr 7 = some true :=
        startsWith_append (by decide) rest
      simp [parseClientRequest, Command.encode, Command.pair, hques, h]
  | ack n =>
      have hassoc : cmdEql ++ n.digits ++ cmdEnd ++ rest =
          cmdEql ++ (n.digits ++ cmdEnd ++ rest) := by simp [List.append_assoc]
      rw [Command.encode, hassoc, parseClientRequest_cmdEql]
      exact parseAck_append req n rest

/-- Only a message that starts with an opening brace is recognised. -/
theorem parseClientRequest_head {req req' : ClientRequest} {t : MsgType} {msg : List UInt8}
    (h : parseClientRequest req msg = some (t, req')) (ht : t ≠ .unknown) :
    msg.head? = some 123 := by
  have hprefix (cmd : List UInt8) (hz : 0 ∉ cmd) (hc : cmd.head? = some 123)
      (hs : startsWith msg cmd cmd.length = some true) : msg.head? = some 123 := by
    obtain ⟨rest, rfl⟩ := (startsWith_eq_true_iff hz msg).mp hs
    rw [List.head?_append, hc]
    rfl
  unfold parseClientRequest at h
  split at h
  · contradiction
  · next hs => exact hprefix cmdQues (by decide) rfl hs
  · split at h
    · contradiction
    · next hs => exact hprefix cmdClr (by decide) rfl hs
    · split at h
      · contradiction
      · next hs => exact hprefix cmdEql (by decide) rfl hs
      · exact absurd (Prod.mk.inj (Option.some.inj h)).1.symm ht

/-- What `on_message` obtains from a message that starts with a complete command. -/
theorem onMessageTask_encode (fd : Fd) (c : Command) (rest : List UInt8) (len : Nat) :
    onMessageTask { clientFd := fd, data := c.encode ++ rest, len := len } =
      some (c.pair.1, { clientFd := fd, bincount := c.pair.2 }) := by
  rw [onMessageTask, parseClientRequest_encode]
  cases c <;> rfl

end SgMuni
