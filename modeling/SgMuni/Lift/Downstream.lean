import SgMuni.Gpio.Reverse
import SgMuni.Json.RoundTrip
import SgMuni.Lift.Message
import SgMuni.Stream.PrefixCode

/-!
# What the clients are sent

The three kinds of messages that the handlers hand to the server. They follow one another
in the stream of a client without any separator.
-/

namespace SgMuni

open C

/-- A value of type `int`. -/
def CInt : Type := { n : Int // intMin ≤ n ∧ n ≤ intMax }

/-- A string of C. -/
def CString : Type := { s : List UInt8 // 0 ∉ s }

/-- The messages to a client, with the numbers and the serial number in them. -/
inductive ServerMessage
  | bin (bincount : CInt)
  | reverse (active : Bool)
  | binlift (binCount : CInt) (esn : CString)

/-- The text of a message. -/
def ServerMessage.text : ServerMessage → List UInt8
  | .bin bincount => binText bincount.val
  | .reverse active => reverseText active
  | .binlift binCount esn => assembleBinliftMessage binCount.val esn.val

/-- The callback of the monitor sends no other REVERSE texts. -/
theorem assembleReverseMessage_eq (bias : Input → GpioBias) (state : Bool) :
    assembleReverseMessage bias state =
      (ServerMessage.reverse (state && (bias reversePortNum).enable != 0)).text := rfl

/-- The tree of a BINLIFT message. -/
def binliftTree (binCount : Int) (esn : List UInt8) : CJson :=
  .object [
    (ascii ['r', 'e', 'f', 'i', 'd'], .ofInt binCount),
    (ascii ['i', 'd'], .string (ascii ['s', 'a', 'r', 'g', 'a', 's', '-'] ++ esn)),
    (ascii ['m', 'e', 's', 's', 'a', 'g', 'e', 't', 'y', 'p', 'e'],
      .string (ascii ['B', 'I', 'N', 'L', 'I', 'F', 'T'])),
    (ascii ['l', 'i', 'f', 't'], .object [
      (ascii ['l', 'i', 'f', 't', 'i', 'd'], .ofInt binCount),
      (ascii ['t', 'a', 'g', 's'], .array [])])]

theorem assembleBinliftMessage_eq (binCount : Int) (esn : List UInt8) :
    assembleBinliftMessage binCount esn = (binliftTree binCount esn).print := rfl

theorem binliftTree_inj {m n : CInt} {esn esn' : List UInt8}
    (h : binliftTree m.val esn = binliftTree n.val esn') : m.val = n.val ∧ esn = esn' := by
  simp only [binliftTree, CJson.ofInt_eq m.2.1 m.2.2, CJson.ofInt_eq n.2.1 n.2.2,
    CJson.object.injEq, List.cons.injEq, Prod.mk.injEq, CJson.number.injEq,
    CJson.string.injEq, List.append_cancel_left_eq] at h
  exact ⟨h.1.2.1, h.2.1.2⟩

/-- No text derives two values, or one value with two ends. -/
theorem derives_unique {s t t' : List UInt8} {item item' : CJson}
    (h : CJson.Derives CJson.nestingLimit s (.value item) t)
    (h' : CJson.Derives CJson.nestingLimit s (.value item') t') : item = item' ∧ t = t' := by
  obtain ⟨o, -, hparse, ht⟩ := CJson.complete s h (3 * s.length + 3) 0 0 rfl List.drop_zero
    (Nat.zero_le _) le_rfl
  obtain ⟨o', -, hparse', ht'⟩ := CJson.complete s h' (3 * s.length + 3) 0 0 rfl List.drop_zero
    (Nat.zero_le _) le_rfl
  rw [hparse] at hparse'
  cases hparse'
  exact ⟨rfl, ht.symm.trans ht'⟩

/-- Behind a BINLIFT message any text may follow. -/
theorem derives_binlift (binCount : CInt) (esn : CString) (s : List UInt8) :
    CJson.Derives CJson.nestingLimit (assembleBinliftMessage binCount.val esn.val ++ s)
      (.value (binliftTree binCount.val esn.val)) s := by
  have hnumber := CJson.recoverable_ofInt binCount.2.1 binCount.2.2
  have hid : 0 ∉ ascii ['s', 'a', 'r', 'g', 'a', 's', '-'] ++ esn.val := by
    rw [List.mem_append, not_or]
    exact ⟨by decide, esn.2⟩
  have hitem : CJson.Recoverable (binliftTree binCount.val esn.val) :=
    ⟨by decide, hnumber, by decide, hid, by decide, (by decide : (0 : UInt8) ∉ _), by decide,
      ⟨by decide, hnumber, by decide, trivial, trivial⟩, trivial⟩
  have hdepth : CJson.depth (binliftTree binCount.val esn.val) ≤ CJson.nestingLimit :=
    Nat.le_of_ble_eq_true rfl
  have hvalue := CJson.derives_print _ hdepth hitem.ints (t := s) fun _ _ h => nomatch h
  rwa [(CJson.readBack_eq_iff _).mpr hitem, ← assembleBinliftMessage_eq] at hvalue

/-- The first two bytes tell the kind of a message. -/
theorem ServerMessage.exists_text (m : ServerMessage) : ∃ s, m.text =
    match m with
    | .bin _ => 123 :: 66 :: s
    | .reverse _ => 123 :: 82 :: s
    | .binlift _ _ => 123 :: 34 :: s := by
  cases m with
  | bin bincount => exact ⟨_, rfl⟩
  | reverse active => exact ⟨_, rfl⟩
  | binlift binCount esn => exact ⟨_, rfl⟩

theorem ServerMessage.unique {m m' : ServerMessage} {s s' : List UInt8}
    (h : m.text ++ s = m'.text ++ s') : m = m' := by
  obtain ⟨u, hu⟩ := m.exists_text
  obtain ⟨u', hu'⟩ := m'.exists_text
  have hkind := congrArg (List.take 2) h
  rw [hu, hu'] at hkind
  cases m with
  | bin bincount =>
      cases m' with
      | bin bincount' =>
          have hnumber : bincount.val = bincount'.val := by
            simp only [ServerMessage.text, binText, List.append_assoc] at h
            exact formatInt_append_inj (by decide) (by decide) (List.append_cancel_left h)
          rw [Subtype.ext hnumber]
      | reverse active => simp at hkind
      | binlift binCount esn => simp at hkind
  | reverse active =>
      cases m' with
      | bin bincount => simp at hkind
      | reverse active' =>
          have hlevel : (if active then 1 else 0 : Int) = if active' then 1 else 0 := by
            simp only [ServerMessage.text, reverseText, List.append_assoc] at h
            exact formatInt_append_inj (by decide) (by decide) (List.append_cancel_left h)
          cases active <;> cases active' <;> simp_all
      | binlift binCount esn => simp at hkind
  | binlift binCount esn =>
      cases m' with
      | bin bincount => simp at hkind
      | reverse active => simp at hkind
      | binlift binCount' esn' =>
          have hder := derives_binlift binCount esn s
          simp only [ServerMessage.text] at h
          rw [h] at hder
          have htree := (derives_unique hder (derives_binlift binCount' esn' s')).1
          obtain ⟨hnumber, hesn⟩ := binliftTree_inj htree
          rw [Subtype.ext hnumber, Subtype.ext hesn]

theorem prefixCode_text : Stream.PrefixCode ServerMessage.text where
  ne_nil m hm := by
    obtain ⟨s, hs⟩ := m.exists_text
    cases m <;> simp [hm] at hs
  unique _ _ _ _ := ServerMessage.unique

/-- What a client has been sent up to some point is the start of what it has been sent later,
exactly when the messages are, and no two sequences of messages look the same on the wire. -/
theorem downstream_prefix_iff (messages messages' : List ServerMessage) :
    messages.flatMap ServerMessage.text <+: messages'.flatMap ServerMessage.text ↔
      messages <+: messages' :=
  prefixCode_text.flatMap_prefix_iff

end SgMuni
