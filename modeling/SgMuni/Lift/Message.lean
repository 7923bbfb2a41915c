import SgMuni.Json.Print
import SgMuni.Request.Parser

/-!
# The messages that announce a count

The BINLIFT message of `assemble_binlift_message` and the `{BIN=%d;}` of the
query and clear handlers. Each text determines the number in it.
-/

namespace SgMuni

def assembleBinliftMessage (binCount : Int) (esn : List UInt8) : List UInt8 :=
  let lift := CJson.object [
    (ascii ['l', 'i', 'f', 't', 'i', 'd'], .ofInt binCount),
    (ascii ['t', 'a', 'g', 's'], .array [])]
  let root := CJson.object [
    (ascii ['r', 'e', 'f', 'i', 'd'], .ofInt binCount),
    (ascii ['i', 'd'], .string (ascii ['s', 'a', 'r', 'g', 'a', 's', '-'] ++ esn)),
    (ascii ['m', 'e', 's', 's', 'a', 'g', 'e', 't', 'y', 'p', 'e'],
      .string (ascii ['B', 'I', 'N', 'L', 'I', 'F', 'T'])),
    (ascii ['l', 'i', 'f', 't'], lift)]
  root.print

/-- The text `{BIN=%d;}`. -/
def binText (bincount : Int) : List UInt8 := cmdEql ++ C.formatInt bincount ++ cmdEnd

/-- A text that begins with a printed number and goes on with another character
determines the number. -/
theorem formatInt_append_inj {m n : Int} {c : UInt8} (hdigit : C.isdigit c = false)
    (hminus : c ≠ 45) {s t : List UInt8} (h : C.formatInt m ++ c :: s = C.formatInt n ++ c :: t) :
    m = n := by
  have hc : ∀ k : Int, ∀ b ∈ C.formatInt k, (b != c) = true := by
    intro k b hb
    rw [bne_iff_ne]
    rintro rfl
    rcases C.isdigit_or_minus_of_mem_formatInt hb with hd | hd
    · simp [hdigit] at hd
    · exact hminus hd
  have htake : ∀ (k : Int) (r : List UInt8),
      (C.formatInt k ++ c :: r).takeWhile (· != c) = C.formatInt k := by
    intro k r
    rw [List.takeWhile_append_of_pos (hc k)]
    simp
  exact C.formatInt_injective ((htake m s).symm.trans ((congrArg _ h).trans (htake n t)))

/-- The number of a message is an `int`. -/
theorem assembleBinliftMessage_inj {m n : Int} {esn : List UInt8} (hm : C.wrap m = m)
    (hn : C.wrap n = n) (h : assembleBinliftMessage m esn = assembleBinliftMessage n esn) :
    m = n := by
  -- The first field is the number, and a comma follows it.
  have hhead : ∀ k : Int, C.wrap k = k → ∃ s, assembleBinliftMessage k esn =
      (123 :: CJson.printString (ascii ['r', 'e', 'f', 'i', 'd']) ++ [58]) ++
        (C.formatInt k ++ 44 :: s) := by
    intro k hk
    obtain ⟨hlo, hhi⟩ := C.wrap_range k
    exact ⟨_, CJson.print_object_number _ (hk ▸ hlo) (hk ▸ hhi) _ _⟩
  obtain ⟨s, hs⟩ := hhead m hm
  obtain ⟨t, ht⟩ := hhead n hn
  rw [hs, ht] at h
  exact formatInt_append_inj (by decide) (by decide) (List.append_cancel_left h)

end SgMuni
