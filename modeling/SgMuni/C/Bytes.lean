import SgMuni.C.Text

/-!
# The bytes of an `int`

An object of type `int` has four bytes, the lowest first, in two's complement.
What a file or a partial read leaves in them is an `int` again.
-/

namespace C

/-- The lowest `k` bytes of a number, the lowest first. -/
def leBytes : Nat → Nat → List UInt8
  | 0, _ => []
  | k + 1, n => UInt8.ofNat n :: leBytes k (n / 256)

/-- The number with the given bytes, the lowest first. -/
def leValue (bytes : List UInt8) : Nat := Nat.ofDigits 256 (bytes.map UInt8.toNat)

/-- `sizeof(int)` -/
def intSize : Nat := 4

/-- The bytes of an `int`. -/
def intBytes (x : Int) : List UInt8 := leBytes intSize (x % 4294967296).toNat

/-- The `int` with the given bytes. -/
def ofIntBytes (bytes : List UInt8) : Int := wrap (leValue bytes)

@[simp] theorem length_leBytes (k n : Nat) : (leBytes k n).length = k := by
  induction k generalizing n with
  | zero => rfl
  | succ k ih => simp [leBytes, ih]

@[simp] theorem length_intBytes (x : Int) : (intBytes x).length = intSize := length_leBytes _ _

@[simp] theorem leValue_cons (b : UInt8) (bytes : List UInt8) :
    leValue (b :: bytes) = b.toNat + 256 * leValue bytes := by
  simp [leValue, Nat.ofDigits_cons]

theorem leValue_leBytes (k n : Nat) : leValue (leBytes k n) = n % 256 ^ k := by
  induction k generalizing n with
  | zero => simp [leBytes, leValue, Nat.mod_one]
  | succ k ih =>
      calc
        leValue (leBytes (k + 1) n) = n % 256 + 256 * (n / 256 % 256 ^ k) := by
          rw [leBytes, leValue_cons, ih, UInt8.toNat_ofNat']
        _ = n % (256 * 256 ^ k) := (Nat.mod_mul).symm
        _ = n % 256 ^ (k + 1) := by rw [Nat.pow_succ']

theorem leValue_lt (bytes : List UInt8) : leValue bytes < 256 ^ bytes.length := by
  have hlt : ∀ d ∈ bytes.map UInt8.toNat, d < 256 := by
    intro d hd
    obtain ⟨b, -, rfl⟩ := List.mem_map.mp hd
    exact b.toNat_lt
  have h := Nat.ofDigits_lt_base_pow_length (by decide) hlt
  rwa [List.length_map] at h

/-- Numbers of the same number of bytes have the same bytes. -/
theorem leValue_inj {a b : List UInt8} (hlen : a.length = b.length) (h : leValue a = leValue b) :
    a = b := by
  induction a generalizing b with
  | nil => exact (List.length_eq_zero_iff.mp hlen.symm).symm
  | cons x a ih =>
      cases b with
      | nil => cases hlen
      | cons y b =>
          rw [leValue_cons, leValue_cons] at h
          have hx := x.toNat_lt
          have hy := y.toNat_lt
          have hhead : x = y := UInt8.toNat_inj.mp (by omega)
          have htail : a = b := ih (Nat.succ.inj hlen) (by omega)
          rw [hhead, htail]

/-- Reading back the bytes of an integer reduces it to an `int`. -/
theorem ofIntBytes_intBytes (x : Int) : ofIntBytes (intBytes x) = wrap x := by
  have hlt : (x % 4294967296).toNat < 256 ^ intSize := by
    have := Int.emod_lt_of_pos x (b := 4294967296) (by decide)
    simp only [intSize]
    omega
  rw [ofIntBytes, intBytes, leValue_leBytes, Nat.mod_eq_of_lt hlt,
    Int.toNat_of_nonneg (Int.emod_nonneg x (by decide))]
  exact Int.emod_bmod x 4294967296

/-- An `int` determines its bytes. -/
theorem ofIntBytes_inj {a b : List UInt8} (ha : a.length = intSize) (hb : b.length = intSize) :
    ofIntBytes a = ofIntBytes b ↔ a = b := by
  constructor
  · intro h
    have hrange {c : List UInt8} (hc : c.length = intSize) : leValue c < 4294967296 := by
      have := leValue_lt c
      rwa [hc] at this
    have hmod : (leValue a : Int) % (4294967296 : Nat) = (leValue b : Int) % (4294967296 : Nat) :=
      calc
        (leValue a : Int) % (4294967296 : Nat) =
            Int.bmod (leValue a) 4294967296 % (4294967296 : Nat) := Int.bmod_emod.symm
        _ = Int.bmod (leValue b) 4294967296 % (4294967296 : Nat) :=
          congrArg (· % ((4294967296 : Nat) : Int)) h
        _ = (leValue b : Int) % (4294967296 : Nat) := Int.bmod_emod
    have hra := hrange ha
    have hrb := hrange hb
    apply leValue_inj (ha.trans hb.symm)
    omega
  · rintro rfl
    rfl

theorem intBytes_zero : intBytes 0 = List.replicate intSize 0 := rfl

theorem ofIntBytes_eq_zero_iff {a : List UInt8} (ha : a.length = intSize) :
    ofIntBytes a = 0 ↔ a = intBytes 0 := by
  rw [← ofIntBytes_inj ha (length_intBytes 0), ofIntBytes_intBytes]
  rfl

end C
