import RealmHnsw.Heap
/-!
# IEEE-754 comparisons on bit patterns

The searches use only `<` and `<=` on distances. IEEE-754 `<` is false when either side is NaN;
otherwise it compares sign and then the 63 low bits of the pattern read as an unsigned number, and
`-0.0` and `+0.0` compare equal (`Double.ieeeLt`). On the doubles that are not NaN it is a strict
weak order (`ieeeLt_strictWeak`), which is all the heaps of the searches need to keep their order
(`RealmHnsw.Heap`); there `<=` is the negation of `>` (`ieeeLe_of_not_lt`). A NaN is neither below
nor above anything, so `<` is no strict weak order once a NaN distance is met.

`Fpu.integral` is a floating-point unit that is exact on doubles holding integers. `+`, `-`, `*`,
`/` and `sqrt` give the IEEE-754 result, signed zeros included, whenever the exact result is an
integer below `2^53` in magnitude: the format holds that integer, so nothing is rounded. Otherwise
they give NaN. Negation and the comparisons are IEEE-754 on every input. The concrete runs of the
searches in this development compute their distances on it, exactly.
-/

namespace RealmHnsw

namespace Double

/-- The sign bit. -/
def sign (d : Double) : Bool := decide (2 ^ 63 ≤ d.bits.toNat)

/-- The 63 low bits: the biased exponent, then the fraction. -/
def magnitude (d : Double) : Nat := d.bits.toNat % 2 ^ 63

/-- An exponent of all ones with a non-zero fraction. -/
def isNaN (d : Double) : Bool := decide (0x7FF0000000000000 < d.magnitude)

/-- Where a double that is not NaN sits in the IEEE-754 order; both zeros sit at `0`. -/
def key (d : Double) : Int := if d.sign then -(d.magnitude : Int) else d.magnitude

/-- IEEE-754 `<`. -/
def ieeeLt (a b : Double) : Bool := !a.isNaN && !b.isNaN && decide (a.key < b.key)

/-- IEEE-754 `==`. -/
def ieeeEq (a b : Double) : Bool := !a.isNaN && !b.isNaN && decide (a.key = b.key)

/-- `-x`: the sign bit flipped, on every double. -/
def negate (d : Double) : Double := ⟨d.bits ^^^ 0x8000000000000000⟩

/-- A quiet NaN. -/
def nan : Double := ⟨0x7FF8000000000000⟩

/-- The position of the top bit of `n`, for `n < 2 ^ fuel`. -/
def topBit : Nat → Nat → Nat
  | 0, _ => 0
  | fuel + 1, n => if n < 2 then 0 else topBit fuel (n / 2) + 1

/-- The sign and magnitude of the integer a double holds, when it holds one below `2^53` in
magnitude. -/
def integral (d : Double) : Option (Bool × Nat) :=
  let e := d.magnitude / 2 ^ 52
  let sig := 2 ^ 52 + d.magnitude % 2 ^ 52
  if d.magnitude = 0 then some (d.sign, 0)
  else if 1023 ≤ e ∧ e ≤ 1075 ∧ sig % 2 ^ (1075 - e) = 0 then some (d.sign, sig / 2 ^ (1075 - e))
  else none

/-- The double holding `±n`, for `n < 2^53`. -/
def ofIntegral (s : Bool) (n : Nat) : Double :=
  let signBit := if s then 2 ^ 63 else 0
  if n = 0 then ⟨UInt64.ofNat signBit⟩
  else
    let p := topBit 64 n
    ⟨UInt64.ofNat (signBit + (1023 + p) * 2 ^ 52 + (n * 2 ^ (52 - p) - 2 ^ 52))⟩

end Double

/-- The unit compares as IEEE-754 does. -/
structure Fpu.IeeeCompare (fpu : Fpu) : Prop where
  lt : fpu.lt = Double.ieeeLt
  eq : fpu.eq = Double.ieeeEq

/-- IEEE-754 `<` is a strict weak order on the doubles that are not NaN: there it compares `key`s. -/
theorem ieeeLt_strictWeak : Heap.StrictWeak Double.ieeeLt fun d => d.isNaN = false where
  asymm ha hb h := by
    simp only [Double.ieeeLt, ha, hb, Bool.not_false, Bool.true_and, decide_eq_true_eq,
      decide_eq_false_iff_not] at h ⊢
    omega
  split ha hb hc h := by
    simp only [Double.ieeeLt, ha, hb, hc, Bool.not_false, Bool.true_and, decide_eq_true_eq] at h ⊢
    omega

/-- On doubles that are not NaN, IEEE-754 `a <= b` holds when `b < a` does not. -/
theorem ieeeLe_of_not_lt {a b : Double} (ha : a.isNaN = false) (hb : b.isNaN = false)
    (h : Double.ieeeLt b a = false) : (Double.ieeeLt a b || Double.ieeeEq a b) = true := by
  simp only [Double.ieeeLt, Double.ieeeEq, ha, hb, Bool.not_false, Bool.true_and,
    decide_eq_false_iff_not, Bool.or_eq_true, decide_eq_true_eq] at h ⊢
  omega

theorem Fpu.IeeeCompare.strictWeak {fpu : Fpu} (hc : fpu.IeeeCompare) :
    Heap.StrictWeak fpu.lt fun d => d.isNaN = false :=
  hc.lt ▸ ieeeLt_strictWeak

theorem Fpu.IeeeCompare.le_of_not_lt {fpu : Fpu} (hc : fpu.IeeeCompare) {a b : Double}
    (ha : a.isNaN = false) (hb : b.isNaN = false) (h : fpu.lt b a = false) :
    (fpu.lt a b || fpu.eq a b) = true := by
  rw [hc.lt, hc.eq] at *
  exact ieeeLe_of_not_lt ha hb h

/-! ## Exact integer arithmetic -/

namespace Double

/-- The result of an operation on integers, back in a double: exact below `2^53`, NaN above. -/
def ofResult : Option (Bool × Nat) → Double
  | some (s, n) => if n < 2 ^ 53 then ofIntegral s n else nan
  | none => nan

/-- The sum of two signed integers; an exact zero is `-0` only when both are `-0`. -/
def addIntegral : Bool × Nat → Bool × Nat → Bool × Nat
  | (s₁, m₁), (s₂, m₂) =>
    let v : Int := (if s₁ then -(m₁ : Int) else m₁) + (if s₂ then -(m₂ : Int) else m₂)
    if v = 0 then (s₁ && s₂, 0) else (decide (v < 0), v.natAbs)

/-- `⌊√n⌋`, a digit pair per unit of fuel. -/
def natSqrt : Nat → Nat → Nat
  | 0, _ => 0
  | fuel + 1, n =>
    let r := natSqrt fuel (n / 4) * 2
    if (r + 1) * (r + 1) ≤ n then r + 1 else r

end Double

open Double in
/-- IEEE-754 double arithmetic where it needs no rounding: on doubles holding integers whose exact
result is an integer below `2^53`. -/
def Fpu.integral : Fpu where
  add a b := ofResult ((a.integral.bind fun x => b.integral.map (addIntegral x)))
  sub a b := ofResult ((a.integral.bind fun x => b.negate.integral.map (addIntegral x)))
  mul a b := ofResult (a.integral.bind fun x => b.integral.map fun y => (x.1 != y.1, x.2 * y.2))
  div a b := ofResult (a.integral.bind fun x => b.integral.bind fun y =>
    if y.2 ≠ 0 ∧ x.2 % y.2 = 0 then some (x.1 != y.1, x.2 / y.2) else none)
  neg := negate
  sqrt a := ofResult (a.integral.bind fun x =>
    if x.2 = 0 then some x
    else if !x.1 && natSqrt 32 x.2 * natSqrt 32 x.2 = x.2 then some (false, natSqrt 32 x.2)
    else none)
  lt := ieeeLt
  eq := ieeeEq

/-- The model run on `Fpu.integral`, with `-1` for the null key. -/
def Env.integral : Env := ⟨Fpu.integral, -1⟩

theorem Fpu.integral_ieeeCompare : Fpu.integral.IeeeCompare := ⟨rfl, rfl⟩

/-- `-1.0`. -/
def Double.negOne : Double := ⟨0xBFF0000000000000⟩

example : dotProductDistance Fpu.integral [Double.one] [Double.one] = Double.negOne := by decide

example : Fpu.integral.lt Double.negOne Double.zero = true := by decide

end RealmHnsw
