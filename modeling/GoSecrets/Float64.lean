import GoSecrets.Fragment

/-! The float64 routines that json.Unmarshal into an `any` and extractFragment call, on
float64 values held as their 64-bit words: strconv.ParseFloat on the decimal syntax, which
rounds the exact decimal value to the nearest float, ties to even; the conversions
`int64(v)` and `float64(i)`; `==`; strconv.FormatInt. Go leaves `int64(v)` for a `v` out of
the int64 range to the implementation, so that result is a parameter, as are FormatFloat and
json's float encoding. -/
namespace GoSecrets.Float64

open Json Fragment

/-- The number of binary digits of `n`, with `k` steps allowed. -/
def bitLenAux : Nat → Nat → Nat
  | 0, _ => 0
  | k + 1, n => if n = 0 then 0 else bitLenAux k (n / 2) + 1

/-- The number of binary digits of `n`. -/
def bitLen (n : Nat) : Nat := bitLenAux n n

theorem bitLenAux_zero (k : Nat) : bitLenAux k 0 = 0 := by cases k <;> rfl

theorem bitLenAux_spec : ∀ k n, n ≤ k →
    n < 2 ^ bitLenAux k n ∧ (0 < n → 2 ^ bitLenAux k n ≤ 2 * n)
  | 0, n, h => by simp only [bitLenAux, Nat.pow_zero]; omega
  | k + 1, n, h => by
    unfold bitLenAux
    split
    · simp only [Nat.pow_zero]; omega
    · obtain ⟨h1, h2⟩ := bitLenAux_spec k (n / 2) (by omega)
      rw [Nat.pow_succ]
      refine ⟨by omega, fun _ => ?_⟩
      by_cases h0 : n / 2 = 0
      · rw [h0, bitLenAux_zero]; omega
      · have := h2 (by omega); omega

theorem lt_two_pow_bitLen (n : Nat) : n < 2 ^ bitLen n := (bitLenAux_spec n n le_rfl).1

theorem two_pow_bitLen_le {n : Nat} (h : 0 < n) : 2 ^ bitLen n ≤ 2 * n :=
  (bitLenAux_spec n n le_rfl).2 h

/-- `bitLen n` is the `k` with `2^(k-1) ≤ n < 2^k`. -/
theorem bitLen_eq {n k : Nat} (h1 : n < 2 ^ k) (h2 : 2 ^ k ≤ 2 * n) : bitLen n = k := by
  have hn : 0 < n := by have := Nat.one_le_two_pow (n := k); omega
  have hb1 := lt_two_pow_bitLen n
  have hb2 := two_pow_bitLen_le hn
  have hk : k < bitLen n + 1 :=
    (Nat.pow_lt_pow_iff_right (a := 2) (by decide)).mp (by rw [Nat.pow_succ]; omega)
  have hb : bitLen n < k + 1 :=
    (Nat.pow_lt_pow_iff_right (a := 2) (by decide)).mp (by rw [Nat.pow_succ]; omega)
  omega

theorem bitLen_mul_two_pow {n : Nat} (h : 0 < n) (s : Nat) : bitLen (n * 2 ^ s) = bitLen n + s := by
  have h1 := lt_two_pow_bitLen n
  have h2 := two_pow_bitLen_le h
  apply bitLen_eq <;> rw [Nat.pow_add]
  · exact Nat.mul_lt_mul_of_pos_right h1 (Nat.two_pow_pos s)
  · rw [← Nat.mul_assoc]; exact Nat.mul_le_mul_right _ h2

theorem bitLen_mul {n d : Nat} (hn : 0 < n) (hd : 0 < d) :
    bitLen n + bitLen d ≤ bitLen (n * d) + 1 ∧ bitLen (n * d) ≤ bitLen n + bitLen d := by
  have hn1 := lt_two_pow_bitLen n
  have hn2 := two_pow_bitLen_le hn
  have hd1 := lt_two_pow_bitLen d
  have hd2 := two_pow_bitLen_le hd
  have hnd : 0 < n * d := Nat.mul_pos hn hd
  have hm1 := lt_two_pow_bitLen (n * d)
  have hm2 := two_pow_bitLen_le hnd
  have hlt : n * d < 2 ^ bitLen n * 2 ^ bitLen d := Nat.mul_lt_mul'' hn1 hd1
  have hle : 2 ^ bitLen n * 2 ^ bitLen d ≤ 2 * n * (2 * d) := Nat.mul_le_mul hn2 hd2
  have h4 : 2 * n * (2 * d) = 2 * 2 * (n * d) := Nat.mul_mul_mul_comm 2 n 2 d
  rw [← Nat.pow_add] at hlt hle
  constructor
  · have : bitLen n + bitLen d < bitLen (n * d) + 2 :=
      (Nat.pow_lt_pow_iff_right (a := 2) (by decide)).mp (by rw [Nat.pow_add _ _ 2]; omega)
    omega
  · have : bitLen (n * d) < bitLen n + bitLen d + 1 :=
      (Nat.pow_lt_pow_iff_right (a := 2) (by decide)).mp (by rw [Nat.pow_succ]; omega)
    omega

/-- A binary format: `prec` significand bits, least subnormal `2^-minExp`, and `maxExp` the
exponent of the last significand bit of the largest finite value. -/
structure Format where
  prec : Nat
  minExp : Nat
  maxExp : Nat

def float64 : Format := ⟨53, 1074, 971⟩
def float32 : Format := ⟨24, 149, 104⟩

/-- `n * 2^s / d` and whether it leaves a remainder. -/
def scaled (n d : Nat) (s : Int) : Nat × Bool :=
  if 0 ≤ s then (n * 2 ^ s.toNat / d, n * 2 ^ s.toNat % d != 0)
  else (n / (d * 2 ^ (-s).toNat), n % (d * 2 ^ (-s).toNat) != 0)

/-- The exponent `s` at which `round` divides: two bits below the last significand bit of
`n / d`, or two bits below the least subnormal when that is higher. -/
def scale (fmt : Format) (n d : Nat) : Int :=
  min (fmt.minExp + 2 : Nat) ((fmt.prec + 2 + bitLen d : Nat) - (bitLen n : Int))

/-- The value of the format nearest to `(a + f) * 2^-s`, ties to even, where `0 ≤ f < 1`
and `f ≠ 0` exactly when `sticky`. -/
def roundScaled (fmt : Format) (a : Nat) (sticky : Bool) (s : Int) : Option (Nat × Int) :=
  let t := max (bitLen a - fmt.prec) (s - fmt.minExp).toNat
  let q := a / 2 ^ t
  let rem := a % 2 ^ t
  let half := 2 ^ (t - 1)
  let q := if half < rem ∨ (rem = half ∧ (sticky ∨ q % 2 = 1)) then q + 1 else q
  let qt := if q = 2 ^ fmt.prec then (2 ^ (fmt.prec - 1), t + 1) else (q, t)
  let e : Int := qt.2 - s
  if fmt.maxExp < e then none else some (qt.1, e)

/-- The value of the format nearest to `n / d`, ties to even, as `q * 2^e` with
`q < 2^prec`, normal unless `e = -minExp`; `none` past the largest finite value. -/
def round (fmt : Format) (n d : Nat) : Option (Nat × Int) :=
  if n = 0 then some (0, -(fmt.minExp : Int))
  else
    let s := scale fmt n d
    roundScaled fmt (scaled n d s).1 (scaled n d s).2 s

/-- When `a` is `q * 2^t` at the position `t` that `roundScaled` picks, nothing is rounded. -/
theorem roundScaled_exact {fmt : Format} {a q t : Nat} {s : Int}
    (ht : max (bitLen a - fmt.prec) (s - fmt.minExp).toNat = t) (ha : a = q * 2 ^ t)
    (hq : q < 2 ^ fmt.prec) :
    roundScaled fmt a false s = if fmt.maxExp < (t : Int) - s then none else some (q, t - s) := by
  have hdiv : a / 2 ^ t = q := by rw [ha, Nat.mul_div_cancel _ (Nat.two_pow_pos t)]
  have hmod : a % 2 ^ t = 0 := by rw [ha, Nat.mul_mod_left]
  have hhalf : 0 < 2 ^ (t - 1) := Nat.two_pow_pos _
  simp only [roundScaled, ht, hdiv, hmod, Nat.not_lt_zero, hhalf.ne, false_and, or_self, if_false,
    hq.ne]

/-- An integer `n` with `0 < n ≤ 2^prec` is a value of the format; `n * d / d` rounds to it
whatever `d`. -/
theorem round_int {fmt : Format} (hp : 1 ≤ fmt.prec) (hm : fmt.prec + 2 ≤ fmt.minExp)
    (hmax : 1 ≤ fmt.maxExp)
    {n d : Nat} (hn : 0 < n) (hn' : n ≤ 2 ^ fmt.prec) (hd : 0 < d) :
    round fmt (n * d) d = some (if bitLen n ≤ fmt.prec
      then (n * 2 ^ (fmt.prec - bitLen n), (bitLen n : Int) - fmt.prec)
      else (2 ^ (fmt.prec - 1), 1)) := by
  obtain ⟨hb1, hb2⟩ := bitLen_mul hn hd
  have hL1 := lt_two_pow_bitLen n
  have hL2 := two_pow_bitLen_le hn
  have hL : bitLen n ≤ fmt.prec + 1 :=
    (Nat.pow_le_pow_iff_right (a := 2) (by decide)).mp (by rw [Nat.pow_succ]; omega)
  have hL0 : 1 ≤ bitLen n := by
    rcases Nat.eq_zero_or_pos (bitLen n) with h | h
    · rw [h] at hL1; omega
    · exact h
  have hs : scale fmt (n * d) d = ((fmt.prec + 2 + bitLen d - bitLen (n * d) : Nat) : Int) := by
    unfold scale; omega
  generalize hsN : fmt.prec + 2 + bitLen d - bitLen (n * d) = sN at hs
  have hsc : scaled (n * d) d sN = (n * 2 ^ sN, false) := by
    have h : n * d * 2 ^ sN = n * 2 ^ sN * d := Nat.mul_right_comm n d _
    simp only [scaled, Int.ofNat_nonneg, if_true, Int.toNat_ofNat, h, Nat.mul_div_cancel _ hd,
      Nat.mul_mod_left, bne_self_eq_false]
  unfold round
  rw [if_neg (Nat.pos_iff_ne_zero.mp (Nat.mul_pos hn hd))]
  simp only [hs, hsc]
  have ht : max (bitLen (n * 2 ^ sN) - fmt.prec) ((sN : Int) - fmt.minExp).toNat =
      bitLen n + sN - fmt.prec := by
    rw [bitLen_mul_two_pow hn]; omega
  clear hs hsc
  by_cases hLp : bitLen n ≤ fmt.prec
  · have ha : n * 2 ^ sN = n * 2 ^ (fmt.prec - bitLen n) * 2 ^ (bitLen n + sN - fmt.prec) := by
      rw [Nat.mul_assoc, ← Nat.pow_add]; congr 2; omega
    have hq : n * 2 ^ (fmt.prec - bitLen n) < 2 ^ fmt.prec := by
      calc n * 2 ^ (fmt.prec - bitLen n) < 2 ^ bitLen n * 2 ^ (fmt.prec - bitLen n) :=
            Nat.mul_lt_mul_of_pos_right hL1 (Nat.two_pow_pos _)
        _ = 2 ^ fmt.prec := by rw [← Nat.pow_add]; congr 1; omega
    rw [roundScaled_exact ht ha hq, if_neg (by omega), if_pos hLp]
    congr 2; omega
  · have hn2 : n = 2 ^ fmt.prec := by
      have : 2 ^ (fmt.prec + 1) ≤ 2 * n := by rw [show fmt.prec + 1 = bitLen n by omega]; exact hL2
      rw [Nat.pow_succ] at this; omega
    have ha : n * 2 ^ sN = 2 ^ (fmt.prec - 1) * 2 ^ (bitLen n + sN - fmt.prec) := by
      rw [← Nat.pow_add, show fmt.prec - 1 + (bitLen n + sN - fmt.prec) = fmt.prec + sN by omega,
        Nat.pow_add, ← hn2]
    have hq : 2 ^ (fmt.prec - 1) < 2 ^ fmt.prec :=
      (Nat.pow_lt_pow_iff_right (a := 2) (by decide)).mpr (by omega)
    rw [roundScaled_exact ht ha hq, if_neg (by omega), if_neg hLp]
    congr 2; omega

/-- The float64 word of `±q * 2^e` as `round float64` returns it; `none` is the infinity. -/
def encode (neg : Bool) : Option (Nat × Int) → Nat
  | some (q, e) => (if neg then 2 ^ 63 else 0) + (e + 1074).toNat * 2 ^ 52 + q
  | none => (if neg then 2 ^ 63 else 0) + 2047 * 2 ^ 52

theorem encode_some (neg : Bool) (q : Nat) (e : Int) :
    encode neg (some (q, e)) = (if neg then 2 ^ 63 else 0) + (e + 1074).toNat * 2 ^ 52 + q := rfl

/-- The sign, and the magnitude as `q * 2^e`, of a finite float64 word; `none` for an
infinity or a NaN. -/
def decode (x : Nat) : Option (Bool × Nat × Int) :=
  let exp : Nat := x / 2 ^ 52 % 2 ^ 11
  let frac := x % 2 ^ 52
  let neg := x / 2 ^ 63 % 2 == 1
  if exp = 2047 then none
  else if exp = 0 then some (neg, frac, -1074)
  else some (neg, frac + 2 ^ 52, (exp : Int) - 1075)

/-- The fields of a word `s * 2^63 + E * 2^52 + r`: exponent, fraction and sign bit. -/
theorem word_fields (s E r : Nat) (hs : s < 2) (hE : E < 2 ^ 11) (hr : r < 2 ^ 52) :
    (s * 2 ^ 63 + E * 2 ^ 52 + r) / 2 ^ 52 % 2 ^ 11 = E ∧ (s * 2 ^ 63 + E * 2 ^ 52 + r) % 2 ^ 52 = r ∧
      (s * 2 ^ 63 + E * 2 ^ 52 + r) / 2 ^ 63 % 2 = s := by
  have h63 : s * 2 ^ 63 = s * 2 ^ 11 * 2 ^ 52 := by rw [Nat.mul_assoc, ← Nat.pow_add]
  have hdiv : (s * 2 ^ 63 + E * 2 ^ 52 + r) / 2 ^ 52 = s * 2 ^ 11 + E := by
    rw [h63, ← Nat.add_mul, Nat.add_comm, Nat.add_mul_div_right _ _ (Nat.two_pow_pos 52),
      Nat.div_eq_of_lt hr, Nat.zero_add]
  refine ⟨?_, ?_, ?_⟩
  · rw [hdiv, Nat.add_comm, Nat.add_mul_mod_self_right, Nat.mod_eq_of_lt hE]
  · rw [h63, ← Nat.add_mul, Nat.add_comm, Nat.add_mul_mod_self_right, Nat.mod_eq_of_lt hr]
  · have : (s * 2 ^ 63 + E * 2 ^ 52 + r) / 2 ^ 63 = s := by
      rw [Nat.add_assoc, Nat.add_comm, Nat.add_mul_div_right _ _ (Nat.two_pow_pos 63),
        Nat.div_eq_of_lt (by omega), Nat.zero_add]
    rw [this, Nat.mod_eq_of_lt hs]

theorem decode_encode (neg : Bool) {q : Nat} {e : Int} (hq1 : 2 ^ 52 ≤ q) (hq2 : q < 2 ^ 53)
    (he1 : -1074 ≤ e) (he2 : e ≤ 971) : decode (encode neg (some (q, e))) = some (neg, q, e) := by
  have hw : encode neg (some (q, e)) =
      (if neg then 1 else 0) * 2 ^ 63 + (e + 1075).toNat * 2 ^ 52 + (q - 2 ^ 52) := by
    rw [encode_some]; split <;> omega
  obtain ⟨hexp, hfrac, hsign⟩ := word_fields (if neg then 1 else 0) (e + 1075).toNat (q - 2 ^ 52)
    (by split <;> decide) (by omega) (by omega)
  simp only [decode, hw, hexp, hfrac, hsign]
  rw [if_neg (by omega), if_neg (by omega), Nat.sub_add_cancel hq1,
    show ((e + 1075).toNat : Int) - 1075 = e by omega]
  cases neg <;> rfl

theorem decode_encode_zero (neg : Bool) : decode (encode neg (some (0, -1074))) = some (neg, 0, -1074) := by
  cases neg <;> rfl

def isNaN (x : Nat) : Bool := x / 2 ^ 52 % 2 ^ 11 == 2047 && x % 2 ^ 52 != 0

/-- `==` on float64: false when either side is a NaN, true on two zeros of either sign,
otherwise the same word. -/
def eq (x y : Nat) : Bool :=
  !isNaN x && !isNaN y && (x == y || (x % 2 ^ 63 == 0 && y % 2 ^ 63 == 0))

/-- `int64(v)`: the value truncated toward zero. A NaN, an infinity or a value out of the
int64 range gives `outOfRange v`. -/
def toInt64 (outOfRange : Nat → Int) (x : Nat) : Int :=
  match decode x with
  | none => outOfRange x
  | some (neg, q, e) =>
    let m := if 0 ≤ e then q * 2 ^ e.toNat else q / 2 ^ (-e).toNat
    if neg then (if m ≤ 2 ^ 63 then -(m : Int) else outOfRange x)
    else if m < 2 ^ 63 then m else outOfRange x

/-- `float64(i)`: `i` rounded to the nearest float64. -/
def fromInt64 (i : Int) : Nat := encode (i < 0) (round float64 i.natAbs 1)

/-- A leading `+` or `-`. -/
def splitSign : Bytes → Bool × Bytes
  | 43 :: s => (false, s)
  | 45 :: s => (true, s)
  | s => (false, s)

/-- The exponent part of a decimal literal: empty, or `e` or `E`, a sign and digits. -/
def exponent : Bytes → Option Int
  | [] => some 0
  | c :: s =>
    let (neg, ds) := splitSign s
    if (c = 101 ∨ c = 69) ∧ ds ≠ [] ∧ ds.all isDigit then
      some (if neg then -(digitsValue ds : Int) else digitsValue ds)
    else none

/-- The decimal syntax ParseFloat accepts: a sign, digits with at most one point and at least
one digit, and an exponent. The result is the sign and the value as `m * 10^x`. -/
def decimalLit (s : Bytes) : Option (Bool × Nat × Int) :=
  let (neg, s) := splitSign s
  let (ip, s) := s.span isDigit
  let (fp, s) : Bytes × Bytes := match s with
    | 46 :: s => s.span isDigit
    | s => ([], s)
  if ip ++ fp = [] then none
  else (exponent s).map fun x => (neg, digitsValue (ip ++ fp), x - fp.length)

/-- strconv.ParseFloat(s, bitSize) on the decimal syntax, as a float64 word: the value is
rounded to float32 first when `bitSize` is 32, and a value past the largest finite one is a
range error. The other syntaxes ParseFloat accepts (infinities, NaN, hexadecimal mantissas,
underscores) are reported as syntax errors; json's scanner passes none of them. -/
def parseFloat (s : Bytes) (bitSize : Nat) : Except GoError Nat :=
  match decimalLit s with
  | none => .error (.wrap "strconv.ParseFloat: parsing" (some s) (.other "invalid syntax"))
  | some (neg, m, x) =>
    let nd := if 0 ≤ x then (m * 10 ^ x.toNat, 1) else (m, 10 ^ (-x).toNat)
    let r := if bitSize = 32 then
        (round float32 nd.1 nd.2).bind fun qe => round float64 (qe.1 * 2 ^ qe.2.toNat) (2 ^ (-qe.2).toNat)
      else round float64 nd.1 nd.2
    match r with
    | some v => .ok (encode neg (some v))
    | none => .error (.wrap "strconv.ParseFloat: parsing" (some s) (.other "value out of range"))

/-- strconv.FormatInt(i, 10). -/
def formatInt (i : Int) : Bytes :=
  (if i < 0 then ascii "-" else []) ++ (Nat.toDigits 10 i.natAbs).map fun c => c.toNat.toUInt8

/-- The float64 library, with the implementation's `int64(v)` out of range, FormatFloat and
json's float encoding left open. -/
def lib (outOfRange : Nat → Int) (formatFloat marshalFloat : Nat → Bytes) : FloatLib where
  parseFloat := parseFloat
  toInt64 := toInt64 outOfRange
  fromInt64 := fromInt64
  eq := eq
  formatFloat := formatFloat
  formatInt := formatInt
  marshalFloat := marshalFloat

theorem leafBytes_lib_number (outOfRange : Nat → Int) (formatFloat marshalFloat : Nat → Bytes)
    (x : Nat) : leafBytes (lib outOfRange formatFloat marshalFloat) (.number x) =
      if eq x (fromInt64 (toInt64 outOfRange x)) then formatInt (toInt64 outOfRange x)
      else formatFloat x := rfl

/-! ### Integers up to 2^53

An integer of magnitude at most 2^53 is a float64, so it is read exactly and rendered back
as its decimal form. -/

theorem round_float64_int {n d : Nat} (hn : 0 < n) (hn' : n ≤ 2 ^ 53) (hd : 0 < d) :
    round float64 (n * d) d = some (if bitLen n ≤ 53
      then (n * 2 ^ (53 - bitLen n), (bitLen n : Int) - 53) else (2 ^ 52, 1)) :=
  round_int (show 1 ≤ float64.prec by decide) (by decide) (by decide) hn hn' hd

theorem toInt64_encode (outOfRange : Nat → Int) (neg : Bool) {q n : Nat} {e : Int}
    (hq1 : 2 ^ 52 ≤ q) (hq2 : q < 2 ^ 53) (he1 : -1074 ≤ e) (he2 : e ≤ 971)
    (hm : (if 0 ≤ e then q * 2 ^ e.toNat else q / 2 ^ (-e).toNat) = n) (hn : n < 2 ^ 63) :
    toInt64 outOfRange (encode neg (some (q, e))) = if neg then -(n : Int) else n := by
  simp only [toInt64, decode_encode neg hq1 hq2 he1 he2, hm]
  rw [if_pos (by omega : n ≤ 2 ^ 63), if_pos hn]

theorem toInt64_encode_int (outOfRange : Nat → Int) (neg : Bool) {n : Nat} (hn : 0 < n)
    (hn' : n ≤ 2 ^ 53) :
    toInt64 outOfRange (encode neg (round float64 n 1)) = if neg then -(n : Int) else n := by
  have hr := round_float64_int hn hn' Nat.one_pos
  rw [Nat.mul_one] at hr
  rw [hr]
  have hL1 := lt_two_pow_bitLen n
  have hL2 := two_pow_bitLen_le hn
  split
  · rename_i hL
    have hsplit : 2 ^ 53 = 2 ^ bitLen n * 2 ^ (53 - bitLen n) := by rw [← Nat.pow_add]; congr 1; omega
    have hq1 : 2 ^ 52 ≤ n * 2 ^ (53 - bitLen n) := by
      have : 2 ^ bitLen n * 2 ^ (53 - bitLen n) ≤ 2 * n * 2 ^ (53 - bitLen n) := Nat.mul_le_mul_right _ hL2
      rw [Nat.mul_assoc] at this; omega
    have hq2 : n * 2 ^ (53 - bitLen n) < 2 ^ 53 :=
      hsplit ▸ Nat.mul_lt_mul_of_pos_right hL1 (Nat.two_pow_pos _)
    refine toInt64_encode outOfRange neg hq1 hq2 (by omega) (by omega) ?_ (by omega)
    split
    · rw [show 53 - bitLen n = 0 by omega, show ((bitLen n : Int) - 53).toNat = 0 by omega,
        Nat.pow_zero, Nat.mul_one, Nat.mul_one]
    · rw [show (-((bitLen n : Int) - 53)).toNat = 53 - bitLen n by omega,
        Nat.mul_div_cancel _ (Nat.two_pow_pos _)]
  · have hn2 : n = 2 ^ 53 := by
      have : 2 ^ 54 ≤ 2 ^ bitLen n := Nat.pow_le_pow_right (by decide) (by omega)
      omega
    exact toInt64_encode outOfRange neg (by decide) (by decide) (by decide) (by decide)
      hn2.symm (by omega)

theorem fromInt64_int (neg : Bool) {n : Nat} (hn : 0 < n) :
    fromInt64 (if neg then -(n : Int) else n) = encode neg (round float64 n 1) := by
  cases neg
  · have h : decide ((n : Int) < 0) = false := decide_eq_false (by omega)
    simp only [fromInt64, if_false, Bool.false_eq_true, Int.natAbs_ofNat, h]
  · have h : decide (-(n : Int) < 0) = true := decide_eq_true (by omega)
    simp only [fromInt64, if_true, Int.natAbs_neg, Int.natAbs_ofNat, h]

theorem eq_encode_self (neg : Bool) {q : Nat} {e : Int} (hq : q < 2 ^ 53) (he1 : -1074 ≤ e)
    (he2 : e ≤ 971) : eq (encode neg (some (q, e))) (encode neg (some (q, e))) = true := by
  have h : (encode neg (some (q, e)) / 2 ^ 52 % 2 ^ 11 == 2047) = false := by
    rw [encode_some, beq_eq_false_iff_ne]; split <;> omega
  simp only [eq, isNaN, h, Bool.false_and, Bool.not_false, Bool.true_and, beq_self_eq_true,
    Bool.true_or]

theorem eq_encode_round_int (neg : Bool) {n : Nat} (hn : 0 < n) (hn' : n ≤ 2 ^ 53) :
    eq (encode neg (round float64 n 1)) (encode neg (round float64 n 1)) = true := by
  have hr := round_float64_int hn hn' Nat.one_pos
  rw [Nat.mul_one] at hr
  have hL1 := lt_two_pow_bitLen n
  rw [hr]
  split
  · refine eq_encode_self neg ?_ (by omega) (by omega)
    calc n * 2 ^ (53 - bitLen n) < 2 ^ bitLen n * 2 ^ (53 - bitLen n) :=
          Nat.mul_lt_mul_of_pos_right hL1 (Nat.two_pow_pos _)
      _ = 2 ^ 53 := by rw [← Nat.pow_add]; congr 1; omega
  · exact eq_encode_self neg (by decide) (by decide) (by decide)

/-- A JSON number whose value is an integer `n` with `|n| ≤ 2^53`, written in any decimal
form, is read exactly and rendered as the decimal form of `n`. -/
theorem leafBytes_parseFloat_int (outOfRange : Nat → Int) (formatFloat marshalFloat : Nat → Bytes)
    {lit : Bytes} {neg : Bool} {m n : Nat} {x : Int} (hlit : decimalLit lit = some (neg, m, x))
    (hval : if 0 ≤ x then m * 10 ^ x.toNat = n else m = n * 10 ^ (-x).toNat) (hn : n ≤ 2 ^ 53) :
    ∃ w, parseFloat lit 64 = .ok w ∧ leafBytes (lib outOfRange formatFloat marshalFloat) (.number w) =
      formatInt (if neg then -(n : Int) else n) := by
  obtain ⟨d, hd, hnd⟩ : ∃ d, 0 < d ∧
      (if 0 ≤ x then (m * 10 ^ x.toNat, 1) else (m, 10 ^ (-x).toNat)) = (n * d, d) := by
    split at hval
    · exact ⟨1, Nat.one_pos, by rw [if_pos ‹_›, hval, Nat.mul_one]⟩
    · exact ⟨10 ^ (-x).toNat, Nat.pos_pow_of_pos _ (by decide), by rw [if_neg ‹_›, hval]⟩
  have hparse : parseFloat lit 64 = match round float64 (n * d) d with
      | some v => .ok (encode neg (some v))
      | none => .error (.wrap "strconv.ParseFloat: parsing" (some lit) (.other "value out of range")) := by
    simp only [parseFloat, hlit, hnd]
    rfl
  rcases Nat.eq_zero_or_pos n with rfl | hn0
  · refine ⟨encode neg (some (0, -1074)), by rw [hparse, Nat.zero_mul]; rfl, ?_⟩
    have hint : toInt64 outOfRange (encode neg (some (0, -1074))) = 0 := by
      simp only [toInt64, decode_encode_zero, Nat.zero_div, Nat.zero_mul]
      cases neg <;> rfl
    rw [leafBytes_lib_number, hint, if_pos (by cases neg <;> rfl)]
    cases neg <;> rfl
  · have hr1 := round_float64_int hn0 hn hd
    have hr2 := round_float64_int hn0 hn Nat.one_pos
    rw [Nat.mul_one, ← hr1] at hr2
    refine ⟨encode neg (round float64 n 1), by rw [hparse, hr2, hr1], ?_⟩
    rw [leafBytes_lib_number, toInt64_encode_int outOfRange neg hn0 hn, fromInt64_int neg hn0,
      if_pos (eq_encode_round_int neg hn0 hn)]

theorem leafBytes_parseFloat_int_neg_two_pow_53 :
    decimalLit (ascii "-9.007199254740992e15") = some (true, 9007199254740992, 0) ∧
    (if (0 : Int) ≤ 0 then 9007199254740992 * 10 ^ (0 : Int).toNat = 9007199254740992
      else 9007199254740992 = 9007199254740992 * 10 ^ (-(0 : Int)).toNat) ∧
    9007199254740992 ≤ 2 ^ 53 ∧
    ∃ w, parseFloat (ascii "-9.007199254740992e15") 64 = .ok w ∧
      leafBytes (lib (fun _ => 0) (fun _ => []) (fun _ => [])) (.number w) =
        formatInt (if true then -(9007199254740992 : Int) else 9007199254740992) :=
  ⟨by decide, by decide, by decide,
    leafBytes_parseFloat_int (fun _ => 0) (fun _ => []) (fun _ => []) (m := 9007199254740992) (x := 0)
      (by decide) (by decide) (by decide)⟩

/-- 2^53 + 1 is read as the float64 2^53, so extractFragment renders it as
9007199254740992, whatever the implementation does out of the int64 range. -/
theorem extractFragment_rounds_two_pow_53_add_one (outOfRange : Nat → Int)
    (formatFloat marshalFloat : Nat → Bytes) :
    extractFragment (lib outOfRange formatFloat marshalFloat)
      ([123] ++ ascii "\"n\":9007199254740993" ++ [125]) (ascii "n") = .ok (ascii "9007199254740992") := by
  have hread : extractFragment (lib outOfRange formatFloat marshalFloat)
      ([123] ++ ascii "\"n\":9007199254740993" ++ [125]) (ascii "n") =
      .ok (leafBytes (lib outOfRange formatFloat marshalFloat) (.number (1076 * 2 ^ 52))) := rfl
  have hint : toInt64 outOfRange (1076 * 2 ^ 52) = 9007199254740992 := rfl
  have hback : fromInt64 9007199254740992 = 1076 * 2 ^ 52 := rfl
  have heq : eq (1076 * 2 ^ 52) (1076 * 2 ^ 52) = true := rfl
  have hdec : formatInt 9007199254740992 = ascii "9007199254740992" := rfl
  rw [hread, leafBytes_lib_number, hint, hback, if_pos heq, hdec]

end GoSecrets.Float64
