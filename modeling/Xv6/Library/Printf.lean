import Mathlib.Tactic.IntervalCases
import Xv6.Framework.Words

namespace Xv6.Library

open Xv6.Framework.Words

/-- The loop that stores the digits of a number, the last one first; 64 turns are enough. -/
def digitLoop (digit : Nat → Char) (base : Nat) : Nat → Nat → List Char
  | 0, _ => []
  | n + 1, x => digit (x % base) :: if x / base = 0 then [] else digitLoop digit base n (x / base)

/-- What printint stores in buf. It prints it from the end. -/
def stored (digit : Nat → Char) (base : Nat) (neg : Bool) (x : Nat) : List Char :=
  digitLoop digit base 64 x ++ if neg then ['-'] else []

/-- The table of kernel/printf.c. -/
def digits (d : Nat) : Char := "0123456789abcdef".toList.getD d '?'

/-- The buf of the kernel's printint. -/
def printint (xx : Int64) (base : Nat) (sign : Bool) : List Char :=
  let neg := sign && xx < 0
  stored digits base neg (if neg then (-xx).toUInt64 else xx.toUInt64).toNat

/-- The table of user/printf.c. -/
def userDigits (d : Nat) : Char := "0123456789ABCDEF".toList.getD d '?'

def userPrintint (xx : Int32) (base : Nat) (sgn : Bool) : List Char :=
  let neg := sgn && xx < 0
  stored userDigits base neg (if neg then (-xx).toUInt32 else xx.toUInt32).toNat

theorem digitLoop_reverse {digit : Nat → Char} {base n x : Nat} (hbase : 1 < base)
    (hdigit : ∀ d < base, digit d = d.digitChar) (hx : x < base ^ (n + 1)) :
    (digitLoop digit base (n + 1) x).reverse = Nat.toDigits base x := by
  induction n generalizing x with
  | zero =>
    rw [Nat.pow_one] at hx
    rw [digitLoop, if_pos (Nat.div_eq_of_lt hx), Nat.mod_eq_of_lt hx, hdigit x hx,
      Nat.toDigits_of_lt_base hx]
    rfl
  | succ n ih =>
    rw [digitLoop, hdigit _ (Nat.mod_lt _ (by omega)), Nat.toDigits_eq_if hbase]
    by_cases hlt : x < base
    · rw [if_pos (Nat.div_eq_of_lt hlt), if_pos hlt, Nat.mod_eq_of_lt hlt]
      rfl
    · have hpos : x / base ≠ 0 := (Nat.div_pos (Nat.not_lt.mp hlt) (by omega)).ne'
      rw [if_neg hpos, if_neg hlt, List.reverse_cons, ih]
      exact Nat.div_lt_of_lt_mul (by rwa [Nat.mul_comm])

theorem stored_reverse {digit : Nat → Char} {base x : Nat} (neg : Bool) (hbase : 1 < base)
    (hdigit : ∀ d < base, digit d = d.digitChar) (hx : x < 2 ^ 64) :
    (stored digit base neg x).reverse = (if neg then ['-'] else []) ++ Nat.toDigits base x := by
  have hlt : x < base ^ 64 := hx.trans_le (Nat.pow_le_pow_left hbase 64)
  rw [stored, List.reverse_append, digitLoop_reverse hbase hdigit hlt]
  cases neg <;> rfl

/-- The bases and signs that the kernel's printf gives to printint: %d, %u and %x, and the same
with l or ll. -/
inductive Radix
  | decimal
  | unsigned
  | hex

namespace Radix

def base : Radix → Nat
  | .hex => 16
  | _ => 10

def sign : Radix → Bool
  | .decimal => true
  | _ => false

def numeral (xx : Int64) : Radix → List Char
  | .decimal => (toString xx.toInt).toList
  | .unsigned => (toString xx.toUInt64.toNat).toList
  | .hex => Nat.toDigits 16 xx.toUInt64.toNat

/-- The numeral has room in 16 characters. -/
def Short (xx : Int64) : Radix → Prop
  | .decimal => -10 ^ 15 < xx.toInt ∧ xx.toInt < 10 ^ 16
  | .unsigned => xx.toUInt64.toNat < 10 ^ 16
  | .hex => True

end Radix

theorem toNat_abs (xx : Int64) :
    (if xx < 0 then (-xx).toUInt64 else xx.toUInt64).toNat = xx.toInt.natAbs := by
  have h := natAbs_toInt xx.toBitVec
  rw [apply_ite BitVec.toNat] at h
  rw [apply_ite UInt64.toNat]
  simp only [Int64.lt_iff_toInt_lt]
  exact h

theorem digits_eq {d : Nat} (h : d < 16) : digits d = d.digitChar := by
  interval_cases d <;> rfl

/-- The numeral with its sign, which only a decimal one has. -/
theorem Radix.numeral_eq (xx : Int64) (r : Radix) :
    r.numeral xx = (if r.sign && xx < 0 then ['-'] else []) ++ Nat.toDigits r.base
      (if r.sign && xx < 0 then (-xx).toUInt64 else xx.toUInt64).toNat := by
  cases r with
  | decimal =>
    simp only [sign, Bool.true_and, decide_eq_true_eq, toNat_abs]
    rw [numeral, Int.toString_eq_repr, Int.repr_eq_if]
    by_cases hneg : xx < 0
    · have hint : xx.toInt < 0 := Int64.lt_iff_toInt_lt.mp hneg
      rw [if_neg (by omega), if_pos hneg, String.toList_append, Nat.toList_repr,
        show (-xx.toInt).toNat = xx.toInt.natAbs by omega]
      rfl
    · have hint : ¬ xx.toInt < 0 := fun h => hneg (Int64.lt_iff_toInt_lt.mpr h)
      rw [if_pos (by omega), if_neg hneg, Nat.toList_repr,
        show xx.toInt.toNat = xx.toInt.natAbs by omega]
      rfl
  | unsigned => exact Nat.toList_repr
  | hex => rfl

theorem printint_reverse (xx : Int64) (r : Radix) :
    (printint xx r.base r.sign).reverse = r.numeral xx := by
  rw [printint, stored_reverse _ (by cases r <;> decide) (fun d hd => digits_eq ?_)
    (UInt64.toNat_lt _), Radix.numeral_eq]
  cases r <;> exact hd.trans_le (by decide)

/-- printint keeps to its buf just if the numeral is short, and then it prints the numeral. -/
theorem printint_fits_iff (xx : Int64) (r : Radix) :
    (printint xx r.base r.sign).length ≤ 16 ∧ (printint xx r.base r.sign).reverse = r.numeral xx ↔
      r.Short xx := by
  rw [and_iff_left (printint_reverse xx r), ← List.length_reverse, printint_reverse]
  cases r with
  | decimal =>
    have hlen : ∀ k, 0 < k → ((Nat.toDigits 10 xx.toInt.natAbs).length ≤ k ↔
      xx.toInt.natAbs < 10 ^ k) := fun k => Nat.length_toDigits_le_iff (by decide)
    have h15 := hlen 15 (by decide)
    have h16 := hlen 16 (by decide)
    rw [Radix.numeral_eq, List.length_append]
    simp only [Radix.sign, Radix.base, Radix.Short, Bool.true_and, decide_eq_true_eq, toNat_abs]
    by_cases hneg : xx < 0
    · have hint : xx.toInt < 0 := Int64.lt_iff_toInt_lt.mp hneg
      rw [if_pos hneg, List.length_singleton]
      omega
    · have hint : ¬ xx.toInt < 0 := fun h => hneg (Int64.lt_iff_toInt_lt.mpr h)
      rw [if_neg hneg, List.length_nil]
      omega
  | unsigned =>
    rw [Radix.numeral, Nat.toString_eq_repr, Nat.toList_repr]
    exact Nat.length_toDigits_le_iff (by decide) (by decide)
  | hex =>
    refine iff_of_true ?_ trivial
    exact (Nat.length_toDigits_le_iff (by decide) (by decide)).mpr xx.toUInt64.toNat_lt

/-- 10^16 and the least number take 17 and 20 characters. -/
theorem printint_overflows :
    (printint 10000000000000000 Radix.unsigned.base Radix.unsigned.sign).length = 17 ∧
      (printint (-9223372036854775808) Radix.decimal.base Radix.decimal.sign).length = 20 := by
  decide +kernel

/-- An argument of printf: a word, or a string, which may be the null pointer. -/
inductive Arg
  | word (w : UInt64)
  | str (s : Option (List Char))

def vaWord : List Arg → Option (UInt64 × List Arg)
  | .word w :: args => some (w, args)
  | _ => none

def vaStr : List Arg → Option (Option (List Char) × List Arg)
  | .str s :: args => some (s, args)
  | _ => none

def ptrLoop (x : UInt64) : Nat → List Char
  | 0 => []
  | n + 1 => userDigits (x >>> 60).toNat :: ptrLoop (x <<< 4) n

/-- What printint writes for an argument, an int or a uint64, that becomes its int xx. -/
def shown (base : Nat) (sgn : Bool) (w : UInt64) : List Char :=
  (userPrintint w.toUInt32.toInt32 base sgn).reverse

/-- What vprintf writes, if the arguments are those of the format. -/
def vprintf : List Char → List Arg → Option (List Char)
  | [], _ | ['%'], _ => some []
  | '%' :: 'd' :: fmt, args | '%' :: 'l' :: 'd' :: fmt, args
  | '%' :: 'l' :: 'l' :: 'd' :: fmt, args =>
    (vaWord args).bind fun x => (vprintf fmt x.2).map (shown 10 true x.1 ++ ·)
  | '%' :: 'u' :: fmt, args | '%' :: 'l' :: 'u' :: fmt, args
  | '%' :: 'l' :: 'l' :: 'u' :: fmt, args =>
    (vaWord args).bind fun x => (vprintf fmt x.2).map (shown 10 false x.1 ++ ·)
  | '%' :: 'x' :: fmt, args | '%' :: 'l' :: 'x' :: fmt, args
  | '%' :: 'l' :: 'l' :: 'x' :: fmt, args =>
    (vaWord args).bind fun x => (vprintf fmt x.2).map (shown 16 false x.1 ++ ·)
  | '%' :: 'p' :: fmt, args =>
    (vaWord args).bind fun x => (vprintf fmt x.2).map (['0', 'x'] ++ ptrLoop x.1 16 ++ ·)
  | '%' :: 's' :: fmt, args =>
    (vaStr args).bind fun x => (vprintf fmt x.2).map (x.1.getD "(null)".toList ++ ·)
  | '%' :: '%' :: fmt, args => (vprintf fmt args).map ('%' :: ·)
  | '%' :: c :: fmt, args => (vprintf fmt args).map ('%' :: c :: ·)
  | c :: fmt, args => (vprintf fmt args).map (c :: ·)

inductive Long
  | ld | lld | lu | llu | lx | llx

namespace Long

def format : Long → List Char
  | .ld => "%ld".toList
  | .lld => "%lld".toList
  | .lu => "%lu".toList
  | .llu => "%llu".toList
  | .lx => "%lx".toList
  | .llx => "%llx".toList

def base : Long → Nat
  | .lx | .llx => 16
  | _ => 10

def sgn : Long → Bool
  | .ld | .lld => true
  | _ => false

def value (c : Long) (w : UInt64) : Int := if c.sgn then w.toInt64.toInt else w.toNat

/-- It is one of 32 bits. -/
def Narrow (c : Long) (w : UInt64) : Prop :=
  if c.sgn then -2 ^ 31 ≤ w.toInt64.toInt ∧ w.toInt64.toInt < 2 ^ 31 else w.toNat < 2 ^ 32

end Long

def digitValue (c : Char) : Option Nat :=
  if '0' ≤ c ∧ c ≤ '9' then some (c.toNat - 48)
  else if 'A' ≤ c ∧ c ≤ 'F' then some (c.toNat - 55)
  else none

def readDigit (base x : Nat) (c : Char) : Option Nat :=
  (digitValue c).bind fun d => if d < base then some (x * base + d) else none

def readNat (base : Nat) (text : List Char) : Option Nat :=
  if text = [] then none else text.foldlM (readDigit base) 0

def readInt (base : Nat) (sgn : Bool) (text : List Char) : Option Int :=
  match readNat base text with
  | some x => some x
  | none =>
    if sgn ∧ text.head? = some '-' then (readNat base text.tail).map fun x : Nat => -(x : Int)
    else none

theorem vprintf_long (c : Long) (w : UInt64) (fmt : List Char) (args : List Arg) :
    vprintf (c.format ++ fmt) (.word w :: args) =
      (vprintf fmt args).map (shown c.base c.sgn w ++ ·) := by
  cases c <;> rfl

theorem readDigit_digits {base d : Nat} (hd : d < base) (h16 : base ≤ 16) (x : Nat) :
    readDigit base x (userDigits d) = some (x * base + d) := by
  have hval : digitValue (userDigits d) = some d := by
    have hlt : d < 16 := by omega
    interval_cases d <;> rfl
  rw [readDigit, hval, Option.bind_some, if_pos hd]

theorem read_digitLoop {base n x : Nat} (hbase : 1 < base) (h16 : base ≤ 16)
    (hx : x < base ^ (n + 1)) :
    (digitLoop userDigits base (n + 1) x).reverse.foldlM (readDigit base) 0 = some x := by
  induction n generalizing x with
  | zero =>
    rw [Nat.pow_one] at hx
    rw [digitLoop, if_pos (Nat.div_eq_of_lt hx), Nat.mod_eq_of_lt hx]
    simpa using readDigit_digits hx h16 0
  | succ n ih =>
    have hmod : x % base < base := Nat.mod_lt _ (by omega)
    rw [digitLoop, List.reverse_cons, List.foldlM_append]
    split_ifs with h0
    · have hlt : x < base := by
        by_contra hc
        exact (Nat.div_pos (Nat.not_lt.mp hc) (by omega)).ne' h0
      rw [Nat.mod_eq_of_lt hlt]
      simpa using readDigit_digits hlt h16 0
    · rw [ih (Nat.div_lt_of_lt_mul (by rwa [Nat.pow_succ, Nat.mul_comm] at hx))]
      have := readDigit_digits hmod h16 (x / base)
      rw [Nat.div_add_mod'] at this
      simpa using this

theorem readNat_stored {base x : Nat} (hbase : 1 < base) (h16 : base ≤ 16) (hx : x < 2 ^ 32) :
    readNat base (digitLoop userDigits base 64 x).reverse = some x := by
  have hlt : x < base ^ 64 :=
    (hx.trans_le (by decide)).trans_le (Nat.pow_le_pow_left hbase 64)
  rw [readNat, if_neg (by simp [digitLoop])]
  exact read_digitLoop hbase h16 hlt

theorem toNat_abs_int (xx : Int32) :
    (if xx < 0 then (-xx).toUInt32 else xx.toUInt32).toNat = xx.toInt.natAbs := by
  have h := natAbs_toInt xx.toBitVec
  rw [apply_ite BitVec.toNat] at h
  rw [apply_ite UInt32.toNat]
  simp only [Int32.lt_iff_toInt_lt]
  exact h

/-- What is written is read as the int, or its word. -/
theorem readInt_shown {base : Nat} (hbase : 1 < base) (h16 : base ≤ 16) (sgn : Bool) (w : UInt64) :
    readInt base sgn (shown base sgn w) =
      some (if sgn then w.toUInt32.toInt32.toInt else w.toUInt32.toNat) := by
  generalize hxx : w.toUInt32.toInt32 = xx
  have hword : w.toUInt32 = xx.toUInt32 := by rw [← hxx]; rfl
  have habs := toNat_abs_int xx
  have hread : readNat base (digitLoop userDigits base 64 xx.toInt.natAbs).reverse =
      some xx.toInt.natAbs := habs ▸ readNat_stored hbase h16 (UInt32.toNat_lt _)
  rw [shown, hxx, hword, userPrintint, stored, List.reverse_append]
  by_cases hneg : xx < 0
  · have hint : xx.toInt < 0 := Int32.lt_iff_toInt_lt.mp hneg
    cases sgn with
    | false => simp [readInt, readNat_stored hbase h16 xx.toUInt32.toNat_lt]
    | true =>
      have hnone (text : List Char) : readNat base ('-' :: text) = none := by
        simp [readNat, readDigit, digitValue]
      rw [if_pos hneg] at habs
      simp only [hneg, decide_true, Bool.true_and, if_true, List.reverse_singleton,
        List.singleton_append, readInt, hnone, List.head?_cons, List.tail_cons, and_self, hread,
        Option.map_some, habs]
      congr 1
      omega
  · have hint : ¬ xx.toInt < 0 := fun h => hneg (Int32.lt_iff_toInt_lt.mpr h)
    rw [if_neg hneg] at habs
    simp only [hneg, decide_false, Bool.and_false, Bool.false_eq_true, if_false, List.reverse_nil,
      List.nil_append, readInt, hread, habs]
    congr 1
    split_ifs <;> omega

/-- The text of a long is faithful just if it is one of 32 bits. -/
theorem long_faithful_iff (c : Long) (w : UInt64) :
    ∃ text, (∀ fmt args, vprintf (c.format ++ fmt) (.word w :: args) =
        (vprintf fmt args).map (text ++ ·)) ∧
      (readInt c.base c.sgn text = some (c.value w) ↔ c.Narrow w) := by
  refine ⟨_, vprintf_long c w, ?_⟩
  have hlow : w.toUInt32.toNat = w.toNat % 2 ^ 32 := UInt64.toNat_toUInt32 w
  rw [readInt_shown (by cases c <;> decide) (by cases c <;> decide), Option.some_inj, Long.value,
    Long.Narrow]
  cases c.sgn with
  | false =>
    simp only [Bool.false_eq_true, if_false]
    omega
  | true =>
    have h32 := BitVec.toInt_eq_toNat_cond w.toUInt32.toBitVec
    have h64 := BitVec.toInt_eq_toNat_cond w.toBitVec
    change w.toUInt32.toInt32.toInt = if 2 * w.toUInt32.toNat < 2 ^ 32 then (w.toUInt32.toNat : Int)
      else w.toUInt32.toNat - (2 ^ 32 : Nat) at h32
    change w.toInt64.toInt = if 2 * w.toNat < 2 ^ 64 then (w.toNat : Int)
      else w.toNat - (2 ^ 64 : Nat) at h64
    simp only [if_true]
    split_ifs at h32 h64 <;> omega

/-- 2^32 is printed as 0. -/
theorem long_truncated :
    vprintf Long.ld.format [.word 4294967296] = some ['0'] ∧
      vprintf Long.lu.format [.word 4294967296] = some ['0'] ∧
      vprintf Long.lx.format [.word 4294967296] = some ['0'] := by
  decide +kernel

end Xv6.Library
