import Mathlib.Data.List.Basic
import Mathlib.Tactic.Ring

/-!
# Go primitives

Byte strings, two's-complement `int64` arithmetic, the `uint32` conversion and the decimal
rendering of `strconv`, as the client's Go code gets them from the language and the standard
library.
-/

namespace TinyTorrent

/-- A Go `string` or `[]byte`. -/
abbrev Bytes := List UInt8

def ascii (s : String) : Bytes := s.toList.map fun c => c.toNat.toUInt8

@[simp] theorem ascii_append (s t : String) : ascii (s ++ t) = ascii s ++ ascii t := by
  simp [ascii]

@[simp] theorem toUInt8_toNat (c : UInt8) : c.toNat.toUInt8 = c :=
  UInt8.toNat.inj (UInt8.toNat_ofNat_of_lt c.toNat_lt_size)

def IsInt64 (x : Int) : Prop := -2^63 ≤ x ∧ x < 2^63

instance (x : Int) : Decidable (IsInt64 x) := inferInstanceAs (Decidable (_ ∧ _))

/-- Two's-complement wrap of an integer into `int64`: what Go's `+`, `-` and `*` give. -/
def wrap64 (x : Int) : Int := (x + 2^63) % 2^64 - 2^63

theorem wrap64_of_isInt64 {x : Int} (h : IsInt64 x) : wrap64 x = x := by
  unfold wrap64 IsInt64 at *
  rw [Int.emod_eq_of_lt (by omega) (by omega)]
  omega

theorem isInt64_wrap64 (x : Int) : IsInt64 (wrap64 x) := by
  unfold wrap64 IsInt64
  have h0 := Int.emod_nonneg (x + 2^63) (by decide : (2:Int)^64 ≠ 0)
  have h1 := Int.emod_lt_of_pos (x + 2^63) (by decide : (0:Int) < 2^64)
  omega

/-- Go's `uint32(x)` of an `int64`: the low 32 bits. -/
def toUInt32 (x : Int) : UInt32 := UInt32.ofNat (x % 2^32).toNat

theorem toUInt32_toNat_of_lt {x : Int} (h0 : 0 ≤ x) (h1 : x < 2^32) :
    (toUInt32 x).toNat = x.toNat := by
  unfold toUInt32
  rw [Int.emod_eq_of_lt h0 h1, UInt32.toNat_ofNat_of_lt (by unfold UInt32.size; omega)]

/-- `strconv.FormatInt(x, 10)`, and `strconv.Itoa(int(x))` on a 64-bit platform. -/
def formatInt (x : Int) : Bytes := ascii (toString x)

example : formatInt (-6881) = ascii "-6881" := by decide

def decimalDigits : Nat → Nat → Bytes
  | 0, _ => []
  | fuel + 1, n => (if n < 10 then [] else decimalDigits fuel (n / 10)) ++ [(48 + n % 10).toUInt8]

def natDecimal (n : Nat) : Bytes := decimalDigits (n + 1) n

def decimal (x : Int) : Bytes := (if x < 0 then [45] else []) ++ natDecimal x.natAbs

private theorem digitChar_toNat : ∀ d < 10, (Nat.digitChar d).toNat = 48 + d := by decide

private theorem map_toDigitsCore : ∀ (fuel n : Nat) (ds : List Char), n < fuel →
    (Nat.toDigitsCore 10 fuel n ds).map (fun c => c.toNat.toUInt8) =
      decimalDigits fuel n ++ ds.map (fun c => c.toNat.toUInt8)
  | 0, _, _, h => absurd h (Nat.not_lt_zero _)
  | fuel + 1, n, ds, h => by
    have hd := digitChar_toNat _ (Nat.mod_lt n (by decide : 10 > 0))
    have hcore : Nat.toDigitsCore 10 (fuel + 1) n ds = if n / 10 = 0 then Nat.digitChar (n % 10) :: ds
        else Nat.toDigitsCore 10 fuel (n / 10) (Nat.digitChar (n % 10) :: ds) := rfl
    rw [hcore, decimalDigits]
    by_cases hn : n < 10
    · rw [if_pos (Nat.div_eq_of_lt hn), if_pos hn]
      simp [hd]
    · rw [if_neg (by omega), if_neg hn, map_toDigitsCore fuel (n / 10) _ (by omega)]
      simp [hd]

theorem ascii_repr (n : Nat) : ascii n.repr = natDecimal n := by
  have h : ascii n.repr = (Nat.toDigitsCore 10 (n + 1) n []).map (fun c => c.toNat.toUInt8) := rfl
  rw [h, map_toDigitsCore (n + 1) n [] (Nat.lt_succ_self n), List.map_nil, List.append_nil]
  rfl

theorem formatInt_eq_decimal (x : Int) : formatInt x = decimal x := by
  rcases x with n | n
  · simp [formatInt, decimal, toString, ascii_repr, Int.natCast_nonneg]
  · simp [formatInt, decimal, toString, ascii_repr, Int.negSucc_lt_zero]
    rfl

end TinyTorrent
