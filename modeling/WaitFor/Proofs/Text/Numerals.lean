import Mathlib.Tactic.IntervalCases
import WaitFor.Text

/-! # Numerals are read back

Every number is read back from its digits, `number?_toDigits`, in each base that the readers know.
So a numeral determines its number, in base ten (`decimal_inj`) and in base sixteen (`hex_inj`); and
it holds no character but digits and the mark of base sixteen, so that it ends where anything else
begins.
-/

namespace WaitFor.Text

variable {base m n : Nat} {c : Char}

/-! ## Digits -/

/-- A digit is read back. -/
theorem digitValue?_digitChar {d : Nat} (hbase : base ≤ 16) (hd : d < base) :
    digitValue? base d.digitChar = some d := by
  have : d < 16 := Nat.lt_of_lt_of_le hd hbase
  interval_cases d <;> exact if_pos hd

/-- The digits of a number are digits of its base. -/
theorem mem_toDigits (hbase : 1 < base) (hc : c ∈ Nat.toDigits base n) :
    ∃ d < base, c = d.digitChar := by
  induction n using Nat.strongRecOn with
  | ind n ih =>
    rw [Nat.toDigits_eq_if hbase] at hc
    split at hc
    · next hlt => exact ⟨n, hlt, List.mem_singleton.1 hc⟩
    · next hle =>
      rcases List.mem_append.1 hc with hc | hc
      · exact ih (n / base) (Nat.div_lt_self (by omega) hbase) hc
      · exact ⟨n % base, Nat.mod_lt _ (by omega), List.mem_singleton.1 hc⟩

/-! ## Reading -/

/-- A number is read back from its digits. -/
theorem number?_toDigits (hbase : 1 < base) (hle : base ≤ 16) :
    number? base (Nat.toDigits base n) = some n := by
  have hfold : (Nat.toDigits base n).foldlM
      (fun n c => (digitValue? base c).map (n * base + ·)) 0 = some n := by
    induction n using Nat.strongRecOn with
    | ind n ih =>
      rw [Nat.toDigits_eq_if hbase]
      split
      · next hlt => simp [digitValue?_digitChar hle hlt]
      · next hge =>
        have hmod : n % base < base := Nat.mod_lt _ (by omega)
        rw [List.foldlM_append, ih (n / base) (Nat.div_lt_self (by omega) hbase)]
        simp [digitValue?_digitChar hle hmod, Nat.div_add_mod']
  cases hd : Nat.toDigits base n with
  | nil => exact absurd hd Nat.toDigits_ne_nil
  | cons d ds => rw [← hfold, hd]; rfl

/-- A number can be told from its digits. -/
theorem toDigits_inj (hbase : 1 < base) (hle : base ≤ 16) :
    Nat.toDigits base m = Nat.toDigits base n ↔ m = n := by
  refine ⟨fun h => Option.some.inj ?_, fun h => h ▸ rfl⟩
  rw [← number?_toDigits hbase hle, h, number?_toDigits hbase hle]

theorem toList_decimal (n : Nat) : (decimal n).toList = Nat.toDigits 10 n :=
  String.toList_ofList

theorem toList_hex (n : Nat) : (hex n).toList = '0' :: 'x' :: Nat.toDigits 16 n := by
  rw [hex, String.toList_append, String.toList_ofList, String.toList_ofList]
  rfl

/-- A number can be told from its decimal text. -/
theorem decimal_inj : decimal m = decimal n ↔ m = n := by
  rw [← String.toList_inj, toList_decimal, toList_decimal, toDigits_inj (by decide) (by decide)]

/-- A number can be told from its hexadecimal text. -/
theorem hex_inj : hex m = hex n ↔ m = n := by
  rw [← String.toList_inj, toList_hex, toList_hex, List.cons.injEq, List.cons.injEq,
    toDigits_inj (by decide) (by decide)]
  simp

/-! ## Characters -/

/-- Whether numbers are written with `c`. -/
def isNumeral (c : Char) : Bool := "0123456789abcdefx".toList.contains c

/-- A decimal text has only digits. -/
theorem isDigit_of_mem_decimal (hc : c ∈ (decimal n).toList) : c.isDigit = true :=
  Nat.isDigit_of_mem_toDigits (by decide) (by decide) (toList_decimal n ▸ hc)

/-- The digits of a number can stand in a numeral. -/
theorem isNumeral_of_mem_toDigits (hbase : 1 < base) (hle : base ≤ 16)
    (hc : c ∈ Nat.toDigits base n) : isNumeral c = true := by
  obtain ⟨d, hd, rfl⟩ := mem_toDigits hbase hc
  have : d < 16 := Nat.lt_of_lt_of_le hd hle
  interval_cases d <;> decide

/-- The characters of a decimal text can stand in a numeral. -/
theorem isNumeral_of_mem_decimal (hc : c ∈ (decimal n).toList) : isNumeral c = true :=
  isNumeral_of_mem_toDigits (by decide) (by decide) (toList_decimal n ▸ hc)

/-- The characters of a hexadecimal text can stand in a numeral. -/
theorem isNumeral_of_mem_hex (hc : c ∈ (hex n).toList) : isNumeral c = true := by
  rw [toList_hex] at hc
  rcases List.mem_cons.1 hc with rfl | hc
  · decide
  · rcases List.mem_cons.1 hc with rfl | hc
    · decide
    · exact isNumeral_of_mem_toDigits (by decide) (by decide) hc

end WaitFor.Text
