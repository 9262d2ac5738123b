import Mathlib.Data.Nat.Basic
import Wire.Text.Hex

/-!
# Numerals

A numeral is a number in upper-case hexadecimal digits: in so many of them, filled up with zeros, or
in as many as it takes (`Hex.Numeral`). An offset is written as a numeral of eight digits and a byte
as one of two (`Hex.numeral_offset`, `Hex.numeral_byte`), and the two digits of a byte are read as
that byte (`Hex.Numeral.ofDigits?_eq`).
-/

namespace Wire.Hex

variable {width n d : Nat} {text : List Char} {c : Char}

/-- The number that a row of digits stands for. -/
def number? (text : List Char) : Option Nat :=
  text.foldlM (fun n c => (value? c).map (16 * n + ·)) 0

/-- A text is a number in upper-case digits, `width` of them or as many as it takes. -/
structure Numeral (width n : Nat) (text : List Char) : Prop where
  upper : ∀ c ∈ text, c ∈ "0123456789ABCDEF".toList
  number : number? text = some n
  width_le : width ≤ text.length
  /-- Zeros fill up the width and no more. -/
  head?_ne : width < text.length → text.head? ≠ some '0'

/-- A numeral has upper-case digits only. -/
theorem Numeral.not_mem (h : Numeral width n text) (hc : c ∉ "0123456789ABCDEF".toList) :
    c ∉ text :=
  fun hmem => hc (h.upper c hmem)

/-! ## Digits -/

/-- A digit is read as the number that it was written for. -/
theorem value?_digit (letters : LetterCase) : ∀ d < 16, value? (digit letters d) = some d := by
  cases letters <;> decide

/-- Upper-case digits are the sixteen characters. -/
theorem digit_upper_mem : ∀ d < 16, digit .upper d ∈ "0123456789ABCDEF".toList := by
  decide

/-- A digit behind a text counts once and the number in front sixteen times. -/
theorem number?_concat : number? (text ++ [c]) =
    (number? text).bind fun n => (value? c).map (16 * n + ·) := by
  rw [number?, List.foldlM_append, number?]
  simp [List.foldlM]

/-- Zeros in front of a number do not change it. -/
theorem number?_replicate_append (k : Nat) (text : List Char) :
    number? (List.replicate k '0' ++ text) = number? text := by
  induction k with
  | zero => rfl
  | succ k ih =>
    rw [List.replicate_succ, List.cons_append, ← ih]
    rfl

/-! ## Numerals from their digits -/

/-- No digits are the number zero. -/
theorem numeral_nil : Numeral 0 0 [] :=
  ⟨nofun, rfl, le_rfl, nofun⟩

/-- A digit behind a numeral makes it one digit wider. -/
theorem Numeral.concat (h : Numeral width n text) (hd : d < 16) :
    Numeral (width + 1) (16 * n + d) (text ++ [digit .upper d]) where
  upper c hc := by
    rcases List.mem_append.1 hc with hc | hc
    · exact h.upper c hc
    · exact List.mem_singleton.1 hc ▸ digit_upper_mem d hd
  number := by
    rw [number?_concat, h.number, value?_digit .upper d hd]
    rfl
  width_le := by
    rw [List.length_append]
    exact Nat.add_le_add_right h.width_le 1
  head?_ne hlt := by
    rw [List.length_append, List.length_singleton, Nat.add_lt_add_iff_right] at hlt
    obtain ⟨c, text, rfl⟩ := List.exists_cons_of_length_pos (Nat.zero_lt_of_lt hlt)
    exact h.head?_ne hlt

/-- One digit is the numeral of a number below sixteen. -/
theorem numeral_digit (hd : d < 16) : Numeral 1 d [digit .upper d] := by
  simpa using numeral_nil.concat hd

/-- A number other than zero that is written in as few digits as it takes does not start with a
zero, also if it takes one digit only. -/
theorem Numeral.of_pos (h : Numeral 1 n text) (hn : 0 < n) : Numeral 0 n text where
  upper := h.upper
  number := h.number
  width_le := Nat.zero_le _
  head?_ne _ := by
    match text, h with
    | [], _ => nofun
    | [c], h =>
      -- The digit zero alone is the number zero.
      rintro ⟨⟩
      cases h.number
      exact Nat.lt_irrefl 0 hn
    | _ :: _ :: _, h => exact h.head?_ne (by simp)

/-- Zeros in front of a numeral make it wider. -/
theorem Numeral.leftpad (h : Numeral 1 n text) (hwidth : 1 ≤ width) :
    Numeral width n (text.leftpad width '0') where
  upper c hc := by
    rcases List.mem_append.1 hc with hc | hc
    · rw [List.eq_of_mem_replicate hc]
      decide
    · exact h.upper c hc
  number := by rw [List.leftpad, number?_replicate_append, h.number]
  width_le := by
    rw [List.length_leftpad]
    exact Nat.le_max_left _ _
  head?_ne hlt := by
    rw [List.length_leftpad] at hlt
    have hnone : width - text.length = 0 := by omega
    rw [List.leftpad, hnone]
    exact h.head?_ne (by omega)

/-! ## Offsets and bytes -/

/-- The digits of a number, with capital letters, are its numeral in as few digits as it takes. -/
theorem numeral_toDigits (n : Nat) : Numeral 1 n ((Nat.toDigits 16 n).map Char.toUpper) := by
  induction n using Nat.strongRecOn with
  | ind n ih =>
    rcases Nat.lt_or_ge n 16 with hlt | hge
    · rw [Nat.toDigits_of_lt_base hlt]
      exact numeral_digit hlt
    -- All digits but the last are those of a number other than zero, so none of them is to spare.
    · have hfront : Numeral 0 (n / 16) _ := (ih (n / 16) (by omega)).of_pos (by omega)
      have h := hfront.concat (Nat.mod_lt n (by decide : 0 < 16))
      rw [Nat.div_add_mod] at h
      rw [Nat.toDigits_of_base_le (by decide) hge, List.map_append]
      exact h

/-- An offset is written in eight digits or more. -/
theorem numeral_offset (n : Nat) : Numeral 8 n (offset n).toList := by
  rw [offset, String.toList_ofList]
  exact (numeral_toDigits n).leftpad (by decide)

/-- A byte is written in two digits. -/
theorem toList_byte (letters : LetterCase) (b : UInt8) :
    (byte letters b).toList = [digit letters (b.toNat / 16), digit letters (b.toNat % 16)] :=
  String.toList_ofList

/-- A byte is written as its numeral in two digits. -/
theorem numeral_byte (b : UInt8) : Numeral 2 b.toNat (byte .upper b).toList := by
  have hb := b.toNat_lt
  have h := (numeral_digit (d := b.toNat / 16) (by omega)).concat
    (Nat.mod_lt b.toNat (by decide : 0 < 16))
  rw [Nat.div_add_mod] at h
  rwa [toList_byte]

/-- Two digits that are the numeral of a byte are read as that byte. -/
theorem Numeral.ofDigits?_eq {b : UInt8} {high low : Char}
    (h : Numeral width b.toNat [high, low]) : ofDigits? [high, low] = some [b] := by
  have hnumber := h.number
  cases hhigh : value? high with
  | none => simp [number?, hhigh] at hnumber
  | some x =>
    cases hlow : value? low with
    | none => simp [number?, hhigh, hlow] at hnumber
    | some y =>
      have hvalue : 16 * x + y = b.toNat := by simpa [number?, hhigh, hlow] using hnumber
      simp only [ofDigits?, hhigh, hlow, hvalue, UInt8.ofNat_toNat]

end Wire.Hex
