import CompactRisc.Instruction.Decoding
import CompactRisc.Layout.Materialization
import Mathlib.Tactic.IntervalCases

/-!
# Numerals that are written and read back

The resolver writes displacements and address bytes into lines as text, and the encoder reads them
as literals. Both sides agree: no numeral that is written has a leading zero that would make it
octal, or a digit that makes it a bit pattern.

Results:
* `Literal.read?_decimal`: a decimal that fits 32 bits is read back.
* `Literal.read?_hexadecimal`: so is a hexadecimal numeral, filled with zeros or not.
* `readNumber_inverts_text`: so are the tokens that are written for numbers.
-/
namespace CompactRisc

namespace Literal

/-! ## Digits -/

theorem digit?_digitChar {base n : Nat} (hbase : base ≤ 16) (hn : n < base) :
    digit? base n.digitChar = some n := by
  have hlt : n < 16 := Nat.lt_of_lt_of_le hn hbase
  interval_cases n <;> exact if_pos hn

/-- What the digits of `n` add to the value of the digits before them. -/
theorem foldlM_toDigits {base : Nat} (hone : 1 < base) (hbase : base ≤ 16) (n : Nat) :
    (Nat.toDigits base n).foldlM (fun value c => (digit? base c).map (base * value + ·)) 0 =
      some n := by
  induction n using Nat.strongRecOn with
  | ind n ih =>
    rw [Nat.toDigits_eq_if hone]
    split
    · rename_i hlt
      simp [digit?_digitChar hbase hlt]
    · rename_i hge
      have hdiv : n / base < n := Nat.div_lt_self (by omega) hone
      have hmod : n % base < base := Nat.mod_lt _ (by omega)
      rw [List.foldlM_append, ih _ hdiv]
      simp [digit?_digitChar hbase hmod, Nat.div_add_mod]

theorem digits?_zeroFilled {base : Nat} (hone : 1 < base) (hbase : base ≤ 16) (width n : Nat) :
    digits? base (Text.zeroFilled base width n) = some n := by
  have hzeros : ∀ k, (List.replicate k '0').foldlM
      (fun value c => (digit? base c).map (base * value + ·)) 0 = some 0 := by
    intro k
    have hzero : digit? base '0' = some 0 := digit?_digitChar (n := 0) hbase (by omega)
    induction k with
    | zero => rfl
    | succ k ih => simp [List.replicate_succ, hzero, ih]
  have hne : (Text.zeroFilled base width n).isEmpty = false := by
    simp [Text.zeroFilled, List.leftpad, Nat.toDigits_ne_nil]
  rw [digits?, hne, Text.zeroFilled, List.leftpad, List.foldlM_append, hzeros]
  exact foldlM_toDigits hone hbase n

theorem exists_digitChar {base : Nat} (hone : 1 < base) (n : Nat) :
    ∀ c ∈ Nat.toDigits base n, ∃ m < base, c = m.digitChar := by
  induction n using Nat.strongRecOn with
  | ind n ih =>
    intro c hc
    rw [Nat.toDigits_eq_if hone] at hc
    split at hc
    · rename_i hlt
      exact ⟨n, hlt, List.mem_singleton.1 hc⟩
    · rcases List.mem_append.1 hc with hc | hc
      · exact ih _ (Nat.div_lt_self (by omega) hone) c hc
      · exact ⟨n % base, Nat.mod_lt _ (by omega), List.mem_singleton.1 hc⟩

theorem exists_digitChar_zeroFilled {base : Nat} (hone : 1 < base) (width n : Nat) :
    ∀ c ∈ Text.zeroFilled base width n, ∃ m < base, c = m.digitChar := by
  intro c hc
  rcases List.mem_append.1 hc with hc | hc
  · exact ⟨0, by omega, (List.mem_replicate.1 hc).2⟩
  · exact exists_digitChar hone n c hc

theorem filter_zeroFilled {base : Nat} (hone : 1 < base) (width n : Nat) :
    (Text.zeroFilled base width n).filter (· ≠ '_') = Text.zeroFilled base width n := by
  rw [List.filter_eq_self]
  intro c hc
  obtain ⟨m, -, rfl⟩ := exists_digitChar_zeroFilled hone width n c hc
  exact decide_eq_true (Nat.digitChar_ne _ (by decide))

/-! ## Literals -/

theorem read?_hexadecimal {n : Nat} (width : Nat) (h : n ≤ 2147483647) :
    read? (Text.hexadecimal width n) = some (n : Int) := by
  have hfits : fits32 (n : Int) = true := by simp [fits32]; omega
  have hvalue : value? ('0' :: 'x' :: Text.zeroFilled 16 width n) = some (n : Int) := by
    simp [value?, signed?, unsigned?, digits?_zeroFilled (show 1 < 16 by decide) (Nat.le_refl 16),
      hfits]
  rw [read?, Text.hexadecimal, String.toList_ofList, List.filter_cons_of_pos (by decide),
    List.filter_cons_of_pos (by decide), filter_zeroFilled (by decide), hvalue]

/-- The first digit of a decimal numeral is a zero for zero only. -/
theorem toDigits_eq_cons {n : Nat} (hn : 0 < n) :
    ∃ c cs, Nat.toDigits 10 n = c :: cs ∧ c.isDigit = true ∧ c ≠ '0' := by
  induction n using Nat.strongRecOn with
  | ind n ih =>
    rw [Nat.toDigits_eq_if (by decide)]
    split
    · rename_i hlt
      exact ⟨_, [], rfl, by simp [hlt], by simp; omega⟩
    · obtain ⟨c, cs, hc, hdigit, hzero⟩ := ih (n / 10) (by omega) (by omega)
      exact ⟨c, cs ++ [(n % 10).digitChar], by rw [hc]; rfl, hdigit, hzero⟩

theorem unsigned?_toDigits (n : Nat) : unsigned? (Nat.toDigits 10 n) = some n := by
  have hdigits : digits? 10 (Nat.toDigits 10 n) = some n := by
    simpa [Text.zeroFilled, List.leftpad] using
      digits?_zeroFilled (show 1 < 10 by decide) (by decide) 0 n
  rcases Nat.eq_zero_or_pos n with rfl | hn
  · rfl
  · obtain ⟨c, cs, hc, hdigit, hzero⟩ := toDigits_eq_cons hn
    have hhash : c ≠ '#' := fun h => by rw [h] at hdigit; cases hdigit
    rw [hc] at hdigits ⊢
    simpa [unsigned?, hzero, hhash] using hdigits

theorem value?_toDigits {n : Nat} (h : fits32 n = true) :
    value? (Nat.toDigits 10 n) = some (n : Int) := by
  have hvalue := unsigned?_toDigits n
  rcases Nat.eq_zero_or_pos n with rfl | hn
  · rfl
  · obtain ⟨c, cs, hc, hdigit, hzero⟩ := toDigits_eq_cons hn
    have hminus : c ≠ '-' := fun h => by rw [h] at hdigit; cases hdigit
    have hplus : c ≠ '+' := fun h => by rw [h] at hdigit; cases hdigit
    rw [hc] at hvalue ⊢
    simp [value?, signed?, hzero, hminus, hplus, hvalue, h]

theorem read?_decimal {v : Int} (h : fits32 v = true) : read? (Text.decimal v) = some v := by
  have hfilter : (Nat.toDigits 10 v.natAbs).filter (· ≠ '_') = Nat.toDigits 10 v.natAbs := by
    simpa [Text.zeroFilled, List.leftpad] using filter_zeroFilled (show 1 < 10 by decide) 0 v.natAbs
  rw [read?, Text.decimal]
  split
  · rename_i hneg
    have hsigned : signed? ('-' :: Nat.toDigits 10 v.natAbs) = some v := by
      rw [signed?, unsigned?_toDigits]
      exact congrArg some (show -(v.natAbs : Int) = v by omega)
    rw [String.toList_ofList, List.filter_cons_of_pos (by decide), hfilter, value?, hsigned]
    · simp [h]
    · simp
    · simp
  · rename_i hneg
    have habs : (v.natAbs : Int) = v := by omega
    rw [String.toList_ofList, hfilter, value?_toDigits (by rw [habs]; exact h), habs]

theorem toNat_ofInt_of_nonneg {v : Int} (h : 0 ≤ v) (hfits : fits32 v = true) :
    ((BitVec.ofInt 32 v).toNat : Int) = v := by
  have hgreatest : v ≤ 2147483647 := by simp [fits32] at hfits; exact hfits.2
  rw [BitVec.toNat_ofInt]
  omega

end Literal

/-! ## Tokens -/

theorem readNumber_of_read? {token : String} {v : Int} (h : Literal.read? token = some v) :
    readNumber token = .ok v := by
  rw [readNumber, h]

/-- A number is read back from the token that is written for it: from a decimal, which is the text of
displacements and operands, and from a hexadecimal numeral, which is the text of the byte of a
decoded word, filled to two digits, and of the bytes of an address, not filled. -/
theorem readNumber_inverts_text :
    (∀ v : Int, -2147483648 ≤ v → v ≤ 2147483647 →
      readNumber (Text.decimal v) = .ok v ∧ readNumber (Operand.immediate v).text = .ok v) ∧
    (∀ n : Nat, n ≤ 2147483647 →
      (∀ width, readNumber (Text.hexadecimal width n) = .ok n) ∧
        readNumber (Decoded.operandText .destByte (.immediate n, 1)) = .ok n) ∧
    ∀ address : Nat, readNumber (Layout.lowByte address) = .ok ((address % 256 : Nat) : Int) ∧
      readNumber (Layout.highByte address) = .ok ((address / 256 % 256 : Nat) : Int) := by
  have hhexadecimal : ∀ n : Nat, n ≤ 2147483647 → ∀ width,
      readNumber (Text.hexadecimal width n) = .ok n := fun n hn width =>
    readNumber_of_read? (Literal.read?_hexadecimal width hn)
  refine ⟨fun v hleast hgreatest => ?_, fun n hn => ⟨hhexadecimal n hn, ?_⟩, fun address => ?_⟩
  · have hfits : Literal.fits32 v = true := by simp [Literal.fits32, hleast, hgreatest]
    have hdecimal := readNumber_of_read? (Literal.read?_decimal hfits)
    exact ⟨hdecimal, hdecimal⟩
  · have hpattern := Literal.toNat_ofInt_of_nonneg (Int.natCast_nonneg n)
      (by simp [Literal.fits32]; omega)
    rw [Decoded.operandText, if_pos rfl, Int.ofNat.inj hpattern]
    exact hhexadecimal n hn 2
  · exact ⟨hhexadecimal _ (by omega) 0, hhexadecimal _ (by omega) 0⟩

/-- The least number, a byte whose digits look like the mark of a bit pattern, and an address whose
low byte is zero. -/
theorem readNumber_inverts_text_least :
    Text.decimal (-2147483648) = "-2147483648" ∧
    readNumber (Text.decimal (-2147483648)) = .ok (-2147483648) ∧
    Text.hexadecimal 2 11 = "0x0b" ∧ readNumber (Text.hexadecimal 2 11) = .ok 11 ∧
    Layout.lowByte 256 = "0x0" ∧ readNumber (Layout.lowByte 256) = .ok 0 := by
  obtain ⟨hdecimal, hhexadecimal, hbytes⟩ := readNumber_inverts_text
  exact ⟨by decide, (hdecimal (-2147483648) (by decide) (by decide)).1, by decide,
    (hhexadecimal 11 (by decide)).1 2, by decide, (hbytes 256).1⟩

end CompactRisc
