import CompactRisc.Operand
import CompactRisc.Proofs.Numerals
import Mathlib.Data.List.Forall2
import Mathlib.Data.Nat.Digits.Defs

/-!
# The grammar of literals

What a numeric literal is and what it stands for, said without a reader: a list of digits stands for
its positional value, a numeral has a mark for its base, and a literal is a numeral with a sign or a
bit pattern. The reader agrees with the grammar on every text, however the marks overlap and however
long the digits are.

Results:
* `Literal.digits?_eq_some_iff`, `Literal.unsigned?_eq_some_iff`, `Literal.value?_eq_some_iff`: each
  stage of the reader against its part of the grammar.
* `readNumber_iff_denotes`: a token is read exactly if it is a literal, and is named as it was written
  if it is none.
-/
namespace CompactRisc

namespace Literal

/-! ## The grammar -/

/-- The character is the digit of a base with the value `k`. Letters count in either case. -/
def IsDigit (base : Nat) (c : Char) (k : Nat) : Prop :=
  k < base ∧ (c = k.digitChar ∨ c = k.digitChar.toUpper)

/-- The characters are digits of a base, at least one of them, and stand for `n`. The most
significant digit comes first. -/
def Spells (base : Nat) (cs : List Char) (n : Nat) : Prop :=
  cs ≠ [] ∧ ∃ ks, List.Forall₂ (IsDigit base) cs ks ∧ Nat.ofDigits base ks.reverse = n

/-- A numeral without a sign, and the number that it stands for. -/
inductive Numeral : List Char → Nat → Prop where
  | hexadecimal {mark digits : List Char} {n : Nat}
      (hmark : mark ∈ [['0', 'x'], ['0', 'X'], ['#']]) (h : Spells 16 digits n) :
      Numeral (mark ++ digits) n
  | octal {digits : List Char} {n : Nat} (h : Spells 8 digits n) : Numeral ('0' :: digits) n
  | decimal {digits : List Char} {n : Nat} (h : Spells 10 digits n)
      (hzero : digits = ['0'] ∨ digits.head? ≠ some '0') : Numeral digits n

def patternMarks : List (List Char) := [['0', 'b'], ['0', 'B']]

/-- The signs of a numeral, and what they multiply it by. -/
def signs : List (List Char × Int) := [([], 1), (['+'], 1), (['-'], -1)]

/-- A literal without separators, and its value. A pattern of 32 bits is a two's complement
number. -/
inductive Denotes : List Char → Int → Prop where
  | pattern {mark bits : List Char} {n : Nat} (hmark : mark ∈ patternMarks) (h : Spells 2 bits n)
      (hlt : n < 4294967296) :
      Denotes (mark ++ bits) (if n < 2147483648 then n else n - 4294967296)
  | signed {sign numeral : List Char} {unit : Int} {n : Nat} (hsign : (sign, unit) ∈ signs)
      (hmark : ∀ mark ∈ patternMarks, ¬mark <+: sign ++ numeral) (h : Numeral numeral n)
      (hleast : -2147483648 ≤ unit * n) (hgreatest : unit * n ≤ 2147483647) :
      Denotes (sign ++ numeral) (unit * n)

/-! ## Digits -/

theorem digit?_toUpper {base k : Nat} (hbase : base ≤ 16) (hk : k < base) :
    digit? base k.digitChar.toUpper = some k := by
  have hlt : k < 16 := Nat.lt_of_lt_of_le hk hbase
  interval_cases k <;> exact if_pos hk

/-- A property of all characters from one to another is checked on their code points. -/
theorem forall_between {lo hi : Char} (P : Char → Prop)
    (h : ∀ n < hi.toNat + 1, lo.toNat ≤ n → P (Char.ofNat n)) {c : Char} (hc : lo ≤ c ∧ c ≤ hi) :
    P c := by
  have hp := h c.toNat (Nat.lt_succ_of_le hc.2) hc.1
  rwa [Char.ofNat_toNat] at hp

theorem digit?_eq_some_iff {base : Nat} (hbase : base ≤ 16) {c : Char} {k : Nat} :
    digit? base c = some k ↔ IsDigit base c k := by
  refine ⟨fun h => ?_, fun h => ?_⟩
  · rw [digit?, Option.ite_none_right_eq_some, Option.some.injEq] at h
    obtain ⟨hlt, rfl⟩ := h
    refine ⟨hlt, ?_⟩
    split at hlt
    · rename_i hc
      rw [if_pos hc]
      exact .inl (forall_between (fun c => c = (c.toNat - '0'.toNat).digitChar) (by decide) hc)
    rename_i hdecimal
    rw [if_neg hdecimal]
    split at hlt
    · rename_i hc
      rw [if_pos hc]
      exact .inl (forall_between (fun c => c = (c.toNat - 'a'.toNat + 10).digitChar) (by decide) hc)
    rename_i hlower
    rw [if_neg hlower]
    split at hlt
    · rename_i hc
      rw [if_pos hc]
      exact .inr
        (forall_between (fun c => c = (c.toNat - 'A'.toNat + 10).digitChar.toUpper) (by decide) hc)
    · exact absurd hlt (Nat.lt_irrefl base)
  · obtain ⟨hk, rfl | rfl⟩ := h
    · exact digit?_digitChar hbase hk
    · exact digit?_toUpper hbase hk

/-- The positional value of digits, taken from the most significant one on. -/
theorem ofDigits_reverse (base : Nat) (ks : List Nat) :
    Nat.ofDigits base ks.reverse = ks.foldl (fun value k => base * value + k) 0 := by
  rw [Nat.ofDigits_eq_foldr, List.foldr_reverse]
  simp only [Nat.cast_id, Nat.add_comm]

theorem foldlM_digit? {base : Nat} (hbase : base ≤ 16) (cs : List Char) (value n : Nat) :
    cs.foldlM (fun value c => (digit? base c).map (base * value + ·)) value = some n ↔
      ∃ ks, List.Forall₂ (IsDigit base) cs ks ∧
        ks.foldl (fun value k => base * value + k) value = n := by
  induction cs generalizing value with
  | nil => simp [List.forall₂_nil_left_iff]
  | cons c cs ih =>
    simp only [List.foldlM_cons, Option.bind_eq_bind, Option.bind_eq_some_iff,
      Option.map_eq_some_iff, digit?_eq_some_iff hbase, ih, List.forall₂_cons_left_iff]
    refine ⟨fun h => ?_, fun h => ?_⟩
    · obtain ⟨_, ⟨k, hk, rfl⟩, ks, hks, rfl⟩ := h
      exact ⟨k :: ks, ⟨k, ks, hk, hks, rfl⟩, rfl⟩
    · obtain ⟨_, ⟨k, ks, hk, hks, rfl⟩, rfl⟩ := h
      exact ⟨_, ⟨k, hk, rfl⟩, ks, hks, rfl⟩

theorem digits?_eq_some_iff {base : Nat} (hbase : base ≤ 16) {cs : List Char} {n : Nat} :
    digits? base cs = some n ↔ Spells base cs n := by
  rw [digits?, Option.ite_none_left_eq_some, foldlM_digit? hbase, Spells, List.isEmpty_iff]
  simp only [ofDigits_reverse]

/-- Digits do not start with a character that is none, such as a sign or part of a mark. -/
theorem Spells.head_ne {base : Nat} {c x : Char} {cs : List Char} {n : Nat}
    (h : Spells base (c :: cs) n) (hbase : base ≤ 16) (hx : digit? base x = none) : c ≠ x := by
  rintro rfl
  obtain ⟨-, ks, hks, -⟩ := h
  obtain ⟨k, -, hk, -, -⟩ := List.forall₂_cons_left_iff.1 hks
  rw [(digit?_eq_some_iff hbase).2 hk] at hx
  cases hx

/-! ## Numerals -/

theorem unsigned?_octal {digits : List Char} {n : Nat} (h : Spells 8 digits n) :
    unsigned? ('0' :: digits) = some n := by
  have hdigits : digits? 8 digits = some n := (digits?_eq_some_iff (by decide)).2 h
  cases digits with
  | nil => exact absurd rfl h.1
  | cons c cs =>
    have hx : c ≠ 'x' := h.head_ne (by decide) (by decide)
    have hX : c ≠ 'X' := h.head_ne (by decide) (by decide)
    simpa [unsigned?, hx, hX] using hdigits

theorem unsigned?_decimal {digits : List Char} {n : Nat} (h : Spells 10 digits n)
    (hzero : digits = ['0'] ∨ digits.head? ≠ some '0') : unsigned? digits = some n := by
  have hdigits : digits? 10 digits = some n := (digits?_eq_some_iff (by decide)).2 h
  rcases hzero with rfl | hzero
  · exact hdigits
  cases digits with
  | nil => exact hdigits
  | cons c cs =>
    have hhash : c ≠ '#' := h.head_ne (by decide) (by decide)
    have hzero : c ≠ '0' := by simpa using hzero
    simpa [unsigned?, hzero, hhash] using hdigits

theorem unsigned?_eq_some_iff {cs : List Char} {n : Nat} :
    unsigned? cs = some n ↔ Numeral cs n := by
  refine ⟨fun h => ?_, fun h => ?_⟩
  · unfold unsigned? at h
    split at h
    · exact @Numeral.hexadecimal ['0', 'x'] _ _ (by decide) ((digits?_eq_some_iff (by decide)).1 h)
    · exact @Numeral.hexadecimal ['0', 'X'] _ _ (by decide) ((digits?_eq_some_iff (by decide)).1 h)
    · exact @Numeral.hexadecimal ['#'] _ _ (by decide) ((digits?_eq_some_iff (by decide)).1 h)
    · exact .octal ((digits?_eq_some_iff (by decide)).1 h)
    · rename_i hoctal
      refine .decimal ((digits?_eq_some_iff (by decide)).1 h) ?_
      -- a zero with another character after it has gone to one of the other cases
      rcases cs with _ | ⟨c, _ | ⟨d, ds⟩⟩
      · simp
      · by_cases hc : c = '0'
        · exact .inl (by rw [hc])
        · exact .inr (by simpa using hc)
      · exact .inr fun hc => hoctal d ds (by simpa using hc)
  · cases h with
    | hexadecimal hmark h =>
      rw [← digits?_eq_some_iff (by decide)] at h
      simp only [List.mem_cons, List.not_mem_nil, or_false] at hmark
      rcases hmark with rfl | rfl | rfl <;> exact h
    | octal h => exact unsigned?_octal h
    | decimal h hzero => exact unsigned?_decimal h hzero

/-! ## Literals -/

theorem toInt_ofNat {n : Nat} (h : n < 4294967296) :
    (BitVec.ofNat 32 n).toInt = if n < 2147483648 then (n : Int) else n - 4294967296 := by
  rw [BitVec.toInt_eq_toNat_cond, BitVec.toNat_ofNat, Nat.mod_eq_of_lt h]
  split <;> split <;> omega

theorem pattern?_eq_some_iff {bits : List Char} {v : Int} :
    pattern? bits = some v ↔ ∃ n, Spells 2 bits n ∧ n < 4294967296 ∧
      (if n < 2147483648 then (n : Int) else n - 4294967296) = v := by
  simp only [pattern?, Option.map_eq_some_iff, Option.filter_eq_some_iff, decide_eq_true_iff,
    digits?_eq_some_iff (show 2 ≤ 16 by decide), and_assoc]
  refine exists_congr fun n => and_congr_right fun _ => ⟨fun h => ?_, fun h => ?_⟩
  · exact ⟨by omega, by rw [← toInt_ofNat (by omega)]; exact h.2⟩
  · exact ⟨by omega, by rw [toInt_ofNat h.1]; exact h.2⟩

theorem Numeral.head_ne {c : Char} {cs : List Char} {n : Nat} (h : Numeral (c :: cs) n) :
    c ≠ '-' ∧ c ≠ '+' := by
  generalize hnumeral : c :: cs = numeral at h
  cases h with
  | hexadecimal hmark h =>
    simp only [List.mem_cons, List.not_mem_nil, or_false] at hmark
    rcases hmark with rfl | rfl | rfl <;> cases hnumeral <;> decide
  | octal h =>
    cases hnumeral
    decide
  | decimal h =>
    subst hnumeral
    exact ⟨h.head_ne (by decide) (by decide), h.head_ne (by decide) (by decide)⟩

theorem signed?_eq_some_iff {cs : List Char} {v : Int} :
    signed? cs = some v ↔ ∃ sign unit numeral n, (sign, unit) ∈ signs ∧ sign ++ numeral = cs ∧
      Numeral numeral n ∧ unit * n = v := by
  refine ⟨fun h => ?_, fun h => ?_⟩
  · unfold signed? at h
    split at h <;> simp only [Option.map_eq_some_iff, Option.bind_eq_bind, Option.bind_eq_some_iff,
      Option.pure_def, Option.some.injEq, unsigned?_eq_some_iff] at h <;>
      obtain ⟨_, ⟨n, hn, rfl⟩, rfl⟩ := h
    · exact ⟨['-'], -1, _, n, by decide, rfl, hn, Int.neg_one_mul _⟩
    · exact ⟨['+'], 1, _, n, by decide, rfl, hn, Int.one_mul _⟩
    · exact ⟨[], 1, _, n, by decide, rfl, hn, Int.one_mul _⟩
  · obtain ⟨sign, unit, numeral, n, hsign, rfl, hn, rfl⟩ := h
    have hvalue := unsigned?_eq_some_iff.2 hn
    simp only [signs, List.mem_cons, List.not_mem_nil, or_false, Prod.mk.injEq] at hsign
    rcases hsign with ⟨rfl, rfl⟩ | ⟨rfl, rfl⟩ | ⟨rfl, rfl⟩
    · cases numeral with
      | nil => simp [signed?, hvalue]
      | cons c cs => simp [signed?, hn.head_ne, hvalue]
    · simp [signed?, hvalue]
    · simp [signed?, hvalue]

/-- A literal that has no mark of a bit pattern is a numeral with a sign. -/
theorem value?_of_no_mark {cs : List Char} (h : ∀ mark ∈ patternMarks, ¬mark <+: cs) :
    value? cs = (signed? cs).filter fits32 := by
  unfold value?
  split
  · exact absurd (List.prefix_append ['0', 'b'] _) (h _ (by decide))
  · exact absurd (List.prefix_append ['0', 'B'] _) (h _ (by decide))
  · rfl

theorem value?_eq_some_iff {cs : List Char} {v : Int} : value? cs = some v ↔ Denotes cs v := by
  refine ⟨fun h => ?_, fun h => ?_⟩
  · by_cases hmark : ∀ mark ∈ patternMarks, ¬mark <+: cs
    · rw [value?_of_no_mark hmark, Option.filter_eq_some_iff, signed?_eq_some_iff] at h
      obtain ⟨⟨sign, unit, numeral, n, hsign, rfl, hn, rfl⟩, hfits⟩ := h
      obtain ⟨hleast, hgreatest⟩ : _ ∧ _ := by simpa [fits32] using hfits
      exact .signed hsign hmark hn hleast hgreatest
    · simp only [not_forall, not_not] at hmark
      obtain ⟨mark, hmark, bits, rfl⟩ := hmark
      have hpattern : pattern? bits = some v := by
        simp only [patternMarks, List.mem_cons, List.not_mem_nil, or_false] at hmark
        rcases hmark with rfl | rfl <;> exact h
      obtain ⟨n, hn, hlt, rfl⟩ := pattern?_eq_some_iff.1 hpattern
      exact .pattern hmark hn hlt
  · cases h with
    | pattern hmark h hlt =>
      have hpattern := pattern?_eq_some_iff.2 ⟨_, h, hlt, rfl⟩
      simp only [patternMarks, List.mem_cons, List.not_mem_nil, or_false] at hmark
      rcases hmark with rfl | rfl <;> exact hpattern
    | signed hsign hmark h hleast hgreatest =>
      rw [value?_of_no_mark hmark, Option.filter_eq_some_iff, signed?_eq_some_iff]
      exact ⟨⟨_, _, _, _, hsign, rfl, h, rfl⟩, by simp [fits32, hleast, hgreatest]⟩

end Literal

/-- A token is read with the value of the literal that it is once its separators are dropped. A token
that is no literal is refused, and the refusal names it as it was written. -/
theorem readNumber_iff_denotes (token : String) :
    (∀ v, readNumber token = .ok v ↔ Literal.Denotes (token.toList.filter (· ≠ '_')) v) ∧
    (readNumber token = .error (.badNumber token) ↔
      ∀ v, ¬Literal.Denotes (token.toList.filter (· ≠ '_')) v) := by
  simp only [← Literal.value?_eq_some_iff, readNumber, Literal.read?]
  cases Literal.value? (token.toList.filter (· ≠ '_')) with
  | none => simp
  | some v => simp

end CompactRisc
