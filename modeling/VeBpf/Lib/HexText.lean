import VeBpf.Lib.ByteMem

/-!
# Words as text

Bytes written as two lower-case digits each, and the reader that takes them back.
Text is a list of characters, so that slicing and splitting it are list operations.
-/

namespace HexText

open ByteMem

/-- A digit, lower case. -/
def digit (d : BitVec 4) : Char :=
  if d.toNat < 10 then Char.ofNat (48 + d.toNat) else Char.ofNat (87 + d.toNat)

/-- The value of a digit of either case. -/
def digitValue (c : Char) : Option Nat :=
  if '0' ≤ c ∧ c ≤ '9' then some (c.toNat - 48)
  else if 'a' ≤ c ∧ c ≤ 'f' then some (c.toNat - 87)
  else if 'A' ≤ c ∧ c ≤ 'F' then some (c.toNat - 55)
  else none

def hexByte (b : BitVec 8) : List Char := [digit (b.extractLsb' 4 4), digit (b.extractLsb' 0 4)]

def hexBytes (bs : List (BitVec 8)) : List Char := bs.flatMap hexByte

/-- One more digit of a number. -/
def addDigit (acc : Nat) (c : Char) : Option Nat := (digitValue c).map (16 * acc + ·)

/-- The number that a string of digits spells. -/
def parseHex (s : List Char) : Option Nat :=
  if s = [] then none else s.foldlM addDigit 0

/-- The number that bytes spell, highest first. -/
def beNat (bs : List (BitVec 8)) : Nat := bs.foldl (fun acc b => 256 * acc + b.toNat) 0

theorem digitValue_digit (d : BitVec 4) : digitValue (digit d) = some d.toNat := by
  revert d
  decide

theorem digit_ne (d : BitVec 4) : digit d ≠ '\n' ∧ digit d ≠ 'x' := by
  revert d
  decide

theorem not_mem_hexBytes {c : Char} (hc : c = '\n' ∨ c = 'x') (bs : List (BitVec 8)) :
    c ∉ hexBytes bs := by
  intro hmem
  obtain ⟨b, -, hb⟩ := List.mem_flatMap.mp hmem
  have hdigit : ∃ d, c = digit d := by
    rcases List.mem_cons.mp hb with h | h
    · exact ⟨_, h⟩
    · exact ⟨_, List.mem_singleton.mp h⟩
  obtain ⟨d, rfl⟩ := hdigit
  rcases hc with h | h
  · exact (digit_ne d).1 h
  · exact (digit_ne d).2 h

/-- Two digits are one byte. -/
theorem addDigit_hexByte (b : BitVec 8) (acc : Nat) :
    (hexByte b).foldlM addDigit acc = some (256 * acc + b.toNat) := by
  have hhigh : (b.extractLsb' 4 4).toNat = b.toNat / 16 := by
    have hlt : b.toNat < 256 := b.isLt
    rw [BitVec.extractLsb'_toNat, Nat.shiftRight_eq_div_pow]
    omega
  have hlow : (b.extractLsb' 0 4).toNat = b.toNat % 16 := by
    rw [BitVec.extractLsb'_toNat, Nat.shiftRight_zero]
  have hsum : 16 * (16 * acc + b.toNat / 16) + b.toNat % 16 = 256 * acc + b.toNat := by omega
  simp only [hexByte, List.foldlM_cons, List.foldlM_nil, addDigit, digitValue_digit, hhigh, hlow,
    Option.map_some, Option.bind_eq_bind, Option.bind_some, Option.pure_def, hsum]

/-- **Reading back.** -/
theorem parseHex_hexBytes {bs : List (BitVec 8)} (h : bs ≠ []) :
    parseHex (hexBytes bs) = some (beNat bs) := by
  have hfold : ∀ acc, (hexBytes bs).foldlM addDigit acc
      = some (bs.foldl (fun acc b => 256 * acc + b.toNat) acc) := by
    clear h
    induction bs with
    | nil => exact fun acc => rfl
    | cons b bs ih =>
        intro acc
        rw [hexBytes, List.flatMap_cons, List.foldlM_append, addDigit_hexByte]
        exact ih _
  have hne : hexBytes bs ≠ [] := by
    obtain ⟨b, bs, rfl⟩ := List.exists_cons_of_ne_nil h
    exact List.cons_ne_nil _ _
  rw [parseHex, if_neg hne, hfold, beNat]

/-! ## Words of eight bytes -/

/-- The bytes of a word, highest first. -/
def bytesBE (w : BitVec 64) : List (BitVec 8) :=
  [getByte w 7, getByte w 6, getByte w 5, getByte w 4, getByte w 3, getByte w 2, getByte w 1,
    getByte w 0]

/-- The word of eight bytes, highest first. -/
def wordBE (bs : List (BitVec 8)) : BitVec 64 := BitVec.ofNat 64 (beNat bs)

/-- Part of a byte is part of the word. -/
theorem extractLsb'_getByte (w : BitVec 64) (i : Nat) {start len : Nat} (h : start + len ≤ 8) :
    (getByte w i).extractLsb' start len = w.extractLsb' (8 * i + start) len := by
  ext j hj
  have hbyte : start + j < 8 := by omega
  rw [BitVec.getElem_extractLsb', BitVec.getElem_extractLsb', getByte, BitVec.getLsbD_extractLsb',
    Nat.add_assoc]
  simp only [hbyte, decide_true, Bool.true_and]

theorem toNat_getByte (w : BitVec 64) (i : Nat) :
    (getByte w i).toNat = w.toNat / 2 ^ (8 * i) % 256 := by
  rw [getByte, BitVec.extractLsb'_toNat, Nat.shiftRight_eq_div_pow]

/-- The bytes of a word above `i`, and byte `i` after them. -/
theorem append_getByte (w : BitVec 64) (i : Nat) :
    256 * (w.toNat / 2 ^ (8 * (i + 1))) + (getByte w i).toNat = w.toNat / 2 ^ (8 * i) := by
  rw [toNat_getByte, Nat.mul_succ, Nat.pow_add, ← Nat.div_div_eq_div_mul]
  exact Nat.div_add_mod _ 256

theorem beNat_bytesBE (w : BitVec 64) : beNat (bytesBE w) = w.toNat := by
  have htop : 256 * 0 + (getByte w 7).toNat = w.toNat / 2 ^ (8 * 7) := by
    rw [← append_getByte w 7, Nat.div_eq_of_lt w.isLt]
  simp only [beNat, bytesBE, List.foldl_cons, List.foldl_nil]
  rw [htop, append_getByte w 6, append_getByte w 5, append_getByte w 4, append_getByte w 3,
    append_getByte w 2, append_getByte w 1, append_getByte w 0, Nat.mul_zero, Nat.pow_zero,
    Nat.div_one]

theorem parseHex_bytesBE (w : BitVec 64) : parseHex (hexBytes (bytesBE w)) = some w.toNat := by
  have hne : bytesBE w ≠ [] := List.cons_ne_nil _ _
  rw [parseHex_hexBytes hne, beNat_bytesBE]

theorem wordBE_bytesBE (w : BitVec 64) : wordBE (bytesBE w) = w := by
  rw [wordBE, beNat_bytesBE, BitVec.ofNat_toNat, BitVec.setWidth_eq]

theorem bytesBE_wordBE (b₇ b₆ b₅ b₄ b₃ b₂ b₁ b₀ : BitVec 8) :
    bytesBE (wordBE [b₇, b₆, b₅, b₄, b₃, b₂, b₁, b₀]) = [b₇, b₆, b₅, b₄, b₃, b₂, b₁, b₀] := by
  have h₇ := b₇.isLt
  have h₆ := b₆.isLt
  have h₅ := b₅.isLt
  have h₄ := b₄.isLt
  have h₃ := b₃.isLt
  have h₂ := b₂.isLt
  have h₁ := b₁.isLt
  have h₀ := b₀.isLt
  have hword : (wordBE [b₇, b₆, b₅, b₄, b₃, b₂, b₁, b₀]).toNat
      = 256 * (256 * (256 * (256 * (256 * (256 * (256 * b₇.toNat + b₆.toNat) + b₅.toNat)
        + b₄.toNat) + b₃.toNat) + b₂.toNat) + b₁.toNat) + b₀.toNat := by
    simp only [wordBE, beNat, List.foldl_cons, List.foldl_nil, BitVec.toNat_ofNat]
    omega
  simp only [bytesBE, List.cons.injEq, BitVec.toNat_eq, toNat_getByte, hword, and_true]
  refine ⟨?_, ?_, ?_, ?_, ?_, ?_, ?_, ?_⟩ <;> omega

end HexText
