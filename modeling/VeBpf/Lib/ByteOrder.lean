import VeBpf.Lib.HexText
import Mathlib.Tactic.Ring

/-!
# Byte order

The low bytes of a word, read as a number in either order. Swapping the bytes
twice leaves the number that they spell lowest first, which is the word cut to
those bytes.
-/

namespace ByteOrder

open ByteMem HexText

variable {w : Nat}

/-- The low `n` bytes of a word, lowest first. -/
def lowBytes (d : BitVec w) (n : Nat) : List (BitVec 8) := (List.range n).map (getByte d)

/-- The low `n` bytes of a word, read highest first. -/
def swapped (d : BitVec 64) (n : Nat) : BitVec 64 := BitVec.ofNat 64 (beNat (lowBytes d n))

/-! ## Numbers of bytes -/

theorem beNat_concat (bs : List (BitVec 8)) (b : BitVec 8) :
    beNat (bs ++ [b]) = 256 * beNat bs + b.toNat := by
  rw [beNat, List.foldl_append]
  rfl

theorem beNat_cons (b : BitVec 8) (bs : List (BitVec 8)) :
    beNat (b :: bs) = b.toNat * 256 ^ bs.length + beNat bs := by
  have hfold : ∀ acc, bs.foldl (fun acc b => 256 * acc + b.toNat) acc
      = acc * 256 ^ bs.length + beNat bs := by
    induction bs with
    | nil => simp [beNat]
    | cons c bs ih =>
        intro acc
        have hhead : beNat (c :: bs) = (256 * 0 + c.toNat) * 256 ^ bs.length + beNat bs := ih _
        rw [List.foldl_cons, ih, hhead, List.length_cons, Nat.pow_succ']
        ring
  rw [beNat, List.foldl_cons, hfold, Nat.mul_zero, Nat.zero_add]

/-- A byte set behind a word of bytes. -/
theorem toNat_append_byte {k : Nat} {x : BitVec k} {bs : List (BitVec 8)}
    (h : x.toNat = beNat bs) (b : BitVec 8) : (x ++ b).toNat = beNat (bs ++ [b]) := by
  have hb := b.isLt
  rw [BitVec.toNat_append, ← Nat.shiftLeft_add_eq_or_of_lt hb, Nat.shiftLeft_eq, h, beNat_concat]
  omega

/-! ## Bytes side by side -/

theorem toNat_two (a b : BitVec 8) : (a ++ b).toNat = beNat [a, b] := by
  have hone : a.toNat = beNat [a] := by
    rw [beNat_cons, List.length_nil, Nat.pow_zero, Nat.mul_one]
    rfl
  exact toNat_append_byte hone b

theorem two_bytes (a b : BitVec 8) : (a ++ b).setWidth 64 = BitVec.ofNat 64 (beNat [a, b]) := by
  rw [← toNat_two, BitVec.ofNat_toNat]

theorem toNat_four (a b c d : BitVec 8) : (a ++ b ++ c ++ d).toNat = beNat [a, b, c, d] :=
  toNat_append_byte (toNat_append_byte (toNat_two a b) c) d

theorem four_bytes (a b c d : BitVec 8) :
    (a ++ b ++ c ++ d).setWidth 64 = BitVec.ofNat 64 (beNat [a, b, c, d]) := by
  rw [← toNat_four, BitVec.ofNat_toNat]

theorem eight_bytes (a b c d e f g h : BitVec 8) :
    a ++ b ++ c ++ d ++ e ++ f ++ g ++ h = BitVec.ofNat 64 (beNat [a, b, c, d, e, f, g, h]) := by
  have hsix := toNat_append_byte (toNat_append_byte (toNat_four a b c d) e) f
  have height : (a ++ b ++ c ++ d ++ e ++ f ++ g ++ h).toNat = beNat [a, b, c, d, e, f, g, h] :=
    toNat_append_byte (toNat_append_byte hsix g) h
  rw [← height, BitVec.ofNat_toNat, BitVec.setWidth_eq]

/-! ## Lowest first -/

theorem beNat_reverse_cons (b : BitVec 8) (bs : List (BitVec 8)) :
    beNat (b :: bs).reverse = 256 * beNat bs.reverse + b.toNat := by
  rw [List.reverse_cons, beNat_concat]

theorem beNat_reverse_lt (bs : List (BitVec 8)) : beNat bs.reverse < 256 ^ bs.length := by
  induction bs with
  | nil => decide
  | cons b bs ih =>
      have hb := b.isLt
      rw [beNat_reverse_cons, List.length_cons, Nat.pow_succ]
      omega

/-- The digits of such a number are the bytes. -/
theorem digits_beNat (bs : List (BitVec 8)) :
    (List.range bs.length).map (fun i => BitVec.ofNat 8 (beNat bs.reverse / 256 ^ i)) = bs := by
  induction bs with
  | nil => rfl
  | cons b bs ih =>
      have hb := b.isLt
      rw [List.length_cons, List.range_succ_eq_map, List.map_cons, List.map_map]
      congr 1
      · rw [beNat_reverse_cons]
        apply BitVec.eq_of_toNat_eq
        rw [BitVec.toNat_ofNat]
        omega
      · refine Eq.trans (List.map_congr_left ?_) ih
        intro i _
        have hdiv : (256 * beNat bs.reverse + b.toNat) / 256 = beNat bs.reverse := by omega
        show BitVec.ofNat 8 (beNat (b :: bs).reverse / 256 ^ (i + 1)) = _
        rw [beNat_reverse_cons, Nat.pow_succ', ← Nat.div_div_eq_div_mul, hdiv]

/-! ## The low bytes of a word -/

theorem length_lowBytes (d : BitVec w) (n : Nat) : (lowBytes d n).length = n := by
  rw [lowBytes, List.length_map, List.length_range]

theorem getByte_eq (d : BitVec w) (i : Nat) : getByte d i = BitVec.ofNat 8 (d.toNat / 256 ^ i) := by
  apply BitVec.eq_of_toNat_eq
  rw [getByte, BitVec.extractLsb'_toNat, Nat.shiftRight_eq_div_pow, BitVec.toNat_ofNat,
    Nat.pow_mul]

/-- **Read lowest first, the low bytes are the word cut to them.** -/
theorem beNat_reverse_lowBytes (d : BitVec w) (n : Nat) :
    beNat (lowBytes d n).reverse = d.toNat % 256 ^ n := by
  induction n with
  | zero => rw [Nat.pow_zero, Nat.mod_one]; rfl
  | succ n ih =>
      have hlast : (lowBytes d (n + 1)).reverse = getByte d n :: (lowBytes d n).reverse := by
        rw [lowBytes, List.range_succ, List.map_append, List.reverse_append]
        rfl
      have hbyte : (getByte d n).toNat = d.toNat / 256 ^ n % 256 := by
        rw [getByte_eq, BitVec.toNat_ofNat]
      rw [hlast, beNat_cons, List.length_reverse, length_lowBytes, ih, hbyte, Nat.mod_pow_succ,
        Nat.mul_comm, Nat.add_comm]

/-- The low bytes of what has been loaded are the bytes of the memory. -/
theorem lowBytes_loadLE {a : Nat} (mem : BitVec a → BitVec 8) (p : BitVec a) {n : Nat}
    (hw : 8 * n ≤ w) :
    lowBytes (loadLE w mem p n) n = (List.range n).map fun i => mem (p + BitVec.ofNat a i) :=
  List.map_congr_left fun _ hi => getByte_loadLE mem p (List.mem_range.mp hi) hw

/-- What has been loaded is the number that the bytes of the memory spell lowest first. -/
theorem toNat_loadLE_beNat {a : Nat} (mem : BitVec a → BitVec 8) (p : BitVec a) {n : Nat}
    (hw : 8 * n ≤ w) : (loadLE w mem p n).toNat
      = beNat ((List.range n).map fun i => mem (p + BitVec.ofNat a i)).reverse := by
  have hlt : (loadLE w mem p n).toNat < 256 ^ n := by
    rw [toNat_loadLE mem p n hw]
    exact leNat_lt _ n
  rw [← lowBytes_loadLE mem p hw, beNat_reverse_lowBytes, Nat.mod_eq_of_lt hlt]

/-- **Loading what has been stored** gives its low bytes back. -/
theorem toNat_loadLE_storeLE {a v : Nat} (mem : BitVec a → BitVec 8) (p : BitVec a) (x : BitVec v)
    {n : Nat} (hw : 8 * n ≤ w) (ha : n ≤ 2 ^ a) :
    (loadLE w (storeLE mem p x n) p n).toNat = x.toNat % 256 ^ n := by
  have hbytes : (List.range n).map (fun i => storeLE mem p x n (p + BitVec.ofNat a i))
      = lowBytes x n :=
    List.map_congr_left fun i hi =>
      storeLE_inside mem p x (List.mem_range.mp hi) (Nat.lt_of_lt_of_le (List.mem_range.mp hi) ha)
  rw [toNat_loadLE_beNat _ _ hw, hbytes, beNat_reverse_lowBytes]

/-- The low bytes of a number of bytes are the bytes. -/
theorem lowBytes_beNat (bs : List (BitVec 8)) (h : 256 ^ bs.length ≤ 2 ^ w) :
    lowBytes (BitVec.ofNat w (beNat bs.reverse)) bs.length = bs := by
  have hlt := beNat_reverse_lt bs
  have hnat : (BitVec.ofNat w (beNat bs.reverse)).toNat = beNat bs.reverse := by
    rw [BitVec.toNat_ofNat, Nat.mod_eq_of_lt (by omega)]
  refine Eq.trans (List.map_congr_left ?_) (digits_beNat bs)
  intro i _
  rw [getByte_eq, hnat]

/-- **Swapping twice** leaves the low bytes as they are and clears the others. -/
theorem swapped_swapped (d : BitVec 64) {n : Nat} (hn : n ≤ 8) :
    swapped (swapped d n) n = BitVec.ofNat 64 (d.toNat % 256 ^ n) := by
  have hlow := lowBytes_beNat (w := 64) (lowBytes d n).reverse
  rw [List.length_reverse, length_lowBytes, List.reverse_reverse] at hlow
  rw [swapped, swapped, hlow (Nat.pow_le_pow_right (by omega) hn), beNat_reverse_lowBytes]

end ByteOrder
