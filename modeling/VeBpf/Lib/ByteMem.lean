import Mathlib.Algebra.Group.Nat.Defs
import Mathlib.Logic.Function.Basic

/-!
# Byte-addressed memories

A memory is a function from addresses of `a` bits to bytes. Words are little
endian and addresses wrap, so a word of `n` bytes at `p` lives at `p`, `p + 1`, …,
`p + (n - 1)`, all modulo `2 ^ a`.

Two readings of a store are kept side by side. `storeLE` is the finished result.
`Stored` describes a store of which only the first bytes have landed, and says
nothing about the rest of the word: it is what a byte-serial memory passes
through, and what is left when such a store is broken off and started again.
-/

namespace ByteMem

/-- Byte `i` of a word. -/
def getByte {w : Nat} (v : BitVec w) (i : Nat) : BitVec 8 := v.extractLsb' (8 * i) 8

/-- A word with byte `i` replaced. -/
def putByte {w : Nat} (v : BitVec w) (i : Nat) (b : BitVec 8) : BitVec w :=
  (v &&& ~~~(0xff#w <<< (8 * i))) ||| (b.setWidth w <<< (8 * i))

variable {a w : Nat}

/-- The `n` bytes at `p`, as a zero-extended little-endian word. -/
def loadLE (w : Nat) (mem : BitVec a → BitVec 8) (p : BitVec a) : Nat → BitVec w
  | 0 => 0#w
  | n + 1 => putByte (loadLE w mem p n) n (mem (p + BitVec.ofNat a n))

/-- The memory with the low `n` bytes of `v` stored at `p`. -/
def storeLE (mem : BitVec a → BitVec 8) (p : BitVec a) (v : BitVec w) (n : Nat) :
    BitVec a → BitVec 8 :=
  fun x => if (x - p).toNat < n then getByte v (x - p).toNat else mem x

/-- The value `Σ_{i<n} b i * 256 ^ i` that the bytes `b 0, b 1, …` spell. -/
def leNat (b : Nat → BitVec 8) : Nat → Nat
  | 0 => 0
  | n + 1 => leNat b n + (b n).toNat * 256 ^ n

/-- The bytes lie in the memory from an address on. -/
def HoldsBytes (mem : BitVec a → BitVec 8) (p : BitVec a) (data : List (BitVec 8)) : Prop :=
  ∀ i x, data[i]? = some x → mem (p + BitVec.ofNat a i) = x

/-! ## Bytes of a word -/

theorem append_inj {n m : Nat} {b b' : BitVec n} {c c' : BitVec m} :
    b ++ c = b' ++ c' ↔ b = b' ∧ c = c' := by
  constructor
  · intro h
    have hhigh := congrArg (BitVec.extractLsb' m n) h
    have hlow := congrArg (BitVec.extractLsb' 0 m) h
    simp only [BitVec.extractLsb'_append_eq_left, BitVec.extractLsb'_append_eq_right] at hhigh hlow
    exact ⟨hhigh, hlow⟩
  · rintro ⟨rfl, rfl⟩
    rfl

theorem setWidth_inj {n m : Nat} (h : n ≤ m) {b b' : BitVec n} :
    b.setWidth m = b'.setWidth m ↔ b = b' := by
  constructor
  · intro heq
    have hback := congrArg (BitVec.setWidth n) heq
    simpa only [BitVec.setWidth_setWidth_of_le _ h, BitVec.setWidth_eq] using hback
  · rintro rfl
    rfl

theorem getLsbD_putByte (v : BitVec w) (i j : Nat) (b : BitVec 8) (hj : j < w) :
    (putByte v i b).getLsbD j
      = if 8 * i ≤ j ∧ j < 8 * i + 8 then b.getLsbD (j - 8 * i) else v.getLsbD j := by
  have hff : (0xff#w).getLsbD (j - 8 * i) = decide (j - 8 * i < 8) := by
    have h8 : (255 : Nat).testBit (j - 8 * i) = decide (j - 8 * i < 8) := by
      rw [show (255 : Nat) = 2 ^ 8 - 1 by rfl, Nat.testBit_two_pow_sub_one]
    rw [BitVec.getLsbD_ofNat, h8]
    simp only [show j - 8 * i < w by omega, decide_true, Bool.true_and]
  unfold putByte
  simp only [BitVec.getLsbD_or, BitVec.getLsbD_and, BitVec.getLsbD_not, BitVec.getLsbD_shiftLeft,
    BitVec.getLsbD_setWidth, hj, hff, decide_true, Bool.true_and]
  by_cases h1 : 8 * i ≤ j
  · by_cases h2 : j < 8 * i + 8
    · simp [h1, h2, show ¬ j < 8 * i by omega, show j - 8 * i < 8 by omega,
        show j - 8 * i < w by omega]
    · simp [h1, h2, show ¬ j < 8 * i by omega, show ¬ j - 8 * i < 8 by omega,
        BitVec.getLsbD_of_ge b (j - 8 * i) (by omega)]
  · simp [h1, show j < 8 * i by omega]

/-- A word without its byte `n` and above is a number below `256 ^ n`. -/
theorem toNat_putByte (v : BitVec w) (n : Nat) (b : BitVec 8) (hv : v.toNat < 256 ^ n)
    (hw : 8 * n + 8 ≤ w) : (putByte v n b).toNat = v.toNat + b.toNat * 256 ^ n := by
  have h256 : (256 : Nat) ^ n = 2 ^ (8 * n) := by
    rw [Nat.pow_mul]
  have hb : b.toNat * 2 ^ (8 * n) < 2 ^ w := by
    have : b.toNat * 2 ^ (8 * n) < 2 ^ 8 * 2 ^ (8 * n) :=
      Nat.mul_lt_mul_of_pos_right b.isLt (Nat.two_pow_pos _)
    have hle : 2 ^ 8 * 2 ^ (8 * n) ≤ 2 ^ w := by
      rw [← Nat.pow_add]; exact Nat.pow_le_pow_right (by omega) (by omega)
    omega
  have hor : putByte v n b = (b.setWidth w <<< (8 * n)) ||| v := by
    apply BitVec.eq_of_getLsbD_eq
    intro j hj
    rw [getLsbD_putByte v n j b hj]
    simp only [BitVec.getLsbD_or, BitVec.getLsbD_shiftLeft, BitVec.getLsbD_setWidth, hj,
      decide_true, Bool.true_and]
    by_cases h1 : 8 * n ≤ j
    · have hz : v.getLsbD j = false := by
        apply Nat.testBit_lt_two_pow
        calc v.toNat < 2 ^ (8 * n) := h256 ▸ hv
          _ ≤ 2 ^ j := Nat.pow_le_pow_right (by omega) h1
      by_cases h2 : j < 8 * n + 8
      · simp [h1, h2, hz, show ¬ j < 8 * n by omega, show j - 8 * n < w by omega]
      · simp [h1, h2, hz, show ¬ j < 8 * n by omega,
          BitVec.getLsbD_of_ge b (j - 8 * n) (by omega)]
    · simp [h1, show j < 8 * n by omega]
  rw [hor, BitVec.toNat_or, BitVec.toNat_shiftLeft, BitVec.toNat_setWidth, Nat.shiftLeft_eq]
  have hbw : b.toNat % 2 ^ w = b.toNat := Nat.mod_eq_of_lt (by
    calc b.toNat < 2 ^ 8 := b.isLt
      _ ≤ 2 ^ w := Nat.pow_le_pow_right (by omega) (by omega))
  rw [hbw, Nat.mod_eq_of_lt hb, ← Nat.shiftLeft_eq,
    ← Nat.shiftLeft_add_eq_or_of_lt (h256 ▸ hv), Nat.shiftLeft_eq, h256, Nat.add_comm]

theorem leNat_lt (b : Nat → BitVec 8) (n : Nat) : leNat b n < 256 ^ n := by
  induction n with
  | zero => simp [leNat]
  | succ n ih =>
      have hb : (b n).toNat < 256 := (b n).isLt
      have hle : (b n).toNat * 256 ^ n ≤ 255 * 256 ^ n := Nat.mul_le_mul_right _ (by omega)
      rw [leNat, Nat.pow_succ]
      omega

/-- **A load is the little-endian number its bytes spell.** -/
theorem toNat_loadLE (mem : BitVec a → BitVec 8) (p : BitVec a) (n : Nat) (hw : 8 * n ≤ w) :
    (loadLE w mem p n).toNat = leNat (fun i => mem (p + BitVec.ofNat a i)) n := by
  induction n with
  | zero => simp [loadLE, leNat]
  | succ n ih =>
      have hn := ih (by omega)
      rw [loadLE, toNat_putByte _ _ _ (by rw [hn]; exact leNat_lt _ n) (by omega), hn, leNat]

/-- Widening a load is loading into a wider word. -/
theorem setWidth_loadLE (mem : BitVec a → BitVec 8) (p : BitVec a) {n v : Nat} (hv : 8 * n ≤ v)
    (hw : v ≤ w) : (loadLE v mem p n).setWidth w = loadLE w mem p n := by
  apply BitVec.eq_of_toNat_eq
  have hlt : (loadLE v mem p n).toNat < 2 ^ w :=
    Nat.lt_of_lt_of_le (BitVec.isLt _) (Nat.pow_le_pow_right (by omega) hw)
  rw [BitVec.toNat_setWidth, Nat.mod_eq_of_lt hlt, toNat_loadLE mem p n hv,
    toNat_loadLE mem p n (Nat.le_trans hv hw)]

/-- **The bytes of a load are the bytes loaded.** -/
theorem getByte_loadLE (mem : BitVec a → BitVec 8) (p : BitVec a) {n i : Nat} (hi : i < n)
    (hw : 8 * n ≤ w) : getByte (loadLE w mem p n) i = mem (p + BitVec.ofNat a i) := by
  induction n with
  | zero => omega
  | succ n ih =>
      ext j hj
      have hlow : 8 * i + j < w := by omega
      rw [getByte, BitVec.getElem_extractLsb', loadLE, getLsbD_putByte _ _ _ _ hlow]
      by_cases hin : i = n
      · subst hin
        rw [if_pos ⟨by omega, by omega⟩, Nat.add_sub_cancel_left, BitVec.getLsbD_eq_getElem hj]
      · rw [if_neg (by omega), ← ih (by omega) (by omega), getByte, BitVec.getElem_extractLsb']

/-- Only the bytes that are loaded count, whatever the size of the memory. -/
theorem loadLE_congr {b n : Nat} {mem : BitVec a → BitVec 8} {mem' : BitVec b → BitVec 8}
    {p : BitVec a} {p' : BitVec b}
    (h : ∀ i, i < n → mem (p + BitVec.ofNat a i) = mem' (p' + BitVec.ofNat b i)) :
    loadLE w mem p n = loadLE w mem' p' n := by
  induction n with
  | zero => rfl
  | succ n ih => rw [loadLE, loadLE, ih fun i hi => h i (by omega), h n (Nat.lt_succ_self n)]

theorem loadLE_zero {mem : BitVec a → BitVec 8} {p : BitVec a} {n : Nat}
    (h : ∀ i, i < n → mem (p + BitVec.ofNat a i) = 0) : loadLE w mem p n = 0 := by
  induction n with
  | zero => rfl
  | succ n ih =>
      rw [loadLE, ih fun i hi => h i (by omega), h n (Nat.lt_succ_self n)]
      simp [putByte]

/-- The first byte read fills a word on its own. -/
theorem loadLE_one (mem : BitVec a → BitVec 8) (p : BitVec a) :
    loadLE w mem p 1 = (mem p).setWidth w := by
  simp [loadLE, putByte]

/-! ## Stores -/

/-- Offsets below the size of the memory address distinct bytes. -/
theorem toNat_offset (p : BitVec a) {i : Nat} (hi : i < 2 ^ a) :
    (p + BitVec.ofNat a i - p).toNat = i := by
  rw [BitVec.add_comm, BitVec.add_sub_cancel, BitVec.toNat_ofNat, Nat.mod_eq_of_lt hi]

theorem add_toNat_sub (p x : BitVec a) : p + BitVec.ofNat a (x - p).toNat = x := by
  rw [BitVec.ofNat_toNat, BitVec.setWidth_eq, BitVec.add_comm, BitVec.sub_add_cancel]

theorem storeLE_inside (mem : BitVec a → BitVec 8) (p : BitVec a) (v : BitVec w) {n i : Nat}
    (hi : i < n) (ha : i < 2 ^ a) : storeLE mem p v n (p + BitVec.ofNat a i) = getByte v i := by
  unfold storeLE
  rw [toNat_offset p ha, if_pos hi]

theorem storeLE_outside (mem : BitVec a → BitVec 8) (p : BitVec a) (v : BitVec w) {n : Nat}
    {x : BitVec a} (hx : ¬ (x - p).toNat < n) : storeLE mem p v n x = mem x := by
  unfold storeLE; rw [if_neg hx]

theorem storeLE_zero (mem : BitVec a → BitVec 8) (p : BitVec a) (v : BitVec w) :
    storeLE mem p v 0 = mem := by
  funext x
  exact storeLE_outside mem p v (Nat.not_lt_zero _)

/-- One more byte. -/
theorem update_storeLE (mem : BitVec a → BitVec 8) (p : BitVec a) (v : BitVec w) {k : Nat}
    (hk : k < 2 ^ a) :
    Function.update (storeLE mem p v k) (p + BitVec.ofNat a k) (getByte v k)
      = storeLE mem p v (k + 1) := by
  funext x
  by_cases hx : x = p + BitVec.ofNat a k
  · subst hx
    rw [Function.update_self, storeLE_inside mem p v (Nat.lt_succ_self k) hk]
  · have hne : (x - p).toNat ≠ k := by
      rintro rfl
      exact hx (add_toNat_sub p x).symm
    rw [Function.update_of_ne hx]
    unfold storeLE
    by_cases hlt : (x - p).toNat < k
    · rw [if_pos hlt, if_pos (by omega)]
    · rw [if_neg hlt, if_neg (by omega)]

/-- A store of all the bytes of a word tells which word it was. -/
theorem storeLE_inj {mem : BitVec a → BitVec 8} {p : BitVec a} {v v' : BitVec w} {n : Nat}
    (hw : w ≤ 8 * n) (ha : n ≤ 2 ^ a) : storeLE mem p v n = storeLE mem p v' n ↔ v = v' := by
  constructor
  · intro heq
    ext j hj
    have hbyte := congrFun heq (p + BitVec.ofNat a (j / 8))
    rw [storeLE_inside mem p v (by omega) (by omega),
      storeLE_inside mem p v' (by omega) (by omega)] at hbyte
    have hbit := congrArg (BitVec.getLsbD · (j % 8)) hbyte
    have hlow : j % 8 < 8 := Nat.mod_lt _ (by omega)
    simpa only [getByte, BitVec.getLsbD_extractLsb', hlow, decide_true, Bool.true_and,
      Nat.div_add_mod, BitVec.getLsbD_eq_getElem hj] using hbit
  · rintro rfl
    rfl

/-- Only the bytes that are stored count. -/
theorem storeLE_extract {j k n : Nat} (mem : BitVec a → BitVec 8) (p : BitVec a) (x : BitVec j)
    (hn : 8 * n ≤ k) :
    storeLE mem p ((x.extractLsb' 0 k).setWidth w) n = storeLE mem p (x.setWidth w) n := by
  funext y
  unfold storeLE
  by_cases hy : (y - p).toNat < n
  · rw [if_pos hy, if_pos hy]
    ext i hi
    have hlow : 8 * (y - p).toNat + i < k := by omega
    simp only [getByte, BitVec.getElem_extractLsb', BitVec.getLsbD_setWidth,
      BitVec.getLsbD_extractLsb', Nat.zero_add, hlow, decide_true, Bool.true_and]
  · rw [if_neg hy, if_neg hy]

/--
`mem'` is what `mem` may look like while the low `n` bytes of `v` are being
stored at `p`: the first `k` bytes have landed, bytes outside the word are as
they were, and the rest of the word may hold anything.
-/
structure Stored (mem : BitVec a → BitVec 8) (p : BitVec a) (v : BitVec w) (n k : Nat)
    (mem' : BitVec a → BitVec 8) : Prop where
  /-- The bytes stored so far. -/
  done : ∀ i, i < k → mem' (p + BitVec.ofNat a i) = getByte v i
  /-- Nothing outside the word has changed. -/
  frame : ∀ x, ¬ (x - p).toNat < n → mem' x = mem x

theorem Stored.refl (mem : BitVec a → BitVec 8) (p : BitVec a) (v : BitVec w) (n : Nat) :
    Stored mem p v n 0 mem :=
  ⟨fun i hi => absurd hi (by omega), fun _ _ => rfl⟩

/-- Starting the store again forgets how far it had come. -/
theorem Stored.restart {mem mem' : BitVec a → BitVec 8} {p : BitVec a} {v : BitVec w} {n k : Nat}
    (h : Stored mem p v n k mem') : Stored mem p v n 0 mem' :=
  ⟨fun i hi => absurd hi (by omega), h.frame⟩

/-- One more byte lands. -/
theorem Stored.next {mem mem' : BitVec a → BitVec 8} {p : BitVec a} {v : BitVec w} {n k : Nat}
    (h : Stored mem p v n k mem') (hk : k < n) (ha : n ≤ 2 ^ a) :
    Stored mem p v n (k + 1) (Function.update mem' (p + BitVec.ofNat a k) (getByte v k)) := by
  refine ⟨?_, ?_⟩
  · intro i hi
    by_cases hik : i = k
    · subst hik; rw [Function.update_self]
    · have hne : p + BitVec.ofNat a i ≠ p + BitVec.ofNat a k := by
        intro he
        have hi' := toNat_offset p (i := i) (by omega)
        rw [he, toNat_offset p (by omega)] at hi'
        exact hik hi'.symm
      rw [Function.update_of_ne hne]
      exact h.done i (by omega)
  · intro x hx
    have hne : x ≠ p + BitVec.ofNat a k := by
      intro he
      rw [he, toNat_offset p (by omega)] at hx
      exact hx hk
    rw [Function.update_of_ne hne]
    exact h.frame x hx

/-- **When the last byte has landed the store is complete.** -/
theorem Stored.complete {mem mem' : BitVec a → BitVec 8} {p : BitVec a} {v : BitVec w} {n : Nat}
    (h : Stored mem p v n n mem') : mem' = storeLE mem p v n := by
  funext x
  by_cases hx : (x - p).toNat < n
  · have hd := h.done _ hx
    rw [add_toNat_sub] at hd
    rw [hd]; unfold storeLE; rw [if_pos hx]
  · rw [h.frame x hx, storeLE_outside mem p v hx]

end ByteMem
