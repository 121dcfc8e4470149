import VeBpf.Lib.RestoringDivision
import VeBpf.Isa.Machine

/-!
# The divider, the shifter and the call handler

One lemma per phase of each unit's handshake, and for each the result: the divider
delivers the quotient and the remainder, the shifter delivers the shift, and a
call leaves the store as `CallStore.call` says.
-/

namespace VeBpf

open RestoringDivision

/-! ## The divider -/

namespace Divider

variable {w : Nat} {d : Divider w} {a b : BitVec w} {n : Nat}

/-- The divider is `n` steps away from the result of `a / b`. -/
structure Busy (d : Divider w) (a b : BitVec w) (n : Nat) : Prop where
  counter : d.counter.toNat = n
  qr : d.qr.toNat = divState w a.toNat b.toNat n
  divisor : d.divisorR = b
  err : d.err = false

theorem busy_load (d : Divider w) (a : BitVec w) (hb : b ≠ 0#w) :
    Busy (d.step true a b true) a b w := by
  have hlt : w < 2 ^ (w + 1) := Nat.lt_of_lt_of_le Nat.lt_two_pow_self
    (Nat.pow_le_pow_right (by omega) (by omega))
  have hstep : d.step true a b true
      = { counter := BitVec.ofNat (w + 1) w, qr := a.setWidth (w + w), divisorR := b,
          err := false } := by
    simp only [step, Bool.not_true, Bool.false_eq_true, if_false, if_true, hb]
  rw [hstep]
  refine ⟨?_, ?_, rfl, rfl⟩
  · rw [BitVec.toNat_ofNat, Nat.mod_eq_of_lt hlt]
  · rw [BitVec.toNat_setWidth, divState_start a.isLt, Nat.mod_eq_of_lt]
    exact Nat.lt_of_lt_of_le a.isLt (Nat.pow_le_pow_right (by omega) (by omega))

theorem two_pow_eq_double (hw : 0 < w) : 2 ^ w = 2 * 2 ^ (w - 1) := by
  rw [Nat.mul_comm, ← Nat.pow_succ]
  congr 1
  omega

/-- What is above the lower half of the register, less one bit, is below twice the divisor. -/
theorem Busy.high_lt (hw : 0 < w) (h : Busy d a b n) (hn : n ≤ w) (hb : b ≠ 0#w) :
    d.qr.toNat / 2 ^ (w - 1) < 2 * b.toNat := by
  have hbpos : 0 < b.toNat := BitVec.toNat_pos_of_ne_zero hb
  have hhigh := divState_high_lt (a := a.toNat) (n := n) a.isLt hn hbpos
  rw [← h.qr, Nat.div_lt_iff_lt_mul (Nat.two_pow_pos _)] at hhigh
  rw [Nat.div_lt_iff_lt_mul (Nat.two_pow_pos _)]
  calc d.qr.toNat < b.toNat * 2 ^ w := hhigh
    _ = 2 * b.toNat * 2 ^ (w - 1) := by rw [two_pow_eq_double hw]; ring

/-- The bits that the trial subtraction sees are all of what is above. -/
theorem Busy.toNat_trial (hw : 0 < w) (h : Busy d a b n) (hn : n ≤ w) (hb : b ≠ 0#w) :
    (d.qr.extractLsb' (w - 1) (w + 1)).toNat = d.qr.toNat / 2 ^ (w - 1) := by
  have hblt := b.isLt
  have htop := h.high_lt hw hn hb
  have hpow1 : 2 ^ (w + 1) = 2 * 2 ^ w := by rw [Nat.pow_succ, Nat.mul_comm]
  rw [BitVec.extractLsb'_toNat, Nat.shiftRight_eq_div_pow, Nat.mod_eq_of_lt (by omega)]

/-- The sign of the trial subtraction says whether the divisor fits. -/
theorem diff_sign (hw : 0 < w) (h : Busy d a b n) (hn : n ≤ w) (hb : b ≠ 0#w) :
    (d.diff.getLsbD w = true ↔ d.qr.toNat / 2 ^ (w - 1) < b.toNat)
    ∧ (¬ d.qr.toNat / 2 ^ (w - 1) < b.toNat →
        d.diff.toNat = d.qr.toNat / 2 ^ (w - 1) - b.toNat) := by
  have hblt := b.isLt
  have htop := h.high_lt hw hn hb
  have hpow1 : 2 ^ (w + 1) = 2 * 2 ^ w := by rw [Nat.pow_succ, Nat.mul_comm]
  have hext := h.toNat_trial hw hn hb
  have hdiv : (d.divisorR.setWidth (w + 1)).toNat = b.toNat := by
    rw [h.divisor, BitVec.toNat_setWidth, Nat.mod_eq_of_lt (by omega)]
  have hval : d.diff.toNat
      = (2 ^ (w + 1) - b.toNat + d.qr.toNat / 2 ^ (w - 1)) % 2 ^ (w + 1) := by
    unfold diff
    rw [BitVec.toNat_sub, hext, hdiv]
  have hmsb : d.diff.getLsbD w = true ↔ 2 ^ w ≤ d.diff.toNat := by
    have hm : d.diff.getLsbD w = d.diff.msb := by
      rw [BitVec.msb_eq_getLsbD_last]; simp
    rw [hm, BitVec.msb_eq_decide]
    simp
  by_cases hlt : d.qr.toNat / 2 ^ (w - 1) < b.toNat
  · refine ⟨⟨fun _ => hlt, fun _ => ?_⟩, fun hc => absurd hlt hc⟩
    rw [hmsb, hval, Nat.mod_eq_of_lt (by omega)]
    omega
  · have hdval : d.diff.toNat = d.qr.toNat / 2 ^ (w - 1) - b.toNat := by
      rw [hval, show 2 ^ (w + 1) - b.toNat + d.qr.toNat / 2 ^ (w - 1)
        = 2 ^ (w + 1) + (d.qr.toNat / 2 ^ (w - 1) - b.toNat) by omega,
        Nat.add_mod_left, Nat.mod_eq_of_lt (by omega)]
    refine ⟨⟨?_, fun hc => absurd hc hlt⟩, fun _ => hdval⟩
    intro hs
    rw [hmsb, hdval] at hs
    omega

/-- A register that does not hold the divisor yet can be shifted. -/
theorem qr_fits (hw : 0 < w) (hlt : d.qr.toNat / 2 ^ (w - 1) < b.toNat) :
    2 * d.qr.toNat < 2 ^ (w + w) := by
  rw [Nat.div_lt_iff_lt_mul (Nat.two_pow_pos _)] at hlt
  calc 2 * d.qr.toNat < 2 * (b.toNat * 2 ^ (w - 1)) := by omega
    _ = b.toNat * (2 * 2 ^ (w - 1)) := by ring
    _ = b.toNat * 2 ^ w := by rw [two_pow_eq_double hw]
    _ ≤ 2 ^ w * 2 ^ w := Nat.mul_le_mul_right _ (Nat.le_of_lt b.isLt)
    _ = 2 ^ (w + w) := (Nat.pow_add _ _ _).symm

/-- The difference fits the upper half. -/
theorem diff_high (hw : 0 < w) (h : Busy d a b (n + 1)) (hn : n < w) (hb : b ≠ 0#w)
    (hlt : ¬ d.qr.toNat / 2 ^ (w - 1) < b.toNat) :
    (d.diff.setWidth w).toNat = d.qr.toNat / 2 ^ (w - 1) - b.toNat := by
  have hblt := b.isLt
  have htop := h.high_lt hw hn hb
  rw [BitVec.toNat_setWidth, (diff_sign hw h hn hb).2 hlt, Nat.mod_eq_of_lt (by omega)]

/-- The lower half shifts in a one. -/
theorem qr_low (hw : 0 < w) (d : Divider w) :
    (d.qr.setWidth w <<< 1 ||| 1#w).toNat = 2 * d.qr.toNat % 2 ^ w + 1
    ∧ 2 * d.qr.toNat % 2 ^ w + 1 < 2 ^ w := by
  have hw1 : 1 % 2 ^ w = 1 := Nat.mod_eq_of_lt (Nat.one_lt_two_pow (by omega))
  have heven : 2 * d.qr.toNat % 2 ^ w = 2 * (d.qr.toNat % 2 ^ (w - 1)) := by
    rw [two_pow_eq_double hw, Nat.mul_mod_mul_left]
  constructor
  · rw [BitVec.toNat_or, BitVec.toNat_shiftLeft, BitVec.toNat_setWidth, BitVec.toNat_ofNat, hw1,
      Nat.shiftLeft_eq, Nat.pow_one, Nat.mul_comm, Nat.mul_mod, Nat.mod_mod, ← Nat.mul_mod, heven]
    have hor := Nat.two_pow_add_eq_or_of_lt (i := 1) (b := 1) (by omega)
      (d.qr.toNat % 2 ^ (w - 1))
    simpa using hor.symm
  · have hlt := Nat.mod_lt d.qr.toNat (Nat.two_pow_pos (w - 1))
    have hpow := two_pow_eq_double hw
    omega

/-- The register after an idle edge is one step of restoring division further. -/
theorem qr_step (hw : 0 < w) (h : Busy d a b (n + 1)) (hn : n < w) (hb : b ≠ 0#w)
    (x y : BitVec w) :
    (d.step true x y false).qr.toNat = divStep w b.toNat d.qr.toNat
    ∧ (d.step true x y false).counter = d.counter - 1#(w + 1)
    ∧ (d.step true x y false).divisorR = d.divisorR
    ∧ (d.step true x y false).err = d.err := by
  have hsign := (diff_sign hw h hn hb).1
  have hne : ¬ d.counter = 0#(w + 1) := by
    intro hz
    have := h.counter
    rw [hz] at this
    simp at this
  unfold step divStep
  -- the divisor goes into what is above the lower half, or not
  by_cases hs : d.diff.getLsbD w = true
  · have hlt := hsign.mp hs
    simp only [Bool.not_true, Bool.false_eq_true, if_false, hne, Bool.not_eq_true',
      beq_eq_false_iff_ne, ne_eq, not_false_eq_true, if_true, hs, hlt, and_true,
      BitVec.ofNat_eq_ofNat]
    rw [BitVec.toNat_shiftLeft, Nat.shiftLeft_eq, Nat.pow_one, Nat.mul_comm,
      Nat.mod_eq_of_lt (qr_fits hw hlt)]
  · have hlt : ¬ d.qr.toNat / 2 ^ (w - 1) < b.toNat := fun hc => hs (hsign.mpr hc)
    obtain ⟨hlo, hlolt⟩ := qr_low hw d
    simp only [Bool.not_true, Bool.false_eq_true, if_false, hne, Bool.not_eq_true',
      beq_eq_false_iff_ne, ne_eq, not_false_eq_true, if_true, hs, hlt, and_true,
      BitVec.ofNat_eq_ofNat]
    rw [BitVec.toNat_append, diff_high hw h hn hb hlt, hlo,
      ← Nat.shiftLeft_add_eq_or_of_lt hlolt, Nat.shiftLeft_eq]

/-- **One idle edge brings the divider one step closer.** -/
theorem Busy.step (hw : 0 < w) (h : Busy d a b (n + 1)) (hn : n < w) (hb : b ≠ 0#w)
    (x y : BitVec w) : Busy (d.step true x y false) a b n := by
  obtain ⟨hq, hc, hd, he⟩ := qr_step hw h hn hb x y
  have hbpos : 0 < b.toNat := BitVec.toNat_pos_of_ne_zero hb
  refine ⟨?_, ?_, by rw [hd, h.divisor], by rw [he, h.err]⟩
  · have hcnt := h.counter
    have hlt := d.counter.isLt
    rw [hc, BitVec.toNat_sub, hcnt, BitVec.toNat_one (by omega), 
      show 2 ^ (w + 1) - 1 + (n + 1) = 2 ^ (w + 1) + n by omega, Nat.add_mod_left,
      Nat.mod_eq_of_lt (by omega)]
  · rw [hq, h.qr, divStep_divState a.isLt hbpos hn]

theorem Busy.ack_iff (h : Busy d a b n) : d.ack = true ↔ n = 0 := by
  unfold ack
  rw [beq_iff_eq, ← h.counter]
  constructor
  · intro hz; rw [hz]; rfl
  · intro hz; exact BitVec.eq_of_toNat_eq (by simpa using hz)

/-- **The quotient and the remainder.** -/
theorem Busy.result (h : Busy d a b 0) (hb : b ≠ 0#w) :
    d.quotient = a / b ∧ d.remainder = a % b := by
  have hbpos : 0 < b.toNat := BitVec.toNat_pos_of_ne_zero hb
  have hqr := h.qr
  rw [divState_done] at hqr
  have hq : a.toNat / b.toNat < 2 ^ w := Nat.lt_of_le_of_lt (Nat.div_le_self _ _) a.isLt
  have hr : a.toNat % b.toNat < 2 ^ w := Nat.lt_of_le_of_lt (Nat.mod_le _ _) a.isLt
  constructor
  · apply BitVec.eq_of_toNat_eq
    unfold quotient
    rw [BitVec.extractLsb'_toNat, Nat.shiftRight_zero, hqr, Nat.mul_comm, Nat.mul_add_mod,
      Nat.mod_eq_of_lt hq, BitVec.toNat_udiv]
  · apply BitVec.eq_of_toNat_eq
    unfold remainder
    rw [BitVec.extractLsb'_toNat, Nat.shiftRight_eq_div_pow, hqr, Nat.mul_comm,
      Nat.mul_add_div (Nat.two_pow_pos w), Nat.div_eq_of_lt hq, Nat.add_zero,
      Nat.mod_eq_of_lt hr, BitVec.toNat_umod]

/-- A finished division stays as it is until the next strobe. -/
theorem step_of_ack (hack : d.ack = true) (x y : BitVec w) : d.step true x y false = d := by
  have hc : (d.counter == 0#(w + 1)) = true := hack
  simp only [step, Bool.not_true, Bool.false_eq_true, if_false, hc]

/-- A zero divisor is reported at once. -/
theorem step_zero (d : Divider w) (a : BitVec w) :
    (d.step true a 0#w true).ack = true ∧ (d.step true a 0#w true).err = true := by
  simp [step, ack]

end Divider

/-! ## The shifter -/

namespace Shifter

/-- The shift amounts have been taken up. -/
structure Loaded (u : Shifter 64) (q : ShiftRequest) : Prop where
  ack : u.ack = false
  state : u.state = true
  tmp2 : u.tmp2 = if q.left then q.value <<< q.shift.toNat else q.value >>> q.shift.toNat
  tmp1 : q.left = false → u.tmp1 = ~~~(BitVec.allOnes 64 >>> q.shift.toNat)

theorem step_start {u : Shifter 64} (hack : u.ack = false) (hst : u.state = false)
    (q : ShiftRequest) : Loaded (u.step false true q.arith q.left q.value q.shift) q := by
  cases hl : q.left <;> simp [step, hack, hst] <;> constructor <;> simp [hl]

theorem step_idle {u : Shifter 64} (hack : u.ack = false) (hst : u.state = false)
    (arith left : Bool) (value shift : BitVec 64) :
    u.step false false arith left value shift = u := by
  simp [step, hack, hst]

/-- The mask and the shifted value make the arithmetic shift. -/
theorem mask_or_shift (v : BitVec 64) (n : Nat) (h : v.msb = true) :
    ~~~(BitVec.allOnes 64 >>> n) ||| v >>> n = v.sshiftRight n := by
  rw [BitVec.sshiftRight_eq_of_msb_true h]
  apply BitVec.eq_of_getLsbD_eq
  intro i hi
  simp only [BitVec.getLsbD_or, BitVec.getLsbD_not, BitVec.getLsbD_ushiftRight,
    BitVec.getLsbD_allOnes, hi, decide_true, Bool.true_and]
  by_cases hin : n + i < 64
  · simp [hin]
  · simp [hin, BitVec.getLsbD_of_ge v (n + i) (by omega)]

/-- **The shifter delivers the shift.** -/
theorem Loaded.step {u : Shifter 64} {q : ShiftRequest} (h : Loaded u q) (stb : Bool) :
    (u.step false stb q.arith q.left q.value q.shift).ack = true
    ∧ (u.step false stb q.arith q.left q.value q.shift).out = q.result := by
  have hstep : u.step false stb q.arith q.left q.value q.shift
      = { u with out := if !q.left && q.arith && q.value.msb then u.tmp1 ||| u.tmp2 else u.tmp2,
                 ack := true } := by
    simp [Shifter.step, h.ack, h.state]
  rw [hstep]
  refine ⟨rfl, ?_⟩
  unfold ShiftRequest.result
  dsimp only
  rw [h.tmp2]
  cases hl : q.left with
  | true => simp
  | false =>
      rw [h.tmp1 hl]
      cases ha : q.arith with
      | false => simp
      | true =>
          cases hm : q.value.msb with
          | true =>
              simp only [Bool.not_false, Bool.and_self, Bool.false_eq_true, if_true, if_false]
              exact mask_or_shift _ _ hm
          | false => simp [BitVec.sshiftRight_eq_of_msb_false hm]

/-- After the acknowledge the shifter is idle again, whatever its inputs. -/
theorem step_ack {u : Shifter 64} (hack : u.ack = true) (stb arith left : Bool)
    (value shift : BitVec 64) :
    (u.step false stb arith left value shift).ack = false
    ∧ (u.step false stb arith left value shift).state = false := by
  simp [step, hack]

end Shifter

/-! ## The call handler -/

namespace CallHandler

/-- What the handler holds between calls. -/
def store (h : CallHandler) : CallStore where
  words := h.callHandlerMem
  writeEnable := h.writeEnable
  pause := h.pause
  ret := h.ret

variable {h : CallHandler} {st : CallStore} {func r1 r2 : BitVec 64}

/-- With the strobe low only a word that is already on its way lands. -/
theorem step_idle (h : CallHandler) (func r1 r2 : BitVec 64) :
    (h.step false func false r1 r2).store = h.store.written r1 r2
    ∧ (h.step false func false r1 r2).ack = false
    ∧ (h.step false func false r1 r2).err = false := by
  simp [step, store, CallStore.written]

/--
The handler is working on a call that began with `st` in the store. Until it
acknowledges, a call begun now would come to the same. Once it has, one more edge
with the strobe still high leaves the outcome in the store.
-/
structure Calling (h : CallHandler) (st : CallStore) (func r1 r2 : BitVec 64) : Prop where
  before : h.ack = false → h.err = false ∧ h.store.call func r1 r2 = st.call func r1 r2
  after : h.ack = true →
    (h.step false func true r1 r2).store = st.call func r1 r2
    ∧ h.ret = (st.call func r1 r2).ret ∧ h.err = !CallStore.known func

/-- Edges until the handler acknowledges. -/
def wait (h : CallHandler) (func : BitVec 64) : Nat :=
  if h.ack then 0
  else if func = funcStore then
    (if h.writeEnable then 0 else 1) + (if h.pause then 1 else 2)
  else if func = funcLoad then (if h.pause then 1 else 2)
  else 1

theorem calling_start (hack : h.ack = false) (herr : h.err = false) :
    Calling h h.store func r1 r2 :=
  ⟨fun _ => ⟨herr, rfl⟩, fun ha => absurd ha (by simp [hack])⟩

/-- A call that needs no second look at its flags is acknowledged after one edge. -/
theorem calling_step_at_once (r1 r2 : BitVec 64) (hl : func ≠ funcStore) (hr : func ≠ funcLoad)
    (herr : h.err = false) :
    Calling (h.step false func true r1 r2) h.store func r1 r2
    ∧ (h.step false func true r1 r2).ack = true := by
  by_cases hled : func = funcLed
  · refine ⟨⟨?_, fun _ => ?_⟩, ?_⟩
    · intro ha
      simp [step, hled] at ha
    · cases hwe : h.writeEnable <;>
        simp [step, store, CallStore.call, CallStore.written, CallStore.known, hled, hwe, herr,
          Ram64V1.step, show funcLed ≠ funcStore by decide, show funcLed ≠ funcLoad by decide]
    · simp [step, hled]
  · refine ⟨⟨?_, fun _ => ?_⟩, ?_⟩
    · intro ha
      simp [step, hled, hl, hr] at ha
    · cases hwe : h.writeEnable <;>
        simp [step, store, CallStore.call, CallStore.written, CallStore.known, hled, hl, hr, hwe,
          Ram64V1.step]
    · simp [step, hled, hl, hr]

/-- A load waits one edge for the read unless `pause` is set already. -/
theorem calling_step_load (hack : h.ack = false) (herr : h.err = false) :
    Calling (h.step false funcLoad true r1 r2) h.store funcLoad r1 r2
    ∧ (h.step false funcLoad true r1 r2).wait funcLoad < h.wait funcLoad := by
  have h1 : funcLoad ≠ funcLed := by decide
  have h2 : funcLoad ≠ funcStore := by decide
  cases hp : h.pause
  · refine ⟨⟨fun _ => ?_, ?_⟩, ?_⟩
    · cases hwe : h.writeEnable <;>
        simp [step, store, CallStore.call, CallStore.written, h1, h2, hp, hwe, herr, Ram64V1.step]
    · intro ha
      simp [step, h1, h2, hp, hack] at ha
    · simp [step, wait, h1, h2, hp, hack]
  · refine ⟨⟨?_, fun _ => ?_⟩, ?_⟩
    · intro ha
      simp [step, h1, h2, hp] at ha
    · cases hwe : h.writeEnable <;>
        simp [step, store, CallStore.call, CallStore.written, CallStore.known, h1, h2, hp, hwe,
          herr, Ram64V1.step]
    · simp [step, wait, h1, h2, hp, hack]

/-- A store raises the write enable, then `pause`, then acknowledges. -/
theorem calling_step_store (hack : h.ack = false) (herr : h.err = false) :
    Calling (h.step false funcStore true r1 r2) h.store funcStore r1 r2
    ∧ (h.step false funcStore true r1 r2).wait funcStore < h.wait funcStore := by
  have h1 : funcStore ≠ funcLed := by decide
  cases hwe : h.writeEnable
  · refine ⟨⟨fun _ => ?_, ?_⟩, ?_⟩
    · simp [step, store, CallStore.call, CallStore.written, h1, hwe, herr, Ram64V1.step]
    · intro ha
      simp [step, h1, hwe, hack] at ha
    · cases hp : h.pause <;> simp [step, wait, h1, hwe, hp, hack]
  · cases hp : h.pause
    · refine ⟨⟨fun _ => ?_, ?_⟩, ?_⟩
      · simp [step, store, CallStore.call, CallStore.written, h1, hwe, hp, herr, Ram64V1.step]
      · intro ha
        simp [step, h1, hwe, hp, hack] at ha
      · simp [step, wait, h1, hwe, hp, hack]
    · refine ⟨⟨?_, fun _ => ?_⟩, ?_⟩
      · intro ha
        simp [step, h1, hwe, hp] at ha
      · simp [step, store, CallStore.call, CallStore.written, CallStore.known, h1, hwe, hp, herr,
          Ram64V1.step]
      · simp [step, wait, h1, hwe, hp, hack]

/-- **One edge of a call that has not been acknowledged.** -/
theorem Calling.step (hc : Calling h st func r1 r2) (hack : h.ack = false) :
    Calling (h.step false func true r1 r2) st func r1 r2
    ∧ (h.step false func true r1 r2).wait func < h.wait func := by
  obtain ⟨herr, hcall⟩ := hc.before hack
  -- it is enough to argue for a call that begins now
  suffices hnow : Calling (h.step false func true r1 r2) h.store func r1 r2
      ∧ (h.step false func true r1 r2).wait func < h.wait func by
    obtain ⟨⟨hb, ha⟩, hw⟩ := hnow
    exact ⟨⟨hcall ▸ hb, hcall ▸ ha⟩, hw⟩
  by_cases hs : func = funcStore
  · subst hs
    exact calling_step_store hack herr
  · by_cases hl : func = funcLoad
    · subst hl
      exact calling_step_load hack herr
    · obtain ⟨hcalling, hack'⟩ := calling_step_at_once r1 r2 hs hl herr
      exact ⟨hcalling, by simp [wait, hack, hack', hs, hl]⟩

/-- A call leaves nothing on its way but what has landed already. -/
theorem call_settled (st : CallStore) (func r1 r2 : BitVec 64) :
    (st.call func r1 r2).written r1 r2 = st.call func r1 r2 := by
  have hne : funcLoad ≠ funcStore := by decide
  by_cases hs : func = funcStore
  · simp [CallStore.call, CallStore.written, hs, Ram64V1.step]
  · by_cases hl : func = funcLoad <;> cases hwe : st.writeEnable <;>
      simp [CallStore.call, CallStore.written, hs, hl, hne, hwe, Ram64V1.step]

end CallHandler

end VeBpf
