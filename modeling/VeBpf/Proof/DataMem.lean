import VeBpf.Core.RamModule
import Mathlib.Tactic.SplitIfs

/-!
# Accesses to the data memory

One access takes the memory from idle through a fixed number of edges to its
acknowledge. `ReadAt` and `WriteAt` say where an access stands by the number of
edges still to come; each edge takes one off. A reset, or a drop of the strobe,
leads back to idle from anywhere.
-/

namespace VeBpf

open ByteMem

namespace RamModule

variable {r : RamModule} {mem : BitVec 11 → BitVec 8} {p : BitVec 11} {v : BitVec 64} {n j : Nat}

/-- Between two accesses: the machine is at rest and nothing is on its way. -/
structure Idle (r : RamModule) (mem : BitVec 11 → BitVec 8) : Prop where
  ack : r.ack = false
  wcnt : r.wcnt = 0
  flag : r.writeCompleteFlag = false
  holds : r.mem = mem
  /-- The internal write enable may still be set, but its byte has landed. -/
  landed : r.settled = mem

theorem settled_of_we1 (h : r.we1 = false) : r.settled = r.mem := by
  simp [settled, h]

/-- Landing the same byte twice changes nothing. -/
theorem update_settled (r : RamModule) :
    (if r.we1 then Function.update r.settled r.adr0 r.datW1 else r.settled) = r.settled := by
  unfold settled
  cases r.we1 <;> simp

/-- **A reset drops the byte on its way and leaves the others alone.** -/
theorem idle_of_reset (r : RamModule) (stb we0 : Bool) (adr1 : BitVec 11) (ww : BitVec 4)
    (datW0 : BitVec 64) : Idle (r.step true stb adr1 we0 ww datW0) r.mem := by
  constructor <;> simp [step, reset, settled]

/-- **With the strobe low the machine is at rest after one edge.** -/
theorem idle_of_release (r : RamModule) (we0 : Bool) (adr1 : BitVec 11) (ww : BitVec 4)
    (datW0 : BitVec 64) : Idle (r.step false false adr1 we0 ww datW0) r.settled := by
  constructor
  all_goals try simp [step, fsm]
  exact update_settled r

theorem Idle.step (h : Idle r mem) (we0 : Bool) (adr1 : BitVec 11) (ww : BitVec 4)
    (datW0 : BitVec 64) : Idle (r.step false false adr1 we0 ww datW0) mem :=
  h.landed ▸ idle_of_release r we0 adr1 ww datW0

/-- While the acknowledge is up and the strobe is held, the last byte lands and the outputs
stay. -/
theorem step_of_ack (hack : r.ack = true) {we0 : Bool} (hwe : we0 = true → r.writeCompleteFlag)
    (adr1 : BitVec 11) (ww : BitVec 4) (datW0 : BitVec 64) :
    r.step false true adr1 we0 ww datW0
      = { r with we1 := false, adr0 := adr1, mem := r.settled, datR1 := r.mem r.adr0 } := by
  have hread : (we0 && !r.writeCompleteFlag) = false := by
    cases we0
    · rfl
    · simp [hwe rfl]
  simp [step, fsm, hread, reading, hack]

/-! ## Reading -/

/-- The output registers after `j` bytes. -/
structure Collected (r : RamModule) (mem : BitVec 11 → BitVec 8) (p : BitVec 11) (j : Nat) :
    Prop where
  datR0 : r.datR0 = loadLE 8 mem p 1
  datR2 : r.datR2 = loadLE 16 mem p (min j 2)
  datR4 : r.datR4 = loadLE 32 mem p (min j 4)
  datR8 : r.datR8 = loadLE 64 mem p j

/-- The byte just fetched goes where `wcnt` says. -/
theorem collected_readByte {k : Nat} (hk : k < 8) (hw : r.wcnt.toNat = k + 1)
    (hb : r.datR1 = mem (p + BitVec.ofNat 11 k)) (h : 0 < k → Collected r mem p k) :
    Collected r.readByte mem p (k + 1) := by
  have hwcnt : r.wcnt = BitVec.ofNat 4 (k + 1) := by
    apply BitVec.eq_of_toNat_eq
    rw [hw, BitVec.toNat_ofNat, Nat.mod_eq_of_lt (by omega)]
  rcases Nat.eq_zero_or_pos k with hz | hpos
  · subst hz
    simp only [BitVec.add_zero, Nat.reduceAdd] at hb hwcnt
    constructor <;> simp [readByte, hwcnt, hb, loadLE_one]
  · obtain ⟨h0, h2, h4, h8⟩ := h hpos
    have hcases : k = 1 ∨ k = 2 ∨ k = 3 ∨ k = 4 ∨ k = 5 ∨ k = 6 ∨ k = 7 := by omega
    rcases hcases with rfl | rfl | rfl | rfl | rfl | rfl | rfl <;>
      constructor <;> simp_all [readByte, loadLE]

/-- Only the output registers change. -/
theorem readByte_frame (r : RamModule) :
    r.readByte = { r with datR0 := r.readByte.datR0, datR2 := r.readByte.datR2,
                          datR4 := r.readByte.datR4, datR8 := r.readByte.datR8 } := by
  unfold readByte
  split_ifs <;> rfl

/-- A read of the word at `p` with `j` edges to go before the acknowledge. -/
inductive ReadAt (r : RamModule) (mem : BitVec 11 → BitVec 8) (p : BitVec 11) : Nat → Prop
  | idle (h : Idle r mem) : ReadAt r mem p 10
  | first (ack : r.ack = false) (flag : r.writeCompleteFlag = false) (wcnt : r.wcnt = 1)
      (wait : r.wait1 = 1) (adr : r.adr0 = p) (we : r.we1 = false) (hm : r.mem = mem) :
      ReadAt r mem p 9
  | byte (k : Nat) (hk : k < 8) (ack : r.ack = false) (flag : r.writeCompleteFlag = false)
      (wcnt : r.wcnt.toNat = k + 1) (wait : r.wait1 = 0)
      (adr : r.adr0 = p + BitVec.ofNat 11 (k + 1)) (dat : r.datR1 = mem (p + BitVec.ofNat 11 k))
      (we : r.we1 = false) (hm : r.mem = mem) (got : 0 < k → Collected r mem p k) :
      ReadAt r mem p (8 - k)
  | done (ack : r.ack = true) (flag : r.writeCompleteFlag = false) (we : r.we1 = false)
      (hm : r.mem = mem) (got : Collected r mem p 8) : ReadAt r mem p 0

theorem ReadAt.le (h : ReadAt r mem p j) : j ≤ 10 := by
  cases h <;> omega

theorem ReadAt.settled (h : ReadAt r mem p j) : r.mem = mem ∧ r.settled = mem := by
  cases h with
  | idle h => exact ⟨h.holds, h.landed⟩
  | first _ _ _ _ _ we hm => exact ⟨hm, by rw [settled_of_we1 we, hm]⟩
  | byte _ _ _ _ _ _ _ _ we hm _ => exact ⟨hm, by rw [settled_of_we1 we, hm]⟩
  | done _ _ we hm _ => exact ⟨hm, by rw [settled_of_we1 we, hm]⟩

theorem ReadAt.ack_iff (h : ReadAt r mem p j) : r.ack = true ↔ j = 0 := by
  cases h with
  | idle h => simp [h.ack]
  | first ack => simp [ack]
  | byte k hk ack => simp only [ack, Bool.false_eq_true, false_iff]; omega
  | done ack => simp [ack]

/-- A read that is acknowledged has collected all bytes. -/
theorem ReadAt.collected (h : ReadAt r mem p 0) : Collected r mem p 8 := by
  generalize hj : 0 = j at h
  cases h with
  | idle _ => omega
  | first _ _ _ _ _ _ _ => omega
  | byte k hk => omega
  | done _ _ _ _ got => exact got

/-- The count of the byte that follows byte `k`. -/
theorem toNat_wcnt_succ {w : BitVec 4} {k : Nat} (hk : k < 7) (hw : w.toNat = k + 1) :
    (w + 1).toNat = k + 2 := by
  have h1 : (1 : BitVec 4).toNat = 1 := rfl
  rw [BitVec.toNat_add, hw, h1]
  omega

/-- An edge that collects a byte: the last one, or one that asks for another. -/
theorem ReadAt.step_byte {k : Nat} (hk : k < 8) (ack : r.ack = false)
    (flag : r.writeCompleteFlag = false) (wcnt : r.wcnt.toNat = k + 1) (wait : r.wait1 = 0)
    (adr : r.adr0 = p + BitVec.ofNat 11 (k + 1)) (dat : r.datR1 = mem (p + BitVec.ofNat 11 k))
    (we : r.we1 = false) (hm : r.mem = mem) (got : 0 < k → Collected r mem p k) (ww : BitVec 4)
    (datW0 : BitVec 64) : ReadAt (r.step false true p false ww datW0) mem p (7 - k) := by
  have hsettled : r.settled = mem := by rw [settled_of_we1 we, hm]
  have hne : ¬ r.wcnt = 0 := by
    intro hz
    simp [hz] at wcnt
  -- byte `k` goes to the output registers while the next one is fetched
  have hget := collected_readByte (r := { r with we1 := false, adr0 := p }) hk wcnt dat
    (fun hpos => ⟨(got hpos).datR0, (got hpos).datR2, (got hpos).datR4, (got hpos).datR8⟩)
  have hframe := readByte_frame { r with we1 := false, adr0 := p }
  by_cases hlast : k = 7
  · subst hlast
    have h8 : r.wcnt = 8 := BitVec.eq_of_toNat_eq (by rw [wcnt]; rfl)
    have hstep : r.step false true p false ww datW0
        = { ({ r with we1 := false, adr0 := p }).readByte with
            ack := true, mem := mem, datR1 := r.mem r.adr0 } := by
      simp [RamModule.step, fsm, reading, ack, wait, h8, hsettled]
    rw [hstep]
    refine ReadAt.done rfl ?_ ?_ rfl ⟨hget.datR0, hget.datR2, hget.datR4, hget.datR8⟩
    · rw [hframe]; exact flag
    · rw [hframe]
  · have h8 : ¬ r.wcnt = 8 := by
      intro h8
      rw [h8] at wcnt
      have : (8 : BitVec 4).toNat = 8 := rfl
      omega
    have hstep : r.step false true p false ww datW0
        = { ({ r with we1 := false, adr0 := p }).readByte with
            adr0 := r.adr0 + 1, wcnt := r.wcnt + 1, mem := mem, datR1 := r.mem r.adr0 } := by
      simp only [RamModule.step, fsm, reading, Bool.false_eq_true, if_false, if_true, ack,
        Bool.not_false, hne, wait, ne_eq, not_true_eq_false, not_false_eq_true, h8,
        Bool.false_and, hsettled]
    rw [hstep, show 7 - k = 8 - (k + 1) by omega]
    refine ReadAt.byte (k + 1) (by omega) ?_ ?_ (toNat_wcnt_succ (by omega) wcnt) ?_ ?_ ?_ ?_ rfl
      (fun _ => ⟨hget.datR0, hget.datR2, hget.datR4, hget.datR8⟩)
    · rw [hframe]; exact ack
    · rw [hframe]; exact flag
    · rw [hframe]; exact wait
    · dsimp only
      rw [adr, BitVec.add_assoc, BitVec.ofNat_add (k + 1) 1]
      rfl
    · dsimp only
      rw [adr, hm]
    · rw [hframe]

/-- **One edge of a read.** -/
theorem ReadAt.step (h : ReadAt r mem p (j + 1)) (ww : BitVec 4) (datW0 : BitVec 64) :
    ReadAt (r.step false true p false ww datW0) mem p j := by
  have hset := h.settled
  generalize hj : j + 1 = i at h
  cases h with
  | idle h =>
      obtain rfl : j = 9 := by omega
      apply ReadAt.first <;>
        simp [RamModule.step, fsm, reading, h.ack, h.wcnt, h.flag, h.landed]
  | first ack flag wcnt wait adr we hm =>
      obtain rfl : j = 8 - 0 := by omega
      apply ReadAt.byte 0 (by omega) <;>
        simp [RamModule.step, fsm, reading, ack, flag, wcnt, wait, adr, hm, hset.2]
  | byte k hk ack flag wcnt wait adr dat we hm got =>
      obtain rfl : j = 7 - k := by omega
      exact ReadAt.step_byte hk ack flag wcnt wait adr dat we hm got ww datW0
  | done ack => omega

/-! ## Writing -/

/-- The byte that `wcnt` selects. -/
theorem writeByte_eq {k : Nat} (hk : k < 8) (hw : r.wcnt.toNat = k + 1) :
    r.writeByte v = getByte v k := by
  have hwcnt : r.wcnt = BitVec.ofNat 4 (k + 1) := by
    apply BitVec.eq_of_toNat_eq
    rw [hw, BitVec.toNat_ofNat, Nat.mod_eq_of_lt (by omega)]
  have hcases : k = 0 ∨ k = 1 ∨ k = 2 ∨ k = 3 ∨ k = 4 ∨ k = 5 ∨ k = 6 ∨ k = 7 := by omega
  rcases hcases with rfl | rfl | rfl | rfl | rfl | rfl | rfl | rfl <;> simp [writeByte, hwcnt]

/--
A write of the low `n` bytes of `v` at `p` with `j` edges to go before the
acknowledge. The byte on its way counts as stored; without it nothing outside the
word has changed, which is what a reset falls back on.
-/
structure WriteAt (r : RamModule) (mem : BitVec 11 → BitVec 8) (p : BitVec 11) (v : BitVec 64)
    (n j : Nat) : Prop where
  bound : j ≤ n + 1
  ack : r.ack = decide (j = 0)
  flag : r.writeCompleteFlag = decide (j = 0)
  wcnt : r.wcnt.toNat = if j = 0 then 0 else n + 1 - j
  adr : 0 < j → j ≤ n → r.addrT = p + BitVec.ofNat 11 (n - j)
  landing : Stored mem p v n (n - j) r.settled
  kept : Stored mem p v n 0 r.mem
  start : n < j → r.settled = r.mem

theorem writeAt_of_idle {mem' : BitVec 11 → BitVec 8} (h : Idle r mem')
    (hs : Stored mem p v n 0 mem') : WriteAt r mem p v n (n + 1) where
  bound := Nat.le_refl _
  ack := by simp [h.ack]
  flag := by simp [h.flag]
  wcnt := by simp [h.wcnt]
  adr := fun _ hn => by omega
  landing := by
    rw [show n - (n + 1) = 0 by omega, h.landed]
    exact hs
  kept := by
    rw [h.holds]
    exact hs
  start := fun _ => by rw [h.landed, h.holds]

/-- An edge on which the state machine writes. -/
theorem step_writing (hflag : r.writeCompleteFlag = false) (adr1 : BitVec 11) (ww : BitVec 4)
    (datW0 : BitVec 64) :
    r.step false true adr1 true ww datW0
      = { r.writing adr1 ww datW0 with mem := r.settled, datR1 := r.mem r.adr0 } := by
  simp [RamModule.step, fsm, hflag]

/-- What an edge of the writing machine puts on its way. -/
theorem settled_step_writing (hflag : r.writeCompleteFlag = false) (ww : BitVec 4) :
    (r.step false true p true ww v).settled
      = if r.wcnt = 0 then r.settled
        else Function.update r.settled r.addrT (r.writeByte v) := by
  rw [step_writing hflag]
  unfold writing
  by_cases hz : r.wcnt = 0
  · rw [if_pos hz, if_pos hz]
    exact update_settled r
  · rw [if_neg hz, if_neg hz]
    by_cases hww : ww ≠ r.wcnt
    · simp [hww, settled]
    · simp [hww, settled]

/-- The edge that takes up the address. -/
theorem WriteAt.takes (h : WriteAt r mem p v n (n + 1)) (hpos : 0 < n) (ww : BitVec 4) :
    WriteAt (r.step false true p true ww v) mem p v n n := by
  have hack : r.ack = false := by simp [h.ack]
  have hflag : r.writeCompleteFlag = false := by simp [h.flag]
  have hz : r.wcnt = 0 := by
    apply BitVec.eq_of_toNat_eq
    rw [h.wcnt, if_neg (by omega), Nat.sub_self]
    rfl
  have hland : Stored mem p v n 0 r.settled := by
    have := h.landing
    rwa [show n - (n + 1) = 0 by omega] at this
  have hw : r.writing p ww v = { r with wcnt := 1, addrT := p } := by
    simp [writing, hz]
  rw [step_writing hflag, hw]
  refine ⟨by omega, ?_, ?_, ?_, ?_, ?_, hland, fun hc => by omega⟩
  · simp [hack]; omega
  · simp [hflag]; omega
  · rw [if_neg (by omega)]
    show (1 : BitVec 4).toNat = _
    rw [show (1 : BitVec 4).toNat = 1 from rfl]; omega
  · intro _ _; simp
  · rw [Nat.sub_self]
    show Stored mem p v n 0
      (if r.we1 then Function.update r.settled r.adr0 r.datW1 else r.settled)
    rw [update_settled]
    exact hland

/-- The byte that the next edge sends, and what it makes of the word. -/
theorem WriteAt.sends (h : WriteAt r mem p v n (j + 1)) (hn : n ≤ 8) (hj : j < n) :
    ¬ r.wcnt = 0 ∧ r.wcnt.toNat = n - j ∧ r.writeByte v = getByte v (n - (j + 1))
    ∧ Stored mem p v n (n - j)
        (Function.update r.settled r.addrT (getByte v (n - (j + 1)))) := by
  have hk : n - j = n - (j + 1) + 1 := by omega
  have hwcnt : r.wcnt.toNat = n - j := by
    rw [h.wcnt, if_neg (by omega)]; omega
  refine ⟨?_, hwcnt, writeByte_eq (by omega) (by rw [hwcnt, hk]), ?_⟩
  · intro hz
    rw [hz] at hwcnt
    simp at hwcnt
    omega
  · rw [hk, h.adr (by omega) (by omega)]
    exact h.landing.next (by omega) (by omega)

/-- The edge that sends the last byte. -/
theorem WriteAt.last (h : WriteAt r mem p v n 1) (hn : n ≤ 8) {ww : BitVec 4}
    (hww : ww.toNat = n) (hpos : 0 < n) :
    WriteAt (r.step false true p true ww v) mem p v n 0 := by
  have hflag : r.writeCompleteFlag = false := by simp [h.flag]
  obtain ⟨hne, hwcnt, hbyte, hland⟩ := h.sends hn hpos
  have hlast : ww = r.wcnt := BitVec.eq_of_toNat_eq (by rw [hww, hwcnt]; rfl)
  have hw : r.writing p ww v
      = { r with adr0 := r.addrT, we1 := true, datW1 := getByte v (n - (0 + 1)), wcnt := 0,
                 writeCompleteFlag := true, ack := true } := by
    simp only [writing, hne, if_false, hbyte, hlast, ne_eq, not_true_eq_false]
  rw [step_writing hflag, hw]
  exact ⟨by omega, rfl, rfl, rfl, fun hc => by omega, hland, h.landing.restart,
    fun hc => by omega⟩

/-- An edge that sends another byte. -/
theorem WriteAt.more (h : WriteAt r mem p v n (j + 1)) (hn : n ≤ 8) {ww : BitVec 4}
    (hww : ww.toNat = n) (hj : j < n) (hj0 : j ≠ 0) :
    WriteAt (r.step false true p true ww v) mem p v n j := by
  have hack : r.ack = false := by simp [h.ack]
  have hflag : r.writeCompleteFlag = false := by simp [h.flag]
  have hadr := h.adr (by omega) (by omega)
  obtain ⟨hne, hwcnt, hbyte, hland⟩ := h.sends hn hj
  have hmore : ¬ ww = r.wcnt := by
    intro he
    rw [← he, hww] at hwcnt
    omega
  have hw : r.writing p ww v
      = { r with adr0 := r.addrT, we1 := true, datW1 := getByte v (n - (j + 1)),
                 addrT := r.addrT + 1, wcnt := r.wcnt + 1, writeCompleteFlag := false } := by
    simp only [writing, hne, if_false, hbyte, hmore, ne_eq, not_false_eq_true, if_true]
  rw [step_writing hflag, hw]
  refine ⟨by omega, ?_, ?_, ?_, ?_, hland, h.landing.restart, fun hc => by omega⟩
  · simp [hack, hj0]
  · simp [hj0]
  · rw [if_neg hj0]
    show (r.wcnt + 1).toNat = _
    have h1 : (1 : BitVec 4).toNat = 1 := rfl
    rw [BitVec.toNat_add, hwcnt, h1]
    omega
  · intro _ _
    show r.addrT + 1 = _
    rw [hadr, BitVec.add_assoc, show n - j = n - (j + 1) + 1 by omega,
      BitVec.ofNat_add (n - (j + 1)) 1]
    rfl

/-- **One edge of a write.** -/
theorem WriteAt.step (h : WriteAt r mem p v n (j + 1)) (hn : n ≤ 8) {ww : BitVec 4}
    (hww : ww.toNat = n) (hpos : 0 < n) :
    WriteAt (r.step false true p true ww v) mem p v n j := by
  have hb := h.bound
  by_cases hj : j = n
  · subst hj
    exact h.takes hpos ww
  · by_cases hj0 : j = 0
    · subst hj0
      exact h.last hn hww hpos
    · exact h.more hn hww (by omega) hj0

/-- **What a write leaves once it is acknowledged.** -/
theorem WriteAt.stored (h : WriteAt r mem p v n 0) : r.settled = storeLE mem p v n := by
  have hl := h.landing
  rw [Nat.sub_zero] at hl
  exact hl.complete

end RamModule

end VeBpf
