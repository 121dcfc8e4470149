import VeBpf.Proof.DataMem
import Mathlib.Logic.Function.Iterate

/-!
# A write into the middle of an access

A data memory whose ports change hands without a reset goes on counting. A write
that is presented then begins with the byte that `wcnt` has come to, at the address
that `addr_t` has come to. If it has fewer bytes than that, the last one is repeated
until `wcnt` wraps, and only then the write begins with its own address.
-/

namespace VeBpf

open ByteMem

namespace RamModule

variable {r r₀ : RamModule} {x p : BitVec 11} {ww : BitVec 4} {v : BitVec 64} {n : Nat}

/-- An access has been taken up, or is acknowledged and not yet released. -/
def Active (r : RamModule) : Prop :=
  r.ack = true ∨ (r.ack = false ∧ r.writeCompleteFlag = false ∧ 0 < r.wcnt.toNat
    ∧ r.wcnt.toNat ≤ 8)

theorem Active.not_rest (h : Active r) : ¬ (r.wcnt = 0 ∧ r.ack = false) := by
  rintro ⟨hwcnt, hack⟩
  rcases h with hc | ⟨-, -, hpos, -⟩
  · rw [hack] at hc
    cases hc
  · rw [hwcnt] at hpos
    exact absurd hpos (by decide)

/-! ## What becomes of the write -/

/-- The bytes after an access under way has gone on with `n` bytes of the word `v`. -/
def laid (r : RamModule) (v : BitVec 64) : Nat → BitVec 11 → BitVec 8
  | 0 => r.settled
  | n + 1 => Function.update (laid r v n) (r.addrT + BitVec.ofNat 11 n)
      (getByte v (min (r.wcnt.toNat - 1 + n) 7))

/-- The edges up to the acknowledge of the write. -/
def remaining (r : RamModule) (ww : BitVec 4) : Nat :=
  if r.ack then 0
  else if r.wcnt.toNat ≤ ww.toNat then ww.toNat + 1 - r.wcnt.toNat
  else 16 - r.wcnt.toNat + (ww.toNat + 1)

/-- The bytes that it leaves. -/
def resumed (r : RamModule) (p : BitVec 11) (ww : BitVec 4) (v : BitVec 64) :
    BitVec 11 → BitVec 8 :=
  if r.ack then
    if r.writeCompleteFlag = true ∨ r.wcnt = 0 then r.settled
    else Function.update r.settled r.addrT (r.writeByte v)
  else if r.wcnt.toNat ≤ ww.toNat then r.laid v (ww.toNat + 1 - r.wcnt.toNat)
  else storeLE (r.laid v (16 - r.wcnt.toNat)) p v ww.toNat

theorem laid_of_ne (h : ∀ j, j < n → r.addrT + BitVec.ofNat 11 j ≠ x) :
    r.laid v n x = r.settled x := by
  induction n with
  | zero => rfl
  | succ n ih =>
      rw [laid, Function.update_of_ne (h n (by omega)).symm]
      exact ih fun j hj => h j (by omega)

/-! ## Edge by edge -/

/-- An edge with the write on the ports. -/
def edge (p : BitVec 11) (ww : BitVec 4) (v : BitVec 64) (r : RamModule) : RamModule :=
  r.step false true p true ww v

/-- The write has gone on for `n` edges. -/
structure GoesOn (r₀ r : RamModule) (v : BitVec 64) (n : Nat) : Prop where
  ack : r.ack = false
  flag : r.writeCompleteFlag = false
  wcnt : r.wcnt = r₀.wcnt + BitVec.ofNat 4 n
  adr : r.addrT = r₀.addrT + BitVec.ofNat 11 n
  settled : r.settled = r₀.laid v n
  past : 8 < r₀.wcnt.toNat + n → r.datW1 = getByte v 7

/-- Past the eighth byte the last one is sent again. -/
theorem writeByte_past (h : 8 < r.wcnt.toNat) : r.writeByte v = r.datW1 := by
  have hne : ∀ k : BitVec 4, k.toNat ≤ 8 → r.wcnt ≠ k := by
    rintro k hk rfl
    omega
  simp only [writeByte, hne 1 (by decide), hne 2 (by decide), hne 3 (by decide),
    hne 4 (by decide), hne 5 (by decide), hne 6 (by decide), hne 7 (by decide),
    hne 8 (by decide), if_false]

theorem GoesOn.toNat_wcnt (h : GoesOn r₀ r v n) (hn : r₀.wcnt.toNat + n < 16) :
    r.wcnt.toNat = r₀.wcnt.toNat + n := by
  rw [h.wcnt, BitVec.toNat_add, BitVec.toNat_ofNat]
  omega

theorem GoesOn.writeByte_eq (h : GoesOn r₀ r v n) (hpos : 0 < r₀.wcnt.toNat)
    (hn : r₀.wcnt.toNat + n < 16) :
    r.writeByte v = getByte v (min (r₀.wcnt.toNat - 1 + n) 7) := by
  have hwcnt := h.toNat_wcnt hn
  by_cases hlow : r₀.wcnt.toNat + n ≤ 8
  · rw [show min (r₀.wcnt.toNat - 1 + n) 7 = r₀.wcnt.toNat - 1 + n by omega]
    exact RamModule.writeByte_eq (by omega) (by omega)
  · rw [writeByte_past (by omega), h.past (by omega),
      show min (r₀.wcnt.toNat - 1 + n) 7 = 7 by omega]

/-- What an edge sends. -/
theorem GoesOn.sends (h : GoesOn r₀ r v n) (p : BitVec 11) (ww : BitVec 4)
    (hpos : 0 < r₀.wcnt.toNat) (hn : r₀.wcnt.toNat + n < 16) :
    ¬ r.wcnt = 0 ∧ (edge p ww v r).settled = r₀.laid v (n + 1) := by
  have hz : ¬ r.wcnt = 0 := by
    intro hz
    have hwcnt := h.toNat_wcnt hn
    rw [hz] at hwcnt
    exact absurd hwcnt.symm (by simp; omega)
  refine ⟨hz, ?_⟩
  rw [edge, settled_step_writing h.flag, if_neg hz, h.settled, h.adr, h.writeByte_eq hpos hn]
  rfl

/-- An edge that does not come to the last byte. -/
theorem GoesOn.more (h : GoesOn r₀ r v n) (hpos : 0 < r₀.wcnt.toNat)
    (hn : r₀.wcnt.toNat + n < 16) (hww : ww.toNat ≠ r₀.wcnt.toNat + n) :
    GoesOn r₀ (edge p ww v r) v (n + 1) := by
  obtain ⟨hz, hsettled⟩ := h.sends p ww hpos hn
  have hwcnt := h.toNat_wcnt hn
  have hne : ¬ ww = r.wcnt := by
    rintro rfl
    exact hww hwcnt
  have hedge : edge p ww v r
      = { r with adr0 := r.addrT, we1 := true, datW1 := r.writeByte v, addrT := r.addrT + 1,
                 wcnt := r.wcnt + 1, writeCompleteFlag := false, mem := r.settled,
                 datR1 := r.mem r.adr0 } := by
    rw [edge, step_writing h.flag]
    simp only [writing, hz, hne, if_false, ne_eq, not_false_eq_true, if_true]
  refine ⟨?_, ?_, ?_, ?_, hsettled, ?_⟩
  · rw [hedge]
    exact h.ack
  · rw [hedge]
  · rw [hedge, BitVec.ofNat_add, ← BitVec.add_assoc, ← h.wcnt]
    rfl
  · rw [hedge, BitVec.ofNat_add, ← BitVec.add_assoc, ← h.adr]
    rfl
  · intro hpast
    rw [hedge]
    show r.writeByte v = _
    rw [h.writeByte_eq hpos hn, show min (r₀.wcnt.toNat - 1 + n) 7 = 7 by omega]

/-- The edge that comes to the last byte. -/
theorem GoesOn.last (h : GoesOn r₀ r v n) (p : BitVec 11) (hpos : 0 < r₀.wcnt.toNat)
    (hn : r₀.wcnt.toNat + n < 16) (hww : ww.toNat = r₀.wcnt.toNat + n) :
    (edge p ww v r).ack = true ∧ (edge p ww v r).writeCompleteFlag = true
      ∧ (edge p ww v r).settled = r₀.laid v (n + 1) := by
  obtain ⟨hz, hsettled⟩ := h.sends p ww hpos hn
  have heq : ww = r.wcnt := BitVec.eq_of_toNat_eq (hww.trans (h.toNat_wcnt hn).symm)
  have hedge : edge p ww v r
      = { r with adr0 := r.addrT, we1 := true, datW1 := r.writeByte v, wcnt := 0,
                 writeCompleteFlag := true, ack := true, mem := r.settled,
                 datR1 := r.mem r.adr0 } := by
    rw [edge, step_writing h.flag]
    simp only [writing, hz, heq, if_false, ne_eq, not_true_eq_false]
  rw [hedge] at hsettled ⊢
  exact ⟨rfl, rfl, hsettled⟩

/-- The edge at which `wcnt` has wrapped: the write begins with its own address. -/
theorem GoesOn.wraps (h : GoesOn r₀ r v n) (hn : r₀.wcnt.toNat + n = 16) (hpos : 0 < ww.toNat) :
    WriteAt (edge p ww v r) (r₀.laid v n) p v ww.toNat ww.toNat := by
  have hz : r.wcnt = 0 := by
    apply BitVec.eq_of_toNat_eq
    rw [h.wcnt, BitVec.toNat_add, BitVec.toNat_ofNat]
    show _ = 0
    omega
  have hsettled : (edge p ww v r).settled = r₀.laid v n := by
    rw [edge, settled_step_writing h.flag, if_pos hz, h.settled]
  have hedge : edge p ww v r
      = { r with wcnt := 1, addrT := p, mem := r.settled, datR1 := r.mem r.adr0 } := by
    rw [edge, step_writing h.flag]
    simp only [writing, hz, if_true]
  refine ⟨by omega, ?_, ?_, ?_, ?_, ?_, ?_, fun hc => by omega⟩
  · rw [hedge]
    exact h.ack.trans (by simp; omega)
  · rw [hedge]
    exact h.flag.trans (by simp; omega)
  · rw [hedge, if_neg (by omega), show ww.toNat + 1 - ww.toNat = 1 by omega]
    rfl
  · intro _ _
    rw [hedge, Nat.sub_self]
    exact (BitVec.add_zero p).symm
  · rw [hsettled, Nat.sub_self]
    exact Stored.refl _ _ _ _
  · rw [hedge]
    show Stored _ p v _ 0 r.settled
    rw [h.settled]
    exact Stored.refl _ _ _ _

/-- While the acknowledge of a write is up no byte changes. -/
theorem settled_held (hack : r.ack = true) (hflag : r.writeCompleteFlag = true) :
    (edge p ww v r).settled = r.settled := by
  rw [edge, step_of_ack hack fun _ => hflag]
  rfl

/-! ## From the first edge to the acknowledge -/

theorem GoesOn.iterate (hpos : 0 < r.wcnt.toNat) (hack : r.ack = false)
    (hflag : r.writeCompleteFlag = false) (hle : r.wcnt.toNat ≤ 8)
    (h : ∀ j, j < n → r.wcnt.toNat + j < 16 ∧ ww.toNat ≠ r.wcnt.toNat + j) :
    GoesOn r ((edge p ww v)^[n] r) v n := by
  induction n with
  | zero => exact ⟨hack, hflag, (BitVec.add_zero _).symm, (BitVec.add_zero _).symm, rfl,
      fun hc => by omega⟩
  | succ n ih =>
      rw [Function.iterate_succ_apply']
      exact (ih fun j hj => h j (by omega)).more hpos (h n (by omega)).1 (h n (by omega)).2

/-- The write is acknowledged after `n` edges, and leaves the bytes `mem`. -/
structure Finishes (r : RamModule) (p : BitVec 11) (ww : BitVec 4) (v : BitVec 64) (n : Nat)
    (mem : BitVec 11 → BitVec 8) : Prop where
  busy : ∀ j, j < n → ((edge p ww v)^[j] r).ack = false
  ack : ((edge p ww v)^[n] r).ack = true
  settled : ((edge p ww v)^[n + 1] r).settled = mem

/-- The acknowledge of the access is up. -/
theorem finishes_acked (hack : r.ack = true) :
    Finishes r p ww v (r.remaining ww) (r.resumed p ww v) := by
  rw [remaining, resumed, if_pos hack, if_pos hack]
  refine ⟨fun n hn => absurd hn (Nat.not_lt_zero n), hack, ?_⟩
  show (edge p ww v r).settled = _
  cases hflag : r.writeCompleteFlag with
  | true => rw [if_pos (Or.inl rfl), settled_held hack hflag]
  | false => rw [edge, settled_step_writing hflag]; simp

/-- The counter is not past the last byte of the write yet. -/
theorem finishes_within (hack : r.ack = false) (hflag : r.writeCompleteFlag = false)
    (hpos : 0 < r.wcnt.toNat) (hle : ww.toNat ≤ 8) (hcase : r.wcnt.toNat ≤ ww.toNat) :
    Finishes r p ww v (r.remaining ww) (r.resumed p ww v) := by
  have hnack : ¬ r.ack = true := by simp [hack]
  obtain ⟨d, hd⟩ := Nat.exists_eq_add_of_le hcase
  have hgoes : ∀ n, n ≤ d → GoesOn r ((edge p ww v)^[n] r) v n := fun n hn =>
    GoesOn.iterate hpos hack hflag (by omega) fun j hj => ⟨by omega, by omega⟩
  have hremaining : r.remaining ww = d + 1 := by
    rw [remaining, if_neg hnack, if_pos hcase]
    omega
  have hresumed : r.resumed p ww v = r.laid v (d + 1) := by
    rw [resumed, if_neg hnack, if_pos hcase]
    congr 1
    omega
  obtain ⟨hlast, hdone, hsettled⟩ := (hgoes d (Nat.le_refl d)).last p hpos (by omega) hd
  rw [← Function.iterate_succ_apply' (edge p ww v)] at hlast hdone hsettled
  rw [hremaining, hresumed]
  refine ⟨fun n hn => (hgoes n (by omega)).ack, hlast, ?_⟩
  rw [Function.iterate_succ_apply', settled_held hlast hdone, hsettled]

/-- It is past it, and wraps. -/
theorem finishes_wrapped (hack : r.ack = false) (hflag : r.writeCompleteFlag = false)
    (hk8 : r.wcnt.toNat ≤ 8) (hpos : 0 < ww.toNat) (hcase : ww.toNat < r.wcnt.toNat) :
    Finishes r p ww v (r.remaining ww) (r.resumed p ww v) := by
  have hnack : ¬ r.ack = true := by simp [hack]
  have hgoes : ∀ n, n ≤ 16 - r.wcnt.toNat → GoesOn r ((edge p ww v)^[n] r) v n := fun n hn =>
    GoesOn.iterate (by omega) hack hflag hk8 fun j hj => ⟨by omega, by omega⟩
  -- from there on it is a write that has found the memory at rest
  have hwrites : ∀ j, j ≤ ww.toNat → WriteAt ((edge p ww v)^[16 - r.wcnt.toNat + 1 + j] r)
      (r.laid v (16 - r.wcnt.toNat)) p v ww.toNat (ww.toNat - j) := by
    intro j hj
    induction j with
    | zero =>
        rw [Nat.add_zero, Nat.sub_zero, Function.iterate_succ_apply']
        exact (hgoes _ (Nat.le_refl _)).wraps (by omega) hpos
    | succ j ih =>
        have hprev := ih (by omega)
        rw [show ww.toNat - j = ww.toNat - (j + 1) + 1 by omega] at hprev
        rw [← Nat.add_assoc, Function.iterate_succ_apply']
        exact hprev.step (by omega) rfl hpos
  have hremaining : r.remaining ww = 16 - r.wcnt.toNat + 1 + ww.toNat := by
    rw [remaining, if_neg hnack, if_neg (by omega)]
    omega
  have hend := hwrites ww.toNat (Nat.le_refl _)
  rw [Nat.sub_self] at hend
  have hlast := hend.ack
  rw [hremaining, resumed, if_neg hnack, if_neg (by omega)]
  refine ⟨?_, hlast, ?_⟩
  · intro n hn
    by_cases hlow : n ≤ 16 - r.wcnt.toNat
    · exact (hgoes n hlow).ack
    · obtain ⟨j, rfl⟩ := Nat.exists_eq_add_of_le (show 16 - r.wcnt.toNat + 1 ≤ n by omega)
      rw [(hwrites j (by omega)).ack, decide_eq_false (by omega)]
  · rw [Function.iterate_succ_apply', settled_held hlast hend.flag, hend.stored]

/-- **A write into the middle of an access**: when it is acknowledged, and the bytes that it
leaves. -/
theorem Active.resume (h : Active r) (p : BitVec 11) (v : BitVec 64) (hpos : 0 < ww.toNat)
    (hle : ww.toNat ≤ 8) : Finishes r p ww v (r.remaining ww) (r.resumed p ww v) := by
  rcases h with hack | ⟨hack, hflag, hk, hk8⟩
  · exact finishes_acked hack
  · by_cases hcase : r.wcnt.toNat ≤ ww.toNat
    · exact finishes_within hack hflag hk hle hcase
    · exact finishes_wrapped hack hflag hk8 hpos (by omega)

/-- Eight bytes for an address that the access under way does not come to never reach it. -/
theorem Active.exists_spoiled (h : Active r) :
    ∃ x, ∀ v : BitVec 64, r.resumed x 8 v x = r.mem x := by
  obtain ⟨x, hx, hadr⟩ : ∃ x : BitVec 11,
      (∀ j, j ≤ 8 → r.addrT + BitVec.ofNat 11 j ≠ x) ∧ x ≠ r.adr0 := by
    have hfar : ∀ k, 8 < k → k < 2048 → ∀ j, j ≤ 8 →
        r.addrT + BitVec.ofNat 11 j ≠ r.addrT + BitVec.ofNat 11 k := by
      intro k hk hk' j hj heq
      have hsub := congrArg (fun y => (y - r.addrT).toNat) heq
      simp only [toNat_offset r.addrT (show j < 2 ^ 11 by omega),
        toNat_offset r.addrT (show k < 2 ^ 11 by omega)] at hsub
      omega
    -- of the two bytes behind the longest access at most one is under the write port
    by_cases hc : r.addrT + BitVec.ofNat 11 9 = r.adr0
    · refine ⟨r.addrT + BitVec.ofNat 11 10, hfar 10 (by omega) (by omega), ?_⟩
      intro heq
      have hsub := congrArg (fun y => (y - r.addrT).toNat) (hc.trans heq.symm)
      simp only [toNat_offset r.addrT (show 9 < 2 ^ 11 by omega),
        toNat_offset r.addrT (show 10 < 2 ^ 11 by omega)] at hsub
      omega
    · exact ⟨r.addrT + BitVec.ofNat 11 9, hfar 9 (by omega) (by omega), fun heq => hc heq⟩
  have hsettled : r.settled x = r.mem x := by
    unfold settled
    cases r.we1 with
    | true => exact Function.update_of_ne hadr _ _
    | false => rfl
  refine ⟨x, fun v => ?_⟩
  rcases h with hack | ⟨hack, -, hk, hk8⟩
  · have h0 := hx 0 (by omega)
    rw [BitVec.add_zero] at h0
    rw [resumed, if_pos hack]
    split_ifs
    · exact hsettled
    · rw [Function.update_of_ne h0.symm, hsettled]
  · have h8 : (8 : BitVec 4).toNat = 8 := rfl
    rw [resumed, if_neg (by simp [hack]), if_pos (by omega), h8,
      laid_of_ne fun j hj => hx j (by omega), hsettled]

end RamModule

end VeBpf
