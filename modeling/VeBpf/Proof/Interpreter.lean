import VeBpf.Proof.Blocks

/-!
# The interpreter always returns

The program counter of `Simple::run` only grows, so a filter is through after one
turn for each instruction and one more. Where arithmetic wraps it fails with an
error of its own and not with a panic, but for the one index that its check of
`BPF_LDX` lets through.
-/

namespace VeBpf

namespace Cbpf

namespace Simple

open Attempt

variable {checks : Bool} {insns : List BpfInsn} {data : List (BitVec 8)} {insn : BpfInsn}
  {s s' : State} {v : BitVec 32}

/-! ## The program counter grows -/

theorem ld_pc (h : ld checks data insn s = .ok s') : s'.pc = s.pc := by
  unfold ld at h
  dsimp only at h
  split_ifs at h with hw hh hb hlen himm hmem
  · obtain ⟨_, _, hs⟩ := bind_ok.mp h
    rw [← pure_ok.mp hs]
  · obtain ⟨_, _, hs⟩ := bind_ok.mp h
    rw [← pure_ok.mp hs]
  · obtain ⟨_, _, hs⟩ := bind_ok.mp h
    rw [← pure_ok.mp hs]
  · rw [← Except.ok.inj h]
  · rw [← Except.ok.inj h]
  · split at h
    · cases h
    · rw [← Except.ok.inj h]
  · cases h

theorem ldx_pc (h : ldx data insn s = .ok s') : s'.pc = s.pc := by
  unfold ldx at h
  dsimp only at h
  split_ifs at h with hlen hmsh himm hmem hrange
  · rw [← Except.ok.inj h]
  · split at h
    · cases h
    · rw [← Except.ok.inj h]
  · rw [← Except.ok.inj h]
  · cases h
  · split at h
    · cases h
    · rw [← Except.ok.inj h]
  · cases h

theorem jmp_pc (h : jmp insn s = .ok s') : s.pc ≤ s'.pc := by
  unfold jmp at h
  split_ifs at h with hja
  · rw [← Except.ok.inj h]
    exact Nat.le_add_right _ _
  · obtain ⟨_, _, h⟩ := bind_ok.mp h
    obtain ⟨_, _, h⟩ := bind_ok.mp h
    rw [← pure_ok.mp h]
    exact Nat.le_add_right _ _

theorem alu_pc (h : alu checks insn s = .ok s') : s'.pc = s.pc := by
  unfold alu at h
  split_ifs at h with hneg
  · obtain ⟨_, _, h⟩ := bind_ok.mp h
    rw [← pure_ok.mp h]
  · obtain ⟨_, _, h⟩ := bind_ok.mp h
    obtain ⟨_, _, h⟩ := bind_ok.mp h
    rw [← pure_ok.mp h]

theorem exec_pc (h : exec checks data insn s = .ok s') : s.pc ≤ s'.pc := by
  unfold exec at h
  dsimp only at h
  split_ifs at h with hld hldx hst hstx hjmp halu hmisc
  · exact Nat.le_of_eq (ld_pc h).symm
  · exact Nat.le_of_eq (ldx_pc h).symm
  · rw [(store_cases h).2]
  · rw [(store_cases h).2]
  · exact jmp_pc h
  · exact Nat.le_of_eq (alu_pc h).symm
  · rcases misc_cases h with ⟨_, rfl⟩ | ⟨_, _, rfl⟩ <;> exact Nat.le_refl _
  · cases h

/-! ## Panics -/

/-- `BPF_LDX | BPF_MEM` of the word behind the last. -/
def PastScratch (insn : BpfInsn) : Prop :=
  bpfClass insn.code = bpfLdx ∧ bpfSize insn.code = bpfW ∧ bpfMode insn.code = bpfMem
    ∧ insn.k = 16

theorem readPacket_panic {n : Nat} : readPacket false n data insn s ≠ .error .panic := by
  intro h
  rcases bind_error.mp h with h | ⟨k, _, h⟩
  · rcases bind_error.mp h with h | ⟨_, _, h⟩ <;> cases h
  · split_ifs at h <;> cases h

theorem ld_panic : ld false data insn s ≠ .error .panic := by
  intro h
  unfold ld at h
  dsimp only at h
  split_ifs at h with hw hh hb hlen himm hmem
  · rcases bind_error.mp h with h | ⟨_, _, h⟩
    · exact readPacket_panic h
    · cases h
  · rcases bind_error.mp h with h | ⟨_, _, h⟩
    · exact readPacket_panic h
    · cases h
  · rcases bind_error.mp h with h | ⟨_, _, h⟩
    · exact readPacket_panic h
    · cases h
  · split at h <;> cases h
  · cases h

theorem ldx_panic (hcls : bpfClass insn.code = bpfLdx) (h : ldx data insn s = .error .panic) :
    PastScratch insn := by
  unfold ldx at h
  dsimp only at h
  split_ifs at h with hlen hmsh himm hmem hrange
  · split at h <;> cases h
  · cases h
  · refine ⟨hcls, hmem.1, hmem.2, ?_⟩
    split at h
    · next hnone =>
        have hbig : 16 ≤ insn.k.toNat := by simpa using hnone
        have hsmall : insn.k.toNat ≤ 16 := by simpa [bpfMemwords] using hrange
        exact BitVec.eq_of_toNat_eq (Nat.le_antisymm hsmall hbig)
    · cases h
  · cases h

theorem source_panic : source insn s ≠ .error .panic := by
  unfold source
  split_ifs <;> exact nofun

theorem jmp_panic : jmp insn s ≠ .error .panic := by
  intro h
  unfold jmp at h
  split_ifs at h with hja
  rcases bind_error.mp h with h | ⟨_, _, h⟩
  · exact source_panic h
  rcases bind_error.mp h with h | ⟨_, _, h⟩
  · unfold cond at h
    split_ifs at h
    cases h
  · cases h

theorem arith_panic {op : BitVec 16} {a : BitVec 32} :
    arith false op a v = .error .panic → False := by
  unfold arith
  repeat' refine of_ite ?_ ?_
  all_goals
    intro hop
    cases hop
  all_goals
    intro h
    first
      | cases h
      | split_ifs at h; cases h

theorem alu_panic : alu false insn s ≠ .error .panic := by
  intro h
  unfold alu at h
  split_ifs at h with hneg
  · rcases bind_error.mp h with h | ⟨_, _, h⟩ <;> cases h
  rcases bind_error.mp h with h | ⟨_, _, h⟩
  · exact source_panic h
  rcases bind_error.mp h with h | ⟨_, _, h⟩
  · exact arith_panic h
  · cases h

theorem exec_panic (h : exec false data insn s = .error .panic) : PastScratch insn := by
  unfold exec at h
  dsimp only at h
  split_ifs at h with hld hldx hst hstx hjmp halu hmisc
  · exact absurd h ld_panic
  · exact ldx_panic hldx h
  · unfold store at h
    split_ifs at h
    cases h
  · unfold store at h
    split_ifs at h
    cases h
  · exact absurd h jmp_panic
  · exact absurd h alu_panic
  · unfold misc at h
    split_ifs at h
    cases h
  · cases h

theorem step_panic (h : step false insns data s = .error .panic) :
    ∃ insn ∈ insns, PastScratch insn := by
  unfold step at h
  split at h
  · cases h
  · next insn hi =>
      refine ⟨insn, List.mem_of_getElem? hi, ?_⟩
      split_ifs at h with hret
      · rcases bind_error.mp h with h | ⟨_, _, h⟩
        · unfold ret at h
          split_ifs at h
          cases h
        · cases h
      · rcases bind_error.mp h with h | ⟨_, _, h⟩
        · exact exec_panic h
        · cases h

/-! ## The loop -/

theorem loop_returns {fuel : Nat} (hfuel : 0 < fuel) (hpc : insns.length < s.pc + fuel) :
    ∃ r, loop checks insns data fuel s = some r
      ∧ (checks = false → r = .error .panic → ∃ insn ∈ insns, PastScratch insn) := by
  induction fuel generalizing s with
  | zero => omega
  | succ fuel ih =>
      rw [loop]
      cases hstep : step checks insns data s with
      | error fault =>
          refine ⟨_, rfl, ?_⟩
          rintro rfl hpanic
          obtain rfl := Except.error.inj hpanic
          exact step_panic hstep
      | ok flow =>
          obtain ⟨insn, hi, ⟨v, rfl, _⟩ | ⟨s', rfl, _, s₁, hexec, rfl⟩⟩ := step_cases hstep
          · exact ⟨_, rfl, fun _ hc => by cases hc⟩
          · have hgrows := exec_pc hexec
            have hlt := (List.getElem?_eq_some_iff.mp hi).1
            exact ih (by omega) (show insns.length < s₁.pc + 1 + fuel by omega)

/-- **The interpreter returns**, and the release build panics at a scratch word 16 only. -/
theorem run_returns (checks : Bool) (insns : List BpfInsn) (data : List (BitVec 8)) :
    ∃ r, run checks insns data = some r
      ∧ (checks = false → r = .error .panic → ∃ insn ∈ insns, PastScratch insn) := by
  unfold run
  split_ifs with hempty
  · exact ⟨_, rfl, nofun⟩
  · exact loop_returns (Nat.succ_pos _) (by rw [show start.pc = 0 by rfl]; omega)

end Simple

end Cbpf

end VeBpf
