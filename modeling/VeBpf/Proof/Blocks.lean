import VeBpf.Isa.Filter
import VeBpf.Lib.Attempt
import VeBpf.Proof.SlowArithmetic

/-!
# Blocks of the converter

What each class of classic instruction does when the interpreter does not fail, and
that the block made from it does the same. The converter gets three of them wrong:
an `AND` adds, and the register forms of `JGT` and `JGE` compare the other way
round. `asConverted` writes down as classic instructions what it takes them for.
-/

namespace VeBpf

open Cbpf Expansion

/-! ## What a block stands for -/

namespace Cbpf

/-- The operation that an arithmetic block carries out. -/
def addForAnd (op : BitVec 16) : BitVec 16 := if op = bpfAnd then bpfAdd else op

theorem addForAnd_eq_neg {op : BitVec 16} : addForAnd op = bpfNeg ↔ op = bpfNeg := by
  unfold addForAnd
  split_ifs with h
  · rw [h]
    decide
  · rfl

namespace BpfInsn

/-- The instruction with another operation. -/
def withOp (insn : BpfInsn) (op : BitVec 16) : BpfInsn :=
  { insn with code := insn.code &&& ~~~0xf0#16 ||| op }

/-- The classic instruction that does what the block of this one does. -/
def asConverted (insn : BpfInsn) : BpfInsn :=
  if bpfClass insn.code = bpfAlu ∧ bpfOp insn.code = bpfAnd then insn.withOp bpfAdd
  else if bpfClass insn.code = bpfJmp ∧ bpfSrc insn.code = bpfX ∧ bpfOp insn.code = bpfJgt then
    { insn.withOp bpfJge with jt := insn.jf, jf := insn.jt }
  else if bpfClass insn.code = bpfJmp ∧ bpfSrc insn.code = bpfX ∧ bpfOp insn.code = bpfJge then
    { insn.withOp bpfJgt with jt := insn.jf, jf := insn.jt }
  else insn

/-- The converter does not take this instruction for another one. -/
def Kept (insn : BpfInsn) : Prop :=
  (bpfClass insn.code = bpfAlu → bpfOp insn.code ≠ bpfAnd)
    ∧ (bpfClass insn.code = bpfJmp → bpfSrc insn.code = bpfX →
      bpfOp insn.code ≠ bpfJgt ∧ bpfOp insn.code ≠ bpfJge)

instance (insn : BpfInsn) : Decidable insn.Kept := inferInstanceAs (Decidable (_ ∧ _))

/-- The release build of the interpreter computes with this instruction as eBPF does. A shift by
more than a word is cut to its low five bits there, and an indirect index wraps. -/
def WrapsAlike (insn : BpfInsn) : Prop :=
  (bpfClass insn.code = bpfLd → bpfMode insn.code ≠ bpfInd)
    ∧ (bpfClass insn.code = bpfAlu → bpfOp insn.code = bpfLsh ∨ bpfOp insn.code = bpfRsh →
      bpfSrc insn.code = bpfK ∧ insn.k.toNat < 32)

/-- An operation has no other bits. -/
theorem mask_withOp (insn : BpfInsn) {op mask : BitVec 16} (hop : op &&& mask = 0#16)
    (hmask : ~~~0xf0#16 &&& mask = mask) :
    (insn.withOp op).code &&& mask = insn.code &&& mask := by
  show (insn.code &&& ~~~0xf0#16 ||| op) &&& mask = _
  rw [BitVec.and_comm _ mask, BitVec.and_or_distrib_left, BitVec.and_comm mask op, hop,
    BitVec.or_zero, BitVec.and_comm mask, BitVec.and_assoc, hmask]

theorem op_withOp (insn : BpfInsn) {op : BitVec 16} (hop : op &&& 0xf0#16 = op) :
    bpfOp (insn.withOp op).code = op := by
  show (insn.code &&& ~~~0xf0#16 ||| op) &&& 0xf0#16 = _
  rw [BitVec.and_comm _ 0xf0#16, BitVec.and_or_distrib_left, BitVec.and_comm _ op, hop,
    BitVec.and_comm 0xf0#16, BitVec.and_assoc, show ~~~0xf0#16 &&& 0xf0#16 = 0#16 by decide,
    BitVec.and_zero, BitVec.zero_or]

theorem class_withOp (insn : BpfInsn) {op : BitVec 16} (hop : op &&& 0x07#16 = 0#16) :
    bpfClass (insn.withOp op).code = bpfClass insn.code :=
  insn.mask_withOp hop (by decide)

theorem src_withOp (insn : BpfInsn) {op : BitVec 16} (hop : op &&& 0x08#16 = 0#16) :
    bpfSrc (insn.withOp op).code = bpfSrc insn.code :=
  insn.mask_withOp hop (by decide)

theorem class_asConverted (insn : BpfInsn) :
    bpfClass insn.asConverted.code = bpfClass insn.code := by
  unfold asConverted
  split_ifs
  · exact insn.class_withOp (by decide)
  · exact insn.class_withOp (by decide)
  · exact insn.class_withOp (by decide)
  · rfl

/-- Only arithmetic and jumps are converted to something else. -/
theorem asConverted_eq {insn : BpfInsn} (halu : bpfClass insn.code ≠ bpfAlu)
    (hjmp : bpfClass insn.code ≠ bpfJmp) : insn.asConverted = insn := by
  rw [asConverted, if_neg fun h => halu h.1, if_neg fun h => hjmp h.1, if_neg fun h => hjmp h.1]

theorem asConverted_alu {insn : BpfInsn} (hcls : bpfClass insn.code = bpfAlu) :
    bpfOp insn.asConverted.code = addForAnd (bpfOp insn.code)
      ∧ bpfSrc insn.asConverted.code = bpfSrc insn.code ∧ insn.asConverted.k = insn.k := by
  have hjmp : bpfClass insn.code ≠ bpfJmp := by
    rw [hcls]
    decide
  unfold addForAnd
  split_ifs with hand
  · rw [asConverted, if_pos ⟨hcls, hand⟩]
    exact ⟨insn.op_withOp (by decide), insn.src_withOp (by decide), rfl⟩
  · rw [asConverted, if_neg fun h => hand h.2, if_neg fun h => hjmp h.1,
      if_neg fun h => hjmp h.1]
    exact ⟨rfl, rfl, rfl⟩

/-- A jump that compares with the index register. -/
theorem asConverted_jmpX {insn : BpfInsn} (hcls : bpfClass insn.code = bpfJmp)
    (hsrc : bpfSrc insn.code = bpfX) : insn.asConverted =
      if bpfOp insn.code = bpfJgt then { insn.withOp bpfJge with jt := insn.jf, jf := insn.jt }
      else if bpfOp insn.code = bpfJge then
        { insn.withOp bpfJgt with jt := insn.jf, jf := insn.jt }
      else insn := by
  have halu : bpfClass insn.code ≠ bpfAlu := by
    rw [hcls]
    decide
  rw [asConverted, if_neg fun h => halu h.1]
  simp only [hcls, hsrc, true_and]

theorem asConverted_jmp {insn : BpfInsn} (hcls : bpfClass insn.code = bpfJmp)
    (hsrc : bpfSrc insn.code ≠ bpfX) : insn.asConverted = insn := by
  have halu : bpfClass insn.code ≠ bpfAlu := by
    rw [hcls]
    decide
  rw [asConverted, if_neg fun h => halu h.1, if_neg fun h => hsrc h.2.1, if_neg fun h => hsrc h.2.1]

theorem asConverted_ja {insn : BpfInsn} (hcls : bpfClass insn.code = bpfJmp)
    (hja : bpfOp insn.code = bpfJa) : insn.asConverted = insn := by
  by_cases hsrc : bpfSrc insn.code = bpfX
  · rw [asConverted_jmpX hcls hsrc, hja, if_neg (by decide), if_neg (by decide)]
  · exact asConverted_jmp hcls hsrc

theorem asConverted_kept {insn : BpfInsn} (h : insn.Kept) : insn.asConverted = insn := by
  obtain ⟨halu, hjmp⟩ := h
  rw [asConverted, if_neg fun h => halu h.1 h.2, if_neg fun h => (hjmp h.1 h.2.1).1 h.2.2,
    if_neg fun h => (hjmp h.1 h.2.1).2 h.2.2]

theorem map_asConverted {insns : List BpfInsn} (h : ∀ insn ∈ insns, insn.Kept) :
    insns.map asConverted = insns :=
  (List.map_congr_left fun insn hi => asConverted_kept (h insn hi)).trans (List.map_id' insns)

end BpfInsn

/-! ## Runs of the interpreter -/

theorem checked_ok {α : Type} {checks overflow : Bool} {x y : α}
    (h : checked checks overflow x = .ok y) : y = x ∧ (checks = true → overflow = false) := by
  unfold checked at h
  split_ifs at h with hpanic
  refine ⟨(Except.ok.inj h).symm, ?_⟩
  intro hc
  simpa [hc] using hpanic

namespace Simple

variable {checks : Bool} {insns : List BpfInsn} {data : List (BitVec 8)} {s : State}
  {v : BitVec 32}

/-- An instruction that goes on. -/
def Nexts (checks : Bool) (data : List (BitVec 8)) (insn : BpfInsn) (s s' : State) : Prop :=
  bpfClass insn.code ≠ bpfRet
    ∧ ∃ s₁, exec checks data insn s = .ok s₁ ∧ s' = { s₁ with pc := s₁.pc + 1 }

/-- An instruction that returns. -/
def Rets (insn : BpfInsn) (s : State) (v : BitVec 32) : Prop :=
  bpfClass insn.code = bpfRet ∧ ret insn s = .ok v

/-- One turn of the loop that does not fail. -/
theorem step_cases {r : Flow} (h : step checks insns data s = .ok r) :
    ∃ insn, insns[s.pc]? = some insn ∧
      ((∃ v, r = .ret v ∧ Rets insn s v) ∨ ∃ s', r = .next s' ∧ Nexts checks data insn s s') := by
  unfold step at h
  cases hi : insns[s.pc]? with
  | none => rw [hi] at h; cases h
  | some insn =>
      rw [hi] at h
      dsimp only at h
      refine ⟨insn, rfl, ?_⟩
      split_ifs at h with hret
      · obtain ⟨v, hv, hr⟩ := Attempt.bind_ok.mp h
        exact Or.inl ⟨v, (Attempt.pure_ok.mp hr).symm, hret, hv⟩
      · obtain ⟨s₁, hs₁, hr⟩ := Attempt.bind_ok.mp h
        exact Or.inr ⟨_, (Attempt.pure_ok.mp hr).symm, hret, s₁, hs₁, rfl⟩

/-- **A run of the loop** that comes to a result. -/
theorem runs_of_loop {fuel : Nat} (h : loop checks insns data fuel s = some (.ok v)) :
    Runs State.pc (Nexts checks data) Rets insns s v := by
  induction fuel generalizing s with
  | zero => cases h
  | succ fuel ih =>
      rw [loop] at h
      cases hstep : step checks insns data s with
      | error e =>
          rw [hstep] at h
          cases h
      | ok r =>
          rw [hstep] at h
          obtain ⟨insn, hi, ⟨w, rfl, hret⟩ | ⟨s', rfl, hnext⟩⟩ := step_cases hstep
          · obtain rfl := Except.ok.inj (Option.some.inj h)
            exact Runs.ret hi hret
          · exact Runs.next hi hnext (ih h)

end Simple

end Cbpf

/-! ## What the interpreter does -/

namespace Cbpf

/-- The bytes of a load. -/
def width (size : BitVec 16) : Option Nat :=
  if size = bpfW then some 4
  else if size = bpfH then some 2
  else if size = bpfB then some 1
  else none

theorem width_cases {size : BitVec 16} {n : Nat} (h : width size = some n) :
    size = bpfW ∧ n = 4 ∨ size = bpfH ∧ n = 2 ∨ size = bpfB ∧ n = 1 := by
  unfold width at h
  split_ifs at h with h₁ h₂ h₃ <;> cases h
  · exact Or.inl ⟨h₁, rfl⟩
  · exact Or.inr (Or.inl ⟨h₂, rfl⟩)
  · exact Or.inr (Or.inr ⟨h₃, rfl⟩)

namespace Simple

variable {checks : Bool} {data : List (BitVec 8)} {insn : BpfInsn} {s s' : State} {v : BitVec 32}

theorem fail_ne_ok {α : Type} {e : Error} {x : α} : ¬ (fail e : Except Fault α) = .ok x := nofun

theorem index_ok {k : Nat} (h : index checks insn s = .ok k)
    (hwrap : checks = false → bpfMode insn.code ≠ bpfInd) :
    k = insn.k.toNat + if bpfMode insn.code = bpfInd then s.x.toNat else 0 := by
  obtain ⟨w, hw, hk⟩ := Attempt.bind_ok.mp h
  obtain rfl := Attempt.pure_ok.mp hk
  obtain ⟨rfl, hover⟩ := checked_ok hw
  split_ifs at hover ⊢ with hind
  · have hchecks : checks = true := by
      by_contra hc
      exact hwrap (by simpa using hc) hind
    have hlt := of_decide_eq_false (hover hchecks)
    rw [BitVec.toNat_add, Nat.mod_eq_of_lt (by omega)]
  · simp

theorem readPacket_ok {n : Nat} (h : readPacket checks n data insn s = .ok v)
    (hwrap : checks = false → bpfMode insn.code ≠ bpfInd) :
    ∃ k, k = insn.k.toNat + (if bpfMode insn.code = bpfInd then s.x.toNat else 0)
      ∧ k < data.length ∧ k + n ≤ data.length ∧ v = bigEndian n data k := by
  obtain ⟨k, hk, h⟩ := Attempt.bind_ok.mp h
  refine ⟨k, index_ok hk hwrap, ?_⟩
  split_ifs at h with hrange
  · exact absurd h fail_ne_ok
  · obtain rfl := Attempt.pure_ok.mp h
    exact ⟨by omega, by omega, rfl⟩

theorem ld_cases (h : ld checks data insn s = .ok s') :
    (∃ n, width (bpfSize insn.code) = some n
        ∧ (bpfMode insn.code = bpfAbs ∨ bpfMode insn.code = bpfInd)
        ∧ ∃ v, readPacket checks n data insn s = .ok v ∧ s' = { s with a := v })
      ∨ (bpfSize insn.code = bpfW ∧ bpfMode insn.code = bpfLen)
      ∨ (bpfSize insn.code = bpfW ∧ bpfMode insn.code = bpfImm ∧ s' = { s with a := insn.k })
      ∨ (bpfSize insn.code = bpfW ∧ bpfMode insn.code = bpfMem
        ∧ ∃ v, s.mem[insn.k.toNat]? = some v ∧ s' = { s with a := v }) := by
  unfold ld at h
  dsimp only at h
  have hread : ∀ {n}, ((readPacket checks n data insn s >>= fun v => pure { s with a := v })
      : Except Fault State) = .ok s' →
      ∃ v, readPacket checks n data insn s = .ok v ∧ s' = { s with a := v } := by
    intro n hn
    obtain ⟨v, hv, heq⟩ := Attempt.bind_ok.mp hn
    exact ⟨v, hv, (Attempt.pure_ok.mp heq).symm⟩
  split_ifs at h with hw hh hb hlen himm hmem
  · exact Or.inl ⟨4, by rw [hw.1]; rfl, hw.2, hread h⟩
  · exact Or.inl ⟨2, by rw [hh.1]; rfl, hh.2, hread h⟩
  · exact Or.inl ⟨1, by rw [hb.1]; rfl, hb.2, hread h⟩
  · exact Or.inr (Or.inl hlen)
  · exact Or.inr (Or.inr (Or.inl ⟨himm.1, himm.2, (Except.ok.inj h).symm⟩))
  · cases hv : s.mem[insn.k.toNat]? with
    | none =>
        rw [hv] at h
        exact absurd h fail_ne_ok
    | some v =>
        rw [hv] at h
        exact Or.inr (Or.inr (Or.inr ⟨hmem.1, hmem.2, v, rfl, (Except.ok.inj h).symm⟩))
  · exact absurd h fail_ne_ok

theorem ldx_cases (h : ldx data insn s = .ok s') :
    (bpfSize insn.code = bpfW ∧ bpfMode insn.code = bpfLen)
      ∨ (bpfSize insn.code = bpfB ∧ bpfMode insn.code = bpfMsh
        ∧ ∃ b, data[insn.k.toNat]? = some b
          ∧ s' = { s with x := ((b &&& 0xf#8) <<< 2).setWidth 32 })
      ∨ (bpfSize insn.code = bpfW ∧ bpfMode insn.code = bpfImm ∧ s' = { s with x := insn.k })
      ∨ (bpfSize insn.code = bpfW ∧ bpfMode insn.code = bpfMem
        ∧ ∃ v, s.mem[insn.k.toNat]? = some v ∧ s' = { s with x := v }) := by
  unfold ldx at h
  dsimp only at h
  split_ifs at h with hlen hmsh himm hmem hrange
  · exact Or.inl hlen
  · cases hb : data[insn.k.toNat]? with
    | none =>
        rw [hb] at h
        exact absurd h fail_ne_ok
    | some b =>
        rw [hb] at h
        exact Or.inr (Or.inl ⟨hmsh.1, hmsh.2, b, rfl, (Except.ok.inj h).symm⟩)
  · exact Or.inr (Or.inr (Or.inl ⟨himm.1, himm.2, (Except.ok.inj h).symm⟩))
  · exact absurd h fail_ne_ok
  · cases hv : s.mem[insn.k.toNat]? with
    | none =>
        rw [hv] at h
        cases h
    | some v =>
        rw [hv] at h
        exact Or.inr (Or.inr (Or.inr ⟨hmem.1, hmem.2, v, rfl, (Except.ok.inj h).symm⟩))
  · exact absurd h fail_ne_ok

theorem source_ok (h : source insn s = .ok v) :
    (bpfSrc insn.code = bpfK ∧ v = insn.k)
      ∨ (bpfSrc insn.code ≠ bpfK ∧ bpfSrc insn.code = bpfX ∧ v = s.x) := by
  rcases ite_eq_iff.mp h with ⟨hk, h⟩ | ⟨hk, h⟩
  · exact Or.inl ⟨hk, (Except.ok.inj h).symm⟩
  rcases ite_eq_iff.mp h with ⟨hx, h⟩ | ⟨-, h⟩
  · exact Or.inr ⟨hk, hx, (Except.ok.inj h).symm⟩
  · exact absurd h fail_ne_ok

theorem store_cases (h : store v insn s = .ok s') :
    insn.k.toNat < 16 ∧ s' = { s with mem := s.mem.setIfInBounds insn.k.toNat v } := by
  unfold store at h
  split_ifs at h with hrange
  · exact absurd h fail_ne_ok
  · exact ⟨by simpa [bpfMemwords] using hrange, (Except.ok.inj h).symm⟩

theorem misc_cases (h : misc insn s = .ok s') :
    (bpfMiscop insn.code = bpfTax ∧ s' = { s with x := s.a })
      ∨ (bpfMiscop insn.code ≠ bpfTax ∧ bpfMiscop insn.code = bpfTxa
        ∧ s' = { s with a := s.x }) := by
  unfold misc at h
  split_ifs at h with htax htxa
  · exact Or.inl ⟨htax, (Except.ok.inj h).symm⟩
  · exact Or.inr ⟨htax, htxa, (Except.ok.inj h).symm⟩
  · exact absurd h fail_ne_ok

end Simple

end Cbpf

/-! ## Arithmetic and comparisons -/

namespace Cbpf

namespace Simple

variable {checks : Bool} {op : BitVec 16} {a src v : BitVec 32} {c : Bool}

/-- A division that succeeds. -/
theorem divided {q : BitVec 32}
    (h : (if src = 0 then fail .divisionByZero else .ok q) = (.ok v : Except Fault (BitVec 32))) :
    src ≠ 0 ∧ v = q := by
  rcases ite_eq_iff.mp h with ⟨-, h⟩ | ⟨hzero, h⟩
  · exact absurd h fail_ne_ok
  · exact ⟨hzero, (Except.ok.inj h).symm⟩

/-- A shift that succeeds. -/
theorem shifted {q : BitVec 32} (h : checked checks (decide (32 ≤ src.toNat)) q = .ok v) :
    v = q ∧ (checks = true → src.toNat < 32) := by
  obtain ⟨rfl, hover⟩ := checked_ok h
  exact ⟨rfl, fun hc => by simpa using hover hc⟩

/-- **The arithmetic of a block** is the interpreter's, when that does not overflow. -/
theorem arith_cases (h : arith checks (addForAnd op) a src = .ok v) :
    (∃ o : AluOp, C2e.aluOpcK op = .ok (o.opcode opcAlu false)
        ∧ C2e.aluOpcX op = .ok (o.opcode opcAlu true) ∧ v = o.eval a src
        ∧ (o.divides = true → src ≠ 0))
      ∨ (∃ o : ShiftOp, C2e.aluOpcK op = .ok (o.opcode opcAlu false)
        ∧ C2e.aluOpcX op = .ok (o.opcode opcAlu true) ∧ (op = bpfLsh ∨ op = bpfRsh)
        ∧ v = o.eval a (src.toNat % 32) ∧ (checks = true → src.toNat < 32)) := by
  by_cases hand : op = bpfAnd
  · subst hand
    exact Or.inl ⟨.add, rfl, rfl, (checked_ok h).1, nofun⟩
  rw [addForAnd, if_neg hand] at h
  rcases ite_eq_iff.mp h with ⟨hop, h⟩ | ⟨-, h⟩
  · exact Or.inl ⟨.add, by rw [hop]; rfl, by rw [hop]; rfl, (checked_ok h).1, nofun⟩
  rcases ite_eq_iff.mp h with ⟨hop, h⟩ | ⟨-, h⟩
  · exact Or.inl ⟨.sub, by rw [hop]; rfl, by rw [hop]; rfl, (checked_ok h).1, nofun⟩
  rcases ite_eq_iff.mp h with ⟨hop, h⟩ | ⟨-, h⟩
  · exact Or.inl ⟨.mul, by rw [hop]; rfl, by rw [hop]; rfl, (checked_ok h).1, nofun⟩
  rcases ite_eq_iff.mp h with ⟨hop, h⟩ | ⟨-, h⟩
  · obtain ⟨hzero, h⟩ := divided h
    exact Or.inl ⟨.div, by rw [hop]; rfl, by rw [hop]; rfl, h, fun _ => hzero⟩
  rcases ite_eq_iff.mp h with ⟨hop, h⟩ | ⟨-, h⟩
  · obtain ⟨hzero, h⟩ := divided h
    exact Or.inl ⟨.mod, by rw [hop]; rfl, by rw [hop]; rfl, h, fun _ => hzero⟩
  rcases ite_eq_iff.mp h with ⟨hop, h⟩ | ⟨-, h⟩
  · exact absurd hop hand
  rcases ite_eq_iff.mp h with ⟨hop, h⟩ | ⟨-, h⟩
  · exact Or.inl ⟨.or, by rw [hop]; rfl, by rw [hop]; rfl, (Except.ok.inj h).symm, nofun⟩
  rcases ite_eq_iff.mp h with ⟨hop, h⟩ | ⟨-, h⟩
  · exact Or.inl ⟨.xor, by rw [hop]; rfl, by rw [hop]; rfl, (Except.ok.inj h).symm, nofun⟩
  rcases ite_eq_iff.mp h with ⟨hop, h⟩ | ⟨-, h⟩
  · obtain ⟨hv, hshift⟩ := shifted h
    exact Or.inr ⟨.lsh, by rw [hop]; rfl, by rw [hop]; rfl, Or.inl hop,
      hv.trans (ShiftOp.eval_lsh _ _).symm, hshift⟩
  rcases ite_eq_iff.mp h with ⟨hop, h⟩ | ⟨-, h⟩
  · obtain ⟨hv, hshift⟩ := shifted h
    exact Or.inr ⟨.rsh, by rw [hop]; rfl, by rw [hop]; rfl, Or.inr hop,
      hv.trans (ShiftOp.eval_rsh _ _).symm, hshift⟩
  · exact absurd h fail_ne_ok

theorem jmp_ok {insn : BpfInsn} {s s' : State} (h : jmp insn s = .ok s') :
    (bpfOp insn.code = bpfJa ∧ s' = { s with pc := s.pc + insn.k.toNat })
      ∨ (bpfOp insn.code ≠ bpfJa ∧ ∃ src c, source insn s = .ok src
        ∧ cond (bpfOp insn.code) s.a src = .ok c
        ∧ s' = { s with pc := s.pc + if c then insn.jt.toNat else insn.jf.toNat }) := by
  rcases ite_eq_iff.mp h with ⟨hja, h⟩ | ⟨hja, h⟩
  · exact Or.inl ⟨hja, (Except.ok.inj h).symm⟩
  · obtain ⟨src, hsrc, h⟩ := Attempt.bind_ok.mp h
    obtain ⟨c, hc, h⟩ := Attempt.bind_ok.mp h
    exact Or.inr ⟨hja, src, c, hsrc, hc, (Attempt.pure_ok.mp h).symm⟩

/-- The comparison of a classic opcode, in the interpreter and in both forms of the block. -/
theorem jmpOpc_cases (op : BitVec 16) :
    (∃ o : JumpOp, o.signed = false ∧ C2e.jmpOpcK op = .ok (o.opcode false)
        ∧ C2e.jmpOpcX op = .ok (o.opcode true) ∧ ∀ a src, cond op a src = .ok (o.holds a src))
      ∨ (C2e.jmpOpcK op = C2e.fail .invalidJmpCondition
        ∧ C2e.jmpOpcX op = C2e.fail .invalidJmpCondition
        ∧ ∀ a src, cond op a src = fail .invalidJmpCondition) := by
  by_cases hgt : op = bpfJgt
  · exact Or.inl ⟨.gt, rfl, by rw [hgt]; rfl, by rw [hgt]; rfl, by rw [hgt]; exact fun _ _ => rfl⟩
  by_cases hge : op = bpfJge
  · exact Or.inl ⟨.ge, rfl, by rw [hge]; rfl, by rw [hge]; rfl, by rw [hge]; exact fun _ _ => rfl⟩
  by_cases heq : op = bpfJeq
  · exact Or.inl ⟨.eq, rfl, by rw [heq]; rfl, by rw [heq]; rfl, by rw [heq]; exact fun _ _ => rfl⟩
  by_cases hset : op = bpfJset
  · exact Or.inl ⟨.set, rfl, by rw [hset]; rfl, by rw [hset]; rfl,
      by rw [hset]; exact fun _ _ => rfl⟩
  · refine Or.inr ⟨?_, ?_, fun a src => ?_⟩
    · rw [C2e.jmpOpcK, if_neg hgt, if_neg hge, if_neg heq, if_neg hset]
    · rw [C2e.jmpOpcX, if_neg hgt, if_neg hge, if_neg heq, if_neg hset]
    · rw [cond, if_neg hgt, if_neg hge, if_neg heq, if_neg hset]

theorem cond_cases (h : cond op a src = .ok c) :
    ∃ o : JumpOp, C2e.jmpOpcK op = .ok (o.opcode false) ∧ C2e.jmpOpcX op = .ok (o.opcode true)
      ∧ o.signed = false ∧ c = o.holds a src := by
  rcases jmpOpc_cases op with ⟨o, hs, hk, hx, hcond⟩ | ⟨-, -, hcond⟩
  · rw [hcond] at h
    exact ⟨o, hk, hx, hs, (Except.ok.inj h).symm⟩
  · rw [hcond] at h
    exact absurd h fail_ne_ok

/-- **A comparison with the index register**, as the block makes it: the other way round. -/
theorem jmpX_cases {insn : BpfInsn} {s s' : State} (hcls : bpfClass insn.code = bpfJmp)
    (hsrc : bpfSrc insn.code = bpfX) (hja : bpfOp insn.code ≠ bpfJa)
    (h : jmp insn.asConverted s = .ok s') :
    ∃ o : JumpOp, C2e.jmpOpcX (bpfOp insn.code) = .ok (o.opcode true) ∧ o.signed = false
      ∧ s' = { s with pc := s.pc + if o.holds s.x s.a then insn.jt.toNat else insn.jf.toNat } := by
  have hx : ∀ {i : BpfInsn} {v}, bpfSrc i.code = bpfX → source i s = .ok v → v = s.x := by
    intro i v hi hv
    rcases source_ok hv with ⟨hk, -⟩ | ⟨-, -, hv⟩
    · rw [hi] at hk
      cases hk
    · exact hv
  rw [BpfInsn.asConverted_jmpX hcls hsrc] at h
  split_ifs at h with hgt hge
  · have hop : bpfOp (insn.withOp bpfJge).code = bpfJge := insn.op_withOp (by decide)
    obtain ⟨hja', -⟩ | ⟨-, src, c, hv, hc, rfl⟩ := jmp_ok h
    · exact absurd (hop.symm.trans hja') (by decide)
    obtain rfl := hx ((insn.src_withOp (by decide)).trans hsrc) hv
    dsimp only at hc
    rw [hop] at hc
    obtain rfl : s.x.ule s.a = c := Except.ok.inj hc
    refine ⟨.gt, by rw [hgt]; rfl, rfl, ?_⟩
    show _ = State.mk _ _ _ (s.pc + if s.a.ult s.x then _ else _)
    rw [BitVec.ule_eq_not_ult]
    cases s.a.ult s.x <;> rfl
  · have hop : bpfOp (insn.withOp bpfJgt).code = bpfJgt := insn.op_withOp (by decide)
    obtain ⟨hja', -⟩ | ⟨-, src, c, hv, hc, rfl⟩ := jmp_ok h
    · exact absurd (hop.symm.trans hja') (by decide)
    obtain rfl := hx ((insn.src_withOp (by decide)).trans hsrc) hv
    dsimp only at hc
    rw [hop] at hc
    obtain rfl : s.x.ult s.a = c := Except.ok.inj hc
    refine ⟨.ge, by rw [hge]; rfl, rfl, ?_⟩
    show _ = State.mk _ _ _ (s.pc + if s.a.ule s.x then _ else _)
    rw [BitVec.ule_eq_not_ult]
    cases s.x.ult s.a <;> rfl
  · obtain ⟨hja', -⟩ | ⟨-, src, c, hv, hc, rfl⟩ := jmp_ok h
    · exact absurd hja' hja
    obtain rfl := hx hsrc hv
    rcases ite_eq_iff.mp hc with ⟨hop, -⟩ | ⟨-, hc⟩
    · exact absurd hop hgt
    rcases ite_eq_iff.mp hc with ⟨hop, -⟩ | ⟨-, hc⟩
    · exact absurd hop hge
    rcases ite_eq_iff.mp hc with ⟨hop, hc⟩ | ⟨-, hc⟩
    · obtain rfl := Except.ok.inj hc
      refine ⟨.eq, by rw [hop]; rfl, rfl, ?_⟩
      rw [Bool.beq_comm]
      rfl
    rcases ite_eq_iff.mp hc with ⟨hop, hc⟩ | ⟨-, hc⟩
    · obtain rfl := Except.ok.inj hc
      refine ⟨.set, by rw [hop]; rfl, rfl, ?_⟩
      rw [BitVec.and_comm]
      rfl
    · exact absurd hc fail_ne_ok

end Simple

end Cbpf

/-! ## What a block does -/

/-- A filter holds what the interpreter holds. -/
structure Same (s : State) (f : Filter) : Prop where
  a : f.a = s.a
  x : f.x = s.x
  mem : f.mem = s.mem

/-- A block without jumps that does what takes the variables from `s` to `s'`. -/
structure Block (data : List (BitVec 8)) (b : List Insn) (s s' : State) : Prop where
  pc : s'.pc = s.pc
  straight : ∀ op ∈ b.map Insn.opcode, 0x07#8 &&& op ≠ opcJmp
  along : ∀ f, Same s f → ∃ f', Along Filter.pc (Filter.Next data) b f f' ∧ Same s' f'

/-- A block of one instruction that sets a register. -/
theorem Block.of_set {data : List (BitVec 8)} {e : Insn} {s s' : State} (r : Filter.Acc)
    (v : BitVec 32) (hs' : s' = match r with | .a => { s with a := v } | .x => { s with x := v })
    (hstraight : 0x07#8 &&& e.opcode ≠ opcJmp)
    (h : ∀ f, Same s f → Filter.Next data e f (f.set r v)) : Block data [e] s s' := by
  subst hs'
  refine ⟨by cases r <;> rfl, by simpa using hstraight, ?_⟩
  intro f hf
  refine ⟨f.set r v, Along.cons (h f hf) (f.set_pc r v) (Along.nil _), ?_⟩
  cases r with
  | a => exact ⟨rfl, hf.x, hf.mem⟩
  | x => exact ⟨hf.a, rfl, hf.mem⟩

namespace C2e

open VeBpf.Filter

variable {checks : Bool} {data : List (BitVec 8)} {insn : BpfInsn} {s s' : State} {b : List Insn}

/-! ### Scratch words -/

theorem memOffset_ok {k : BitVec 32} {off : BitVec 16} (h : memOffset checks k = .ok off) :
    off = scratch k.toNat := by
  obtain ⟨n₁, h₁, h⟩ := Attempt.bind_ok.mp h
  obtain ⟨n₂, h₂, h₃⟩ := Attempt.bind_ok.mp h
  obtain ⟨rfl, -⟩ := checked_ok h₁
  obtain ⟨rfl, -⟩ := checked_ok h₂
  obtain ⟨rfl, -⟩ := checked_ok h₃
  have hcast : k.setWidth 16 = BitVec.ofNat 16 k.toNat := rfl
  rw [scratch, hcast, BitVec.ofNat_add, BitVec.add_comm, BitVec.neg_mul, BitVec.mul_comm]
  rfl

theorem fetch_block (r : Acc) {v : BitVec 32} (hv : s.mem[insn.k.toNat]? = some v)
    (hs' : s' = match r with | .a => { s with a := v } | .x => { s with x := v })
    (hc : (do let off ← memOffset checks insn.k
              return [⟨ebpfOpLdxw, r.reg, r10, off, 0⟩]) = Except.ok b) : Block data b s s' := by
  obtain ⟨off, hoff, hb⟩ := Attempt.bind_ok.mp hc
  obtain rfl := Attempt.pure_ok.mp hb
  obtain rfl := memOffset_ok hoff
  have hstraight : 0x07#8 &&& ebpfOpLdxw ≠ opcJmp := by decide
  refine Block.of_set r v hs' hstraight ?_
  intro f hf
  exact Next.fetch r insn.k.toNat v f (hf.mem ▸ hv)

theorem store_block (r : Acc) {v : BitVec 32} (hr : ∀ f, Same s f → f.get r = v)
    (hi : Simple.store v insn s = .ok s') (hc : store checks r.reg insn = .ok b) :
    Block data b s s' := by
  obtain ⟨off, hoff, hb⟩ := Attempt.bind_ok.mp hc
  obtain rfl := Attempt.pure_ok.mp hb
  obtain ⟨hk, rfl⟩ := Simple.store_cases hi
  obtain rfl := memOffset_ok hoff
  have hstraight : 0x07#8 &&& ebpfOpStxw ≠ opcJmp := by decide
  refine ⟨rfl, by simpa using hstraight, ?_⟩
  intro f hf
  refine ⟨_, Along.cons (Next.store r insn.k.toNat f hk) rfl (Along.nil _), hf.a, hf.x, ?_⟩
  show f.mem.setIfInBounds _ _ = _
  rw [hf.mem, hr f hf]

/-! ### Loads from the packet -/

def loadOp (n : Nat) : BitVec 8 :=
  if n = 4 then ebpfOpLdxw else if n = 2 then ebpfOpLdxh else ebpfOpLdxb

/-- What follows a load of `n` bytes. A byte has no order. -/
def toHost (n : Nat) : List Insn :=
  if n = 1 then [] else [⟨ebpfOpBe, regA, 0, 0, BitVec.ofNat 32 (8 * n)⟩]

theorem ld_packet {n : Nat} (hn : width (bpfSize insn.code) = some n)
    (hmode : bpfMode insn.code = bpfAbs ∨ bpfMode insn.code = bpfInd) :
    ld checks insn = .ok ((if bpfMode insn.code = bpfInd then packetAtX else [])
      ++ ⟨loadOp n, regA, if bpfMode insn.code = bpfInd then regTmp else r1,
        insn.k.setWidth 16, 0⟩ :: toHost n) := by
  unfold ld
  rcases width_cases hn with ⟨hsize, rfl⟩ | ⟨hsize, rfl⟩ | ⟨hsize, rfl⟩ <;>
    rcases hmode with hmode | hmode <;> rw [hsize, hmode] <;> rfl

theorem along_toHost {n k : Nat} (hn : n = 4 ∨ n = 2 ∨ n = 1) (hin : k + n ≤ data.length)
    (f : Filter) : ∃ f', Along Filter.pc (Next data) (toHost n) (f.set .a (packetWord n data k)) f'
      ∧ f'.a = Simple.bigEndian n data k ∧ f'.x = f.x ∧ f'.mem = f.mem := by
  by_cases hone : n = 1
  · subst hone
    exact ⟨_, Along.nil _, packetWord_one data k, rfl, rfl⟩
  · rw [toHost, if_neg hone]
    refine ⟨_, Along.cons (Next.be n _ (by omega)) (set_pc _ _ _) (Along.nil _), ?_, rfl, rfl⟩
    exact swap_packetWord (by omega) hin

theorem packet_block {n k : Nat} (hn : width (bpfSize insn.code) = some n)
    (hmode : bpfMode insn.code = bpfAbs ∨ bpfMode insn.code = bpfInd)
    (hk : k = insn.k.toNat + if bpfMode insn.code = bpfInd then s.x.toNat else 0)
    (hlt : k < data.length) (hin : k + n ≤ data.length) (hlen : data.length ≤ 2 ^ 15)
    (hc : ld checks insn = .ok b) :
    Block data b s { s with a := Simple.bigEndian n data k } := by
  rw [ld_packet hn hmode] at hc
  obtain rfl := Except.ok.inj hc
  have hwidth : n = 4 ∨ n = 2 ∨ n = 1 := by rcases width_cases hn with h | h | h <;> omega
  have hop : loadWidth (loadOp n) = some n := by rcases hwidth with rfl | rfl | rfl <;> rfl
  have hoff : (insn.k.setWidth 16).toNat = insn.k.toNat := by
    rw [BitVec.toNat_setWidth, Nat.mod_eq_of_lt (by omega)]
  refine ⟨rfl, ?_, ?_⟩
  · have hops : ∀ ind : Bool, ∀ op ∈ (if ind then [ebpfOpMov64Reg, ebpfOpAdd64Reg] else [])
        ++ loadOp n :: (toHost n).map Insn.opcode, 0x07#8 &&& op ≠ opcJmp := by
      rcases hwidth with rfl | rfl | rfl <;> decide
    by_cases hind : bpfMode insn.code = bpfInd
    · rw [if_pos hind]
      exact hops true
    · rw [if_neg hind]
      exact hops false
  intro f hf
  split_ifs at hk ⊢ with hind
  · let f₁ : Filter := { f with tmp := some 0, pc := f.pc + 1 }
    let f₂ : Filter := { f₁ with tmp := some (0 + f.x.setWidth 64), pc := f₁.pc + 1 }
    have ht : (0 + f.x.setWidth 64 : BitVec 64).toNat + (insn.k.setWidth 16).toNat = k := by
      rw [hoff, hk, hf.x]
      simp
      omega
    obtain ⟨f', hend, ha, hx, hmem⟩ := along_toHost hwidth hin f₂
    refine ⟨f', Along.cons (Next.packet f) rfl (Along.cons (Next.packetX 0 f₁ rfl) rfl
      (Along.cons ?_ (set_pc _ _ _) hend)), ha, hx.trans hf.x, hmem.trans hf.mem⟩
    rw [← ht]
    exact Next.loadAt _ n .a _ _ f₂ hop (by omega) (by omega) rfl (by omega)
  · obtain ⟨f', hend, ha, hx, hmem⟩ := along_toHost hwidth hin f
    refine ⟨f', Along.cons ?_ (set_pc _ _ _) hend, ha, hx.trans hf.x, hmem.trans hf.mem⟩
    have hk' : (insn.k.setWidth 16).toNat = k := by omega
    rw [← hk']
    exact Next.load _ n .a _ f hop (by omega) (by omega) (by omega)

/-! ### One lemma for each class -/

theorem ld_block (hi : Simple.ld checks data insn s = .ok s') (hc : ld checks insn = .ok b)
    (hwrap : checks = false → bpfMode insn.code ≠ bpfInd) (hlen : data.length ≤ 2 ^ 15) :
    Block data b s s' := by
  rcases Simple.ld_cases hi with ⟨n, hn, hmode, v, hv, rfl⟩ | ⟨hsize, hmode⟩ |
    ⟨hsize, hmode, rfl⟩ | ⟨hsize, hmode, v, hv, hs'⟩
  · obtain ⟨k, hk, hlt, hin, rfl⟩ := Simple.readPacket_ok hv hwrap
    exact packet_block hn hmode hk hlt hin hlen hc
  · simp only [ld, hsize, hmode] at hc
    cases hc
  · simp only [ld, hsize, hmode] at hc
    obtain rfl := Except.ok.inj hc
    have hstraight : 0x07#8 &&& ebpfOpMovImm ≠ opcJmp := by decide
    exact Block.of_set .a insn.k rfl hstraight fun f _ => Next.alu .mov .a insn.k f nofun
  · simp only [ld, hsize, hmode] at hc
    exact fetch_block .a hv hs' hc

theorem packetWord_byte {k : Nat} {v : BitVec 8} (h : data[k]? = some v) :
    packetWord 1 data k = v.setWidth 32 := by
  have htake : (data.drop k).take 1 = [v] := by
    rw [List.take_one, List.head?_drop, h]
    rfl
  rw [packetWord, htake]
  show BitVec.ofNat 32 (256 * 0 + v.toNat) = _
  rw [Nat.mul_zero, Nat.zero_add, BitVec.ofNat_toNat]

/-- The header length, as the block and as the interpreter compute it. -/
theorem msh_eq (v : BitVec 8) :
    ShiftOp.lsh.eval (AluOp.and.eval (v.setWidth 32) 0xf#32) 2
      = ((v &&& 0xf#8) <<< 2).setWidth 32 := by
  revert v
  decide

theorem ldx_block (hi : Simple.ldx data insn s = .ok s') (hc : ldx checks insn = .ok b)
    (hlen : data.length ≤ 2 ^ 15) : Block data b s s' := by
  rcases Simple.ldx_cases hi with ⟨hsize, hmode⟩ | ⟨hsize, hmode, v, hv, hs'⟩ |
    ⟨hsize, hmode, rfl⟩ | ⟨hsize, hmode, v, hv, hs'⟩
  · simp only [ldx, hsize, hmode] at hc
    cases hc
  · simp only [ldx, hsize, hmode] at hc
    obtain rfl := Except.ok.inj hc
    obtain ⟨hk, -⟩ := List.getElem?_eq_some_iff.mp hv
    have hoff : (insn.k.setWidth 16).toNat = insn.k.toNat := by
      rw [BitVec.toNat_setWidth, Nat.mod_eq_of_lt (by omega)]
    subst hs'
    have hstraight : ∀ op ∈ [ebpfOpLdxb, ebpfOpAndImm, ebpfOpLshImm],
        0x07#8 &&& op ≠ opcJmp := by decide
    refine ⟨rfl, hstraight, ?_⟩
    intro f hf
    have hload := @Next.load data ebpfOpLdxb 1 .x (insn.k.setWidth 16) f rfl (by omega)
      (by omega) (by omega)
    rw [hoff, packetWord_byte hv] at hload
    refine ⟨_, Along.cons hload (set_pc _ _ _) (Along.cons (Next.alu .and .x 0xf#32 _ nofun)
      (set_pc _ _ _) (Along.cons (Next.shift .lsh .x 2#32 _ (by decide)) (set_pc _ _ _)
      (Along.nil _))), hf.a, msh_eq v, hf.mem⟩
  · simp only [ldx, hsize, hmode] at hc
    obtain rfl := Except.ok.inj hc
    have hstraight : 0x07#8 &&& ebpfOpMovImm ≠ opcJmp := by decide
    exact Block.of_set .x insn.k rfl hstraight fun f _ => Next.alu .mov .x insn.k f nofun
  · simp only [ldx, hsize, hmode] at hc
    exact fetch_block .x hv hs' hc

theorem misc_block (hi : Simple.misc insn s = .ok s') (hc : misc insn = .ok b) :
    Block data b s s' := by
  have hstraight : 0x07#8 &&& ebpfOpMovReg ≠ opcJmp := by decide
  rcases Simple.misc_cases hi with ⟨hop, rfl⟩ | ⟨hne, hop, rfl⟩
  · rw [misc, if_pos hop] at hc
    obtain rfl := Except.ok.inj hc
    refine Block.of_set .x s.a rfl hstraight ?_
    intro f hf
    rw [← hf.a]
    exact Next.aluReg .mov .x .a f nofun
  · rw [misc, if_neg hne, if_pos hop] at hc
    obtain rfl := Except.ok.inj hc
    refine Block.of_set .a s.x rfl hstraight ?_
    intro f hf
    rw [← hf.x]
    exact Next.aluReg .mov .a .x f nofun

theorem alu_straight (o : AluOp) (reg : Bool) : 0x07#8 &&& o.opcode opcAlu reg ≠ opcJmp := by
  cases o <;> cases reg <;> decide

theorem shift_straight (o : ShiftOp) (reg : Bool) :
    0x07#8 &&& o.opcode opcAlu reg ≠ opcJmp := by
  cases o <;> cases reg <;> decide

theorem alu_block (hi : Simple.alu checks insn.asConverted s = .ok s') (hc : alu insn = .ok b)
    (hcls : bpfClass insn.code = bpfAlu) (hwrap : checks = false → insn.WrapsAlike) :
    Block data b s s' := by
  obtain ⟨hop, hsrc, hk⟩ := BpfInsn.asConverted_alu hcls
  rcases ite_eq_iff.mp hi with ⟨hneg, hi⟩ | ⟨hneg, hi⟩
  · rw [hop, addForAnd_eq_neg] at hneg
    obtain ⟨v, hv, hs'⟩ := Attempt.bind_ok.mp hi
    obtain ⟨rfl, -⟩ := checked_ok hv
    rw [alu, if_pos hneg] at hc
    obtain rfl := Except.ok.inj hc
    refine Block.of_set .a (-s.a) (Attempt.pure_ok.mp hs').symm (alu_straight .neg false) ?_
    intro f hf
    rw [← hf.a]
    exact Next.alu .neg .a 0 f nofun
  · rw [hop, addForAnd_eq_neg] at hneg
    obtain ⟨src, hsource, hi⟩ := Attempt.bind_ok.mp hi
    obtain ⟨v, hv, hs'⟩ := Attempt.bind_ok.mp hi
    have hset := (Attempt.pure_ok.mp hs').symm
    rw [hop] at hv
    rw [alu, if_neg hneg] at hc
    have hsource := Simple.source_ok hsource
    rw [hsrc, hk] at hsource
    rcases hsource with ⟨hfrom, rfl⟩ | ⟨hnot, hfrom, rfl⟩
    · rw [if_pos hfrom] at hc
      obtain ⟨opc, hopc, hb⟩ := Attempt.bind_ok.mp hc
      obtain rfl := Attempt.pure_ok.mp hb
      rcases Simple.arith_cases hv with ⟨o, ho, -, rfl, hdiv⟩ | ⟨o, ho, -, hshift, rfl, hlt⟩
      · obtain rfl := Except.ok.inj (ho.symm.trans hopc)
        refine Block.of_set .a _ hset (alu_straight o false) ?_
        intro f hf
        rw [← hf.a]
        exact Next.alu o .a insn.k f hdiv
      · obtain rfl := Except.ok.inj (ho.symm.trans hopc)
        have hlt : insn.k.toNat < 32 := by
          cases checks with
          | true => exact hlt rfl
          | false => exact ((hwrap rfl).2 hcls hshift).2
        rw [Nat.mod_eq_of_lt hlt] at hset
        refine Block.of_set .a _ hset (shift_straight o false) ?_
        intro f hf
        rw [← hf.a]
        exact Next.shift o .a insn.k f hlt
    · rw [if_neg hnot, if_pos hfrom] at hc
      obtain ⟨opc, hopc, hb⟩ := Attempt.bind_ok.mp hc
      obtain rfl := Attempt.pure_ok.mp hb
      rcases Simple.arith_cases hv with ⟨o, -, ho, rfl, hdiv⟩ | ⟨o, -, ho, hshift, rfl, hlt⟩
      · obtain rfl := Except.ok.inj (ho.symm.trans hopc)
        refine Block.of_set .a _ hset (alu_straight o true) ?_
        intro f hf
        rw [← hf.x] at hdiv
        rw [← hf.a, ← hf.x]
        exact Next.aluReg o .a .x f hdiv
      · obtain rfl := Except.ok.inj (ho.symm.trans hopc)
        have hlt : s.x.toNat < 32 := by
          cases checks with
          | true => exact hlt rfl
          | false => exact absurd ((hwrap rfl).2 hcls hshift).1 hnot
        rw [Nat.mod_eq_of_lt hlt] at hset
        refine Block.of_set .a _ hset (shift_straight o true) ?_
        intro f hf
        rw [← hf.x] at hlt
        rw [← hf.a, ← hf.x]
        exact Next.shiftReg o .a .x f hlt

/-- **A block that does not jump** does what its instruction does. -/
theorem exec_block (hi : Simple.exec checks data insn.asConverted s = .ok s')
    (hc : block checks insn = .ok b) (hret : bpfClass insn.code ≠ bpfRet)
    (hjmp : bpfClass insn.code ≠ bpfJmp) (hwrap : checks = false → insn.WrapsAlike)
    (hlen : data.length ≤ 2 ^ 15) : Block data b s s' := by
  rw [Simple.exec, BpfInsn.class_asConverted] at hi
  rcases ite_eq_iff.mp hc with ⟨hcls, -⟩ | ⟨-, hc⟩
  · exact absurd hcls hret
  by_cases halu : bpfClass insn.code = bpfAlu
  · simp only [halu] at hi hc
    exact alu_block hi hc halu hwrap
  rw [BpfInsn.asConverted_eq halu hjmp] at hi
  rcases ite_eq_iff.mp hi with ⟨hcls, hi⟩ | ⟨hne, hi⟩
  · rw [if_pos hcls] at hc
    exact ld_block hi hc (fun h => (hwrap h).1 hcls) hlen
  rw [if_neg hne] at hc
  rcases ite_eq_iff.mp hi with ⟨hcls, hi⟩ | ⟨hne, hi⟩
  · rw [if_pos hcls] at hc
    exact ldx_block hi hc hlen
  rw [if_neg hne] at hc
  rcases ite_eq_iff.mp hi with ⟨hcls, hi⟩ | ⟨hne, hi⟩
  · rw [if_pos hcls] at hc
    exact store_block .a (fun f hf => hf.a) hi hc
  rw [if_neg hne] at hc
  rcases ite_eq_iff.mp hi with ⟨hcls, hi⟩ | ⟨hne, hi⟩
  · rw [if_pos hcls] at hc
    exact store_block .x (fun f hf => hf.x) hi hc
  rw [if_neg hne, if_neg hjmp, if_neg halu] at hc
  rw [if_neg hjmp, if_neg halu] at hi
  rcases ite_eq_iff.mp hi with ⟨hcls, hi⟩ | ⟨hne, hi⟩
  · rw [if_pos hcls] at hc
    exact misc_block hi hc
  · exact absurd hi Simple.fail_ne_ok

end C2e

end VeBpf
