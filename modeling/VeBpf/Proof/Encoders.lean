import VeBpf.Core.Cpu
import VeBpf.Tools.Encoders
import Mathlib.Data.List.Forall2

/-!
# The encoders against the decoder

A word takes one of three ways into the program memory and is put in order on each
of them by a hand-written permutation of its bytes. All three are the permutation
that the wires of `cpu.v` undo, and the control words between the rules are told
from the instructions on every way.
-/

namespace VeBpf

open ByteMem HexText

/-! ## Words -/

/-- The control words as numbers. -/
def controlWords : Markers (BitVec 64) where
  start := 0xffffffffffffffff#64
  endBlock := 0xffffffffffffff0f#64
  endAll := 0xfffffffffffffff0#64
  start_ne_endBlock := by decide
  start_ne_endAll := by decide
  endBlock_ne_endAll := by decide

/-- The word that `dump.py` prints. -/
def Insn.packed (i : Insn) : BitVec 64 := wordBE i.pack

/-- The word that `cpu.v` decodes. -/
def Insn.word (i : Insn) : BitVec 64 :=
  wordBE [i.opcode, i.src ++ i.dst, getByte i.offset 1, getByte i.offset 0, getByte i.imm 3,
    getByte i.imm 2, getByte i.imm 1, getByte i.imm 0]

/-- Offset and immediate turned round. -/
def reorder (w : BitVec 64) : BitVec 64 :=
  wordBE [getByte w 7, getByte w 6, getByte w 4, getByte w 5, getByte w 0, getByte w 1,
    getByte w 2, getByte w 3]

/-- What the loader makes of a word. -/
def memoryForm (w : BitVec 64) : BitVec 64 := if w ∈ controlWords.all then w else reorder w

namespace Insn

theorem bytesBE_packed (i : Insn) : bytesBE i.packed = i.pack := bytesBE_wordBE ..

theorem reorder_packed (i : Insn) : reorder i.packed = i.word := by
  have hbytes := i.bytesBE_packed
  simp only [bytesBE, pack, List.cons.injEq, and_true] at hbytes
  obtain ⟨h₇, h₆, h₅, h₄, h₃, h₂, h₁, h₀⟩ := hbytes
  rw [reorder, h₇, h₆, h₅, h₄, h₃, h₂, h₁, h₀, word]

/-- The highest byte of a control word is no opcode. -/
theorem not_control {i : Insn} (h : i.Supported) {w : BitVec 64} (hw : getByte w 7 = i.opcode) :
    w ∉ controlWords.all := by
  have hff : i.opcode ≠ 0xff := by
    rcases h with h | h
    · intro heq
      rw [heq] at h
      exact absurd h (by decide)
    · rw [h]
      decide
  have hctl : ∀ c ∈ controlWords.all, getByte c 7 = 0xff := by
    intro c hc
    simp only [Markers.all, List.mem_cons, List.not_mem_nil, or_false] at hc
    rcases hc with rfl | rfl | rfl <;> rfl
  intro hmem
  exact hff (hw.symm.trans (hctl w hmem))

theorem packed_not_control {i : Insn} (h : i.Supported) : i.packed ∉ controlWords.all :=
  not_control h (List.cons.inj i.bytesBE_packed).1

theorem word_not_control {i : Insn} (h : i.Supported) : i.word ∉ controlWords.all :=
  not_control h (List.cons.inj (bytesBE_wordBE ..)).1

theorem memoryForm_packed {i : Insn} (h : i.Supported) : memoryForm i.packed = i.word := by
  rw [memoryForm, if_neg (packed_not_control h), reorder_packed]

end Insn

/-! ## The wires -/

/-- The wires of a core with `w` in `instruction` carry the fields of `i`; `opcode` and `dst` do
so unless the core is on the second slot of an `LDDW`. -/
structure Insn.Carries (i : Insn) (w : BitVec 64) : Prop where
  opcode : ∀ c : Cpu, c.instruction = w → c.keepOp = 0 → c.opcode = i.opcode
  dst : ∀ c : Cpu, c.instruction = w → c.keepOp = 0 → c.dst = i.dst
  src : ∀ c : Cpu, c.instruction = w → c.src = i.src
  offset : ∀ c : Cpu, c.instruction = w → c.offset = i.offset
  immediate : ∀ c : Cpu, c.instruction = w → c.immediate = i.imm

/-- **The decoder undoes the layout.** -/
theorem Insn.carries (i : Insn) : i.Carries i.word := by
  have hbytes : bytesBE i.word = _ := bytesBE_wordBE ..
  simp only [bytesBE, List.cons.injEq, and_true] at hbytes
  obtain ⟨h₇, h₆, h₅, h₄, h₃, h₂, h₁, h₀⟩ := hbytes
  have hop : opcodeOf i.word = i.opcode := h₇
  have hsrc : srcOf i.word = i.src := by
    have hhigh : (getByte i.word 6).extractLsb' 4 4 = srcOf i.word :=
      extractLsb'_getByte i.word 6 (by omega)
    rw [← hhigh, h₆, BitVec.extractLsb'_append_eq_left]
  have hdst : dstOf i.word = i.dst := by
    have hlow : (getByte i.word 6).extractLsb' 0 4 = dstOf i.word :=
      extractLsb'_getByte i.word 6 (by omega)
    rw [← hlow, h₆, BitVec.extractLsb'_append_eq_right]
  have hoff : offsetOf i.word = i.offset := by
    have hsplit : offsetOf i.word = getByte i.word 5 ++ getByte i.word 4 := rfl
    rw [hsplit, h₅, h₄]
    exact BitVec.extractLsb'_append_extractLsb'
  have himm : immediateOf i.word = i.imm := by
    have hsplit : immediateOf i.word
        = getByte i.word 3 ++ getByte i.word 2 ++ getByte i.word 1 ++ getByte i.word 0 := rfl
    rw [hsplit, h₃, h₂, h₁, h₀, getByte, getByte, getByte, getByte,
      BitVec.extractLsb'_append_extractLsb'_eq_extractLsb' (by rfl),
      BitVec.extractLsb'_append_extractLsb'_eq_extractLsb' (by rfl),
      BitVec.extractLsb'_append_extractLsb'_eq_extractLsb' (by rfl)]
    exact BitVec.extractLsb'_eq_self
  constructor
  · intro c hc hk
    rw [Cpu.opcode, if_pos hk, hc, hop]
  · intro c hc hk
    rw [Cpu.dst, if_pos hk, hc, hdst]
  · intro c hc
    rw [Cpu.src, hc, hsrc]
  · intro c hc
    rw [Cpu.offset, hc, hoff]
  · intro c hc
    rw [Cpu.immediate, hc, himm]

/-! ## Packed rules -/

theorem length_assemble (r : List Insn) : (assemble r).length = 8 * r.length := by
  induction r with
  | nil => rfl
  | cons i r ih =>
      rw [assemble, List.flatMap_cons, List.length_append, ← assemble, ih, List.length_cons]
      simp only [Insn.pack, List.length_cons, List.length_nil]
      omega

theorem unpackQ_assemble (r : List Insn) : unpackQ (assemble r) = r.map Insn.packed := by
  induction r with
  | nil => rfl
  | cons i r ih =>
      show i.packed :: unpackQ (assemble r) = _
      rw [ih, List.map_cons]

theorem checkDatafile_assemble (r : List Insn) :
    checkDatafile (assemble r) = r.map Insn.word := by
  induction r with
  | nil => rfl
  | cons i r ih =>
      show i.word :: checkDatafile (assemble r) = _
      rw [ih, List.map_cons]

theorem dump_assemble (r : List Insn) :
    dump (assemble r) = (r.map Insn.packed).flatMap printWord := by
  rw [dump, if_pos (by rw [length_assemble]; omega), unpackQ_assemble]

/-- The words of `combined_hex.hex`. -/
def hexWords (rules : List (List Insn)) : List (BitVec 64) :=
  controlWords.frame (rules.map (List.map Insn.packed))

/-- **`combined_hex.hex` is the rules between control words.** -/
theorem combinedCompile_assemble {rules : List (List Insn)} (hne : rules ≠ []) :
    combinedCompile (rules.map assemble) = some ((hexWords rules).flatMap printWord) := by
  have hstart : echo startRule = printWord controlWords.start := by decide
  have hblock : echo endRule = printWord controlWords.endBlock := by decide
  have hall : echo endAllRules = printWord controlWords.endAll := by decide
  have hrest : combineRules (rules.map assemble)
      = (controlWords.frameRest (rules.map (List.map Insn.packed))).flatMap printWord := by
    clear hne
    induction rules with
    | nil => rfl
    | cons r rules ih =>
        rw [List.map_cons, combineRules, ih, dump_assemble]
        cases rules with
        | nil =>
            simp [Markers.frameRest, hall]
        | cons r' rules =>
            simp [Markers.frameRest, hblock, hstart]
  have hbins : rules.map assemble ≠ [] := by simpa using hne
  rw [combinedCompile, if_neg hbins, hrest, hstart, hexWords, Markers.frame, List.flatMap_cons]

/-! ## Reading the file -/

theorem fileLines_append {l : List Char} (hl : '\n' ∉ l) (rest : List Char) :
    fileLines (l ++ '\n' :: rest) = (l ++ ['\n']) :: fileLines rest := by
  induction l with
  | nil => simp [fileLines]
  | cons c l ih =>
      rw [List.mem_cons, not_or] at hl
      rw [List.cons_append, fileLines, if_neg (Ne.symm hl.1), ih hl.2]
      rfl

theorem not_mem_format {c : Char} (hc : c = '\n' ∨ c = 'x') (w : BitVec 64) :
    c ∉ format016x w := not_mem_hexBytes hc _

theorem fileLines_printWord (ws : List (BitVec 64)) :
    fileLines (ws.flatMap printWord) = ws.map printWord := by
  induction ws with
  | nil => rfl
  | cons w ws ih =>
      have hline : '\n' ∉ '0' :: 'x' :: format016x w := by
        simp only [List.mem_cons, not_or]
        exact ⟨by decide, by decide, not_mem_format (Or.inl rfl) w⟩
      rw [List.flatMap_cons, List.map_cons, ← ih, printWord, List.append_assoc]
      exact fileLines_append hline _

theorem readLine_printWord (w : BitVec 64) : readLine (printWord w) = some (format016x w) := by
  have hx : (printWord w).splitOn 'x' = [['0'], format016x w ++ ['\n']] := by
    have hrest : 'x' ∉ format016x w ++ ['\n'] := by
      rw [List.mem_append, not_or]
      exact ⟨not_mem_format (Or.inr rfl) w, by decide⟩
    have hzero : 'x' ∉ ['0'] := by decide
    have hfirst := List.splitOn_append_cons_self_of_not_mem hzero (format016x w ++ ['\n'])
    rw [List.splitOn_eq_singleton hrest] at hfirst
    exact hfirst
  have hn : (format016x w ++ ['\n']).splitOn '\n' = [format016x w, []] := by
    rw [List.splitOn_append_cons_self_of_not_mem (not_mem_format (Or.inl rfl) w)]
    rfl
  rw [readLine, hx]
  show ((format016x w ++ ['\n']).splitOn '\n')[0]? = _
  rw [hn]
  rfl

/-- **What is printed is read.** -/
theorem readProgram_printWord (ws : List (BitVec 64)) :
    readProgram (ws.flatMap printWord) = some (ws.map format016x) := by
  rw [readProgram, fileLines_printWord]
  induction ws with
  | nil => rfl
  | cons w ws ih =>
      rw [List.map_cons, List.mapM_cons, readLine_printWord, ih]
      rfl

/-! ## Telling the control words -/

theorem format016x_inj {w w' : BitVec 64} : format016x w = format016x w' ↔ w = w' := by
  refine ⟨?_, fun h => congrArg _ h⟩
  intro h
  have hnat := congrArg parseHex h
  rw [format016x, format016x, parseHex_bytesBE, parseHex_bytesBE] at hnat
  exact BitVec.eq_of_toNat_eq (Option.some.inj hnat)

theorem startRule_eq : startRule = format016x controlWords.start := by decide

theorem endRule_eq : endRule = format016x controlWords.endBlock := by decide

theorem endAllRules_eq : endAllRules = format016x controlWords.endAll := by decide

/-- The comparison of the script with its three strings is a comparison of words. -/
theorem isInstruction_format (w : BitVec 64) :
    isInstruction (format016x w) = !decide (w ∈ controlWords.all) := by
  rw [isInstruction, startRule_eq, endRule_eq, endAllRules_eq, Bool.eq_iff_iff]
  simp only [Bool.and_eq_true, bne_iff_ne, ne_eq, format016x_inj, Bool.not_eq_true',
    decide_eq_false_iff_not, Markers.all, List.mem_cons, List.not_mem_nil, or_false, not_or,
    and_assoc]

/-! ## The simulation file -/

theorem simWord_format {w : BitVec 64} (h : w ≠ controlWords.endAll) :
    simWord (format016x w) = format016x (memoryForm w) ++ ['\n'] := by
  rw [simWord, isInstruction_format, memoryForm]
  by_cases hw : w ∈ controlWords.all
  · rw [if_pos hw, decide_eq_true hw, Bool.not_true, if_neg Bool.false_ne_true, endAllRules_eq,
      if_pos (bne_iff_ne.mpr (mt format016x_inj.mp h))]
  · rw [if_neg hw, decide_eq_false hw, Bool.not_false, if_pos rfl]
    -- slices of sixteen digits are slices of eight bytes
    show _ = hexBytes (bytesBE (reorder w)) ++ ['\n']
    rw [reorder, bytesBE_wordBE]
    rfl

theorem simWord_endAll :
    simWord (format016x controlWords.endAll) = format016x controlWords.endAll := by
  decide

/-- **The simulation file, line by line.** -/
theorem lines_simGen {rules : List (List Insn)} (hne : rules ≠ [])
    (hsup : ∀ r ∈ rules, ∀ i ∈ r, i.Supported) :
    (simGen ((hexWords rules).map format016x)).splitOn '\n'
      = (hexWords rules).map fun w => format016x (memoryForm w) := by
  have hclean : ∀ b ∈ rules.map (List.map Insn.packed), ∀ w ∈ b, w ∉ controlWords.all := by
    intro b hb w hw
    obtain ⟨r, hr, rfl⟩ := List.mem_map.mp hb
    obtain ⟨i, hi, rfl⟩ := List.mem_map.mp hw
    exact Insn.packed_not_control (hsup r hr i hi)
  obtain ⟨init, hframe, hinit⟩ := controlWords.frame_eq_concat (by simpa using hne) hclean
  have hlast : memoryForm controlWords.endAll = controlWords.endAll := by
    rw [memoryForm, if_pos (by simp [Markers.all])]
  -- every line but the last ends with a newline
  have htext : simGen ((hexWords rules).map format016x)
      = ['\n'].intercalate ((hexWords rules).map fun w => format016x (memoryForm w)) := by
    rw [hexWords, hframe]
    clear hframe
    induction init with
    | nil =>
        show simWord (format016x controlWords.endAll) ++ [] = _
        rw [simWord_endAll]
        simp [hlast]
    | cons w init ih =>
        rw [List.mem_cons, not_or] at hinit
        have hw := simWord_format (Ne.symm hinit.1)
        rw [List.cons_append, List.map_cons, List.map_cons, simGen, List.flatMap_cons, ← simGen,
          ih hinit.2, hw, List.intercalate_cons_of_ne_nil (by simp)]
  rw [htext]
  refine List.splitOn_intercalate _ ?_ (by simp [hexWords, Markers.frame])
  intro l hl
  obtain ⟨w, -, rfl⟩ := List.mem_map.mp hl
  exact not_mem_format (Or.inl rfl) _

/-! ## The serial line -/

theorem byteAt_eq (x k : Nat) : byteAt x k = BitVec.ofNat 8 (x / 2 ^ k) := by
  apply BitVec.eq_of_toNat_eq
  rw [byteAt, BitVec.toNat_ofNat, BitVec.toNat_ofNat, Nat.shiftRight_eq_div_pow,
    Nat.and_two_pow_sub_one_eq_mod _ 8, Nat.mod_mod]

theorem byteAt_word (w : BitVec 64) (i : Nat) : byteAt w.toNat (8 * i) = getByte w i := by
  apply BitVec.eq_of_toNat_eq
  rw [byteAt_eq, toNat_getByte, BitVec.toNat_ofNat]

theorem byteAt_address (a : Nat) : byteAt a 8 ++ byteAt a 0 = BitVec.ofNat 16 a := by
  have hbytes : getByte (BitVec.ofNat 16 a) 1 ++ getByte (BitVec.ofNat 16 a) 0
      = BitVec.ofNat 16 a := BitVec.extractLsb'_append_extractLsb'
  have hbyte : ∀ i, i < 2 → byteAt a (8 * i) = getByte (BitVec.ofNat 16 a) i := by
    intro i hi
    apply BitVec.eq_of_toNat_eq
    rw [byteAt_eq, getByte, BitVec.extractLsb'_toNat, BitVec.toNat_ofNat, BitVec.toNat_ofNat,
      Nat.shiftRight_eq_div_pow]
    obtain rfl | rfl : i = 0 ∨ i = 1 := by omega
    · omega
    · omega
  rw [← hbytes, ← hbyte 1 (by omega), ← hbyte 0 (by omega)]

/-- The receiver assembles what was sent for one word. -/
theorem programLoader_upload (a : Nat) (w : BitVec 64) :
    ∃ sent, uploadWord a (format016x w) = some sent
      ∧ ∀ rest, programLoader (sent ++ rest)
        = (BitVec.ofNat 16 a, memoryForm w) :: programLoader rest := by
  have hparse : parseHex (format016x w) = some w.toNat := parseHex_bytesBE w
  have hbyte := byteAt_word w
  by_cases hw : w ∈ controlWords.all
  · refine ⟨byteAt a 0 :: byteAt a 8 :: [byteAt w.toNat 0, byteAt w.toNat 8, byteAt w.toNat 16,
      byteAt w.toNat 24, byteAt w.toNat 32, byteAt w.toNat 40, byteAt w.toNat 48,
      byteAt w.toNat 56], ?_, ?_⟩
    · rw [uploadWord, hparse, isInstruction_format, decide_eq_true hw]
      rfl
    · intro rest
      show (byteAt a 8 ++ byteAt a 0, _) :: programLoader rest = _
      have hdata : bytesBE w = [byteAt w.toNat 56, byteAt w.toNat 48, byteAt w.toNat 40,
          byteAt w.toNat 32, byteAt w.toNat 24, byteAt w.toNat 16, byteAt w.toNat 8,
          byteAt w.toNat 0] := by
        simp only [bytesBE, ← byteAt_word]
      rw [byteAt_address, memoryForm, if_pos hw, ← hdata, wordBE_bytesBE]
  · refine ⟨byteAt a 0 :: byteAt a 8 :: [byteAt w.toNat 24, byteAt w.toNat 16, byteAt w.toNat 8,
      byteAt w.toNat 0, byteAt w.toNat 40, byteAt w.toNat 32, byteAt w.toNat 48,
      byteAt w.toNat 56], ?_, ?_⟩
    · rw [uploadWord, hparse, isInstruction_format, decide_eq_false hw]
      rfl
    · intro rest
      show (byteAt a 8 ++ byteAt a 0, _) :: programLoader rest = _
      rw [byteAt_address, memoryForm, if_neg hw]
      simp only [reorder, ← byteAt_word]

/-- **The serial line, word by word.** -/
theorem programLoader_uploadFrom (ws : List (BitVec 64)) (i : Nat) :
    ∃ sent, uploadFrom i (ws.map format016x) = some sent
      ∧ programLoader sent
        = (ws.zipIdx i).map fun x => (BitVec.ofNat 16 x.2, memoryForm x.1) := by
  induction ws generalizing i with
  | nil => exact ⟨[], rfl, rfl⟩
  | cons w ws ih =>
      obtain ⟨first, hfirst, hload⟩ := programLoader_upload i w
      obtain ⟨rest, hrest, hloads⟩ := ih (i + 1)
      refine ⟨first ++ rest, ?_, ?_⟩
      · rw [List.map_cons, uploadFrom, hfirst, hrest]
        rfl
      · rw [hload, hloads, List.zipIdx_cons, List.map_cons]

/-! ## All encoders -/

/-- The words that should be in the program memory. -/
def memoryWords (rules : List (List Insn)) : List (BitVec 64) :=
  controlWords.frame (rules.map (List.map Insn.word))

theorem map_memoryForm {rules : List (List Insn)} (hsup : ∀ r ∈ rules, ∀ i ∈ r, i.Supported) :
    (hexWords rules).map memoryForm = memoryWords rules := by
  have hctl : ∀ w ∈ controlWords.all, memoryForm w = w := fun w hw => if_pos hw
  have hrules : (rules.map (List.map Insn.packed)).map (List.map memoryForm)
      = rules.map (List.map Insn.word) := by
    rw [List.map_map]
    refine List.map_congr_left ?_
    intro r hr
    show (r.map Insn.packed).map memoryForm = _
    rw [List.map_map]
    exact List.map_congr_left fun i hi => Insn.memoryForm_packed (hsup r hr i hi)
  rw [hexWords, controlWords.map_frame hctl, hrules, memoryWords]

/-- What the three ways into the program memory have in common. -/
structure Agreement (rules : List (List Insn)) (program : List (List Char))
    (sent : List (BitVec 8)) : Prop where
  /-- The lines of the simulation file are the words that the receiver assembles. -/
  lines : (simGen program).splitOn '\n' = (programLoader sent).map fun x => format016x x.2
  /-- They are sent for the addresses 0, 1, 2, … -/
  addresses : ((programLoader sent).map fun x => x.1.toNat) = List.range program.length
  /-- They are what the test bench writes, between control words that are as they were. -/
  words : ((programLoader sent).map fun x => x.2)
    = controlWords.frame (rules.map fun r => checkDatafile (assemble r))
  /-- The core finds the fields that were encoded. -/
  carried : ∀ r ∈ rules, List.Forall₂ Insn.Carries r (checkDatafile (assemble r))
  /-- No word of a rule is a control word, before it is put in order or after. -/
  clean : ∀ r ∈ rules, ∀ w ∈ unpackQ (assemble r) ++ checkDatafile (assemble r),
    w ∉ controlWords.all
  /-- The rules can be taken apart again. -/
  apart : controlWords.unframe ((programLoader sent).map fun x => x.2)
    = some (rules.map fun r => checkDatafile (assemble r))

/-- **The encoders agree.** Without a rule there is no file; the file of any other rules is read,
and its words reach the program memory alike on every way. -/
theorem encoders_agree (rules : List (List Insn)) (hsup : ∀ r ∈ rules, ∀ i ∈ r, i.Supported)
    (hlines : (hexWords rules).length < 65536) :
    (combinedCompile (rules.map assemble) = none ↔ rules = [])
    ∧ ∀ text, combinedCompile (rules.map assemble) = some text →
      ∃ program sent, readProgram text = some program ∧ upload program = some sent
        ∧ Agreement rules program sent := by
  by_cases hne : rules = []
  · subst hne
    exact ⟨⟨fun _ => rfl, fun _ => rfl⟩, fun text htext => by cases htext⟩
  have hfile := combinedCompile_assemble hne
  refine ⟨⟨?_, fun hnil => absurd hnil hne⟩, ?_⟩
  · intro hnone
    rw [hfile] at hnone
    cases hnone
  intro text htext
  obtain rfl := Option.some.inj (hfile.symm.trans htext)
  obtain ⟨sent, hsent, hload⟩ := programLoader_uploadFrom (hexWords rules) 0
  have hdata : (programLoader sent).map (fun x => x.2) = (hexWords rules).map memoryForm := by
    rw [hload, List.map_map, ← List.zipIdx_map_fst 0 (hexWords rules), List.map_map,
      List.zipIdx_map_fst]
    rfl
  have hwords := hdata.trans (map_memoryForm hsup)
  have hcheck : (rules.map fun r => checkDatafile (assemble r))
      = rules.map (List.map Insn.word) :=
    List.map_congr_left fun r _ => checkDatafile_assemble r
  have hclean : ∀ r ∈ rules.map (List.map Insn.word), ∀ w ∈ r, w ∉ controlWords.all := by
    intro b hb w hw
    obtain ⟨r, hr, rfl⟩ := List.mem_map.mp hb
    obtain ⟨i, hi, rfl⟩ := List.mem_map.mp hw
    exact Insn.word_not_control (hsup r hr i hi)
  refine ⟨_, sent, readProgram_printWord _, hsent, ?_, ?_, ?_, ?_, ?_, ?_⟩
  · -- the simulation file
    rw [lines_simGen hne hsup]
    calc (hexWords rules).map (fun w => format016x (memoryForm w))
        = ((hexWords rules).map memoryForm).map format016x := by rw [List.map_map]; rfl
      _ = (programLoader sent).map (fun x => format016x x.2) := by
          rw [← hdata, List.map_map]; rfl
  · -- the addresses
    rw [hload, List.map_map, List.length_map, List.range_eq_range', ← List.zipIdx_map_snd 0]
    refine List.map_congr_left ?_
    intro x hx
    have hlt : x.2 < 65536 := by
      have := List.snd_lt_of_mem_zipIdx hx
      omega
    show (BitVec.ofNat 16 x.2).toNat = x.2
    rw [BitVec.toNat_ofNat, Nat.mod_eq_of_lt hlt]
  · rw [hwords, hcheck, memoryWords]
  · intro r _
    rw [checkDatafile_assemble, List.forall₂_map_right_iff, List.forall₂_same]
    exact fun i _ => i.carries
  · intro r hr w hw
    rw [unpackQ_assemble, checkDatafile_assemble, List.mem_append] at hw
    rcases hw with hw | hw
    · obtain ⟨i, hi, rfl⟩ := List.mem_map.mp hw
      exact Insn.packed_not_control (hsup r hr i hi)
    · obtain ⟨i, hi, rfl⟩ := List.mem_map.mp hw
      exact Insn.word_not_control (hsup r hr i hi)
  · rw [hwords, hcheck, memoryWords]
    exact controlWords.unframe_frame (by simpa using hne) hclean

/-- `lddw r0, 0x1122334455667788; exit`, and a lone `exit`. -/
def loadAndExit : List (List Insn) :=
  [[⟨0x18, 0, 0, 0, 0x55667788⟩, ⟨0, 0, 0, 0, 0x11223344⟩, ⟨0x95, 0, 0, 0, 0⟩],
    [⟨0x95, 0, 0, 0, 0⟩]]

theorem encoders_agree_loadAndExit :
    (combinedCompile (loadAndExit.map assemble) = none ↔ loadAndExit = [])
    ∧ ∀ text, combinedCompile (loadAndExit.map assemble) = some text →
      ∃ program sent, readProgram text = some program ∧ upload program = some sent
        ∧ Agreement loadAndExit program sent :=
  encoders_agree loadAndExit (by decide) (by decide)

end VeBpf
