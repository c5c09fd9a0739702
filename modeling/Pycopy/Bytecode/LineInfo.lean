import Mathlib.Data.List.Basic
import Mathlib.Algebra.Order.Ring.Nat

/-!
# Line Numbers

The line numbers that go with bytecode: `mp_emit_bc_set_source_line` of `py/emitbc.c` writes them,
and `mp_bytecode_get_source_line` of `py/bc.h` finds the line of a place in the bytecode. What is
written is how many bytes and how many lines to skip, in codes of one or two bytes, with as many
codes as it takes. The lines of a skip come with the code that skips the last of its bytes. A line
is only written if it is larger than the one before, and the first one is 1. With the optimisation
level 3 no lines are written.

## Main results

* `source_line_of_records`: the line of the last record, or 1 if this is 0.
-/

namespace Pycopy

/-! ### Definitions -/

/-- `emit_write_code_info_bytes_lines`, with fuel -/
def emitWriteCodeInfoBytesLines : ℕ → ℕ → ℕ → List UInt8
  | 0, _, _ => []
  | fuel + 1, bytesToSkip, linesToSkip =>
    if 0 < bytesToSkip ∨ 0 < linesToSkip then
      if linesToSkip ≤ 6 ∨ 0xf < bytesToSkip then
        let b := min bytesToSkip 0x1f
        -- no lines until all of the bytes are skipped
        let l := if b < bytesToSkip then 0 else min linesToSkip 0x3
        UInt8.ofNat (b ||| (l <<< 5)) ::
          emitWriteCodeInfoBytesLines fuel (bytesToSkip - b) (linesToSkip - l)
      else
        let b := min bytesToSkip 0xf
        let l := min linesToSkip 0x7ff
        UInt8.ofNat (0x80 ||| b ||| ((l >>> 4) &&& 0x70)) :: UInt8.ofNat l ::
          emitWriteCodeInfoBytesLines fuel (bytesToSkip - b) (linesToSkip - l)
    else []

/-- The part of `emit_t` with the line numbers -/
structure LineEmit where
  codeInfo : List UInt8
  lastSourceLineOffset : ℕ
  lastSourceLine : ℕ
  deriving DecidableEq, Repr

/-- What `mp_emit_bc_start_pass` sets -/
def LineEmit.start : LineEmit := ⟨[], 0, 1⟩

/-- `mp_emit_bc_set_source_line`, with the optimisation level, the offset in the bytecode and the
line -/
def setSourceLine (optimise : ℕ) (emit : LineEmit) (offset line : ℕ) : LineEmit :=
  if 3 ≤ optimise then emit
  else if emit.lastSourceLine < line then
    let bytesToSkip := offset - emit.lastSourceLineOffset
    let linesToSkip := line - emit.lastSourceLine
    { codeInfo := emit.codeInfo ++
        emitWriteCodeInfoBytesLines (bytesToSkip + linesToSkip) bytesToSkip linesToSkip
      lastSourceLineOffset := offset
      lastSourceLine := line }
  else emit

/-- The line numbers of some records, and the zero that ends them -/
def lineInfo (optimise : ℕ) (records : List (ℕ × ℕ)) : List UInt8 :=
  (records.foldl (fun emit r => setSourceLine optimise emit r.1 r.2) .start).codeInfo ++ [0]

/-- The loop of `mp_bytecode_get_source_line`. A read behind the end is `none`. -/
def getSourceLineLoop : List UInt8 → ℕ → ℕ → Option ℕ
  | [], _, _ => none
  | c :: info, bcOffset, sourceLine =>
    if c.toNat = 0 then some sourceLine
    else if c.toNat &&& 0x80 = 0 then
      let b := c.toNat &&& 0x1f
      let l := c.toNat >>> 5
      if b ≤ bcOffset then getSourceLineLoop info (bcOffset - b) (sourceLine + l)
      else some sourceLine
    else
      match info with
      | [] => none
      | d :: info =>
        let b := c.toNat &&& 0xf
        let l := ((c.toNat <<< 4) &&& 0x700) ||| d.toNat
        if b ≤ bcOffset then getSourceLineLoop info (bcOffset - b) (sourceLine + l)
        else some sourceLine

/-- `mp_bytecode_get_source_line` -/
def mpBytecodeGetSourceLine (info : List UInt8) (bcOffset : ℕ) : Option ℕ :=
  getSourceLineLoop info bcOffset 1

/-! ### Codes -/

variable {b l : ℕ} {info : List UInt8} {bcOffset sourceLine : ℕ}

theorem getSourceLineLoop_one (hb : b < 32) (hl : l < 4) (hpos : 0 < b ∨ 0 < l) :
    getSourceLineLoop (UInt8.ofNat (b ||| (l <<< 5)) :: info) bcOffset sourceLine =
      if b ≤ bcOffset then getSourceLineLoop info (bcOffset - b) (sourceLine + l)
      else some sourceLine := by
  have hcode : ∀ b < 32, ∀ l < 4, (UInt8.ofNat (b ||| (l <<< 5))).toNat &&& 0x80 = 0 ∧
      (UInt8.ofNat (b ||| (l <<< 5))).toNat &&& 0x1f = b ∧
      (UInt8.ofNat (b ||| (l <<< 5))).toNat >>> 5 = l ∧
      ((UInt8.ofNat (b ||| (l <<< 5))).toNat = 0 → b = 0 ∧ l = 0) := by
    decide +kernel
  obtain ⟨h1, h2, h3, h4⟩ := hcode b hb l hl
  have hne : (UInt8.ofNat (b ||| (l <<< 5))).toNat ≠ 0 := by
    intro h
    have := h4 h
    omega
  rw [getSourceLineLoop.eq_def]
  simp only [hne, if_false, h1, if_true, h2, h3]

theorem getSourceLineLoop_two (hb : b < 16) (hl : l < 0x800) :
    getSourceLineLoop (UInt8.ofNat (0x80 ||| b ||| ((l >>> 4) &&& 0x70)) :: UInt8.ofNat l :: info)
        bcOffset sourceLine =
      if b ≤ bcOffset then getSourceLineLoop info (bcOffset - b) (sourceLine + l)
      else some sourceLine := by
  have hcode : ∀ b < 16, ∀ m < 8,
      (UInt8.ofNat (0x80 ||| b ||| ((m <<< 4) &&& 0x70))).toNat ≠ 0 ∧
      (UInt8.ofNat (0x80 ||| b ||| ((m <<< 4) &&& 0x70))).toNat &&& 0x80 ≠ 0 ∧
      (UInt8.ofNat (0x80 ||| b ||| ((m <<< 4) &&& 0x70))).toNat &&& 0xf = b ∧
      ((UInt8.ofNat (0x80 ||| b ||| ((m <<< 4) &&& 0x70))).toNat <<< 4) &&& 0x700 = m <<< 8 := by
    decide +kernel
  have hhigh : (l >>> 4) &&& 0x70 = ((l / 256) <<< 4) &&& 0x70 := by
    have h : ∀ m < 128, m &&& 0x70 = ((m / 16) <<< 4) &&& 0x70 := by decide +kernel
    rw [Nat.shiftRight_eq_div_pow, h _ (by omega), Nat.div_div_eq_div_mul]
  obtain ⟨h1, h2, h3, h4⟩ := hcode b hb (l / 256) (by omega)
  have hl' : ((l / 256) <<< 8) ||| (UInt8.ofNat l).toNat = l := by
    rw [UInt8.toNat_ofNat', ← Nat.shiftLeft_add_eq_or_of_lt (Nat.mod_lt l (by decide)),
      Nat.shiftLeft_eq]
    omega
  rw [hhigh, getSourceLineLoop.eq_def]
  simp only [h1, if_false, h2, h3, h4, hl']

/-- **What the codes of a skip mean**: all of its bytes, and then all of its lines -/
theorem getSourceLine_codes (fuel bytesToSkip linesToSkip : ℕ)
    (hfuel : bytesToSkip + linesToSkip ≤ fuel) (bcOffset sourceLine : ℕ) :
    getSourceLineLoop (emitWriteCodeInfoBytesLines fuel bytesToSkip linesToSkip ++ info) bcOffset
        sourceLine =
      if bytesToSkip ≤ bcOffset then
        getSourceLineLoop info (bcOffset - bytesToSkip) (sourceLine + linesToSkip)
      else some sourceLine := by
  induction fuel generalizing bytesToSkip linesToSkip bcOffset sourceLine with
  | zero =>
    obtain ⟨rfl, rfl⟩ : bytesToSkip = 0 ∧ linesToSkip = 0 := by omega
    rfl
  | succ fuel ih =>
    rw [emitWriteCodeInfoBytesLines]
    by_cases hpos : 0 < bytesToSkip ∨ 0 < linesToSkip
    · rw [if_pos hpos]
      by_cases hone : linesToSkip ≤ 6 ∨ 0xf < bytesToSkip
      · simp only [if_pos hone, List.cons_append]
        by_cases hb : min bytesToSkip 0x1f < bytesToSkip
        · -- some of the bytes, and no line
          rw [if_pos hb, getSourceLineLoop_one (by omega) (by omega) (by omega), ih _ _ (by omega)]
          by_cases h1 : min bytesToSkip 0x1f ≤ bcOffset
          · rw [if_pos h1]
            by_cases h2 : bytesToSkip ≤ bcOffset
            · rw [if_pos (by omega), if_pos h2]
              congr 1
              omega
            · rw [if_neg (by omega), if_neg h2, Nat.add_zero]
          · rw [if_neg h1, if_neg (by omega)]
        · rw [if_neg hb, getSourceLineLoop_one (by omega) (by omega) (by omega), ih _ _ (by omega)]
          have hall : min bytesToSkip 0x1f = bytesToSkip := by omega
          rw [hall, Nat.sub_self, if_pos (Nat.zero_le _)]
          split
          · congr 1
            omega
          · rfl
      · have hall : min bytesToSkip 0xf = bytesToSkip := by omega
        simp only [if_neg hone, List.cons_append]
        rw [getSourceLineLoop_two (by omega) (by omega), ih _ _ (by omega), hall, Nat.sub_self,
          if_pos (Nat.zero_le _)]
        split
        · congr 1
          omega
        · rfl
    · obtain ⟨rfl, rfl⟩ : bytesToSkip = 0 ∧ linesToSkip = 0 := by omega
      rw [if_neg hpos]
      rfl

/-! ### Records -/

/-- The codes that some records add -/
def recordCodes : ℕ → ℕ → List (ℕ × ℕ) → List UInt8
  | _, _, [] => []
  | lastOffset, lastLine, (offset, line) :: records =>
    if lastLine < line then
      emitWriteCodeInfoBytesLines (offset - lastOffset + (line - lastLine)) (offset - lastOffset)
          (line - lastLine) ++
        recordCodes offset line records
    else recordCodes lastOffset lastLine records

theorem foldl_setSourceLine {optimise : ℕ} (h : optimise < 3) (emit : LineEmit)
    (records : List (ℕ × ℕ)) :
    (records.foldl (fun emit r => setSourceLine optimise emit r.1 r.2) emit).codeInfo =
      emit.codeInfo ++ recordCodes emit.lastSourceLineOffset emit.lastSourceLine records := by
  induction records generalizing emit with
  | nil => simp [recordCodes]
  | cons r records ih =>
    obtain ⟨offset, line⟩ := r
    rw [List.foldl_cons, ih, setSourceLine, if_neg (by omega), recordCodes]
    split
    · rw [List.append_assoc]
    · rfl

/-- The line of the last record whose offset is not larger than the given one -/
def lastRecordLine (records : List (ℕ × ℕ)) (bcOffset : ℕ) : Option ℕ :=
  (records.filter (·.1 ≤ bcOffset)).getLast?.map Prod.snd

/-- Both the offsets and the lines do not fall. -/
def Rising (records : List (ℕ × ℕ)) : Prop := records.Pairwise fun r r' => r.1 ≤ r'.1 ∧ r.2 ≤ r'.2

section Last

variable {records : List (ℕ × ℕ)} {offset line : ℕ}

theorem lastRecordLine_cons (h : offset ≤ bcOffset) :
    lastRecordLine ((offset, line) :: records) bcOffset =
      some ((lastRecordLine records bcOffset).getD line) := by
  rw [lastRecordLine, List.filter_cons, if_pos (by simpa using h), List.getLast?_cons,
    lastRecordLine]
  cases (records.filter (·.1 ≤ bcOffset)).getLast? <;> rfl

theorem lastRecordLine_eq_none (h : ∀ r ∈ records, bcOffset < r.1) :
    lastRecordLine records bcOffset = none := by
  have hnil : records.filter (·.1 ≤ bcOffset) = [] := by
    rw [List.filter_eq_nil_iff]
    intro r hr
    simpa using h r hr
  rw [lastRecordLine, hnil]
  rfl

theorem le_lastRecordLine (h : ∀ r ∈ records, line ≤ r.2) (bcOffset : ℕ) :
    line ≤ (lastRecordLine records bcOffset).getD line := by
  rw [lastRecordLine]
  cases hlast : (records.filter (·.1 ≤ bcOffset)).getLast? with
  | none => exact le_rfl
  | some r => exact h r (List.mem_of_mem_filter (List.mem_of_getLast? hlast))

end Last

theorem getSourceLineLoop_records {records : List (ℕ × ℕ)} (hrising : Rising records)
    {lastOffset lastLine : ℕ} (hlast : ∀ r ∈ records, lastOffset ≤ r.1)
    {bcOffset : ℕ} (hoffset : lastOffset ≤ bcOffset) (info : List UInt8) :
    getSourceLineLoop (recordCodes lastOffset lastLine records ++ 0 :: info)
        (bcOffset - lastOffset) lastLine =
      some (max lastLine ((lastRecordLine records bcOffset).getD lastLine)) := by
  induction records generalizing lastOffset lastLine with
  | nil => simp [recordCodes, getSourceLineLoop.eq_def, lastRecordLine]
  | cons r records ih =>
    obtain ⟨offset, line⟩ := r
    obtain ⟨hfirst, hrest⟩ := List.pairwise_cons.mp hrising
    have hle : lastOffset ≤ offset := hlast _ List.mem_cons_self
    have hlater : bcOffset < offset → ∀ r ∈ records, bcOffset < r.1 := fun h r hr =>
      lt_of_lt_of_le h (hfirst r hr).1
    rw [recordCodes]
    by_cases hline : lastLine < line
    · have hlines : lastLine + (line - lastLine) = line := by omega
      rw [if_pos hline, List.append_assoc, getSourceLine_codes _ _ _ le_rfl, hlines]
      by_cases hreach : offset ≤ bcOffset
      · have hbytes : bcOffset - lastOffset - (offset - lastOffset) = bcOffset - offset := by omega
        have hge := le_lastRecordLine (fun r hr => (hfirst r hr).2) bcOffset
        rw [if_pos (by omega), hbytes, ih hrest (fun r hr => (hfirst r hr).1) hreach,
          lastRecordLine_cons hreach, Option.getD_some, max_eq_right hge,
          max_eq_right (hline.le.trans hge)]
      · have hnone : lastRecordLine ((offset, line) :: records) bcOffset = none :=
          lastRecordLine_eq_none (List.forall_mem_cons.mpr ⟨by omega, hlater (by omega)⟩)
        rw [if_neg (by omega), hnone, Option.getD_none, max_self]
    · rw [if_neg hline, ih hrest (fun r hr => hlast r (List.mem_cons_of_mem _ hr)) hoffset]
      by_cases hreach : offset ≤ bcOffset
      · rw [lastRecordLine_cons hreach, Option.getD_some]
        cases lastRecordLine records bcOffset with
        | none => rw [Option.getD_none, Option.getD_none, max_self, max_eq_left (by omega)]
        | some x => rfl
      · have hnone := lastRecordLine_eq_none (hlater (by omega))
        have hnone' : lastRecordLine ((offset, line) :: records) bcOffset = none :=
          lastRecordLine_eq_none (List.forall_mem_cons.mpr ⟨by omega, hlater (by omega)⟩)
        rw [hnone, hnone']

/-- **The line of a place in the bytecode** is the line of the last record that is not behind it, or
1 if there is none or its line is 0. With the optimisation level 3 it is always 1. -/
theorem source_line_of_records (optimise : ℕ) {records : List (ℕ × ℕ)} (hrising : Rising records)
    (bcOffset : ℕ) :
    mpBytecodeGetSourceLine (lineInfo optimise records) bcOffset =
      some (if optimise < 3 then max 1 ((lastRecordLine records bcOffset).getD 1) else 1) := by
  rw [mpBytecodeGetSourceLine, lineInfo]
  split
  · rename_i h
    rw [foldl_setSourceLine h]
    exact getSourceLineLoop_records hrising (fun r _ => Nat.zero_le r.1) (Nat.zero_le bcOffset) []
  · rename_i h
    have hnone : records.foldl (fun emit r => setSourceLine optimise emit r.1 r.2) .start =
        LineEmit.start := by
      induction records with
      | nil => rfl
      | cons r records ih =>
        rw [List.foldl_cons, setSourceLine, if_pos (by omega)]
        exact ih (List.pairwise_cons.mp hrising).2
    rw [hnone]
    rfl

/-- Line 3 from byte 0 on and line 12 from byte 40 on -/
theorem source_line_of_two_records :
    mpBytecodeGetSourceLine (lineInfo 0 [(0, 3), (40, 12)]) 41 = some 12 :=
  source_line_of_records 0 (by simp [Rising]) 41

/-- A record of line 0 is not written, and with the optimisation level 3 none is: what is found is
line 1. -/
theorem source_line_not_written :
    mpBytecodeGetSourceLine (lineInfo 0 [(0, 0)]) 0 = some 1 ∧
      lastRecordLine [(0, 0)] 0 = some 0 ∧
      mpBytecodeGetSourceLine (lineInfo 3 [(0, 2)]) 0 = some 1 ∧
      lastRecordLine [(0, 2)] 0 = some 2 := by
  decide

end Pycopy
