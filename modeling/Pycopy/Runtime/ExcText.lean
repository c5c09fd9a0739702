import Mathlib.Data.List.Basic
import Mathlib.Algebra.Order.Ring.Int

/-!
# Texts of Exceptions

The texts of the exceptions may be compressed: a byte with its high bit set stands for a word of a
table. `mp_decompress_rom_string` of `py/qstr.c` expands a text and puts a NUL behind it, and it
does not know how large its destination is. Its callers in `py/objexcept.c` provide the destination:
a buffer on the heap, one on the stack, or a part of the emergency buffer. The one on the stack has
no room for the NUL of the longest text. The room in the emergency buffer is computed with unsigned
integers, and if the buffer is too small the result is a large number.

## Main results

* `exc_text_iff`: where everything that is written is inside of its buffer.
-/

namespace Pycopy

/-! ### Decompression -/

/-- What must not happen: a byte is written outside of its buffer, or the table is read behind its
end. -/
inductive TextFault
  | badWrite
  | badTable
  deriving DecidableEq, Repr

/-- `*dst++ = b`, with the bytes that were written into a buffer of `cap` bytes -/
def putByte (cap : ℕ) (out : List UInt8) (b : UInt8) : Except TextFault (List UInt8) :=
  if out.length < cap then .ok (out ++ [b]) else .error .badWrite

/-- Some bytes, written one after the other -/
def putBytes (cap : ℕ) (out bs : List UInt8) : Except TextFault (List UInt8) :=
  if out.length + bs.length ≤ cap then .ok (out ++ bs) else .error .badWrite

/-- The inner loop of `find_uncompressed_string` -/
def skipTableWord : List UInt8 → Option (List UInt8)
  | [] => none
  | c :: rest => if c &&& 0x80 = 0 then skipTableWord rest else some rest

/-- `find_uncompressed_string` -/
def findTableWord (table : List UInt8) : ℕ → Option (List UInt8)
  | 0 => some table
  | n + 1 => (skipTableWord table).bind (findTableWord · n)

/-- The loop that copies a word of the table -/
def copyTableWord (cap : ℕ) : List UInt8 → List UInt8 → Except TextFault (List UInt8)
  | [], _ => .error .badTable
  | c :: word, out =>
    if c &&& 0x80 = 0 then do
      let out ← putByte cap out c
      copyTableWord cap word out
    else putByte cap out (c &&& 0x7f)

/-- The `state` of `mp_decompress_rom_string` -/
inductive TextState
  | start
  | compressed
  | regular
  deriving DecidableEq, Repr

/-- The loop of `mp_decompress_rom_string`; the end of the list is the NUL behind a text. -/
def decompressTextLoop (cap : ℕ) (table : List UInt8) :
    TextState → List UInt8 → List UInt8 → Except TextFault (List UInt8)
  | _, [], out => putByte cap out 0
  | state, b :: src, out =>
    if b = 0 then putByte cap out 0
    else if 128 ≤ b then do
      let out ← putBytes cap out (if state = .start then [] else [32])
      match findTableWord table (b &&& 0x7f).toNat with
      | none => .error .badTable
      | some word => do
        let out ← copyTableWord cap word out
        decompressTextLoop cap table .compressed src out
    else do
      let out ← putBytes cap out (if state = .compressed then [32] else [])
      let out ← putByte cap out b
      decompressTextLoop cap table .regular src out

/-- `MP_IS_COMPRESSED_ROM_STRING` -/
def isCompressedRomString (msg : List UInt8) : Bool := msg.head? == some 0xff

/-- `mp_decompress_rom_string` into a buffer of `cap` bytes: what is written -/
def mpDecompressRomString (cap : ℕ) (table msg : List UInt8) : Except TextFault (List UInt8) :=
  decompressTextLoop cap table .start (msg.drop 1) []

/-! ### What is written -/

/-- A word of the table -/
def tableWord : List UInt8 → Option (List UInt8)
  | [] => none
  | c :: word => if c &&& 0x80 = 0 then (tableWord word).map (c :: ·) else some [c &&& 0x7f]

/-- The text of a message -/
def expandText (table : List UInt8) : TextState → List UInt8 → Option (List UInt8)
  | _, [] => some []
  | state, b :: src =>
    if b = 0 then some []
    else if 128 ≤ b then do
      let start ← findTableWord table (b &&& 0x7f).toNat
      let word ← tableWord start
      let rest ← expandText table .compressed src
      some ((if state = .start then [] else [32]) ++ word ++ rest)
    else do
      let rest ← expandText table .regular src
      some ((if state = .compressed then [32] else []) ++ b :: rest)

variable {cap : ℕ} {table out bs word : List UInt8}

theorem putByte_bind_putBytes (cap : ℕ) (out : List UInt8) (b : UInt8) (bs : List UInt8) :
    (do let out ← putByte cap out b; putBytes cap out bs) = putBytes cap out (b :: bs) := by
  rw [putByte]
  by_cases h : out.length < cap
  · simp only [h, if_true, bind, Except.bind, putBytes, List.length_append, List.length_cons,
      List.length_nil, List.append_assoc, List.singleton_append, Nat.add_assoc,
      Nat.zero_add, Nat.add_comm 1]
  · simp only [h, if_false, bind, Except.bind, putBytes, List.length_cons]
    rw [if_neg (by omega)]

theorem copyTableWord_eq (h : tableWord word = some bs) (out : List UInt8) :
    copyTableWord cap word out = putBytes cap out bs := by
  induction word generalizing bs out with
  | nil => cases h
  | cons c word ih =>
    rw [tableWord] at h
    rw [copyTableWord]
    split at h
    · rename_i hc
      obtain ⟨bs', hbs', rfl⟩ := Option.map_eq_some_iff.mp h
      rw [if_pos hc, ← putByte_bind_putBytes]
      simp only [ih hbs']
    · rename_i hc
      cases h
      rw [if_neg hc, putByte, putBytes, List.length_singleton]
      rfl

theorem putBytes_bind (cap : ℕ) (out bs cs : List UInt8) :
    (do let out ← putBytes cap out bs; putBytes cap out cs) = putBytes cap out (bs ++ cs) := by
  rw [putBytes]
  by_cases h : out.length + bs.length ≤ cap
  · simp only [h, if_true, bind, Except.bind, putBytes, List.length_append, List.append_assoc,
      Nat.add_assoc]
  · simp only [h, if_false, bind, Except.bind, putBytes, List.length_append]
    rw [if_neg (by omega)]

theorem putByte_eq (cap : ℕ) (out : List UInt8) (b : UInt8) :
    putByte cap out b = putBytes cap out [b] := rfl

/-- The loop writes the text and a NUL, and fails if they do not fit. -/
theorem decompressTextLoop_eq {state : TextState} {src text : List UInt8}
    (h : expandText table state src = some text) (out : List UInt8) :
    decompressTextLoop cap table state src out = putBytes cap out (text ++ [0]) := by
  induction src generalizing state text out with
  | nil =>
    cases h
    rw [decompressTextLoop, putByte_eq, List.nil_append]
  | cons b src ih =>
    rw [expandText] at h
    rw [decompressTextLoop]
    by_cases h0 : b = 0
    · rw [if_pos h0] at h ⊢
      cases h
      rw [putByte_eq, List.nil_append]
    rw [if_neg h0] at h ⊢
    by_cases hb : 128 ≤ b
    · -- a word of the table, with a blank in front of it except at the start
      rw [if_pos hb] at h ⊢
      obtain ⟨start, hstart, h⟩ := Option.bind_eq_some_iff.mp h
      obtain ⟨word, hword, h⟩ := Option.bind_eq_some_iff.mp h
      obtain ⟨rest, hrest, h⟩ := Option.bind_eq_some_iff.mp h
      cases h
      simp only [hstart, copyTableWord_eq hword, ih hrest, putBytes_bind, List.append_assoc]
    · rw [if_neg hb] at h ⊢
      obtain ⟨rest, hrest, h⟩ := Option.bind_eq_some_iff.mp h
      cases h
      simp only [ih hrest, putByte_bind_putBytes, putBytes_bind, List.append_assoc,
        List.cons_append]

theorem mpDecompressRomString_eq {msg text : List UInt8}
    (h : expandText table .start (msg.drop 1) = some text) :
    mpDecompressRomString cap table msg =
      if text.length + 1 ≤ cap then .ok (text ++ [0]) else .error .badWrite := by
  rw [mpDecompressRomString, decompressTextLoop_eq h, putBytes]
  simp only [List.length_nil, Nat.zero_add, List.length_append, List.length_singleton,
    List.nil_append]

/-! ### The messages and the emergency buffer -/

/-- The length of the text of a message -/
def textLength (table msg : List UInt8) : ℕ :=
  if isCompressedRomString msg then ((expandText table .start (msg.drop 1)).getD []).length
  else msg.length

/-- The error messages of a build: the table of the words and the messages as they are stored. The
offset is `EMG_BUF_STR_BUF_OFFSET`, and `w` is the width of `size_t` and `mp_int_t`. -/
structure ErrorTexts where
  table : List UInt8
  messages : List (List UInt8)
  expands : ∀ msg ∈ messages, isCompressedRomString msg →
    (expandText table .start (msg.drop 1)).isSome
  /-- `MICROPY_ENABLE_EMERGENCY_EXCEPTION_BUF` -/
  emergency : Bool
  w : ℕ
  offset : ℕ
  small : 2 * (offset + (messages.map (textLength table)).foldr max 0 + 17) ≤ 2 ^ w

namespace ErrorTexts

/-- `MP_MAX_UNCOMPRESSED_TEXT_LEN` -/
def maxLen (T : ErrorTexts) : ℕ := (T.messages.map (textLength T.table)).foldr max 0

/-- An integer as a `size_t` -/
def toSize (T : ErrorTexts) (n : ℤ) : ℕ := (n % (2 ^ T.w : ℕ)).toNat

end ErrorTexts

/-- The emergency buffer, as `mp_alloc_emergency_exception_buf` leaves it: there is a buffer if the
size is positive. The size is an `mp_int_t`. -/
structure EmgBuf (T : ErrorTexts) where
  size : ℤ
  lower : -(2 ^ T.w : ℕ) ≤ 2 * size
  upper : 2 * size < (2 ^ T.w : ℕ)

/-- The bytes of the emergency buffer from the offset of the text on -/
def EmgBuf.room {T : ErrorTexts} (emg : EmgBuf T) : ℕ := (emg.size - T.offset).toNat

/-! ### Reading the text of an exception -/

/-- `decompress_error_text_maybe` for a string with the bytes `data`: what is written, or nothing.
The allocation on the heap succeeds if `heap` says so. -/
def decompressErrorTextMaybe (T : ErrorTexts) (emg : EmgBuf T) (data : List UInt8) (heap : Bool) :
    Except TextFault (Option (List UInt8)) :=
  if isCompressedRomString data then
    if heap then some <$> mpDecompressRomString (T.maxLen + 1) T.table data
    else if T.emergency then
      if T.toSize (emg.size - T.offset) < T.maxLen + 1 then .ok none
      else some <$> mpDecompressRomString emg.room T.table data
    else .ok none
  else .ok none

/-! ### Creating an exception with a formatted text -/

/-- `struct _exc_printer_t`, with what was written; `cap` is the size of the buffer, which the code
takes to be `alloc`. -/
structure ExcPrinter where
  allowRealloc : Bool
  alloc : ℕ
  out : List UInt8
  cap : ℕ

/-- The first part of `exc_add_strn`: the printer and how many bytes to copy. `renew` says whether
`m_renew_maybe` succeeds. -/
def excReserve (pr : ExcPrinter) (len : ℕ) (renew : Bool) : ExcPrinter × ℕ :=
  if pr.alloc ≤ pr.out.length + len then
    if pr.allowRealloc then
      if renew then ({ pr with alloc := pr.alloc + len + 16, cap := pr.alloc + len + 16 }, len)
      else ({ pr with allowRealloc := false }, pr.alloc - pr.out.length - 1)
    else (pr, pr.alloc - pr.out.length - 1)
  else (pr, len)

/-- `exc_add_strn` -/
def excAddStrn (pr : ExcPrinter) (str : List UInt8) (renew : Bool) :
    Except TextFault ExcPrinter := do
  let out ← putBytes (excReserve pr str.length renew).1.cap pr.out
    (str.take (excReserve pr str.length renew).2)
  return { (excReserve pr str.length renew).1 with out := out }

/-- `mp_vprintf` hands the printer one string after the other. -/
def excPrint : ExcPrinter → List (List UInt8 × Bool) → Except TextFault ExcPrinter
  | pr, [] => .ok pr
  | pr, (str, renew) :: rest => do
    let pr ← excAddStrn pr str renew
    excPrint pr rest

/-- Whether `mp_obj_new_exception_msg_vlist` uses the emergency buffer; the comparison is one of
`size_t` values. -/
def usesEmgBuf (T : ErrorTexts) (emg : EmgBuf T) (heapStr heapBuf : Bool) : Bool :=
  T.emergency && (!heapStr || !heapBuf) && decide (T.offset + 16 ≤ T.toSize emg.size)

/-- The printer of `mp_obj_new_exception_msg_vlist` -/
def newExcPrinter (T : ErrorTexts) (emg : EmgBuf T) (fmt : List UInt8) (used : Bool) : ExcPrinter :=
  if used then ⟨false, T.toSize (emg.size - T.offset), [], emg.room⟩
  else ⟨true, fmt.length + 1, [], fmt.length + 1⟩

/-- `mp_obj_new_exception_msg_vlist`: the bytes of the formatted text, or nothing if the text is not
formatted. The allocations of the string and of its buffer succeed as `heapStr` and `heapBuf` say,
and `printed` is what the format gives. -/
def newExceptionMsgVlist (T : ErrorTexts) (emg : EmgBuf T) (fmt : List UInt8)
    (heapStr heapBuf : Bool) (printed : List (List UInt8 × Bool)) :
    Except TextFault (Option (List UInt8)) :=
  if (heapStr && heapBuf) || usesEmgBuf T emg heapStr heapBuf then do
    -- the buffer on the stack has `MP_MAX_UNCOMPRESSED_TEXT_LEN` bytes
    let _ ← if isCompressedRomString fmt then mpDecompressRomString T.maxLen T.table fmt else .ok []
    let pr ← excPrint (newExcPrinter T emg fmt (usesEmgBuf T emg heapStr heapBuf)) printed
    let out ← putByte pr.cap pr.out 0
    return some out
  else .ok none

/-! ### The printer -/

/-- The printer knows the size of its buffer, and there is room for a NUL. -/
structure ExcPrinter.Sound (pr : ExcPrinter) : Prop where
  cap_eq : pr.cap = pr.alloc
  room : pr.out.length < pr.alloc

/-- What is to be copied leaves room for a NUL, whether the buffer has grown or not. -/
theorem excReserve_fits {pr : ExcPrinter} (h : pr.Sound) (len : ℕ) (renew : Bool) :
    (excReserve pr len renew).1.cap = (excReserve pr len renew).1.alloc ∧
      pr.out.length + min (excReserve pr len renew).2 len < (excReserve pr len renew).1.alloc := by
  obtain ⟨hcap, hroom⟩ := h
  rw [excReserve]
  split
  · split
    · split
      · exact ⟨rfl, by dsimp only; omega⟩
      · exact ⟨hcap, by dsimp only; omega⟩
    · exact ⟨hcap, by dsimp only; omega⟩
  · exact ⟨hcap, by dsimp only; omega⟩

theorem excAddStrn_sound {pr : ExcPrinter} (h : pr.Sound) (str : List UInt8) (renew : Bool) :
    ∃ pr', excAddStrn pr str renew = .ok pr' ∧ pr'.Sound := by
  obtain ⟨hcap, hlen⟩ := excReserve_fits h str.length renew
  rw [← List.length_take] at hlen
  rw [excAddStrn, putBytes, if_pos (by omega)]
  refine ⟨_, rfl, hcap, ?_⟩
  rw [List.length_append]
  exact hlen

theorem excPrint_sound {pr : ExcPrinter} (h : pr.Sound) (printed : List (List UInt8 × Bool)) :
    ∃ pr', excPrint pr printed = .ok pr' ∧ pr'.Sound := by
  induction printed generalizing pr with
  | nil => exact ⟨pr, rfl, h⟩
  | cons p rest ih =>
    obtain ⟨str, renew⟩ := p
    obtain ⟨pr₁, h₁, hs₁⟩ := excAddStrn_sound h str renew
    obtain ⟨pr₂, h₂, hs₂⟩ := ih hs₁
    refine ⟨pr₂, ?_, hs₂⟩
    rw [excPrint, h₁]
    exact h₂

/-- A printer that may not grow keeps its buffer. -/
theorem excReserve_of_fixed {pr : ExcPrinter} (h : pr.allowRealloc = false) (len : ℕ)
    (renew : Bool) : (excReserve pr len renew).1 = pr := by
  rw [excReserve, h]
  split <;> rfl

/-- A printer without a buffer that may not grow fails, or has written nothing. -/
theorem excPrint_of_no_room {pr : ExcPrinter} (hre : pr.allowRealloc = false) (hcap : pr.cap = 0)
    (printed : List (List UInt8 × Bool)) :
    excPrint pr printed = .error .badWrite ∨
      ∃ pr', excPrint pr printed = .ok pr' ∧ pr'.cap = 0 := by
  induction printed generalizing pr with
  | nil => exact .inr ⟨pr, rfl, hcap⟩
  | cons p rest ih =>
    obtain ⟨str, renew⟩ := p
    rw [excPrint, excAddStrn, excReserve_of_fixed hre, putBytes]
    split
    · exact ih hre hcap
    · exact .inl rfl

/-! ### The sizes as unsigned integers -/

section Sizes

variable {T : ErrorTexts} (emg : EmgBuf T)

theorem ErrorTexts.toSize_of_nonneg {n : ℤ} (h : 0 ≤ n) (hlt : n < (2 ^ T.w : ℕ)) :
    T.toSize n = n.toNat := by
  rw [toSize, Int.emod_eq_of_lt h hlt]

theorem ErrorTexts.toSize_of_neg {n : ℤ} (h : n < 0) (hge : -(2 ^ T.w : ℕ) ≤ n) :
    (T.toSize n : ℤ) = n + (2 ^ T.w : ℕ) := by
  have hmod : n % (2 ^ T.w : ℕ) = n + (2 ^ T.w : ℕ) := by
    rw [← Int.add_emod_right, Int.emod_eq_of_lt (by omega) (by omega)]
  rw [toSize, hmod, Int.toNat_of_nonneg (by omega)]

theorem ErrorTexts.small_maxLen (T : ErrorTexts) : 2 * (T.offset + T.maxLen + 17) ≤ 2 ^ T.w :=
  T.small

/-- The room is computed right if the buffer reaches the offset of the text. -/
theorem EmgBuf.toSize_of_le (h : T.offset ≤ emg.size) :
    T.toSize (emg.size - T.offset) = emg.room := by
  have hu := emg.upper
  exact T.toSize_of_nonneg (by omega) (by omega)

/-- If it does not reach it, the room seems to be enough for every text. -/
theorem EmgBuf.le_toSize_of_lt (h : emg.size < T.offset) :
    T.maxLen + 1 ≤ T.toSize (emg.size - T.offset) := by
  have hl := emg.lower
  have hs := T.small_maxLen
  have hn : -(2 ^ T.w : ℕ) ≤ emg.size - T.offset := by omega
  have ht := T.toSize_of_neg (show emg.size - T.offset < 0 by omega) hn
  omega

theorem EmgBuf.room_of_lt (h : emg.size < T.offset) : emg.room = 0 := by
  rw [room]
  omega

/-- The test for the use of the buffer takes a negative size for a large one. -/
theorem EmgBuf.usable_iff :
    T.offset + 16 ≤ T.toSize emg.size ↔ emg.size < 0 ∨ (T.offset + 16 : ℕ) ≤ emg.size := by
  have hl := emg.lower
  have hu := emg.upper
  have hs := T.small_maxLen
  rcases lt_or_ge emg.size 0 with hneg | hpos
  · have ht := T.toSize_of_neg hneg (by omega)
    constructor
    · intro _
      exact .inl hneg
    · intro _
      omega
  · have ht := T.toSize_of_nonneg hpos (by omega)
    omega

end Sizes

/-! ### Where nothing is written outside -/

/-- The ways to create an exception with a formatted text and to read the text of one, with the
allocations that succeed -/
inductive ExcUse
  | create (fmt : List UInt8) (heapStr heapBuf : Bool) (printed : List (List UInt8 × Bool))
  | read (data : List UInt8) (heap : Bool)

namespace ExcUse

/-- The stored bytes of the text -/
def data : ExcUse → List UInt8
  | create fmt _ _ _ => fmt
  | read data _ => data

def run (T : ErrorTexts) (emg : EmgBuf T) : ExcUse → Except TextFault (Option (List UInt8))
  | create fmt heapStr heapBuf printed => newExceptionMsgVlist T emg fmt heapStr heapBuf printed
  | read data heap => decompressErrorTextMaybe T emg data heap

/-- Everything is written inside of its buffer. -/
def WritesInside (T : ErrorTexts) (emg : EmgBuf T) (use : ExcUse) : Prop :=
  use.run T emg ≠ .error .badWrite

/-- The condition, for a text of `n` bytes -/
def Fits (T : ErrorTexts) (emg : EmgBuf T) (n : ℕ) : ExcUse → Prop
  | create fmt heapStr heapBuf _ =>
    if heapStr ∧ heapBuf then isCompressedRomString fmt → n < T.maxLen
    else T.emergency → 0 ≤ emg.size ∧
      ((T.offset + 16 : ℕ) ≤ emg.size → isCompressedRomString fmt → n < T.maxLen)
  | read data heap =>
    isCompressedRomString data →
      if heap then n ≤ T.maxLen
      else T.emergency → T.offset ≤ emg.size ∧
        ((T.offset + T.maxLen + 1 : ℕ) ≤ emg.size → (T.offset + n + 1 : ℕ) ≤ emg.size)

end ExcUse

section Uses

variable {T : ErrorTexts} {emg : EmgBuf T} {data text : List UInt8}

theorem some_map_ne_badWrite (h : expandText T.table .start (data.drop 1) = some text) :
    (some <$> mpDecompressRomString cap T.table data : Except TextFault (Option (List UInt8))) ≠
      .error .badWrite ↔ text.length + 1 ≤ cap := by
  rw [mpDecompressRomString_eq h]
  split
  · rename_i hle
    exact ⟨fun _ => hle, fun _ he => by cases he⟩
  · rename_i hle
    exact ⟨fun hne => absurd rfl hne, fun hle' => absurd hle' hle⟩

theorem read_iff (heap : Bool) (h : isCompressedRomString data →
    expandText T.table .start (data.drop 1) = some text) :
    (ExcUse.read data heap).WritesInside T emg ↔
      (ExcUse.read data heap).Fits T emg text.length := by
  rw [ExcUse.WritesInside, ExcUse.run, decompressErrorTextMaybe, ExcUse.Fits]
  by_cases hc : isCompressedRomString data
  · simp only [hc, if_true, forall_const]
    cases heap with
    | true => simp only [if_true, some_map_ne_badWrite (h hc), Nat.add_le_add_iff_right]
    | false =>
      cases he : T.emergency with
      | false => simp
      | true =>
        simp only [Bool.false_eq_true, if_true, if_false, forall_const]
        rcases lt_or_ge emg.size T.offset with hlt | hge
        · -- the room has wrapped, and there is no buffer
          have hnot := emg.le_toSize_of_lt hlt
          rw [if_neg (by omega), some_map_ne_badWrite (h hc), emg.room_of_lt hlt]
          omega
        · rw [emg.toSize_of_le hge]
          have hroom : emg.room = (emg.size - T.offset).toNat := rfl
          split
          · simp only [ne_eq, reduceCtorEq, not_false_eq_true, true_iff]
            omega
          · rw [some_map_ne_badWrite (h hc)]
            omega
  · simp [hc]

/-- What `mp_obj_new_exception_msg_vlist` does with its printer -/
def printText (pr : ExcPrinter) (printed : List (List UInt8 × Bool)) :
    Except TextFault (Option (List UInt8)) := do
  let pr ← excPrint pr printed
  let out ← putByte pr.cap pr.out 0
  return some out

theorem printText_of_sound {pr : ExcPrinter} (hs : pr.Sound) (printed : List (List UInt8 × Bool)) :
    printText pr printed ≠ .error .badWrite := by
  obtain ⟨pr', hp, hcap, hroom⟩ := excPrint_sound hs printed
  rw [printText, hp]
  simp only [bind, Except.bind, putByte, hcap, hroom, if_true]
  intro he
  cases he

/-- Without a buffer not even the NUL can be written. -/
theorem printText_of_no_room {pr : ExcPrinter} (hre : pr.allowRealloc = false) (hcap : pr.cap = 0)
    (printed : List (List UInt8 × Bool)) : printText pr printed = .error .badWrite := by
  rw [printText]
  rcases excPrint_of_no_room hre hcap printed with he | ⟨pr', hp, hcap'⟩
  · rw [he]
    rfl
  · rw [hp]
    simp only [bind, Except.bind, putByte, hcap', Nat.not_lt_zero, if_false]

/-- The part of `mp_obj_new_exception_msg_vlist` that formats the text, for a printer -/
def formatText (T : ErrorTexts) (fmt : List UInt8) (pr : ExcPrinter)
    (printed : List (List UInt8 × Bool)) : Except TextFault (Option (List UInt8)) := do
  let _ ← if isCompressedRomString fmt then mpDecompressRomString T.maxLen T.table fmt else .ok []
  printText pr printed

theorem newExceptionMsgVlist_eq (fmt : List UInt8) (heapStr heapBuf : Bool)
    (printed : List (List UInt8 × Bool)) :
    newExceptionMsgVlist T emg fmt heapStr heapBuf printed =
      if (heapStr && heapBuf) || usesEmgBuf T emg heapStr heapBuf then
        formatText T fmt (newExcPrinter T emg fmt (usesEmgBuf T emg heapStr heapBuf)) printed
      else .ok none := rfl

section Formatting

variable (h : isCompressedRomString data → expandText T.table .start (data.drop 1) = some text)
  (printed : List (List UInt8 × Bool))
include h

/-- The buffer on the stack has no room for the NUL of the longest text. -/
theorem formatText_of_sound {pr : ExcPrinter} (hs : pr.Sound) :
    formatText T data pr printed ≠ .error .badWrite ↔
      (isCompressedRomString data → text.length < T.maxLen) := by
  rw [formatText]
  by_cases hc : isCompressedRomString data
  · simp only [hc, if_true, forall_const]
    rw [mpDecompressRomString_eq (h hc)]
    split
    · rename_i hle
      exact ⟨fun _ => hle, fun _ => printText_of_sound hs printed⟩
    · rename_i hle
      exact ⟨fun hne => absurd rfl hne, fun hle' => absurd hle' hle⟩
  · simp only [hc, Bool.false_eq_true, if_false, false_implies, iff_true]
    exact printText_of_sound hs printed

theorem formatText_of_no_room {pr : ExcPrinter} (hre : pr.allowRealloc = false)
    (hcap : pr.cap = 0) :
    formatText T data pr printed = .error .badWrite := by
  rw [formatText]
  split
  · rename_i hc
    rw [mpDecompressRomString_eq (h hc)]
    split
    · exact printText_of_no_room hre hcap printed
    · rfl
  · exact printText_of_no_room hre hcap printed

theorem create_iff (heapStr heapBuf : Bool) :
    (ExcUse.create data heapStr heapBuf printed).WritesInside T emg ↔
      (ExcUse.create data heapStr heapBuf printed).Fits T emg text.length := by
  rw [ExcUse.WritesInside, ExcUse.run, newExceptionMsgVlist_eq, ExcUse.Fits]
  by_cases hh : heapStr ∧ heapBuf
  · -- both allocations succeed, and the buffer is on the heap
    obtain ⟨rfl, rfl⟩ := hh
    have hused : usesEmgBuf T emg true true = false := by simp [usesEmgBuf]
    have hs : (newExcPrinter T emg data false).Sound := ⟨rfl, Nat.succ_pos _⟩
    simp only [hused, Bool.and_self, Bool.true_or, if_true, and_self,
      formatText_of_sound h printed hs]
  · have hheap : (heapStr && heapBuf) = false := by simpa using hh
    have hfail : (!heapStr || !heapBuf) = true := by
      rw [← Bool.not_and, hheap]
      rfl
    have hused : usesEmgBuf T emg heapStr heapBuf = true ↔
        T.emergency ∧ (emg.size < 0 ∨ (T.offset + 16 : ℕ) ≤ emg.size) := by
      rw [usesEmgBuf, hfail, Bool.and_true, Bool.and_eq_true, decide_eq_true_eq, emg.usable_iff]
    rw [if_neg hh, hheap, Bool.false_or]
    by_cases hu : usesEmgBuf T emg heapStr heapBuf = true
    · obtain ⟨hemg, hsize⟩ := hused.mp hu
      rw [if_pos hu, hu]
      simp only [hemg, forall_const]
      rcases lt_or_ge emg.size 0 with hneg | hpos
      · -- there is no buffer, and the printer takes it for a large one
        have hroom : (newExcPrinter T emg data true).cap = 0 := emg.room_of_lt (by omega)
        rw [formatText_of_no_room h printed rfl hroom]
        simp only [ne_eq, not_true_eq_false, false_iff, not_and]
        omega
      · have hle : (T.offset + 16 : ℕ) ≤ emg.size := by omega
        have hcap : emg.room = T.toSize (emg.size - T.offset) := (emg.toSize_of_le (by omega)).symm
        have hs : (newExcPrinter T emg data true).Sound := by
          refine ⟨hcap, ?_⟩
          have hroom : emg.room = (emg.size - T.offset).toNat := rfl
          simp only [newExcPrinter, if_true, ← hcap, List.length_nil]
          omega
        rw [formatText_of_sound h printed hs]
        simp only [hpos, hle, true_and, forall_const]
    · rw [if_neg hu]
      simp only [ne_eq, reduceCtorEq, not_false_eq_true, true_iff]
      intro hemg
      have hno : ¬ (emg.size < 0 ∨ (T.offset + 16 : ℕ) ≤ emg.size) := fun hsize =>
        hu (hused.mpr ⟨hemg, hsize⟩)
      exact ⟨by omega, fun hle => absurd (.inr hle) hno⟩

end Formatting

/-- Whether an exception is created or its text is read, nothing is written outside of the buffer
it belongs to exactly where the text fits. -/
theorem exc_text_iff (T : ErrorTexts) (emg : EmgBuf T) (use : ExcUse) (text : List UInt8)
    (h : isCompressedRomString use.data →
      expandText T.table .start (use.data.drop 1) = some text) :
    use.WritesInside T emg ↔ use.Fits T emg text.length := by
  cases use with
  | create fmt heapStr heapBuf printed => exact create_iff h printed heapStr heapBuf
  | read data heap => exact read_iff heap h

end Uses

/-- One message, the word `ab` -/
def abTexts : ErrorTexts where
  table := [0x61, 0xe2]
  messages := [[0xff, 0x80]]
  expands := by decide
  emergency := true
  w := 32
  offset := 64
  small := by decide

/-- Without an emergency buffer -/
def noEmgBuf : EmgBuf abTexts := ⟨0, by decide, by decide⟩

theorem exc_text_iff_heap : (ExcUse.read [0xff, 0x80] true).WritesInside abTexts noEmgBuf :=
  (exc_text_iff abTexts noEmgBuf (.read [0xff, 0x80] true) [0x61, 0x62] (by decide)).mpr
    (fun _ => by decide)

/-- The NUL behind the longest text is outside of the buffer on the stack, and with a locked heap
and no emergency buffer the text is written where no buffer is. -/
theorem exc_text_outside : [0xff, 0x80] ∈ abTexts.messages ∧
    ¬ (ExcUse.create [0xff, 0x80] true true []).WritesInside abTexts noEmgBuf ∧
    ¬ (ExcUse.read [0xff, 0x80] false).WritesInside abTexts noEmgBuf := by
  refine ⟨by decide, fun h => h (by decide), fun h => h (by decide)⟩

end Pycopy
