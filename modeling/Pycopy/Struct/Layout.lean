import Pycopy.Struct.Binary

/-!
# Formats and layouts

`py/modstruct.c`: three loops walk over a format. `mp_struct_calc_size_items` counts the fields and
adds up their sizes, `struct_unpack_from` reads the fields, and `mp_struct_pack_into_internal`
writes them. The last two leave the alignment to `mp_binary_get_val` and `mp_binary_set_val`, and
stop after as many fields as there are values.

All of them count in machine words. `layout` gives the fields and the size without wrap-around; the
loops agree with it up to a multiple of the size of the address space.

## Main results

* `struct_layouts_agree`: the three loops agree.
-/

namespace Pycopy

/-! ### Formats -/

/-- An item of a format: a type code and how many times it occurs. -/
structure FmtItem where
  cnt : ℕ
  code : Char
  deriving DecidableEq, Repr

/-- `mp_struct_get_fmt_type` -/
def getFmtType : List Char → StructType × List Char
  | '!' :: fmt => (.big, fmt)
  | '@' :: fmt => (.native, fmt)
  | '=' :: fmt => (.standard, fmt)
  | '<' :: fmt => (.little, fmt)
  | '>' :: fmt => (.big, fmt)
  | fmt => (.native, fmt)

/-- The loop over the items of a format, with the number that has been read so far. The code after a
number at the end of the format is the terminating zero. -/
def fmtScan : Option ℕ → List Char → List FmtItem
  | none, [] => []
  | some n, [] => [⟨n, '\x00'⟩]
  | num, c :: fmt =>
    if c.isDigit then fmtScan (some (10 * num.getD 0 + (c.toNat - '0'.toNat))) fmt
    else ⟨num.getD 1, c⟩ :: fmtScan none fmt

/-- The items of a format -/
def fmtItems (fmt : List Char) : List FmtItem :=
  fmtScan none (getFmtType (fmt.takeWhile (· ≠ '\x00'))).2

/-- The byte order and size conventions of a format -/
def fmtType (fmt : List Char) : StructType := (getFmtType (fmt.takeWhile (· ≠ '\x00'))).1

variable {w : ℕ} (B : StructBuild w)

/-- The count that `get_fmt_num` returns. It unpacks the object for the number as a small integer;
a number that is too large is an object on the heap. -/
def fmtCount (obj : BitVec w) (n : ℕ) : ℕ :=
  if n ≤ (smallIntMax B.repr).toNat then n else (objSmallIntValue B.repr obj).toNat

/-- The items of a format with the counts that one pass over it sees. -/
def structItems (objs : ℕ → BitVec w) (fmt : List Char) : List FmtItem :=
  (fmtItems fmt).mapIdx fun i it => { it with cnt := fmtCount B (objs i) it.cnt }

/-! ### The loops -/

/-- `MP_ALIGN`, in machine words -/
def mpAlign (w off align : ℕ) : ℕ := (off + (align - 1)) % 2 ^ w &&& (2 ^ w - align)

/-- The loop of `mp_struct_calc_size_items` for one item -/
def calcSizeFields (w sz align : ℕ) : ℕ → ℕ → ℕ
  | 0, size => size
  | cnt + 1, size => calcSizeFields w sz align cnt ((mpAlign w size align + sz) % 2 ^ w)

/-- `mp_struct_calc_size_items`: the number of fields and the size, unless a type code is bad. -/
def calcSizeItems (t : StructType) : List FmtItem → ℕ → ℕ → Option (ℕ × ℕ)
  | [], totalCnt, size => some (totalCnt, size)
  | it :: items, totalCnt, size =>
    if it.code = 's' then
      calcSizeItems t items ((totalCnt + 1) % 2 ^ w) ((size + it.cnt) % 2 ^ w)
    else
      (binaryGetSize B t it.code).bind fun (sz, align) =>
        calcSizeItems t items ((totalCnt + it.cnt) % 2 ^ w)
          (calcSizeFields w sz align it.cnt size)

/-- A field that is read or written: its type code, where it starts, and its size. -/
structure FieldAccess where
  code : Char
  off : ℕ
  size : ℕ
  deriving DecidableEq, Repr

/-- `mp_binary_get_val` and `mp_binary_set_val` for the fields of an item, and the offset after
them -/
def itemFields (t : StructType) (code : Char) : ℕ → ℕ → Option (List FieldAccess × ℕ)
  | 0, off => some ([], off)
  | cnt + 1, off =>
    (binaryGetSize B t code).bind fun (size, align) =>
      let off := if t = .native then mpAlign w off align else off
      (itemFields t code cnt ((off + size) % 2 ^ w)).map fun (fs, off') =>
        (⟨code, off, size⟩ :: fs, off')

/-- The loop of `struct_unpack_from`: the fields that are read, and the offset after them. Past the
end of the format it finds a type code of zero, which is bad. -/
def unpackFields (t : StructType) (numItems : ℕ) :
    List FmtItem → ℕ → ℕ → Option (List FieldAccess × ℕ)
  | [], i, off => if i < numItems then none else some ([], off)
  | it :: items, i, off =>
    if i < numItems then
      if it.code = 's' then
        (unpackFields t numItems items ((i + 1) % 2 ^ w) ((off + it.cnt) % 2 ^ w)).map
          fun (gs, e) => (⟨'s', off, it.cnt⟩ :: gs, e)
      else
        (itemFields B t it.code it.cnt off).bind fun (fs, off') =>
          (unpackFields t numItems items ((i + it.cnt) % 2 ^ w) off').map
            fun (gs, e) => (fs ++ gs, e)
    else some ([], off)

/-- The loop of `mp_struct_pack_into_internal`: the fields that are written for `nArgs` arguments,
and the offset after them. -/
def packFields (t : StructType) : List FmtItem → ℕ → ℕ → Option (List FieldAccess × ℕ)
  | [], _, off => some ([], off)
  | it :: items, nArgs, off =>
    if nArgs = 0 then some ([], off)
    else if it.code = 's' then
      (packFields t items (nArgs - 1) ((off + it.cnt) % 2 ^ w)).map
        fun (gs, e) => (⟨'s', off, it.cnt⟩ :: gs, e)
    else
      (itemFields B t it.code (min it.cnt nArgs) off).bind fun (fs, off') =>
        (packFields t items (nArgs - min it.cnt nArgs) off').map fun (gs, e) => (fs ++ gs, e)

/-- `struct_calcsize`, as its callers unpack the result -/
def structCalcsize (objs : ℕ → BitVec w) (fmt : List Char) : Option (BitVec w) :=
  (calcSizeItems B (fmtType fmt) (structItems B objs fmt) 0 0).map fun (_, size) =>
    objSmallIntValue B.repr (objNewSmallInt B.repr (BitVec.ofNat w size))

/-- `struct_unpack_from` for a buffer of `len` bytes at `buf`: the fields that are read, and the
offset after them. The objects for the numbers in the format differ between the passes over it. -/
def structUnpackFrom (objs objs' : ℕ → BitVec w) (fmt : List Char) (buf len : ℕ) :
    Option (List FieldAccess × ℕ) :=
  (calcSizeItems B (fmtType fmt) (structItems B objs fmt) 0 0).bind fun (numItems, totalSz) =>
    if (buf + totalSz) % 2 ^ w > (buf + len) % 2 ^ w then none
    else unpackFields B (fmtType fmt) numItems (structItems B objs' fmt) 0 0

/-! ### The layout -/

/-- The smallest multiple of the alignment from `off` on -/
def alignTo (off align : ℕ) : ℕ := (off + (align - 1)) / align * align

/-- The fields of an item and the offset after them -/
def layoutFields (code : Char) (size align : ℕ) : ℕ → ℕ → List FieldAccess × ℕ
  | 0, off => ([], off)
  | cnt + 1, off =>
    let start := alignTo off align
    let (fs, e) := layoutFields code size align cnt (start + size)
    (⟨code, start, size⟩ :: fs, e)

def layoutItem (t : StructType) (it : FmtItem) (off : ℕ) : Option (List FieldAccess × ℕ) :=
  if it.code = 's' then some ([⟨'s', off, it.cnt⟩], off + it.cnt)
  else (binaryGetSize B t it.code).map fun (size, align) =>
    layoutFields it.code size align it.cnt off

/-- **The layout of a list of items**: the fields and the offset after them. -/
def layout (t : StructType) : List FmtItem → ℕ → Option (List FieldAccess × ℕ)
  | [], off => some ([], off)
  | it :: items, off =>
    (layoutItem B t it off).bind fun (fs, off') =>
      (layout t items off').map fun (gs, e) => (fs ++ gs, e)

/-- A field with its offset in machine words -/
def FieldAccess.wrap (w : ℕ) (f : FieldAccess) : FieldAccess := { f with off := f.off % 2 ^ w }

variable {B}

/-! ### Alignment -/

/-- `MP_ALIGN` rounds up, in machine words. -/
theorem mpAlign_mod {w k : ℕ} (hk : k ≤ w) (off : ℕ) :
    mpAlign w (off % 2 ^ w) (2 ^ k) = alignTo off (2 ^ k) % 2 ^ w := by
  have hmask : 2 ^ w - 2 ^ k < 2 ^ w := Nat.sub_lt (Nat.two_pow_pos w) (Nat.two_pow_pos k)
  rw [mpAlign, Nat.mod_add_mod, ← Nat.mod_eq_of_lt hmask, ← Nat.and_mod_two_pow,
    TwosComplement.and_two_pow_sub_two_pow hk, Nat.mod_mod, alignTo]

variable {align : ℕ}

theorem le_alignTo (h : 0 < align) (off : ℕ) : off ≤ alignTo off align := by
  have hlt := Nat.lt_div_mul_add h (a := off + (align - 1))
  rw [alignTo]
  omega

theorem dvd_alignTo (off align : ℕ) : align ∣ alignTo off align := Nat.dvd_mul_left _ _

@[simp] theorem alignTo_one (off : ℕ) : alignTo off 1 = off := by
  simp [alignTo]

/-! ### The loops follow the layout -/

variable {t : StructType} {code : Char} {size : ℕ}

theorem binaryGetSize_align_of_ne
    (h : binaryGetSize B t code = some (size, align)) (ht : t ≠ .native) : align = 1 := by
  rw [binaryGetSize.eq_def] at h
  cases t <;> dsimp only at h <;> try split at h
  all_goals first
    | cases h; rfl
    | exact absurd rfl ht
    | cases h

/-- The start of a field, in machine words -/
theorem fieldStart_mod (h : binaryGetSize B t code = some (size, align)) (off : ℕ) :
    (if t = .native then mpAlign w (off % 2 ^ w) align else off % 2 ^ w) =
      alignTo off align % 2 ^ w := by
  have hw := B.word
  by_cases ht : t = .native
  · obtain ⟨-, -, k, hk, rfl⟩ := binaryGetSize_bounds h
    rw [if_pos ht, mpAlign_mod (by omega)]
  · rw [if_neg ht, binaryGetSize_align_of_ne h ht, alignTo_one]

theorem calcSizeFields_eq (h : binaryGetSize B t code = some (size, align)) (cnt off : ℕ) :
    calcSizeFields w size align cnt (off % 2 ^ w) =
      (layoutFields code size align cnt off).2 % 2 ^ w := by
  have hw := B.word
  obtain ⟨-, -, k, hk, rfl⟩ := binaryGetSize_bounds h
  induction cnt generalizing off with
  | zero => rfl
  | succ cnt ih =>
    rw [calcSizeFields, mpAlign_mod (by omega), Nat.mod_add_mod, ih, layoutFields]

theorem itemFields_eq (h : binaryGetSize B t code = some (size, align)) (cnt off : ℕ) :
    itemFields B t code cnt (off % 2 ^ w) =
      some ((layoutFields code size align cnt off).1.map (FieldAccess.wrap w),
        (layoutFields code size align cnt off).2 % 2 ^ w) := by
  induction cnt generalizing off with
  | zero => rfl
  | succ cnt ih =>
    rw [itemFields, h, Option.bind_some]
    simp only [fieldStart_mod h, Nat.mod_add_mod, ih, Option.map_some]
    rfl

theorem length_layoutFields (code : Char) (size align cnt off : ℕ) :
    (layoutFields code size align cnt off).1.length = cnt := by
  induction cnt generalizing off with
  | zero => rfl
  | succ cnt ih => rw [layoutFields, List.length_cons, ih]

/-- **The size** is the end of the layout, and the number of fields is that of the layout, in
machine words. -/
theorem calcSizeItems_eq (t : StructType) (items : List FmtItem) (cnt off : ℕ) :
    calcSizeItems B t items (cnt % 2 ^ w) (off % 2 ^ w) =
      (layout B t items off).map fun l => ((cnt + l.1.length) % 2 ^ w, l.2 % 2 ^ w) := by
  induction items generalizing cnt off with
  | nil => simp [calcSizeItems, layout]
  | cons it items ih =>
    rw [calcSizeItems, layout, layoutItem]
    split
    · rw [Nat.mod_add_mod, Nat.mod_add_mod, ih, Option.bind_some, Option.map_map]
      congr 1
      funext l
      simp only [Function.comp_apply, List.length_append, List.length_singleton, Nat.add_assoc]
    · cases hsize : binaryGetSize B t it.code with
      | none => rfl
      | some sizes =>
        obtain ⟨size, align⟩ := sizes
        simp only [Option.bind_some, Option.map_some, Option.map_map, Nat.mod_add_mod,
          calcSizeFields_eq hsize, ih]
        congr 1
        funext l
        simp only [Function.comp_apply, List.length_append, length_layoutFields, Nat.add_assoc]

variable {it : FmtItem} {items : List FmtItem} {off : ℕ} {l : List FieldAccess × ℕ}

/-- The layout of an item and of those after it -/
theorem layout_cons (h : layout B t (it :: items) off = some l) :
    ∃ fs off' gs, layoutItem B t it off = some (fs, off') ∧
      layout B t items off' = some (gs, l.2) ∧ l.1 = fs ++ gs := by
  rw [layout] at h
  obtain ⟨⟨fs, off'⟩, hit, h⟩ := Option.bind_eq_some_iff.mp h
  obtain ⟨⟨gs, e⟩, hitems, rfl⟩ := Option.map_eq_some_iff.mp h
  exact ⟨fs, off', gs, hit, hitems, rfl⟩

/-- The layout of an item: a string, or fields of one size -/
theorem layoutItem_cases {off' : ℕ} {fs : List FieldAccess}
    (h : layoutItem B t it off = some (fs, off')) :
    (it.code = 's' ∧ fs = [⟨'s', off, it.cnt⟩] ∧ off' = off + it.cnt) ∨
      (it.code ≠ 's' ∧ ∃ size align, binaryGetSize B t it.code = some (size, align) ∧
        layoutFields it.code size align it.cnt off = (fs, off')) := by
  rw [layoutItem] at h
  split at h
  · rename_i hs
    obtain ⟨rfl, rfl⟩ := Prod.mk.inj (Option.some.inj h)
    exact .inl ⟨hs, rfl, rfl⟩
  · rename_i hs
    obtain ⟨⟨size, align⟩, hsize, h⟩ := Option.map_eq_some_iff.mp h
    exact .inr ⟨hs, size, align, hsize, h⟩

/-- The fields of an item start at multiples of the alignment, and before its end. -/
theorem layoutFields_placed (code : Char) (size : ℕ) (ha : 0 < align) (cnt off : ℕ) :
    off ≤ (layoutFields code size align cnt off).2 ∧
      ∀ f ∈ (layoutFields code size align cnt off).1,
        f.code = code ∧ align ∣ f.off ∧ f.off ≤ (layoutFields code size align cnt off).2 := by
  induction cnt generalizing off with
  | zero => exact ⟨le_rfl, fun f hf => nomatch hf⟩
  | succ cnt ih =>
    obtain ⟨hle, hrest⟩ := ih (alignTo off align + size)
    have hstart := le_alignTo ha off
    rw [layoutFields]
    refine ⟨by dsimp only; omega, ?_⟩
    intro f hf
    obtain rfl | hf := List.mem_cons.mp hf
    · exact ⟨rfl, dvd_alignTo off align, by dsimp only; omega⟩
    · exact hrest f hf

/-- A field that is not a string starts at a multiple of the alignment of its type. -/
def FieldAccess.Aligned (B : StructBuild w) (t : StructType) (f : FieldAccess) : Prop :=
  f.code = 's' ∨ ∃ size align, binaryGetSize B t f.code = some (size, align) ∧ align ∣ f.off

/-- All fields of a layout are aligned, and start before its end. -/
theorem layout_placed (h : layout B t items off = some l) :
    off ≤ l.2 ∧ ∀ f ∈ l.1, f.Aligned B t ∧ f.off ≤ l.2 := by
  induction items generalizing off l with
  | nil =>
    cases h
    exact ⟨le_rfl, fun f hf => nomatch hf⟩
  | cons it items ih =>
    obtain ⟨fs, off', gs, hit, hitems, hl⟩ := layout_cons h
    obtain ⟨hle, hgs⟩ := ih hitems
    have hfs : off ≤ off' ∧ ∀ f ∈ fs, f.Aligned B t ∧ f.off ≤ off' := by
      obtain ⟨-, rfl, rfl⟩ | ⟨-, size, align, hsize, hfs⟩ := layoutItem_cases hit
      · refine ⟨Nat.le_add_right _ _, ?_⟩
        intro f hf
        obtain rfl := List.mem_singleton.mp hf
        exact ⟨.inl rfl, Nat.le_add_right _ _⟩
      · obtain ⟨-, -, k, -, rfl⟩ := binaryGetSize_bounds hsize
        have hplaced := layoutFields_placed it.code size (Nat.two_pow_pos k) it.cnt off
        rw [hfs] at hplaced
        refine ⟨hplaced.1, ?_⟩
        intro f hf
        obtain ⟨hcode, hdvd, hend⟩ := hplaced.2 f hf
        exact ⟨.inr ⟨size, 2 ^ k, by rw [hcode, hsize], hdvd⟩, hend⟩
    refine ⟨by omega, ?_⟩
    intro f hf
    rw [hl, List.mem_append] at hf
    obtain hf | hf := hf
    · exact ⟨(hfs.2 f hf).1, by have := (hfs.2 f hf).2; omega⟩
    · exact hgs f hf

/-- Items without fields take no room. -/
theorem layout_end_of_nil (h : layout B t items off = some l) (hnil : l.1 = []) : l.2 = off := by
  induction items generalizing off l with
  | nil =>
    cases h
    rfl
  | cons it items ih =>
    obtain ⟨fs, off', gs, hit, hitems, hl⟩ := layout_cons h
    obtain ⟨rfl, rfl⟩ := List.append_eq_nil_iff.mp (hl.symm.trans hnil)
    have hoff : off' = off := by
      obtain ⟨-, hfs, -⟩ | ⟨-, size, align, -, hfs⟩ := layoutItem_cases hit
      · cases hfs
      · have hcnt : it.cnt = 0 := by
          rw [← length_layoutFields it.code size align it.cnt off, hfs, List.length_nil]
        rw [hcnt] at hfs
        exact (Prod.mk.inj hfs).2.symm
    rw [ih hitems rfl, hoff]

/-- When all fields are read, the loop of `struct_unpack_from` reads those of the layout. -/
theorem unpackFields_all {i numItems : ℕ} (h : layout B t items off = some l)
    (hi : i + l.1.length = numItems) (hlt : numItems < 2 ^ w) :
    unpackFields B t numItems items i (off % 2 ^ w) =
      some (l.1.map (FieldAccess.wrap w), l.2 % 2 ^ w) := by
  induction items generalizing i off l with
  | nil =>
    cases h
    rw [unpackFields, if_neg (by simpa using hi.ge)]
    rfl
  | cons it items ih =>
    obtain ⟨fs, off', gs, hit, hitems, hl⟩ := layout_cons h
    have hlen : l.1.length = fs.length + gs.length := by rw [hl, List.length_append]
    rw [unpackFields]
    split
    · obtain ⟨hs, rfl, rfl⟩ | ⟨hs, size, align, hsize, hfs⟩ := layoutItem_cases hit
      · rw [List.length_singleton] at hlen
        rw [if_pos hs, Nat.mod_add_mod, Nat.mod_eq_of_lt (show i + 1 < 2 ^ w by omega),
          ih hitems (by dsimp only; omega), hl]
        rfl
      · have hcnt : it.cnt = fs.length := by
          rw [← length_layoutFields it.code size align it.cnt off, hfs]
        rw [if_neg hs, itemFields_eq hsize, hfs]
        simp only [Option.bind_some]
        rw [Nat.mod_eq_of_lt (by omega), ih hitems (by dsimp only; omega), hl, List.map_append]
        rfl
    · -- only items without fields are left
      have h0 : l.1 = [] := List.length_eq_zero_iff.mp (by omega)
      rw [h0, layout_end_of_nil h h0]
      rfl

/-- When there is an argument for each field, the loop of `mp_struct_pack_into_internal` writes
those of the layout. -/
theorem packFields_all {nArgs : ℕ} (h : layout B t items off = some l) (hn : l.1.length = nArgs) :
    packFields B t items nArgs (off % 2 ^ w) =
      some (l.1.map (FieldAccess.wrap w), l.2 % 2 ^ w) := by
  induction items generalizing off nArgs l with
  | nil =>
    cases h
    rfl
  | cons it items ih =>
    obtain ⟨fs, off', gs, hit, hitems, hl⟩ := layout_cons h
    have hlen : l.1.length = fs.length + gs.length := by rw [hl, List.length_append]
    rw [packFields]
    split
    · have h0 : l.1 = [] := List.length_eq_zero_iff.mp (by omega)
      rw [h0, layout_end_of_nil h h0]
      rfl
    · obtain ⟨hs, rfl, rfl⟩ | ⟨hs, size, align, hsize, hfs⟩ := layoutItem_cases hit
      · rw [List.length_singleton] at hlen
        rw [if_pos hs, Nat.mod_add_mod, ih hitems (by dsimp only; omega), hl]
        rfl
      · have hcnt : it.cnt = fs.length := by
          rw [← length_layoutFields it.code size align it.cnt off, hfs]
        rw [if_neg hs, min_eq_left (by omega), itemFields_eq hsize, hfs]
        simp only [Option.bind_some]
        rw [ih hitems (by dsimp only; omega), hl, List.map_append]
        rfl

/-! ### The three loops -/

/-- No number of the computation of `calcsize` wraps around: the counts in the format and the size
are small integers, and the number of fields fits into a word. -/
structure CalcsizeFits (B : StructBuild w) (fmt : List Char) : Prop where
  cnt_lt : ∀ it ∈ fmtItems fmt, it.cnt < 2 ^ B.repr.valueBits
  fits : ∀ l, layout B (fmtType fmt) (fmtItems fmt) 0 = some l →
    l.1.length < 2 ^ w ∧ l.2 < 2 ^ B.repr.valueBits

variable {objs objs' : ℕ → BitVec w} {fmt : List Char}

/-- Numbers in the format that are small integers are the counts. -/
theorem structItems_eq (h : ∀ it ∈ fmtItems fmt, it.cnt < 2 ^ B.repr.valueBits) :
    structItems B objs fmt = fmtItems fmt := by
  refine List.ext_getElem (by simp [structItems]) fun i h1 h2 => ?_
  have := h _ (List.getElem_mem h2)
  simp only [structItems, List.getElem_mapIdx, fmtCount, toNat_smallIntMax]
  rw [if_pos (by omega)]

/-- A size that is a small integer is returned as it is. -/
theorem structCalcsize_eq {numItems totalSz : ℕ}
    (h : calcSizeItems B (fmtType fmt) (structItems B objs fmt) 0 0 = some (numItems, totalSz))
    (hlt : totalSz < 2 ^ B.repr.valueBits) :
    (structCalcsize B objs fmt).map BitVec.toInt = some (totalSz : ℤ) := by
  have hw : 2 ^ (B.repr.valueBits + 1) < 2 ^ w :=
    Nat.pow_lt_pow_right (by decide) B.repr.valueBits_lt
  rw [pow_succ] at hw
  have hnat : (BitVec.ofNat w totalSz).toNat = totalSz := by
    rw [BitVec.toNat_ofNat, Nat.mod_eq_of_lt (by omega)]
  have hint : (BitVec.ofNat w totalSz).toInt = totalSz := by
    rw [BitVec.toInt_eq_toNat_cond, hnat, if_pos (by omega)]
  have hrange : InRange B.repr (BitVec.ofNat w totalSz).toInt := by
    have hpos : (0 : ℤ) < 2 ^ B.repr.valueBits := by positivity
    rw [hint]
    exact ⟨by omega, by exact_mod_cast hlt⟩
  simp only [structCalcsize, h, Option.map_some, objSmallIntValue_new _ hrange, hint]

/-- **The three loops agree.** When `calcsize` accepts a format without wrap-around, `unpack` reads
as many fields as it has counted, packing as many arguments writes the same fields, both end at the
size, and every field starts at a multiple of its alignment. -/
theorem struct_layouts_agree (B : StructBuild w) (objs objs' : ℕ → BitVec w) (fmt : List Char)
    {numItems totalSz : ℕ} (hfits : CalcsizeFits B fmt)
    (h : calcSizeItems B (fmtType fmt) (structItems B objs fmt) 0 0 = some (numItems, totalSz)) :
    ∃ fs, fs.length = numItems ∧
      (structCalcsize B objs fmt).map BitVec.toInt = some (totalSz : ℤ) ∧
      (∀ buf len, buf + len < 2 ^ w → totalSz ≤ len →
        structUnpackFrom B objs objs' fmt buf len = some (fs, totalSz)) ∧
      packFields B (fmtType fmt) (structItems B objs' fmt) numItems 0 = some (fs, totalSz) ∧
      ∀ f ∈ fs, f.Aligned B (fmtType fmt) := by
  have hitems (objs : ℕ → BitVec w) : structItems B objs fmt = fmtItems fmt :=
    structItems_eq hfits.cnt_lt
  have hcalc := calcSizeItems_eq (B := B) (fmtType fmt) (fmtItems fmt) 0 0
  rw [Nat.zero_mod, ← hitems objs, h, hitems] at hcalc
  obtain ⟨l, hl, hr⟩ := Option.map_eq_some_iff.mp hcalc.symm
  obtain ⟨hlen, hsize⟩ := hfits.fits l hl
  have hsize' : l.2 < 2 ^ w :=
    hsize.trans (Nat.pow_lt_pow_right (by decide) (by have := B.repr.valueBits_lt; omega))
  rw [Nat.zero_add, Nat.mod_eq_of_lt hlen, Nat.mod_eq_of_lt hsize'] at hr
  obtain ⟨rfl, rfl⟩ := Prod.mk.inj hr
  obtain ⟨-, hplaced⟩ := layout_placed hl
  have hwrap : l.1.map (FieldAccess.wrap w) = l.1 := by
    refine (List.map_congr_left fun f hf => ?_).trans (List.map_id l.1)
    have := (hplaced f hf).2
    rw [FieldAccess.wrap, Nat.mod_eq_of_lt (by omega)]
    rfl
  refine ⟨l.1, rfl, structCalcsize_eq h hsize, ?_, ?_, fun f hf => (hplaced f hf).1⟩
  · intro buf len hbuf hle
    have hunpack := unpackFields_all (i := 0) hl (Nat.zero_add _) hlen
    rw [Nat.zero_mod, hwrap, Nat.mod_eq_of_lt hsize'] at hunpack
    rw [structUnpackFrom, h, Option.bind_some]
    dsimp only
    rw [Nat.mod_eq_of_lt (show buf + l.2 < 2 ^ w by omega), Nat.mod_eq_of_lt hbuf,
      if_neg (by omega), hitems, hunpack]
  · have hpack := packFields_all hl rfl
    rwa [Nat.zero_mod, hwrap, Nat.mod_eq_of_lt hsize', ← hitems objs'] at hpack

/-- A byte, a short and a string of two bytes -/
theorem struct_layouts_agree_three :
    ∃ fs, fs.length = 3 ∧
      packFields build32 .native [⟨1, 'b'⟩, ⟨1, 'h'⟩, ⟨2, 's'⟩] 3 0 = some (fs, 6) := by
  have hfits : CalcsizeFits build32 ['b', 'h', '2', 's'] := by
    refine ⟨by decide, fun l hl => ?_⟩
    cases hl
    decide
  obtain ⟨fs, hlen, -, -, hpack, -⟩ := struct_layouts_agree build32 (fun _ => 0) (fun _ => 0)
    ['b', 'h', '2', 's'] hfits (show _ = some (3, 6) by decide)
  exact ⟨fs, hlen, hpack⟩

end Pycopy
