import Pycopy.Lib.Stream
import Pycopy.Seq.Slice

/-!
# Arrays

`array` and `bytearray` of `py/objarray.c`: a buffer of elements, of which the first `len` are used
and `free` more are there. An array is extended by the elements of any buffer of the same item size,
which may also be a part of the array itself. The address of these elements is taken before the
buffer is reallocated, and before the end of the array is moved to make room for a slice: they are
then not where they were.

## Main results

* `arrayExtend_iff`, `arrayAssign_iff`, `array_grow_iff`: when the result is that of lists.
-/

namespace Pycopy

variable {α : Type}

/-! ### Definitions -/

/-- `mp_obj_array_t` of an array. The list `items` is all of the buffer, in elements. -/
structure ArrayObj (α : Type) where
  items : List α
  len : ℕ
  free : ℕ
  deriving DecidableEq, Repr

/-- What goes wrong: an access outside the buffer, a read of memory that is not allocated any more,
a `memcpy` to where it reads from, and the exceptions -/
inductive ArrayFault
  | outOfBounds
  | freed
  | overlap
  | typeError
  | memoryError
  | seq (e : SeqExc)
  deriving DecidableEq, Repr

/-- What `m_renew` does: it may fail, it may move the buffer, and what is new in it is anything. -/
structure Renewal (α : Type) where
  fails : Bool
  moved : Bool
  junk : α

def Renewal.renew (r : Renewal α) (items : List α) (n : ℕ) : List α :=
  items.take n ++ List.replicate (n - items.length) r.junk

/-- The types of objects with a buffer that `array_subscr` knows: `array`, `bytearray` and
`memoryview`, `bytes`, and the others, such as `str` -/
inductive BufferType
  | array
  | bytes
  | other
  deriving DecidableEq, Repr

/-- The elements that are added: those of another object, or a part of the array's own buffer, which
is the source if it is the array itself or a `memoryview` of it -/
inductive ArraySrc (α : Type)
  | other (type : BufferType) (xs : List α)
  | own (start len : ℕ)
  deriving DecidableEq, Repr

def ArraySrc.len : ArraySrc α → ℕ
  | .other _ xs => xs.length
  | .own _ len => len

def ArraySrc.type : ArraySrc α → BufferType
  | .other type _ => type
  | .own _ _ => .array

/-- The elements are read from their address, which may be in a buffer that was given back. -/
def ArraySrc.read (items : List α) (freed : Bool) : ArraySrc α → Except ArrayFault (List α)
  | .other _ xs => .ok xs
  | .own start len =>
    if freed then .error .freed
    else if start + len ≤ items.length then .ok ((items.drop start).take len)
    else .error .outOfBounds

/-- `memcpy` may be used for these elements and the place `dst`. -/
def ArraySrc.apart (dst : ℕ) : ArraySrc α → Bool
  | .other _ _ => true
  | .own start len => len == 0 || dst + len ≤ start || start + len ≤ dst

/-- `memcpy` and `memmove` into the buffer -/
def storeItems (items : List α) (pos : ℕ) (xs : List α) : Except ArrayFault (List α) :=
  if pos + xs.length ≤ items.length then .ok (Stream.splice items pos xs) else .error .outOfBounds

/-- `memmove` inside the buffer -/
def moveItems (items : List α) (dst src n : ℕ) : Except ArrayFault (List α) :=
  if src + n ≤ items.length then storeItems items dst ((items.drop src).take n)
  else .error .outOfBounds

/-- `array_extend`, also for `+=` -/
def arrayExtend (r : Renewal α) (self : ArrayObj α) (arg : ArraySrc α) :
    Except ArrayFault (ArrayObj α) := do
  let len := arg.len
  if self.free < len && r.fails then throw .memoryError
  let room : ArrayObj α :=
    if self.free < len then ⟨r.renew self.items (self.len + len), self.len, 0⟩
    else { self with free := self.free - len }
  let xs ← arg.read room.items (self.free < len && r.moved)
  if !arg.apart room.len then throw .overlap
  let items ← storeItems room.items room.len xs
  return { room with items := items, len := room.len + len }

/-- The part of `array_subscr` that assigns to a slice, from the bounds of the slice on. The number
of free elements is kept in `w - 8` bits. -/
def arrayAssign (w : ℕ) (zero : α) (r : Renewal α) (o : ArrayObj α) (start stop : ℕ)
    (value : ArraySrc α) : Except ArrayFault (ArrayObj α) :=
  let srcLen := value.len
  let lenAdj : ℤ := srcLen - ((stop : ℤ) - start)
  if 0 < lenAdj then do
    let grow := lenAdj.toNat
    if o.free < grow && r.fails then throw .memoryError
    let room : ArrayObj α :=
      if o.free < grow then ⟨r.renew o.items (o.len + grow), o.len, grow % 2 ^ (w - 8)⟩ else o
    -- `mp_seq_replace_slice_grow_inplace`
    let items ← moveItems room.items (start + srcLen) stop (o.len + grow - (start + srcLen))
    let xs ← value.read items (o.free < grow && r.moved)
    let items ← storeItems items start xs
    return ⟨items, o.len + grow, (((room.free : ℤ) - lenAdj) % 2 ^ (w - 8)).toNat⟩
  else do
    -- `mp_seq_replace_slice_no_grow`
    let xs ← value.read o.items false
    let items ← storeItems o.items start xs
    let items ← moveItems items (start + srcLen) stop (o.len - stop)
    let len := (o.len + lenAdj).toNat
    let items ← storeItems items len (List.replicate (o.len - len) zero)
    return ⟨items, len, (((o.free : ℤ) - lenAdj) % 2 ^ (w - 8)).toNat⟩

/-- `array_subscr` with a slice and a value of the same item size. Not every object with a buffer is
taken. -/
def arraySubscrAssign (w : ℕ) (zero : α) (r : Renewal α) (o : ArrayObj α) (index : SliceObj)
    (value : ArraySrc α) : Except ArrayFault (ArrayObj α) :=
  match seqGetFastSliceIndexes w o.len index with
  | .error e => .error (.seq e)
  | .ok (false, _) =>
    .error (.seq (.notImplementedError "only slices with step=1 (aka None) are supported"))
  | .ok (true, slice) =>
    match value.type with
    | .array | .bytes => arrayAssign w zero r o slice.start.toNat slice.stop.toNat value
    | .other => .error (.seq (.notImplementedError "array/bytes required on right side"))

/-! ### The same on lists -/

/-- The elements of an array -/
def ArrayObj.contents (o : ArrayObj α) : List α := o.items.take o.len

/-- The number of elements and of free ones is that of all elements, and it fits its bit field. -/
structure ArrayObj.Inv (w : ℕ) (o : ArrayObj α) : Prop where
  alloc : o.items.length = o.len + o.free
  free_lt : o.free < 2 ^ (w - 8)

/-- The elements that are added, before the call -/
def ArraySrc.contents (o : ArrayObj α) : ArraySrc α → List α
  | .other _ xs => xs
  | .own start len => (o.items.drop start).take len

/-- A part of the array is inside its buffer. A view of an array that has become shorter is also
over free elements. -/
def ArraySrc.Inside (o : ArrayObj α) : ArraySrc α → Prop
  | .other _ _ => True
  | .own start len => start + len ≤ o.items.length

/-- `a[i:j] = x` of a list -/
def pySliceAssign (l : List α) (s : SliceObj) (xs : List α) : List α :=
  l.take (pySliceBounds l.length s).1.toNat ++ xs ++ l.drop (fastStop l.length s).toNat

/-- A call leaves what is left in a list, and nothing is read or written that is not there. -/
def ArrayRight (w : ℕ) (call : Except ArrayFault (ArrayObj α)) (l : List α) : Prop :=
  ∃ o, call = .ok o ∧ o.contents = l ∧ o.Inv w

/-- There is memory for them, and the elements that are added are not in a buffer that was given
back. -/
def ArraySrc.Stays (r : Renewal α) (o : ArrayObj α) (grow : ℕ) : ArraySrc α → Prop
  | .other _ _ => grow ≤ o.free ∨ r.fails = false
  | .own _ _ => grow ≤ o.free ∨ (r.fails = false ∧ r.moved = false)

/-- The elements that are added are not overwritten by the end of the array, or only by the same. -/
def ArraySrc.Kept (o : ArrayObj α) (start grow : ℕ) : ArraySrc α → Prop
  | .other _ _ => True
  | .own p n => ∀ i < n, start + n ≤ p + i → p + i < o.len + grow →
      o.items[p + i - grow]? = o.items[p + i]?

/-- The extensions that are right -/
def ExtendFits (r : Renewal α) (o : ArrayObj α) (arg : ArraySrc α) : Prop :=
  arg.Stays r o arg.len ∧ arg.apart o.len = true

/-- The assignments that are right -/
def AssignFits (w : ℕ) (r : Renewal α) (o : ArrayObj α) (start stop : ℕ) (value : ArraySrc α) :
    Prop :=
  if stop - start < value.len then
    value.Stays r o (value.len - (stop - start)) ∧ value.Kept o start (value.len - (stop - start))
  else o.free + (stop - start - value.len) < 2 ^ (w - 8)

/-! ### Extending -/

section Grow

variable {w : ℕ} {r : Renewal α} {o : ArrayObj α} {src : ArraySrc α} {start stop : ℕ}

theorem ArrayObj.Inv.length_contents (h : o.Inv w) : o.contents.length = o.len := by
  rw [contents, List.length_take, h.alloc]
  omega

theorem ArrayObj.Inv.length_drop (h : o.Inv w) (n : ℕ) :
    (o.contents.drop n).length = o.len - n := by
  rw [List.length_drop, h.length_contents]

theorem ArraySrc.length_contents (hsrc : src.Inside o) : (src.contents o).length = src.len := by
  cases src with
  | other type xs => rfl
  | own p n =>
    have hp : p + n ≤ o.items.length := hsrc
    rw [contents, len, List.length_take, List.length_drop]
    omega

theorem Renewal.length_renew (items : List α) (n : ℕ) : (r.renew items n).length = n := by
  rw [renew, List.length_append, List.length_take, List.length_replicate]
  omega

/-- A buffer that becomes longer keeps what was in it. -/
theorem Renewal.take_renew {items : List α} {n : ℕ} (h : items.length ≤ n) :
    (r.renew items n).take items.length = items := by
  rw [renew, List.take_of_length_le h, List.take_left]

/-- The elements that are added are read where they are. -/
theorem ArraySrc.read_eq (hsrc : src.Inside o) {items : List α}
    (hitems : items.take o.items.length = o.items) (hlen : o.items.length ≤ items.length) :
    src.read items false = .ok (src.contents o) := by
  cases src with
  | other type xs => rfl
  | own p n =>
    have hp : p + n ≤ o.items.length := hsrc
    rw [read, if_neg Bool.false_ne_true, if_pos (by omega), contents]
    conv_rhs => rw [← hitems, List.drop_take, List.take_take, Nat.min_eq_left (by omega)]

theorem ArraySrc.not_stays_of_fails {grow : ℕ} (hfree : o.free < grow) (hfails : r.fails = true) :
    ¬src.Stays r o grow := by
  cases src <;> simp [Stays, hfails, hfree]

theorem ArraySrc.stays_of_le {grow : ℕ} (h : grow ≤ o.free) : src.Stays r o grow := by
  cases src <;> exact .inl h

theorem ArraySrc.stays_of_not_moved {grow : ℕ} (hfails : r.fails = false)
    (hmoved : r.moved = false) : src.Stays r o grow := by
  cases src with
  | other type xs => exact .inr hfails
  | own p n => exact .inr ⟨hfails, hmoved⟩

theorem ArraySrc.read_freed {items : List α} {p n : ℕ} :
    (ArraySrc.own p n).read items true = .error .freed := by
  rw [read, if_pos rfl]

theorem contents_eq_of_take {items : List α} (h : o.Inv w)
    (hitems : items.take o.items.length = o.items) : items.take o.len = o.contents := by
  have halloc := h.alloc
  rw [ArrayObj.contents, ← hitems, List.take_take, Nat.min_eq_left (by omega)]

/-- The end of `array_extend`, where the elements that are added are still there -/
theorem extend_rest (hsrc : src.Inside o) {q : ArrayObj α} (hlen : q.len = o.len)
    (hcont : q.items.take o.len = o.contents)
    (hread : src.read q.items false = .ok (src.contents o))
    (hq : q.items.length = o.len + src.len + q.free) (hfree : q.free < 2 ^ (w - 8)) :
    ArrayRight w (do
        let xs ← src.read q.items false
        if !src.apart q.len then throw .overlap
        let items ← storeItems q.items q.len xs
        return { q with items := items, len := q.len + src.len })
      (o.contents ++ src.contents o) ↔ src.apart o.len = true := by
  have hsrcLen := ArraySrc.length_contents hsrc
  rw [hread, hlen]
  simp only [bind, Except.bind, pure, Except.pure, throw, throwThe, MonadExceptOf.throw]
  cases hapart : src.apart o.len with
  | false =>
    refine iff_of_false ?_ Bool.false_ne_true
    rintro ⟨o', hcall, -⟩
    cases hcall
  | true =>
    refine iff_of_true ⟨⟨Stream.splice q.items o.len (src.contents o), o.len + src.len,
      q.free⟩, ?_, ?_, ?_⟩ rfl
    · rw [if_neg (by simp), storeItems, if_pos (by omega)]
    · rw [ArrayObj.contents, ← hsrcLen, Stream.take_splice (by omega), hcont]
    · exact ⟨by rw [Stream.length_splice (by omega), hq], hfree⟩

/-- **`array_extend`** -/
theorem arrayExtend_iff (h : o.Inv w) (hsrc : src.Inside o) :
    ArrayRight w (arrayExtend r o src) (o.contents ++ src.contents o) ↔ ExtendFits r o src := by
  have halloc := h.alloc
  have hfreeLt := h.free_lt
  rw [arrayExtend, ExtendFits]
  by_cases hnone : o.free < src.len ∧ r.fails = true
  · refine iff_of_false ?_ fun hfits => src.not_stays_of_fails hnone.1 hnone.2 hfits.1
    rintro ⟨o', hcall, -⟩
    simp only [hnone, decide_true, Bool.and_self, if_true] at hcall
    cases hcall
  by_cases hfree : o.free < src.len
  · have hfails : r.fails = false := eq_false_of_ne_true fun h => hnone ⟨hfree, h⟩
    simp only [hfree, hfails, decide_true, Bool.true_and, if_true]
    have hold : (r.renew o.items (o.len + src.len)).take o.items.length = o.items :=
      Renewal.take_renew (by omega)
    have hlen := Renewal.length_renew (r := r) o.items (o.len + src.len)
    have hroom := extend_rest (w := w) hsrc (q := ⟨r.renew o.items (o.len + src.len), o.len, 0⟩)
      rfl (contents_eq_of_take h hold) (src.read_eq hsrc hold (by dsimp only; omega)) hlen
      (by positivity)
    cases hmoved : r.moved with
    | false =>
      exact hroom.trans ⟨fun hapart => ⟨src.stays_of_not_moved hfails hmoved, hapart⟩, And.right⟩
    | true =>
      cases src with
      | other type xs => exact hroom.trans ⟨fun hapart => ⟨.inr hfails, hapart⟩, And.right⟩
      | own p n =>
        refine iff_of_false ?_ (fun hfits => hfits.1.elim (not_le.mpr hfree) (by simp [hmoved]))
        rintro ⟨o', hcall, -⟩
        rw [ArraySrc.read_freed] at hcall
        cases hcall
  · simp only [hfree, decide_false, Bool.false_and, if_false]
    have hroom := extend_rest (w := w) hsrc (q := { o with free := o.free - src.len }) rfl rfl
      (src.read_eq hsrc (List.take_length) le_rfl)
      (by dsimp only; omega) (lt_of_le_of_lt (Nat.sub_le _ _) hfreeLt)
    exact hroom.trans ⟨fun hapart => ⟨src.stays_of_le (not_lt.mp hfree), hapart⟩, And.right⟩

/-! ### Assigning to a slice -/

/-- What `array_subscr` has to move: the end of the array -/
theorem moveItems_tail (h : o.Inv w) {items : List α} {dst : ℕ} (hstop : stop ≤ o.len)
    (htail : (items.drop stop).take (o.len - stop) = o.contents.drop stop)
    (hlen : o.len ≤ items.length) (hdst : dst + (o.len - stop) ≤ items.length) :
    moveItems items dst stop (o.len - stop) =
      .ok (Stream.splice items dst (o.contents.drop stop)) := by
  have hdrop := h.length_drop stop
  rw [moveItems, if_pos (by omega), htail, storeItems, if_pos (by omega)]

/-- The elements that are read after the end of the array was moved -/
theorem ArraySrc.read_moved (h : o.Inv w) (hsrc : src.Inside o) {items : List α} {grow : ℕ}
    (hstop : stop ≤ o.len) (hgrow : stop + grow = start + src.len)
    (hold : items.take o.items.length = o.items) (hlen : o.items.length ≤ items.length)
    (hroom : o.len + grow ≤ items.length) :
    ∃ xs, src.read (Stream.splice items (start + src.len) (o.contents.drop stop)) false = .ok xs ∧
      xs.length = src.len ∧ (xs = src.contents o ↔ src.Kept o start grow) := by
  have halloc := h.alloc
  have hdrop := h.length_drop stop
  have hsplice := Stream.length_splice (by omega :
    start + src.len + (o.contents.drop stop).length ≤ items.length)
  cases src with
  | other type xs => exact ⟨xs, rfl, rfl, iff_of_true rfl trivial⟩
  | own p n =>
    have hp : p + n ≤ o.items.length := hsrc
    have hn : (ArraySrc.own p n : ArraySrc α).len = n := rfl
    rw [hn] at hgrow hsplice ⊢
    refine ⟨_, by rw [read, if_neg Bool.false_ne_true, if_pos (by omega)], ?_, ?_⟩
    · rw [List.length_take, List.length_drop]
      omega
    have hget : ∀ i < n, (Stream.splice items (start + n) (o.contents.drop stop))[p + i]? =
        if start + n ≤ p + i ∧ p + i < o.len + grow then o.items[p + i - grow]?
        else o.items[p + i]? := by
      intro i hi
      have hlow : items[p + i]? = o.items[p + i]? := by
        conv_rhs => rw [← hold, List.getElem?_take_of_lt (by omega)]
      rw [Stream.splice]
      by_cases hend : start + n ≤ p + i
      · rw [List.append_assoc, List.getElem?_append_right (by rw [List.length_take]; omega),
          List.length_take, Nat.min_eq_left (by omega)]
        by_cases hlt : p + i < o.len + grow
        · rw [if_pos ⟨hend, hlt⟩, List.getElem?_append_left (by omega), List.getElem?_drop,
            ArrayObj.contents, List.getElem?_take_of_lt (by omega)]
          congr 1
          omega
        · rw [if_neg (by omega), List.getElem?_append_right (by omega), List.getElem?_drop, hdrop,
            ← hlow]
          congr 1
          omega
      · rw [if_neg (by omega), List.append_assoc, List.getElem?_append_left
          (by rw [List.length_take]; omega), List.getElem?_take_of_lt (by omega), hlow]
    have hpart : ∀ i < n, ∀ l : List α, ((l.drop p).take n)[i]? = l[p + i]? := fun i hi l => by
      rw [List.getElem?_take_of_lt hi, List.getElem?_drop]
    rw [contents, List.ext_getElem?_iff]
    constructor
    · intro hall i hi hend hlt
      have hi' := hall i
      rw [hpart i hi, hpart i hi, hget i hi, if_pos ⟨hend, hlt⟩] at hi'
      exact hi'
    · intro hkept i
      by_cases hi : i < n
      · rw [hpart i hi, hpart i hi, hget i hi]
        split_ifs with hend
        · exact hkept i hi hend.1 hend.2
        · rfl
      · rw [List.getElem?_eq_none (by rw [List.length_take]; omega),
          List.getElem?_eq_none (by rw [List.length_take]; omega)]

/-- The end of the assignment that makes the array longer, where the elements that are added are
still there -/
theorem grow_rest (h : o.Inv w) (hsrc : src.Inside o) {items : List α} {grow free : ℕ}
    (hle : start ≤ stop) (hstop : stop ≤ o.len) (hgrow : stop + grow = start + src.len)
    (hold : items.take o.items.length = o.items) (hlen : o.items.length ≤ items.length)
    (hroom : items.length = o.len + grow + free) (hfree : free < 2 ^ (w - 8)) :
    ArrayRight w (do
        let items ← moveItems items (start + src.len) stop (o.len + grow - (start + src.len))
        let xs ← src.read items false
        let items ← storeItems items start xs
        return ⟨items, o.len + grow, free⟩)
      (o.contents.take start ++ src.contents o ++ o.contents.drop stop) ↔
        src.Kept o start grow := by
  have halloc := h.alloc
  have hcont := contents_eq_of_take h hold
  have hdrop := h.length_drop stop
  obtain ⟨xs, hread, hxs, hkept⟩ := ArraySrc.read_moved h hsrc hstop hgrow hold hlen (by omega)
  have htail : (items.drop stop).take (o.len - stop) = o.contents.drop stop := by
    rw [← hcont, List.drop_take]
  have hmove := moveItems_tail h hstop htail (by omega)
    (by omega : start + src.len + (o.len - stop) ≤ items.length)
  have hsplice := Stream.length_splice (by omega :
    start + src.len + (o.contents.drop stop).length ≤ items.length)
  rw [show o.len + grow - (start + src.len) = o.len - stop by omega, hmove]
  simp only [bind, Except.bind, hread, pure, Except.pure]
  rw [storeItems, if_pos (by omega)]
  dsimp only
  -- what is in the array now
  have hnow : (Stream.splice (Stream.splice items (start + src.len) (o.contents.drop stop)) start
      xs).take (o.len + grow) = o.contents.take start ++ xs ++ o.contents.drop stop := by
    have hstart : items.take start = o.contents.take start := by
      rw [← hcont, List.take_take, Nat.min_eq_left (by omega)]
    have hend : o.len + grow = start + (xs ++ o.contents.drop stop).length := by
      rw [List.length_append]
      omega
    rw [← hxs, Stream.splice_splice_before (by omega), hend, Stream.take_splice (by omega), hstart,
      List.append_assoc]
  rw [← hkept]
  constructor
  · rintro ⟨o', hcall, hright, -⟩
    obtain rfl := Except.ok.inj hcall
    rw [ArrayObj.contents, hnow] at hright
    exact List.append_cancel_left (List.append_cancel_right hright)
  · rintro rfl
    exact ⟨_, rfl, hnow, by rw [Stream.length_splice (by omega), hsplice, hroom], hfree⟩

/-- The number of free elements in its bit field -/
theorem free_field {a b : ℕ} (h : b ≤ a) (ha : a - b < 2 ^ (w - 8)) :
    (((a : ℤ) - b) % 2 ^ (w - 8)).toNat = a - b := by
  have hcast : ((2 ^ (w - 8) : ℕ) : ℤ) = 2 ^ (w - 8) := by push_cast; rfl
  rw [Int.emod_eq_of_lt (by omega) (by omega)]
  omega

/-- The assignment of more elements than those of the slice -/
theorem arrayAssign_grow (h : o.Inv w) (hsrc : src.Inside o) (hle : start ≤ stop)
    (hstop : stop ≤ o.len) {zero : α} (hlt : stop - start < src.len) :
    ArrayRight w (arrayAssign w zero r o start stop src)
      (o.contents.take start ++ src.contents o ++ o.contents.drop stop) ↔
        src.Stays r o (src.len - (stop - start)) ∧ src.Kept o start (src.len - (stop - start)) := by
  have halloc := h.alloc
  have hfreeLt := h.free_lt
  obtain ⟨grow, hgrow⟩ : ∃ grow, src.len - (stop - start) = grow := ⟨_, rfl⟩
  have hadj : (src.len : ℤ) - ((stop : ℤ) - start) = grow := by omega
  rw [arrayAssign, hgrow]
  simp only [hadj, Int.toNat_natCast]
  rw [if_pos (by omega)]
  by_cases hnone : o.free < grow ∧ r.fails = true
  · refine iff_of_false ?_ fun hfits => src.not_stays_of_fails hnone.1 hnone.2 hfits.1
    rintro ⟨o', hcall, -⟩
    simp only [hnone, decide_true, Bool.and_self, if_true] at hcall
    cases hcall
  by_cases hfree : o.free < grow
  · have hfails : r.fails = false := eq_false_of_ne_true fun h => hnone ⟨hfree, h⟩
    have hold : (r.renew o.items (o.len + grow)).take o.items.length = o.items :=
      Renewal.take_renew (by omega)
    have hlen := Renewal.length_renew (r := r) o.items (o.len + grow)
    have hzero : ((((grow % 2 ^ (w - 8) : ℕ) : ℤ) - grow) % 2 ^ (w - 8)).toNat = 0 := by
      push_cast
      rw [Int.emod_sub_emod, sub_self, Int.zero_emod, Int.toNat_zero]
    have hrest := grow_rest h hsrc hle hstop (by omega) hold (by omega)
      (by omega : _ = o.len + grow + 0) (by positivity)
    simp only [hfree, hfails, decide_true, Bool.true_and, if_true, hzero]
    cases hmoved : r.moved with
    | false =>
      exact hrest.trans ⟨fun hkept => ⟨src.stays_of_not_moved hfails hmoved, hkept⟩, And.right⟩
    | true =>
      cases src with
      | other type xs => exact hrest.trans ⟨fun hkept => ⟨.inr hfails, hkept⟩, And.right⟩
      | own p n =>
        refine iff_of_false ?_ (fun hfits => hfits.1.elim (not_le.mpr hfree) (by simp [hmoved]))
        rintro ⟨o', hcall, -⟩
        simp only [ArraySrc.read_freed, Bool.false_eq_true, if_false, bind, Except.bind] at hcall
        split at hcall <;> cases hcall
  · have hrest := grow_rest h hsrc hle hstop (by omega) List.take_length le_rfl
      (by omega : _ = o.len + grow + (o.free - grow)) (by omega)
    simp only [hfree, decide_false, Bool.false_and, if_false, free_field (not_lt.mp hfree)
      (lt_of_le_of_lt (Nat.sub_le _ _) hfreeLt)]
    exact hrest.trans ⟨fun hkept => ⟨src.stays_of_le (not_lt.mp hfree), hkept⟩, And.right⟩

/-- The assignment of at most as many elements as those of the slice -/
theorem arrayAssign_shrink (h : o.Inv w) (hsrc : src.Inside o) (hle : start ≤ stop)
    (hstop : stop ≤ o.len) {zero : α} (hlt : ¬stop - start < src.len) :
    ArrayRight w (arrayAssign w zero r o start stop src)
      (o.contents.take start ++ src.contents o ++ o.contents.drop stop) ↔
        o.free + (stop - start - src.len) < 2 ^ (w - 8) := by
  have halloc := h.alloc
  have hsrcLen := ArraySrc.length_contents hsrc
  obtain ⟨shrink, hshrink⟩ : ∃ shrink, stop - start - src.len = shrink := ⟨_, rfl⟩
  have hadj : (src.len : ℤ) - ((stop : ℤ) - start) = -shrink := by omega
  have hdrop := h.length_drop stop
  rw [arrayAssign, hshrink]
  simp only [hadj]
  rw [if_neg (by omega), src.read_eq hsrc List.take_length le_rfl,
    show ((o.len : ℤ) + -shrink).toNat = o.len - shrink by omega]
  have hput := Stream.length_splice (by omega : start + (src.contents o).length ≤ o.items.length)
  have htail : ((Stream.splice o.items start (src.contents o)).drop stop).take (o.len - stop) =
      o.contents.drop stop := by
    rw [Stream.drop_splice_of_le (by omega) (by omega), ArrayObj.contents, List.drop_take]
  have hmove := moveItems_tail h hstop htail (by omega)
    (by omega : start + src.len + (o.len - stop) ≤ _)
  have hmoved := Stream.length_splice (by omega : start + src.len + (o.contents.drop stop).length ≤
    (Stream.splice o.items start (src.contents o)).length)
  simp only [bind, Except.bind, pure, Except.pure]
  rw [storeItems, if_pos (by omega)]
  dsimp only
  rw [hmove]
  dsimp only
  rw [storeItems, if_pos (by rw [List.length_replicate]; omega)]
  dsimp only
  -- what is in the array now
  have hnow : (Stream.splice (Stream.splice (Stream.splice o.items start (src.contents o))
      (start + src.len) (o.contents.drop stop)) (o.len - shrink)
      (List.replicate (o.len - (o.len - shrink)) zero)).take (o.len - shrink) =
        o.contents.take start ++ src.contents o ++ o.contents.drop stop := by
    have hstart : o.items.take start = o.contents.take start := by
      rw [ArrayObj.contents, List.take_take, Nat.min_eq_left (by omega)]
    have hend : o.len - shrink = start + (src.contents o ++ o.contents.drop stop).length := by
      rw [List.length_append]
      omega
    rw [Stream.take_splice_pos (by omega), ← hsrcLen, Stream.splice_splice (by omega), hend,
      Stream.take_splice (by omega), hstart, List.append_assoc]
  have hclear := Stream.length_splice (by rw [List.length_replicate]; omega : o.len - shrink +
    (List.replicate (o.len - (o.len - shrink)) zero).length ≤
      (Stream.splice (Stream.splice o.items start (src.contents o)) (start + src.len)
        (o.contents.drop stop)).length)
  have hcast : ((2 ^ (w - 8) : ℕ) : ℤ) = 2 ^ (w - 8) := by push_cast; rfl
  constructor
  · rintro ⟨o', hcall, -, hinv⟩
    obtain rfl := Except.ok.inj hcall
    have hfield := hinv.free_lt
    have hlen := hinv.alloc
    dsimp only at hfield hlen
    omega
  · intro hfits
    have hfree : (((o.free : ℤ) - -shrink) % 2 ^ (w - 8)).toNat = o.free + shrink := by
      rw [Int.emod_eq_of_lt (by omega) (by omega)]
      omega
    exact ⟨_, rfl, hnow, by dsimp only; omega, by dsimp only; omega⟩

/-- **The assignment to a slice** -/
theorem arrayAssign_iff (h : o.Inv w) (hsrc : src.Inside o) (hle : start ≤ stop)
    (hstop : stop ≤ o.len) {zero : α} :
    ArrayRight w (arrayAssign w zero r o start stop src)
      (o.contents.take start ++ src.contents o ++ o.contents.drop stop) ↔
        AssignFits w r o start stop src := by
  rw [AssignFits]
  split_ifs with hlt
  · exact arrayAssign_grow h hsrc hle hstop hlt
  · exact arrayAssign_shrink h hsrc hle hstop hlt

end Grow

/-- **Extending an array, by any buffer or by a part of itself**: the result is that of lists,
unless there is no memory, the added elements are in a buffer that is given back, are copied over
themselves or are moved before they are read, more elements become free than can be counted, or an
object of another type is assigned to a slice. -/
theorem array_grow_iff {w : ℕ} (zero : α) (r : Renewal α) (o : ArrayObj α) (src : ArraySrc α)
    (s : SliceObj) (h : o.Inv w) (hlen : IsLen w o.len) (hsrc : src.Inside o) (hs : s.Valid w)
    (hstep : s.step.getD 1 = 1) :
    (ArrayRight w (arrayExtend r o src) (o.contents ++ src.contents o) ↔ ExtendFits r o src) ∧
      (ArrayRight w (arraySubscrAssign w zero r o s src)
          (pySliceAssign o.contents s (src.contents o)) ↔
        src.type ≠ .other ∧
          AssignFits w r o (pySliceBounds o.len s).1.toNat (fastStop o.len s).toNat src) := by
  refine ⟨arrayExtend_iff h hsrc, ?_⟩
  have hpos : 0 < s.step.getD 1 := by omega
  obtain ⟨⟨h1, h2⟩, h3, h4⟩ := pySliceBounds_pos (n := o.len) hpos
  have hfast : fastStop o.len s = max (pySliceBounds o.len s).1 (pySliceBounds o.len s).2 :=
    if_pos hpos
  rw [arraySubscrAssign, seqGetFastSliceIndexes_eq hlen hs, hstep, pySliceAssign,
    h.length_contents]
  have hle : (pySliceBounds o.len s).1.toNat ≤ (fastStop o.len s).toNat := by omega
  have hstop : (fastStop o.len s).toNat ≤ o.len := by omega
  have hassign := @arrayAssign_iff _ _ r _ _ _ _ h hsrc hle hstop zero
  cases htype : src.type with
  | other =>
    refine iff_of_false ?_ fun hfits => hfits.1 rfl
    rintro ⟨o', hcall, -⟩
    cases hcall
  | _ => exact hassign.trans (and_iff_right BufferType.noConfusion).symm

theorem array_grow_iff_bytes : ArrayRight 64
    (arrayExtend ⟨false, false, (0 : UInt8)⟩ ⟨[97, 98, 99], 3, 0⟩ (.own 0 3))
    [97, 98, 99, 97, 98, 99] :=
  (array_grow_iff (w := 64) (0 : UInt8) ⟨false, false, 0⟩ ⟨[97, 98, 99], 3, 0⟩ (.own 0 3)
    ⟨none, none, none⟩ ⟨rfl, by decide⟩ ⟨by decide, by decide⟩ (Nat.le_refl 3)
    ⟨nofun, nofun, nofun, by decide⟩ rfl).1.mpr ⟨.inr ⟨rfl, rfl⟩, rfl⟩

/-- A byte array that is extended by itself is read after it was given back, and the end of it is
moved over what is added from a view of it. A `str` is not assigned to a slice. -/
theorem array_grow_itself :
    ¬ArrayRight 64 (arrayExtend ⟨false, true, (0 : UInt8)⟩ ⟨[97, 98, 99], 3, 0⟩ (.own 0 3))
        [97, 98, 99, 97, 98, 99] ∧
      ¬ArrayRight 64 (arraySubscrAssign 64 (0 : UInt8) ⟨false, false, 0⟩ ⟨[97, 98, 99, 0, 0], 3, 2⟩
        ⟨some 0, some 0, none⟩ (.own 1 2)) [98, 99, 97, 98, 99] ∧
      ¬ArrayRight 64 (arraySubscrAssign 64 (0 : UInt8) ⟨false, false, 0⟩ ⟨[97, 98, 99], 3, 0⟩
        ⟨some 0, some 1, none⟩ (.other .other [120, 121])) [120, 121, 98, 99] := by
  refine ⟨?_, ?_, ?_⟩
  · rintro ⟨o, hcall, -⟩
    cases hcall
  · rintro ⟨o, hcall, hright, -⟩
    obtain rfl := Except.ok.inj hcall
    cases hright
  · rintro ⟨o, hcall, -⟩
    cases hcall

end Pycopy
