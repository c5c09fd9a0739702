import Mathlib.Data.Int.Order.Basic
import Mathlib.Logic.Function.Iterate
import Mathlib.Logic.Function.Basic
import Mathlib.Tactic.Linarith
import Mathlib.Tactic.Ring

/-!
# Filled Rectangles in Frame Buffers

The pixel formats of `extmod/modframebuf.c` with their `setpixel` and `fill_rect` functions. A frame
buffer is a memory of bytes, and a pixel has one or more bits of it. Every format has a loop of its
own to fill a rectangle, over bytes that hold one, two, four or eight pixels.

Each bit belongs to a place, and the pixel `(x, y)` has the place `x + y * stride`. A function
paints a set of places if it gives their bits the color and leaves all other bits alone. Sizes and
strides are `uint16_t`, but places are computed as `int`.

## Main results

* `fillRect_right_iff`: when exactly the pixels of the rectangle are filled.
-/

namespace Pycopy

/-! ### The source -/

/-- The formats -/
inductive FbFormat
  | mvlsb
  | rgb565
  | gs4Hmsb
  | mhlsb
  | mhmsb
  | gs2Hmsb
  | gs8
  deriving DecidableEq

/-- What `framebuf_make_new` rounds the stride up to a multiple of -/
def FbFormat.unit : FbFormat → ℕ
  | .mvlsb | .rgb565 | .gs8 => 1
  | .mhlsb | .mhmsb => 8
  | .gs2Hmsb => 4
  | .gs4Hmsb => 2

/-- `mp_obj_framebuf_t` -/
structure Framebuf where
  width : ℕ
  height : ℕ
  stride : ℕ
  format : FbFormat
  width_lt : width < 2 ^ 16
  height_lt : height < 2 ^ 16
  stride_lt : stride < 2 ^ 16
  unit_dvd : format.unit ∣ stride

/-- The bytes from `fb->buf` on -/
abbrev FbMem := ℤ → BitVec 8

/-- A number as an `int` -/
def cInt (a : ℤ) : ℤ := a.bmod (2 ^ 32)

/-- `x + y * fb->stride` -/
def Framebuf.index (fb : Framebuf) (x y : ℤ) : ℤ := cInt (x + cInt (y * fb.stride))

/-- A byte is stored. -/
def storeByte (m : FbMem) (i : ℤ) (b : BitVec 8) : FbMem := Function.update m i b

/-- `(b & ~(0x01 << offset)) | ((col != 0) << offset)` of a byte -/
def storeBit (m : FbMem) (i : ℤ) (offset : ℕ) (col : BitVec 32) : FbMem :=
  storeByte m i ((m i &&& ~~~(1#8 <<< offset)) ||| ((if col ≠ 0#32 then 1#8 else 0#8) <<< offset))

/-- The bit of a pixel in its byte -/
def monoHorizOffset (fb : Framebuf) (x : ℤ) : ℕ :=
  if fb.format = .mhmsb then (x % 8).toNat else 7 - (x % 8).toNat

/-- `mono_horiz_setpixel` -/
def monoHorizSetpixel (fb : Framebuf) (x y : ℤ) (col : BitVec 32) (m : FbMem) : FbMem :=
  storeBit m (fb.index x y / 8) (monoHorizOffset fb x) col

/-- `mono_horiz_fill_rect`. In all the loops there is a number or a pointer that goes on in every
round. -/
def monoHorizFillRect (fb : Framebuf) (x y : ℤ) (w h : ℕ) (col : BitVec 32) (m : FbMem) : FbMem :=
  let advance : ℤ := (fb.stride / 8 : ℕ)
  ((fun (x, m) =>
    (x + 1, ((fun (b, m) => (b + advance, storeBit m b (monoHorizOffset fb x) col))^[h]
      (cInt (x / 8 + cInt (y * advance)), m)).2))^[w] (x, m)).2

/-- The index of the byte of a pixel in the format `MVLSB` -/
def mvlsbIndex (fb : Framebuf) (x y : ℤ) : ℤ := cInt (cInt (y / 8 * fb.stride) + x)

/-- `mvlsb_setpixel` -/
def mvlsbSetpixel (fb : Framebuf) (x y : ℤ) (col : BitVec 32) (m : FbMem) : FbMem :=
  storeBit m (mvlsbIndex fb x y) (y % 8).toNat col

/-- `mvlsb_fill_rect` -/
def mvlsbFillRect (fb : Framebuf) (x y : ℤ) (w h : ℕ) (col : BitVec 32) (m : FbMem) : FbMem :=
  ((fun (y, m) =>
    (y + 1, ((fun (b, m) => (b + 1, storeBit m b (y % 8).toNat col))^[w]
      (mvlsbIndex fb x y, m)).2))^[h] (y, m)).2

/-- A `uint16_t` is stored, its low byte first. -/
def storeHalf (m : FbMem) (i : ℤ) (col : BitVec 32) : FbMem :=
  storeByte (storeByte m (2 * i) (col.setWidth 8)) (2 * i + 1) ((col >>> 8).setWidth 8)

/-- `rgb565_setpixel` -/
def rgb565Setpixel (fb : Framebuf) (x y : ℤ) (col : BitVec 32) (m : FbMem) : FbMem :=
  storeHalf m (fb.index x y) col

/-- `rgb565_fill_rect` -/
def rgb565FillRect (fb : Framebuf) (x y : ℤ) (w h : ℕ) (col : BitVec 32) (m : FbMem) : FbMem :=
  ((fun (b, m) =>
    let (b, m) := (fun (b, m) => (b + 1, storeHalf m b col))^[w] (b, m)
    (b + (fb.stride - w), m))^[h] (fb.index x y, m)).2

/-- `gs2_hmsb_setpixel` -/
def gs2HmsbSetpixel (fb : Framebuf) (x y : ℤ) (col : BitVec 32) (m : FbMem) : FbMem :=
  let i := fb.index x y / 4
  let shift := 2 * (x % 4).toNat
  storeByte m i ((((col &&& 3#32).setWidth 8) <<< shift) ||| (m i &&& ~~~(3#8 <<< shift)))

/-- `gs2_hmsb_fill_rect` -/
def gs2HmsbFillRect (fb : Framebuf) (x y : ℤ) (w h : ℕ) (col : BitVec 32) (m : FbMem) : FbMem :=
  ((fun (xx, m) =>
    (xx + 1, ((fun (yy, m) => (yy + 1, gs2HmsbSetpixel fb xx yy col m))^[h] (y, m)).2))^[w]
      (x, m)).2

/-- The second pixel of a byte of `GS4_HMSB` -/
def storeOdd (m : FbMem) (i : ℤ) (col : BitVec 32) : FbMem :=
  storeByte m i ((col.setWidth 8 &&& 0x0f#8) ||| (m i &&& 0xf0#8))

/-- The first pixel of a byte of `GS4_HMSB` -/
def storeEven (m : FbMem) (i : ℤ) (col : BitVec 32) : FbMem :=
  storeByte m i ((col.setWidth 8 <<< 4) ||| (m i &&& 0x0f#8))

/-- `gs4_hmsb_setpixel` -/
def gs4HmsbSetpixel (fb : Framebuf) (x y : ℤ) (col : BitVec 32) (m : FbMem) : FbMem :=
  if x % 2 ≠ 0 then storeOdd m (fb.index x y / 2) col else storeEven m (fb.index x y / 2) col

/-- `memset` -/
def memsetBytes (i : ℤ) (b : BitVec 8) (n : ℕ) (m : FbMem) : FbMem :=
  ((fun (i, m) => (i + 1, storeByte m i b))^[n] (i, m)).2

/-- The pixels of a line of `gs4_hmsb_fill_rect` behind its first one if that is an odd one -/
def gs4HmsbPairs (oddX : Bool) (col : BitVec 32) (ww : ℕ) (pixelPair : ℤ) (m : FbMem) : ℤ × FbMem :=
  let m := memsetBytes pixelPair ((col.setWidth 8 <<< 4) ||| (col.setWidth 8 &&& 0x0f#8)) (ww / 2) m
  let pixelPair := pixelPair + (ww / 2 : ℕ)
  if ww % 2 = 1 then (if oddX then pixelPair else pixelPair + 1, storeEven m pixelPair col)
  else (pixelPair, m)

/-- A line of `gs4_hmsb_fill_rect` -/
def gs4HmsbLine (oddX : Bool) (col : BitVec 32) (w : ℕ) (pixelPair : ℤ) (m : FbMem) : ℤ × FbMem :=
  if oddX = true ∧ w > 0 then
    gs4HmsbPairs oddX col (w - 1) (pixelPair + 1) (storeOdd m pixelPair col)
  else gs4HmsbPairs oddX col w pixelPair m

/-- `gs4_hmsb_fill_rect` -/
def gs4HmsbFillRect (fb : Framebuf) (x y : ℤ) (w h : ℕ) (col : BitVec 32) (m : FbMem) : FbMem :=
  let pixelCountTillNextLine : ℤ := ((fb.stride : ℤ) - w) / 2
  ((fun (pixelPair, m) =>
    let (pixelPair, m) := gs4HmsbLine (decide (x % 2 = 1)) col w pixelPair m
    (pixelPair + pixelCountTillNextLine, m))^[h] (fb.index x y / 2, m)).2

/-- `gs8_setpixel` -/
def gs8Setpixel (fb : Framebuf) (x y : ℤ) (col : BitVec 32) (m : FbMem) : FbMem :=
  storeByte m (fb.index x y) (col.setWidth 8)

/-- `gs8_fill_rect` -/
def gs8FillRect (fb : Framebuf) (x y : ℤ) (w h : ℕ) (col : BitVec 32) (m : FbMem) : FbMem :=
  ((fun (pixel, m) => (pixel + fb.stride, memsetBytes pixel (col.setWidth 8) w m))^[h]
    (fb.index x y, m)).2

/-- `setpixel`, by the table `formats` -/
def setpixel (fb : Framebuf) (x y : ℤ) (col : BitVec 32) (m : FbMem) : FbMem :=
  match fb.format with
  | .mvlsb => mvlsbSetpixel fb x y col m
  | .rgb565 => rgb565Setpixel fb x y col m
  | .gs2Hmsb => gs2HmsbSetpixel fb x y col m
  | .gs4Hmsb => gs4HmsbSetpixel fb x y col m
  | .gs8 => gs8Setpixel fb x y col m
  | .mhlsb | .mhmsb => monoHorizSetpixel fb x y col m

/-- The `fill_rect` of a format -/
def formatFillRect (fb : Framebuf) (x y : ℤ) (w h : ℕ) (col : BitVec 32) (m : FbMem) : FbMem :=
  match fb.format with
  | .mvlsb => mvlsbFillRect fb x y w h col m
  | .rgb565 => rgb565FillRect fb x y w h col m
  | .gs2Hmsb => gs2HmsbFillRect fb x y w h col m
  | .gs4Hmsb => gs4HmsbFillRect fb x y w h col m
  | .gs8 => gs8FillRect fb x y w h col m
  | .mhlsb | .mhmsb => monoHorizFillRect fb x y w h col m

/-- `fill_rect` -/
def fillRect (fb : Framebuf) (x y w h : ℤ) (col : BitVec 32) (m : FbMem) : FbMem :=
  if h < 1 ∨ w < 1 ∨ cInt (x + w) ≤ 0 ∨ cInt (y + h) ≤ 0 ∨ y ≥ fb.height ∨ x ≥ fb.width then m
  else
    let xend := min (fb.width : ℤ) (cInt (x + w))
    let yend := min (fb.height : ℤ) (cInt (y + h))
    let x := max x 0
    let y := max y 0
    formatFillRect fb x y (xend - x).toNat (yend - y).toNat col m

/-! ### Places of bits -/

/-- The place that a bit of a byte belongs to -/
def FbFormat.placeOf (f : FbFormat) (i : ℤ) (k : ℕ) : ℤ :=
  match f with
  | .mvlsb | .mhmsb => 8 * i + k
  | .mhlsb => 8 * i + (7 - k)
  | .gs2Hmsb => 4 * i + (k / 2 : ℕ)
  | .gs4Hmsb => 2 * i + (1 - (k / 4 : ℕ))
  | .gs8 => i
  | .rgb565 => i / 2

/-- The bit that a color has there -/
def FbFormat.colorBit (f : FbFormat) (col : BitVec 32) (i : ℤ) (k : ℕ) : Bool :=
  match f with
  | .mvlsb | .mhmsb | .mhlsb => decide (col ≠ 0#32)
  | .gs2Hmsb => col.getLsbD (k % 2)
  | .gs4Hmsb => col.getLsbD (k % 4)
  | .gs8 => col.getLsbD k
  | .rgb565 => col.getLsbD (8 * (i % 2).toNat + k)

/-- The bits of some places have the color, and all other bits are as before. -/
def Painted (f : FbFormat) (col : BitVec 32) (places : ℤ → Prop) (m m' : FbMem) : Prop :=
  ∀ i k, k < 8 → (places (f.placeOf i k) → (m' i).getLsbD k = f.colorBit col i k) ∧
    (¬places (f.placeOf i k) → (m' i).getLsbD k = (m i).getLsbD k)

variable {f : FbFormat} {fb : Framebuf} {col : BitVec 32} {m m' m'' : FbMem} {P Q : ℤ → Prop}

theorem Painted.congr (h : Painted f col P m m') (hPQ : ∀ p, P p ↔ Q p) : Painted f col Q m m' := by
  intro i k hk
  rw [← hPQ]
  exact h i k hk

theorem Painted.none (hP : ∀ p, ¬P p) : Painted f col P m m :=
  fun _ _ _ => ⟨fun h => absurd h (hP _), fun _ => rfl⟩

theorem Painted.union (h : Painted f col P m m') (h' : Painted f col Q m' m'') :
    Painted f col (fun p => P p ∨ Q p) m m'' := by
  intro i k hk
  obtain ⟨h₁, h₂⟩ := h i k hk
  obtain ⟨h₁', h₂'⟩ := h' i k hk
  by_cases hQ : Q (f.placeOf i k)
  · exact ⟨fun _ => h₁' hQ, fun hnot => absurd (.inr hQ) hnot⟩
  · refine ⟨fun hor => ?_, fun hnot => ?_⟩
    · rw [h₂' hQ, h₁ (hor.resolve_right hQ)]
    · rw [h₂' hQ, h₂ fun hP => hnot (.inl hP)]

/-- **A loop** whose pointer goes on by `c` in every round -/
theorem painted_iterate (step : ℤ × FbMem → ℤ × FbMem) {R : ℕ → ℤ → Prop} (c : ℤ) (n : ℕ) (a : ℤ)
    (m : FbMem)
    (hstep : ∀ j < n, ∀ m, (step (a + j * c, m)).1 = a + j * c + c ∧
      Painted f col (R j) m (step (a + j * c, m)).2) :
    (step^[n] (a, m)).1 = a + n * c ∧
      Painted f col (fun p => ∃ j < n, R j p) m (step^[n] (a, m)).2 := by
  induction n with
  | zero =>
    refine ⟨by simp, .none fun p h => ?_⟩
    obtain ⟨j, hj, -⟩ := h
    exact absurd hj (Nat.not_lt_zero j)
  | succ n ih =>
    obtain ⟨hfst, hpaint⟩ := ih fun j hj => hstep j (hj.trans (Nat.lt_succ_self n))
    obtain ⟨hfst', hpaint'⟩ := hstep n (Nat.lt_succ_self n) (step^[n] (a, m)).2
    have heq : (a + n * c, (step^[n] (a, m)).2) = step^[n] (a, m) := Prod.ext hfst.symm rfl
    rw [heq] at hfst' hpaint'
    rw [Function.iterate_succ_apply']
    refine ⟨by rw [hfst']; push_cast; ring, (hpaint.union hpaint').congr fun p => ?_⟩
    constructor
    · rintro (⟨j, hj, h⟩ | h)
      · exact ⟨j, hj.trans (Nat.lt_succ_self n), h⟩
      · exact ⟨n, Nat.lt_succ_self n, h⟩
    · rintro ⟨j, hj, h⟩
      rcases Nat.lt_succ_iff_lt_or_eq.mp hj with hj | rfl
      · exact .inl ⟨j, hj, h⟩
      · exact .inr h

/-! ### Stores -/

/-- A byte that is stored paints some places if its bits do. -/
theorem painted_storeByte {i : ℤ} {b : BitVec 8}
    (hother : ∀ i' k, k < 8 → i' ≠ i → ¬P (f.placeOf i' k))
    (hbits : ∀ k, k < 8 → (P (f.placeOf i k) → b.getLsbD k = f.colorBit col i k) ∧
      (¬P (f.placeOf i k) → b.getLsbD k = (m i).getLsbD k)) :
    Painted f col P m (storeByte m i b) := by
  intro i' k hk
  by_cases hi : i' = i
  · subst hi
    rw [storeByte, Function.update_self]
    exact hbits k hk
  · rw [storeByte, Function.update_of_ne hi]
    exact ⟨fun hP => absurd hP (hother i' k hk hi), fun _ => rfl⟩

theorem getLsbD_storeBit (b : BitVec 8) (col : BitVec 32) {o k : ℕ} (hk : k < 8) :
    ((b &&& ~~~(1#8 <<< o)) ||| ((if col ≠ 0#32 then 1#8 else 0#8) <<< o)).getLsbD k =
      if k = o then decide (col ≠ 0#32) else b.getLsbD k := by
  have h1 : ∀ n < 8, (1#8).getLsbD n = decide (n = 0) := by decide
  simp only [BitVec.getLsbD_or, BitVec.getLsbD_and, BitVec.getLsbD_not, BitVec.getLsbD_shiftLeft,
    hk, decide_true, Bool.true_and, h1 (k - o) (by omega)]
  rcases lt_trichotomy k o with hlt | rfl | hgt
  · simp [hlt, hlt.ne]
  · by_cases hc : col = 0#32 <;> simp [hc]
  · have hsub : k - o ≠ 0 := by omega
    by_cases hc : col = 0#32 <;> simp [hc, hgt.not_gt, hgt.ne', hsub, h1 (k - o) (by omega)]

theorem getLsbD_gs2 (b : BitVec 8) (col : BitVec 32) {j k : ℕ} (hk : k < 8) :
    ((((col &&& 3#32).setWidth 8) <<< (2 * j)) ||| (b &&& ~~~(3#8 <<< (2 * j)))).getLsbD k =
      if k / 2 = j then col.getLsbD (k % 2) else b.getLsbD k := by
  have h3 : ∀ n < 8, (3#8).getLsbD n = decide (n < 2) ∧ (3#32).getLsbD n = decide (n < 2) := by
    decide
  obtain ⟨h, h'⟩ := h3 (k - 2 * j) (by omega)
  simp only [BitVec.getLsbD_or, BitVec.getLsbD_and, BitVec.getLsbD_not, BitVec.getLsbD_shiftLeft,
    BitVec.getLsbD_setWidth, hk, h, h', decide_true, Bool.true_and]
  by_cases hlt : k < 2 * j
  · rw [if_neg (by omega)]
    simp [hlt]
  · by_cases heq : k / 2 = j
    · have hmod : k - 2 * j = k % 2 := by omega
      rw [if_pos heq, hmod, decide_eq_false hlt, decide_eq_true (by omega : k % 2 < 8),
        decide_eq_true (by omega : k % 2 < 2)]
      simp
    · have hge : ¬k - 2 * j < 2 := by omega
      simp [heq, hlt, hge]

theorem getLsbD_odd (b : BitVec 8) (col : BitVec 32) {k : ℕ} (hk : k < 8) :
    ((col.setWidth 8 &&& 0x0f#8) ||| (b &&& 0xf0#8)).getLsbD k =
      if k < 4 then col.getLsbD k else b.getLsbD k := by
  simp only [BitVec.getLsbD_or, BitVec.getLsbD_and, BitVec.getLsbD_setWidth, hk, decide_true,
    Bool.true_and]
  match k, hk with
  | 0, _ | 1, _ | 2, _ | 3, _ | 4, _ | 5, _ | 6, _ | 7, _ => simp

theorem getLsbD_even (b : BitVec 8) (col : BitVec 32) {k : ℕ} (hk : k < 8) :
    ((col.setWidth 8 <<< 4) ||| (b &&& 0x0f#8)).getLsbD k =
      if k < 4 then b.getLsbD k else col.getLsbD (k - 4) := by
  simp only [BitVec.getLsbD_or, BitVec.getLsbD_and, BitVec.getLsbD_setWidth,
    BitVec.getLsbD_shiftLeft, hk, decide_true, Bool.true_and]
  match k, hk with
  | 0, _ | 1, _ | 2, _ | 3, _ | 4, _ | 5, _ | 6, _ | 7, _ => simp

/-- The formats of one bit for a pixel -/
def FbFormat.IsMono (f : FbFormat) : Prop := f = .mvlsb ∨ f = .mhmsb ∨ f = .mhlsb

theorem painted_storeBit (hf : f.IsMono) {o : ℕ} (ho : o < 8) (i : ℤ) :
    Painted f col (· = f.placeOf i o) m (storeBit m i o col) := by
  have hplace : ∀ (i' : ℤ) (k : ℕ), k < 8 → (f.placeOf i' k = f.placeOf i o ↔ i' = i ∧ k = o) := by
    intro i' k hk
    rcases hf with rfl | rfl | rfl <;> simp only [FbFormat.placeOf] <;> omega
  have hcolor : ∀ k, f.colorBit col i k = decide (col ≠ 0#32) := by
    intro k
    rcases hf with rfl | rfl | rfl <;> rfl
  refine painted_storeByte (fun i' k hk hne h => hne ((hplace i' k hk).mp h).1) fun k hk => ?_
  rw [getLsbD_storeBit (m i) col hk, hplace i k hk, hcolor]
  exact ⟨fun h => if_pos h.2, fun h => if_neg fun hko => h ⟨rfl, hko⟩⟩

theorem painted_monoHoriz (hf : fb.format = .mhlsb ∨ fb.format = .mhmsb) (x i : ℤ) :
    Painted fb.format col (· = 8 * i + x % 8) m (storeBit m i (monoHorizOffset fb x) col) := by
  rw [monoHorizOffset]
  rcases hf with hf | hf
  · rw [hf, if_neg (by decide)]
    refine (painted_storeBit (.inr (.inr rfl)) (by omega) i).congr fun p => ?_
    simp only [FbFormat.placeOf]
    omega
  · rw [hf, if_pos rfl]
    refine (painted_storeBit (.inr (.inl rfl)) (by omega) i).congr fun p => ?_
    simp only [FbFormat.placeOf]
    omega

theorem painted_storeOdd (i : ℤ) :
    Painted .gs4Hmsb col (· = 2 * i + 1) m (storeOdd m i col) := by
  refine painted_storeByte (fun i' k hk hne h => ?_) fun k hk => ?_
  · simp only [FbFormat.placeOf] at h
    omega
  · rw [getLsbD_odd (m i) col hk]
    simp only [FbFormat.placeOf, FbFormat.colorBit]
    refine ⟨fun h => ?_, fun h => if_neg (by omega)⟩
    rw [if_pos (by omega), Nat.mod_eq_of_lt (by omega)]

theorem painted_storeEven (i : ℤ) :
    Painted .gs4Hmsb col (· = 2 * i) m (storeEven m i col) := by
  refine painted_storeByte (fun i' k hk hne h => ?_) fun k hk => ?_
  · simp only [FbFormat.placeOf] at h
    omega
  · rw [getLsbD_even (m i) col hk]
    simp only [FbFormat.placeOf, FbFormat.colorBit]
    refine ⟨fun h => ?_, fun h => if_pos (by omega)⟩
    rw [if_neg (by omega), show k - 4 = k % 4 by omega]

theorem painted_storePair (i : ℤ) :
    Painted .gs4Hmsb col (fun p => p = 2 * i ∨ p = 2 * i + 1) m
      (storeByte m i ((col.setWidth 8 <<< 4) ||| (col.setWidth 8 &&& 0x0f#8))) := by
  refine painted_storeByte (fun i' k hk hne h => ?_) fun k hk => ?_
  · simp only [FbFormat.placeOf] at h
    omega
  · rw [getLsbD_even _ col hk]
    simp only [FbFormat.placeOf, FbFormat.colorBit]
    refine ⟨fun _ => ?_, fun h => absurd h (by omega)⟩
    split_ifs
    · rw [BitVec.getLsbD_setWidth, decide_eq_true hk, Bool.true_and, Nat.mod_eq_of_lt (by omega)]
    · rw [show k - 4 = k % 4 by omega]

theorem painted_gs8 (i : ℤ) : Painted .gs8 col (· = i) m (storeByte m i (col.setWidth 8)) := by
  refine painted_storeByte (fun i' k hk hne h => hne h) fun k hk => ⟨fun _ => ?_, fun h => ?_⟩
  · rw [BitVec.getLsbD_setWidth, decide_eq_true hk, Bool.true_and]
    rfl
  · exact absurd rfl h

theorem painted_storeHalf (i : ℤ) : Painted .rgb565 col (· = i) m (storeHalf m i col) := by
  intro i' k hk
  simp only [FbFormat.placeOf, FbFormat.colorBit, storeHalf, storeByte]
  by_cases hhigh : i' = 2 * i + 1
  · rw [hhigh, Function.update_self, BitVec.getLsbD_setWidth, BitVec.getLsbD_ushiftRight]
    refine ⟨fun _ => ?_, fun h => absurd (by omega) h⟩
    rw [decide_eq_true hk, Bool.true_and, show (2 * i + 1) % 2 = 1 by omega]
    rfl
  by_cases hlow : i' = 2 * i
  · rw [Function.update_of_ne hhigh, hlow, Function.update_self, BitVec.getLsbD_setWidth]
    refine ⟨fun _ => ?_, fun h => absurd (by omega) h⟩
    rw [decide_eq_true hk, Bool.true_and, show 2 * i % 2 = 0 by omega, Int.toNat_zero,
      Nat.mul_zero, Nat.zero_add]
  · rw [Function.update_of_ne hhigh, Function.update_of_ne hlow]
    exact ⟨fun h => absurd h (by omega), fun _ => rfl⟩

/-! ### One pixel -/

theorem cInt_of_bounds {a : ℤ} (h₁ : -2 ^ 31 ≤ a) (h₂ : a < 2 ^ 31) : cInt a = a :=
  Int.bmod_eq_of_le (by norm_num; omega) (by norm_num; omega)

/-- An `int` is the number with some multiple of `2 ^ 32` taken away. -/
theorem cInt_eq (a : ℤ) : ∃ q, cInt a = a - 2 ^ 32 * q := by
  obtain ⟨q, hq⟩ := Int.dvd_bmod_sub_self (x := a) (m := 2 ^ 32)
  have hq' : a.bmod (2 ^ 32) = a + ((2 ^ 32 : ℕ) : ℤ) * q := by
    rw [← hq]
    ring
  refine ⟨-q, ?_⟩
  rw [cInt, hq']
  push_cast
  ring

/-- The index has the low bits of `x`, as the stride is a multiple of the unit. -/
theorem index_emod (fb : Framebuf) (x y : ℤ) :
    fb.index x y % fb.format.unit = x % fb.format.unit := by
  obtain ⟨q, hq⟩ := cInt_eq (y * fb.stride)
  obtain ⟨q', hq'⟩ := cInt_eq (x + cInt (y * fb.stride))
  have h32 : (fb.format.unit : ℤ) ∣ 2 ^ 32 := by cases fb.format <;> decide
  obtain ⟨c, hc⟩ := h32
  obtain ⟨t, ht⟩ := fb.unit_dvd
  have heq : fb.index x y = x + fb.format.unit * (y * t - c * q - c * q') := by
    rw [Framebuf.index, hq', hq, ht, hc]
    push_cast
    ring
  rw [heq, Int.add_mul_emod_self_left]

/-- The place that `setpixel` computes -/
def Framebuf.wordPlace (fb : Framebuf) (x y : ℤ) : ℤ :=
  if fb.format = .mvlsb then 8 * mvlsbIndex fb x y + y % 8 else fb.index x y

/-- **`setpixel` paints one place.** -/
theorem painted_setpixel (fb : Framebuf) (x y : ℤ) (col : BitVec 32) (m : FbMem) :
    Painted fb.format col (· = fb.wordPlace x y) m (setpixel fb x y col m) := by
  have hmod := index_emod fb x y
  cases hf : fb.format with
  | mvlsb =>
    rw [setpixel, Framebuf.wordPlace, hf]
    refine (painted_storeBit (.inl rfl) (by omega) _).congr fun p => ?_
    simp only [FbFormat.placeOf, if_true]
    omega
  | rgb565 =>
    rw [setpixel, Framebuf.wordPlace, hf]
    exact painted_storeHalf _
  | gs8 =>
    rw [setpixel, Framebuf.wordPlace, hf]
    exact painted_gs8 _
  | gs2Hmsb =>
    rw [hf, FbFormat.unit] at hmod
    rw [setpixel, Framebuf.wordPlace, hf, if_neg (by decide)]
    refine painted_storeByte (fun i' k hk hne h => ?_) fun k hk => ?_
    · simp only [FbFormat.placeOf] at h
      omega
    · rw [getLsbD_gs2 _ col hk]
      simp only [FbFormat.placeOf, FbFormat.colorBit]
      exact ⟨fun h => if_pos (by omega), fun h => if_neg (by omega)⟩
  | gs4Hmsb =>
    rw [hf, FbFormat.unit] at hmod
    rw [setpixel, Framebuf.wordPlace, hf, if_neg (by decide)]
    simp only [gs4HmsbSetpixel]
    split_ifs with hodd
    · exact (painted_storeOdd _).congr fun p => by omega
    · exact (painted_storeEven _).congr fun p => by omega
  | mhlsb =>
    rw [hf, FbFormat.unit] at hmod
    rw [setpixel, Framebuf.wordPlace, hf, if_neg (by decide)]
    have h : Painted fb.format col _ m _ := painted_monoHoriz (.inl hf) x (fb.index x y / 8)
    rw [hf] at h
    exact h.congr fun p => by omega
  | mhmsb =>
    rw [hf, FbFormat.unit] at hmod
    rw [setpixel, Framebuf.wordPlace, hf, if_neg (by decide)]
    have h : Painted fb.format col _ m _ := painted_monoHoriz (.inr hf) x (fb.index x y / 8)
    rw [hf] at h
    exact h.congr fun p => by omega

/-! ### Rectangles -/

/-- The place of a pixel -/
def Framebuf.place (fb : Framebuf) (x y : ℤ) : ℤ :=
  if fb.format = .mvlsb then 8 * (y / 8 * fb.stride + x) + y % 8 else x + y * fb.stride

/-- The place that a pixel of a rectangle has for the loop of the format: the loops over single bits
compute it for every row or column, some start at the first pixel, and one computes it for every
pixel. -/
def Framebuf.fillPlace (fb : Framebuf) (x y : ℤ) (j j' : ℕ) : ℤ :=
  match fb.format with
  | .mvlsb | .mhlsb | .mhmsb => fb.place (x + j) (y + j')
  | .rgb565 | .gs4Hmsb | .gs8 => fb.index x y + j + j' * fb.stride
  | .gs2Hmsb => fb.index (x + j) (y + j')

/-- The places of a rectangle for the loop of the format -/
def Framebuf.FillPlaces (fb : Framebuf) (x y : ℤ) (w h : ℕ) (p : ℤ) : Prop :=
  ∃ j < w, ∃ j' < h, p = fb.fillPlace x y j j'

section Loops

variable {x y : ℤ} {w h : ℕ}

theorem painted_mvlsb (hf : fb.format = .mvlsb) (hx : 0 ≤ x) (hy : 0 ≤ y) (hxw : x + w ≤ fb.width)
    (hyh : y + h ≤ fb.height) :
    Painted .mvlsb col (fb.FillPlaces x y w h) m (mvlsbFillRect fb x y w h col m) := by
  have hindex : ∀ j < h, mvlsbIndex fb x (y + j) = (y + j) / 8 * fb.stride + x := by
    intro j hj
    have h₁ := fb.width_lt
    have h₂ := fb.height_lt
    have h₃ := fb.stride_lt
    have hmul : (y + j) / 8 * (fb.stride : ℤ) ≤ 8191 * 65535 :=
      mul_le_mul (by omega) (by omega) (by omega) (by omega)
    have hpos : 0 ≤ (y + j) / 8 * (fb.stride : ℤ) := mul_nonneg (by omega) (by omega)
    rw [mvlsbIndex, cInt_of_bounds (a := (y + j) / 8 * _) (by omega) (by omega),
      cInt_of_bounds (by omega) (by omega)]
  refine (painted_iterate _ (R := fun j' p => ∃ j < w, p = fb.place (x + j) (y + j')) 1 h y m
    fun j' hj' m => ⟨rfl, ?_⟩).2.congr fun p => ?_
  · refine (painted_iterate _ 1 w _ m fun j hj m =>
      ⟨rfl, (painted_storeBit (.inl rfl) (by omega) _).congr fun p => ?_⟩).2
    rw [mul_one, hindex j' hj', Framebuf.place, if_pos hf]
    simp only [FbFormat.placeOf]
    have hring : (y + j') / 8 * (fb.stride : ℤ) + x + j * 1 =
        (y + j') / 8 * fb.stride + (x + j) := by
      ring
    rw [hring]
    omega
  · simp only [Framebuf.FillPlaces, Framebuf.fillPlace, hf]
    constructor
    · rintro ⟨j', hj', j, hj, hp⟩
      exact ⟨j, hj, j', hj', hp⟩
    · rintro ⟨j, hj, j', hj', hp⟩
      exact ⟨j', hj', j, hj, hp⟩

theorem painted_monoHorizFillRect (hf : fb.format = .mhlsb ∨ fb.format = .mhmsb) (hx : 0 ≤ x)
    (hy : 0 ≤ y) (hxw : x + w ≤ fb.width) (hyh : y + h ≤ fb.height) (col : BitVec 32) (m : FbMem) :
    Painted fb.format col (fb.FillPlaces x y w h) m (monoHorizFillRect fb x y w h col m) := by
  have hplaces : fb.FillPlaces x y w h =
      fun p => ∃ j < w, ∃ j' < h, p = x + j + (y + j') * fb.stride := by
    funext p
    rcases hf with hf | hf <;>
      simp only [Framebuf.FillPlaces, Framebuf.fillPlace, Framebuf.place, hf, reduceCtorEq,
        if_false]
  have hstride : (fb.stride : ℤ) = 8 * (fb.stride / 8 : ℕ) := by
    have hdvd := fb.unit_dvd
    rcases hf with hf | hf <;> rw [hf, FbFormat.unit] at hdvd <;> omega
  have h₁ := fb.width_lt
  have h₂ := fb.height_lt
  have h₃ := fb.stride_lt
  rw [hplaces]
  refine (painted_iterate _ 1 w x m fun j hj m => ⟨rfl, ?_⟩).2
  refine (painted_iterate _ _ h _ m fun j' hj' m =>
    ⟨rfl, (painted_monoHoriz hf _ _).congr fun p => ?_⟩).2
  have hmul : y * ((fb.stride / 8 : ℕ) : ℤ) ≤ 65535 * 8191 :=
    mul_le_mul (by omega) (by omega) (by omega) (by omega)
  have hpos : 0 ≤ y * ((fb.stride / 8 : ℕ) : ℤ) := mul_nonneg hy (by omega)
  rw [mul_one, cInt_of_bounds (a := y * _) (by omega) (by omega),
    cInt_of_bounds (by omega) (by omega), hstride]
  have hring : x + j + (y + j') * (8 * ((fb.stride / 8 : ℕ) : ℤ)) =
      x + j + 8 * (y * (fb.stride / 8 : ℕ) + j' * (fb.stride / 8 : ℕ)) := by ring
  rw [hring]
  omega

/-- Lines that start at the first pixel of the rectangle and are one stride apart -/
theorem fillPlaces_lines (hf : fb.format = .rgb565 ∨ fb.format = .gs4Hmsb ∨ fb.format = .gs8)
    (p : ℤ) :
    (∃ j' < h, ∃ j < w, p = fb.index x y + (j' : ℕ) * fb.stride + (j : ℕ)) ↔
      fb.FillPlaces x y w h p := by
  have hplace : ∀ j j', fb.fillPlace x y j j' = fb.index x y + j' * fb.stride + j := by
    intro j j'
    rcases hf with hf | hf | hf <;> simp only [Framebuf.fillPlace, hf] <;> ring
  simp only [Framebuf.FillPlaces, hplace]
  constructor
  · rintro ⟨j', hj', j, hj, hp⟩
    exact ⟨j, hj, j', hj', hp⟩
  · rintro ⟨j, hj, j', hj', hp⟩
    exact ⟨j', hj', j, hj, hp⟩

theorem painted_rgb565 (hf : fb.format = .rgb565) :
    Painted .rgb565 col (fb.FillPlaces x y w h) m (rgb565FillRect fb x y w h col m) := by
  have hline : ∀ b m, ((fun (b, m) => (b + 1, storeHalf m b col))^[w] (b, m) : ℤ × FbMem).1 =
        b + w * 1 ∧
      Painted .rgb565 col (fun p => ∃ j < w, p = b + (j : ℕ) * 1) m
        ((fun (b, m) => (b + 1, storeHalf m b col))^[w] (b, m) : ℤ × FbMem).2 :=
    fun b m => painted_iterate _ 1 w b m fun j hj m => ⟨rfl, painted_storeHalf _⟩
  simp only [mul_one] at hline
  have hlines := painted_iterate
    (fun (b, m) =>
      let (b, m) := (fun (b, m) => (b + 1, storeHalf m b col))^[w] (b, m)
      (b + (fb.stride - w), m))
    (R := fun j' p => ∃ j < w, p = fb.index x y + (j' : ℕ) * fb.stride + (j : ℕ))
    (fb.stride : ℤ) h (fb.index x y) m fun j' hj' m => ⟨?_, (hline _ _).2⟩
  · exact hlines.2.congr (fillPlaces_lines (.inl hf))
  · simp only [(hline _ _).1]
    ring

theorem painted_memset {R : ℤ → ℤ → Prop} {b : BitVec 8}
    (hstore : ∀ i m, Painted f col (R i) m (storeByte m i b)) (i : ℤ) (n : ℕ) (m : FbMem) :
    Painted f col (fun p => ∃ j < n, R (i + (j : ℕ)) p) m (memsetBytes i b n m) := by
  have h := (painted_iterate (fun (i, m) => (i + 1, storeByte m i b))
    (R := fun j => R (i + j * 1)) 1 n i m fun j hj m => ⟨rfl, hstore (i + j * 1) m⟩).2
  exact h.congr fun p => by simp only [mul_one]

theorem painted_gs8FillRect (hf : fb.format = .gs8) :
    Painted .gs8 col (fb.FillPlaces x y w h) m (gs8FillRect fb x y w h col m) :=
  (painted_iterate (fun (pixel, m) => (pixel + fb.stride, memsetBytes pixel (col.setWidth 8) w m))
    (R := fun j' p => ∃ j < w, p = fb.index x y + (j' : ℕ) * fb.stride + (j : ℕ))
    (fb.stride : ℤ) h (fb.index x y) m fun _ _ m =>
      ⟨rfl, painted_memset (fun i _ => painted_gs8 i) _ w m⟩).2.congr
    (fillPlaces_lines (.inr (.inr hf)))

/-- Pairs of pixels, and one more if their number is odd -/
theorem painted_gs4HmsbPairs (col : BitVec 32) (oddX : Bool) (ww : ℕ) (i : ℤ) (m : FbMem) :
    (gs4HmsbPairs oddX col ww i m).1 =
        i + (ww / 2 : ℕ) + (if ww % 2 = 1 ∧ oddX = false then 1 else 0) ∧
      Painted .gs4Hmsb col (fun p => 2 * i ≤ p ∧ p < 2 * i + ww) m
        (gs4HmsbPairs oddX col ww i m).2 := by
  have hpairs : Painted .gs4Hmsb col (fun p => 2 * i ≤ p ∧ p < 2 * i + 2 * (ww / 2 : ℕ)) m
      (memsetBytes i ((col.setWidth 8 <<< 4) ||| (col.setWidth 8 &&& 0x0f#8)) (ww / 2) m) := by
    refine (painted_memset (fun i _ => painted_storePair i) i (ww / 2) m).congr fun p => ?_
    constructor
    · rintro ⟨j, hj, hp⟩
      omega
    · intro hp
      exact ⟨((p - 2 * i) / 2).toNat, by omega, by omega⟩
  rw [gs4HmsbPairs]
  by_cases hodd : ww % 2 = 1
  · simp only [hodd, if_true, true_and]
    refine ⟨?_, (hpairs.union (painted_storeEven _)).congr fun p => by omega⟩
    cases oddX <;> simp
  · simp only [hodd, false_and, if_false, add_zero]
    exact ⟨trivial, hpairs.congr fun p => by omega⟩

/-- A line from its first pixel on. The next one starts half a stride of bytes further, whether
there are half pairs at its ends or not. -/
theorem painted_gs4HmsbLine (col : BitVec 32) (oddX : Bool) (w : ℕ) (i : ℤ) (m : FbMem) {stride : ℕ}
    (hstride : 2 ∣ stride) :
    (gs4HmsbLine oddX col w i m).1 + ((stride : ℤ) - w) / 2 = i + (stride / 2 : ℕ) ∧
      Painted .gs4Hmsb col (fun p => ∃ j < w, p = 2 * i + (if oddX then 1 else 0) + (j : ℕ)) m
        (gs4HmsbLine oddX col w i m).2 := by
  have hrange : ∀ p a : ℤ, (∃ j < w, p = a + (j : ℕ)) ↔ a ≤ p ∧ p < a + w := by
    intro p a
    constructor
    · rintro ⟨j, hj, hp⟩
      omega
    · intro hp
      exact ⟨(p - a).toNat, by omega, by omega⟩
  simp only [hrange]
  rw [gs4HmsbLine]
  cases oddX with
  | false =>
    obtain ⟨hfst, hpaint⟩ := painted_gs4HmsbPairs col false w i m
    simp only [Bool.false_eq_true, false_and, if_false, add_zero, and_true, hfst]
    exact ⟨by split_ifs <;> omega, hpaint⟩
  | true =>
    by_cases hw : w > 0
    · obtain ⟨hfst, hpaint⟩ := painted_gs4HmsbPairs col true (w - 1) (i + 1) (storeOdd m i col)
      simp only [hw, and_self, if_true, hfst]
      refine ⟨by simp only [Bool.true_eq_false, and_false, if_false]; omega, ?_⟩
      exact ((painted_storeOdd i).union hpaint).congr fun p => by omega
    · obtain ⟨hfst, hpaint⟩ := painted_gs4HmsbPairs col true w i m
      simp only [hw, and_false, if_false, if_true, hfst]
      refine ⟨by simp only [Bool.true_eq_false, and_false, if_false]; omega, ?_⟩
      exact hpaint.congr fun p => by omega

theorem painted_gs4HmsbFillRect (hf : fb.format = .gs4Hmsb) :
    Painted .gs4Hmsb col (fb.FillPlaces x y w h) m (gs4HmsbFillRect fb x y w h col m) := by
  have hstride : 2 ∣ fb.stride := by
    have hdvd := fb.unit_dvd
    rwa [hf] at hdvd
  have hmod := index_emod fb x y
  rw [hf, FbFormat.unit] at hmod
  refine (painted_iterate
    (fun (pixelPair, m) =>
      let (pixelPair, m) := gs4HmsbLine (decide (x % 2 = 1)) col w pixelPair m
      (pixelPair + ((fb.stride : ℤ) - w) / 2, m))
    (R := fun j' p => ∃ j < w, p = fb.index x y + (j' : ℕ) * fb.stride + (j : ℕ))
    ((fb.stride / 2 : ℕ) : ℤ) h (fb.index x y / 2) m fun j' hj' m => ?_).2.congr
    (fillPlaces_lines (.inr (.inl hf)))
  · obtain ⟨hfst, hpaint⟩ := painted_gs4HmsbLine col (decide (x % 2 = 1)) w
      (fb.index x y / 2 + j' * (fb.stride / 2 : ℕ)) m hstride
    refine ⟨hfst, hpaint.congr fun p => ?_⟩
    have hstart : 2 * (fb.index x y / 2 + j' * ((fb.stride / 2 : ℕ) : ℤ)) +
        (if decide (x % 2 = 1) = true then 1 else 0) = fb.index x y + j' * fb.stride := by
      have hmul : 2 * (j' * ((fb.stride / 2 : ℕ) : ℤ)) = j' * fb.stride := by
        rw [mul_left_comm]
        congr 1
        omega
      simp only [decide_eq_true_eq, mul_add, hmul]
      split_ifs <;> omega
    rw [hstart]

theorem painted_gs2 (hf : fb.format = .gs2Hmsb) :
    Painted .gs2Hmsb col (fb.FillPlaces x y w h) m (gs2HmsbFillRect fb x y w h col m) := by
  have hpixel : ∀ xx yy m,
      Painted .gs2Hmsb col (· = fb.index xx yy) m (gs2HmsbSetpixel fb xx yy col m) := by
    intro xx yy m
    have h := painted_setpixel fb xx yy col m
    rw [hf, setpixel, hf, Framebuf.wordPlace, if_neg (by rw [hf]; decide)] at h
    exact h
  refine (painted_iterate _ (R := fun j p => ∃ j' < h, p = fb.index (x + j) (y + j')) 1 w x m
    fun j hj m => ⟨rfl, ?_⟩).2.congr fun p => ?_
  · refine (painted_iterate _ 1 h y m fun j' hj' m => ⟨rfl, ?_⟩).2
    simp only [mul_one]
    exact hpixel _ _ m
  · simp only [Framebuf.FillPlaces, Framebuf.fillPlace, hf]

/-- **What the loop of a format paints** -/
theorem painted_formatFillRect (hx : 0 ≤ x) (hy : 0 ≤ y) (hxw : x + w ≤ fb.width)
    (hyh : y + h ≤ fb.height) :
    Painted fb.format col (fb.FillPlaces x y w h) m (formatFillRect fb x y w h col m) := by
  rw [formatFillRect]
  cases hf : fb.format with
  | mvlsb => exact painted_mvlsb hf hx hy hxw hyh
  | rgb565 => exact painted_rgb565 hf
  | gs2Hmsb => exact painted_gs2 hf
  | gs4Hmsb => exact painted_gs4HmsbFillRect hf
  | gs8 => exact painted_gs8FillRect hf
  | mhlsb =>
    have h := painted_monoHorizFillRect (.inl hf) hx hy hxw hyh col m
    rwa [hf] at h
  | mhmsb =>
    have h := painted_monoHorizFillRect (.inr hf) hx hy hxw hyh col m
    rwa [hf] at h

end Loops

/-! ### Clipping -/

/-- A pixel is in the frame. -/
def Framebuf.Has (fb : Framebuf) (x y : ℤ) : Prop :=
  0 ≤ x ∧ x < fb.width ∧ 0 ≤ y ∧ y < fb.height

instance Framebuf.decidableHas (fb : Framebuf) (x y : ℤ) : Decidable (fb.Has x y) :=
  inferInstanceAs (Decidable (_ ∧ _ ∧ _ ∧ _))

/-- A pixel is in a rectangle and in the frame. -/
def Framebuf.InRect (fb : Framebuf) (x y w h px py : ℤ) : Prop :=
  x ≤ px ∧ px < x + w ∧ y ≤ py ∧ py < y + h ∧ fb.Has px py

/-- The places of the pixels of a rectangle in the frame -/
def Framebuf.RectPlaces (fb : Framebuf) (x y w h p : ℤ) : Prop :=
  ∃ px py, fb.InRect x y w h px py ∧ p = fb.place px py

/-- The places that the loop of the format computes for a rectangle in the frame are `int`s. -/
def Framebuf.FillFits (fb : Framebuf) (x y xend yend : ℤ) : Prop :=
  match fb.format with
  | .mvlsb | .mhlsb | .mhmsb => True
  | .rgb565 | .gs4Hmsb | .gs8 => x + y * fb.stride < 2 ^ 31
  | .gs2Hmsb => xend - 1 + (yend - 1) * fb.stride < 2 ^ 31

/-- The values of an `int` -/
def IsInt (a : ℤ) : Prop := -2 ^ 31 ≤ a ∧ a < 2 ^ 31

theorem exists_bit (f : FbFormat) (p : ℤ) : ∃ i k, k < 8 ∧ f.placeOf i k = p := by
  cases f with
  | mvlsb => exact ⟨p / 8, (p % 8).toNat, by omega, by simp only [FbFormat.placeOf]; omega⟩
  | mhmsb => exact ⟨p / 8, (p % 8).toNat, by omega, by simp only [FbFormat.placeOf]; omega⟩
  | mhlsb => exact ⟨p / 8, 7 - (p % 8).toNat, by omega, by simp only [FbFormat.placeOf]; omega⟩
  | gs2Hmsb => exact ⟨p / 4, 2 * (p % 4).toNat, by omega, by simp only [FbFormat.placeOf]; omega⟩
  | gs4Hmsb => exact ⟨p / 2, 4 - 4 * (p % 2).toNat, by omega,
    by simp only [FbFormat.placeOf]; omega⟩
  | gs8 => exact ⟨p, 0, by omega, rfl⟩
  | rgb565 => exact ⟨2 * p, 0, by omega, by simp only [FbFormat.placeOf]; omega⟩

/-- If a place is missing, there is a memory in which this is seen. -/
theorem not_painted_of_missing {F : FbMem → FbMem} (hF : ∀ m, Painted f col Q m (F m)) {p : ℤ}
    (hp : P p) (hmissing : ¬Q p) : ¬∀ m, Painted f col P m (F m) := by
  intro hall
  obtain ⟨i, k, hk, rfl⟩ := exists_bit f p
  have h := (hall fun _ => if f.colorBit col i k then 0#8 else BitVec.allOnes 8) i k hk
  rw [((hF _) i k hk).2 hmissing] at h
  have hbit := h.1 hp
  cases hcolor : f.colorBit col i k with
  | true => simp [hcolor] at hbit
  | false =>
    rw [hcolor, if_neg Bool.false_ne_true, BitVec.getLsbD_allOnes, decide_eq_true hk] at hbit
    exact Bool.noConfusion hbit

variable {x y : ℤ}

theorem index_eq_cInt (fb : Framebuf) (x y : ℤ) : fb.index x y = cInt (x + y * fb.stride) := by
  rw [Framebuf.index, cInt, cInt, cInt, Int.add_bmod_bmod]

theorem place_bounds (h : fb.Has x y) : 0 ≤ x + y * fb.stride ∧ x + y * fb.stride < 2 ^ 32 := by
  obtain ⟨hx₀, hx, hy₀, hy⟩ := h
  have h₁ := fb.width_lt
  have h₂ := fb.height_lt
  have h₃ := fb.stride_lt
  have hmul : y * (fb.stride : ℤ) ≤ 65535 * 65535 :=
    mul_le_mul (by omega) (by omega) (by omega) (by omega)
  have hpos : 0 ≤ y * (fb.stride : ℤ) := mul_nonneg hy₀ (by omega)
  omega

theorem index_eq (h : fb.Has x y) : fb.index x y =
    if x + y * fb.stride < 2 ^ 31 then x + y * fb.stride else x + y * fb.stride - 2 ^ 32 := by
  obtain ⟨h₀, h₁⟩ := place_bounds h
  rw [index_eq_cInt]
  split_ifs with hlt
  · exact cInt_of_bounds (by omega) hlt
  · rw [cInt, ← Int.sub_bmod_right]
    exact cInt_of_bounds (by push_cast; omega) (by push_cast; omega)

section Clip

variable {w h : ℕ}

/-- The places of a rectangle that is in the frame -/
theorem rectPlaces_iff (hx : 0 ≤ x) (hy : 0 ≤ y) (hxw : x + w ≤ fb.width) (hyh : y + h ≤ fb.height)
    (p : ℤ) : fb.RectPlaces x y w h p ↔
      ∃ j < w, ∃ j' < h, p = fb.place (x + (j : ℕ)) (y + (j' : ℕ)) := by
  constructor
  · rintro ⟨px, py, ⟨h₁, h₂, h₃, h₄, -⟩, rfl⟩
    refine ⟨(px - x).toNat, by omega, (py - y).toNat, by omega, ?_⟩
    congr 1 <;> omega
  · rintro ⟨j, hj, j', hj', rfl⟩
    exact ⟨_, _, ⟨by omega, by omega, by omega, by omega, by omega, by omega, by omega, by omega⟩,
      rfl⟩

/-- The formats whose places are not computed bit by bit -/
theorem place_of_ne (hf : fb.format ≠ .mvlsb) (x y : ℤ) : fb.place x y = x + y * fb.stride :=
  if_neg hf

theorem fillPlace_eq (hx : 0 ≤ x) (hy : 0 ≤ y) (hxw : x + w ≤ fb.width) (hyh : y + h ≤ fb.height)
    (hfits : fb.FillFits x y (x + w) (y + h)) {j j' : ℕ} (hj : j < w) (hj' : j' < h) :
    fb.fillPlace x y j j' = fb.place (x + j) (y + j') := by
  have hlines (hne : fb.format ≠ .mvlsb) (hlt : x + y * fb.stride < 2 ^ 31) :
      fb.index x y + j + j' * fb.stride = fb.place (x + j) (y + j') := by
    rw [index_eq ⟨hx, by omega, hy, by omega⟩, if_pos hlt, place_of_ne hne]
    ring
  cases hf : fb.format with
  | mvlsb => simp only [Framebuf.fillPlace, hf]
  | mhlsb => simp only [Framebuf.fillPlace, hf]
  | mhmsb => simp only [Framebuf.fillPlace, hf]
  | rgb565 =>
    simp only [Framebuf.FillFits, hf] at hfits
    simp only [Framebuf.fillPlace, hf, hlines (by rw [hf]; decide) hfits]
  | gs4Hmsb =>
    simp only [Framebuf.FillFits, hf] at hfits
    simp only [Framebuf.fillPlace, hf, hlines (by rw [hf]; decide) hfits]
  | gs8 =>
    simp only [Framebuf.FillFits, hf] at hfits
    simp only [Framebuf.fillPlace, hf, hlines (by rw [hf]; decide) hfits]
  | gs2Hmsb =>
    simp only [Framebuf.FillFits, hf] at hfits
    -- no place is behind the last one
    have hmul : (y + j') * (fb.stride : ℤ) ≤ (y + h - 1) * fb.stride :=
      mul_le_mul_of_nonneg_right (by omega) (by omega)
    simp only [Framebuf.fillPlace, hf]
    rw [index_eq ⟨by omega, by omega, by omega, by omega⟩, if_pos (by omega),
      place_of_ne (by rw [hf]; decide)]

theorem fillPlaces_iff (hx : 0 ≤ x) (hy : 0 ≤ y) (hxw : x + w ≤ fb.width) (hyh : y + h ≤ fb.height)
    (hfits : fb.FillFits x y (x + w) (y + h)) (p : ℤ) :
    fb.FillPlaces x y w h p ↔ fb.RectPlaces x y w h p := by
  rw [rectPlaces_iff hx hy hxw hyh]
  constructor
  · rintro ⟨j, hj, j', hj', rfl⟩
    exact ⟨j, hj, j', hj', fillPlace_eq hx hy hxw hyh hfits hj hj'⟩
  · rintro ⟨j, hj, j', hj', rfl⟩
    exact ⟨j, hj, j', hj', (fillPlace_eq hx hy hxw hyh hfits hj hj').symm⟩

/-- **Where a place is not an `int`**, the first pixel is missing, or the last one in the format
that computes each place. -/
theorem fillPlaces_missing (hx : 0 ≤ x) (hy : 0 ≤ y) (hxw : x + w ≤ fb.width)
    (hyh : y + h ≤ fb.height) (hw : 0 < w) (hh : 0 < h) (hfits : ¬fb.FillFits x y (x + w) (y + h)) :
    ∃ p, fb.RectPlaces x y w h p ∧ ¬fb.FillPlaces x y w h p := by
  have hfirst (hplace : ∀ j j', fb.fillPlace x y j j' = fb.index x y + j + j' * fb.stride)
      (hge : ¬x + y * (fb.stride : ℤ) < 2 ^ 31) (hne : fb.format ≠ .mvlsb) :
      ∃ p, fb.RectPlaces x y w h p ∧ ¬fb.FillPlaces x y w h p := by
    refine ⟨fb.place x y,
      ⟨x, y, ⟨le_refl x, by omega, le_refl y, by omega, hx, by omega, hy, by omega⟩,
      rfl⟩, ?_⟩
    rintro ⟨j, hj, j', hj', hp⟩
    rw [hplace, index_eq ⟨hx, by omega, hy, by omega⟩, if_neg hge, place_of_ne hne] at hp
    have h₁ := fb.width_lt
    have h₂ := fb.height_lt
    have h₃ := fb.stride_lt
    have hmul : (j' : ℤ) * fb.stride ≤ 65535 * 65535 :=
      mul_le_mul (by omega) (by omega) (by omega) (by omega)
    omega
  cases hf : fb.format with
  | mvlsb => exact absurd (by simp only [Framebuf.FillFits, hf]) hfits
  | mhlsb => exact absurd (by simp only [Framebuf.FillFits, hf]) hfits
  | mhmsb => exact absurd (by simp only [Framebuf.FillFits, hf]) hfits
  | rgb565 =>
    simp only [Framebuf.FillFits, hf] at hfits
    exact hfirst (fun j j' => by simp only [Framebuf.fillPlace, hf]) hfits (by rw [hf]; decide)
  | gs4Hmsb =>
    simp only [Framebuf.FillFits, hf] at hfits
    exact hfirst (fun j j' => by simp only [Framebuf.fillPlace, hf]) hfits (by rw [hf]; decide)
  | gs8 =>
    simp only [Framebuf.FillFits, hf] at hfits
    exact hfirst (fun j j' => by simp only [Framebuf.fillPlace, hf]) hfits (by rw [hf]; decide)
  | gs2Hmsb =>
    simp only [Framebuf.FillFits, hf] at hfits
    refine ⟨fb.place (x + w - 1) (y + h - 1),
      ⟨_, _, ⟨by omega, by omega, by omega, by omega, by omega,
      by omega, by omega, by omega⟩, rfl⟩, ?_⟩
    rintro ⟨j, hj, j', hj', hp⟩
    have hhas : fb.Has (x + j) (y + j') := ⟨by omega, by omega, by omega, by omega⟩
    have hlt : fb.index (x + j) (y + j') < 2 ^ 31 := by
      have hbounds := place_bounds hhas
      rw [index_eq hhas]
      split_ifs <;> omega
    rw [place_of_ne (by rw [hf]; decide)] at hp
    simp only [Framebuf.fillPlace, hf] at hp
    omega

end Clip

/-- **`setpixel` stores the color in the place of the pixel**, if the place is an `int`. -/
theorem painted_setpixel_place (h : fb.Has x y) (hfits : fb.format = .mvlsb ∨ fb.place x y < 2 ^ 31)
    (col : BitVec 32) (m : FbMem) :
    Painted fb.format col (· = fb.place x y) m (setpixel fb x y col m) := by
  have hplace : fb.wordPlace x y = fb.place x y := by
    obtain ⟨hx₀, hx, hy₀, hy⟩ := h
    rw [Framebuf.wordPlace, Framebuf.place]
    split_ifs with hf
    · have h₁ := fb.width_lt
      have h₂ := fb.height_lt
      have h₃ := fb.stride_lt
      have hmul : y / 8 * (fb.stride : ℤ) ≤ 8191 * 65535 :=
        mul_le_mul (by omega) (by omega) (by omega) (by omega)
      have hpos : 0 ≤ y / 8 * (fb.stride : ℤ) := mul_nonneg (by omega) (by omega)
      rw [mvlsbIndex, cInt_of_bounds (a := y / 8 * _) (by omega) (by omega),
        cInt_of_bounds (by omega) (by omega)]
    · have hlt := hfits.resolve_left hf
      rw [place_of_ne hf] at hlt
      rw [index_eq ⟨hx₀, hx, hy₀, hy⟩, if_pos hlt]
  rw [← hplace]
  exact painted_setpixel fb x y col m

section FillRect

variable {w h : ℤ}

/-- The end of a rectangle that is not an `int` seems to be left of the frame or above it. -/
theorem cInt_add_le (hx : IsInt x) (hw : IsInt w) (hover : ¬x + w < 2 ^ 31) : cInt (x + w) ≤ 0 := by
  obtain ⟨hx₁, hx₂⟩ := hx
  obtain ⟨hw₁, hw₂⟩ := hw
  rw [cInt, ← Int.sub_bmod_right, ← cInt,
    cInt_of_bounds (by push_cast; omega) (by push_cast; omega)]
  push_cast
  omega

theorem cInt_add_eq (hx : IsInt x) (hw : 1 ≤ w) (hfits : x + w < 2 ^ 31) : cInt (x + w) = x + w :=
  cInt_of_bounds (by have := hx.1; omega) hfits

/-- What is in the frame of a rectangle whose ends are `int`s -/
theorem rectPlaces_clip (fb : Framebuf) (hin : ∃ px py, fb.InRect x y w h px py) (p : ℤ) :
    fb.RectPlaces x y w h p ↔ fb.RectPlaces (max x 0) (max y 0)
      ((min (fb.width : ℤ) (x + w) - max x 0).toNat : ℕ)
      ((min (fb.height : ℤ) (y + h) - max y 0).toNat : ℕ) p := by
  obtain ⟨px, py, h₁, h₂, h₃, h₄, h₅, h₆, h₇, h₈⟩ := hin
  refine exists_congr fun qx => exists_congr fun qy => and_congr_left fun _ => ?_
  simp only [Framebuf.InRect, Framebuf.Has]
  omega

theorem fillRect_eq (fb : Framebuf) (hx : IsInt x) (hy : IsInt y) (hw : IsInt w) (hh : IsInt h)
    (col : BitVec 32) (m : FbMem) :
    ((∃ px py, fb.InRect x y w h px py) ∧ x + w < 2 ^ 31 ∧ y + h < 2 ^ 31 →
      fillRect fb x y w h col m = formatFillRect fb (max x 0) (max y 0)
        (min (fb.width : ℤ) (x + w) - max x 0).toNat (min (fb.height : ℤ) (y + h) - max y 0).toNat
        col m) ∧
    (¬((∃ px py, fb.InRect x y w h px py) ∧ x + w < 2 ^ 31 ∧ y + h < 2 ^ 31) →
      Painted fb.format col (fun _ => False) m (fillRect fb x y w h col m)) := by
  constructor
  · rintro ⟨⟨px, py, h₁, h₂, h₃, h₄, h₅, h₆, h₇, h₈⟩, hxw, hyh⟩
    rw [fillRect, cInt_add_eq hx (by omega) hxw, cInt_add_eq hy (by omega) hyh, if_neg (by omega)]
  · intro hnot
    rw [fillRect]
    split_ifs with hearly
    · exact .none fun _ => id
    simp only [not_or, not_lt, not_le] at hearly
    obtain ⟨hh₁, hw₁, hcx, hcy, hy₁, hx₁⟩ := hearly
    have hxw : x + w < 2 ^ 31 := not_not.mp fun hover =>
      absurd (cInt_add_le hx hw hover) (not_le.mpr hcx)
    have hyh : y + h < 2 ^ 31 := not_not.mp fun hover =>
      absurd (cInt_add_le hy hh hover) (not_le.mpr hcy)
    rw [cInt_add_eq hx hw₁ hxw] at hcx ⊢
    rw [cInt_add_eq hy hh₁ hyh] at hcy ⊢
    -- the rectangle reaches over a frame without width or height
    have hempty : fb.width = 0 ∨ fb.height = 0 := by
      by_contra hpos
      refine hnot ⟨⟨max x 0, max y 0, ?_⟩, hxw, hyh⟩
      simp only [Framebuf.InRect, Framebuf.Has]
      omega
    refine (painted_formatFillRect (le_max_right _ _) (le_max_right _ _) (by omega)
      (by omega)).congr fun p => iff_of_false ?_ id
    rintro ⟨j, hj, j', hj', -⟩
    omega

/-- **`fill_rect` fills exactly the pixels of the rectangle that are in the frame**, if there are
any, exactly if the ends of the rectangle and the places that are computed are `int`s. The pixels
get what `setpixel` stores. -/
theorem fillRect_right_iff (fb : Framebuf) (col : BitVec 32) (hx : IsInt x) (hy : IsInt y)
    (hw : IsInt w) (hh : IsInt h) :
    (∀ px py, fb.Has px py → fb.format = .mvlsb ∨ fb.place px py < 2 ^ 31 → ∀ m,
      Painted fb.format col (· = fb.place px py) m (setpixel fb px py col m)) ∧
    ((∀ m, Painted fb.format col (fb.RectPlaces x y w h) m (fillRect fb x y w h col m)) ↔
      (∀ px py, ¬fb.InRect x y w h px py) ∨
        (x + w < 2 ^ 31 ∧ y + h < 2 ^ 31 ∧ fb.FillFits (max x 0) (max y 0)
          (min (fb.width : ℤ) (x + w)) (min (fb.height : ℤ) (y + h)))) := by
  refine ⟨fun px py hhas hfits m => painted_setpixel_place hhas hfits col m, ?_⟩
  have heq := fun m => fillRect_eq fb hx hy hw hh col m
  by_cases hin : ∃ px py, fb.InRect x y w h px py
  · obtain ⟨px, py, hpx⟩ := hin
    by_cases hends : x + w < 2 ^ 31 ∧ y + h < 2 ^ 31
    · have hfill := fun m => (heq m).1 ⟨⟨px, py, hpx⟩, hends⟩
      simp only [hfill]
      obtain ⟨h₁, h₂, h₃, h₄, h₅, h₆, h₇, h₈⟩ := hpx
      have hX : 0 ≤ max x 0 := le_max_right _ _
      have hY : 0 ≤ max y 0 := le_max_right _ _
      have hW : max x 0 + ((min (fb.width : ℤ) (x + w) - max x 0).toNat : ℕ) =
        min (fb.width : ℤ) (x + w) := by omega
      have hH : max y 0 + ((min (fb.height : ℤ) (y + h) - max y 0).toNat : ℕ) =
        min (fb.height : ℤ) (y + h) := by omega
      have hXW := hW.trans_le (min_le_left _ _)
      have hYH := hH.trans_le (min_le_left _ _)
      have hpaint (m : FbMem) : Painted fb.format col _ m _ := painted_formatFillRect hX hY hXW hYH
      have hclip := rectPlaces_clip fb ⟨px, py, h₁, h₂, h₃, h₄, h₅, h₆, h₇, h₈⟩
      constructor
      · intro hright
        refine .inr ⟨hends.1, hends.2, by_contra fun hfits => ?_⟩
        rw [← hW, ← hH] at hfits
        obtain ⟨p, hp, hmissing⟩ := fillPlaces_missing hX hY hXW hYH (by omega) (by omega) hfits
        exact not_painted_of_missing hpaint ((hclip p).mpr hp) hmissing hright
      · rintro (hnone | ⟨-, -, hfits⟩) m
        · exact absurd ⟨h₁, h₂, h₃, h₄, h₅, h₆, h₇, h₈⟩ (hnone px py)
        · rw [← hW, ← hH] at hfits
          exact (hpaint m).congr fun p =>
            (fillPlaces_iff hX hY hXW hYH hfits p).trans (hclip p).symm
    · refine iff_of_false ?_ ?_
      · exact not_painted_of_missing (fun m => (heq m).2 fun h => hends h.2) ⟨px, py, hpx, rfl⟩ id
      · rintro (hnone | ⟨hxw, hyh, -⟩)
        · exact hnone px py hpx
        · exact hends ⟨hxw, hyh⟩
  · refine iff_of_true (fun m => ?_) (.inl fun px py hpx => hin ⟨px, py, hpx⟩)
    refine ((heq m).2 fun h => hin h.1).congr fun p => iff_of_false id ?_
    rintro ⟨px, py, hpx, -⟩
    exact hin ⟨px, py, hpx⟩

end FillRect

/-- A display of 128 by 64 pixels with eight pixels in a byte -/
def fbDisplay : Framebuf := ⟨128, 64, 128, .mvlsb, by decide, by decide, by decide, by decide⟩

/-- A rectangle that is partly left of it -/
theorem fillRect_right_display :
    IsInt (-2) ∧ IsInt 3 ∧ IsInt 10 ∧
      ∀ m, Painted .mvlsb 1#32 (fbDisplay.RectPlaces (-2) 3 10 10) m
        (fillRect fbDisplay (-2) 3 10 10 1#32 m) := by
  have h₂ : IsInt (-2) := ⟨by decide, by decide⟩
  have h₃ : IsInt 3 := ⟨by decide, by decide⟩
  have h₁₀ : IsInt 10 := ⟨by decide, by decide⟩
  exact ⟨h₂, h₃, h₁₀, (fillRect_right_iff fbDisplay 1#32 h₂ h₃ h₁₀ h₁₀).2.mpr
    (.inr ⟨by decide, by decide, trivial⟩)⟩

/-- The pixels from `(1, 0)` on, in a rectangle whose right end is not an `int`: none of them is
set. -/
theorem fillRect_wrong :
    ¬∀ m, Painted .mvlsb 1#32 (fbDisplay.RectPlaces 1 0 (2 ^ 31 - 1) 1) m
      (fillRect fbDisplay 1 0 (2 ^ 31 - 1) 1 1#32 m) := by
  refine not_painted_of_missing (F := fun m => fillRect fbDisplay 1 0 (2 ^ 31 - 1) 1 1#32 m)
    (Q := fun _ => False) (p := fbDisplay.place 1 0) (fun m => ?_) ⟨1, 0, ?_, rfl⟩ id
  · have hret : fillRect fbDisplay 1 0 (2 ^ 31 - 1) 1 1#32 m = m := if_pos (by decide)
    rw [hret]
    exact .none fun _ => id
  · simp only [Framebuf.InRect, Framebuf.Has, fbDisplay]
    omega

end Pycopy
