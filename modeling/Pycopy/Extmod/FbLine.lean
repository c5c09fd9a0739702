import Mathlib.Tactic.LinearCombination
import Pycopy.Extmod.Framebuf
import Pycopy.Seq.Range

/-!
# Lines in Frame Buffers

`framebuf_line` of `extmod/modframebuf.c`. A line goes on by one pixel in its longer direction in
each round, and an error term says when it goes on in the other direction as well. The other
coordinate is then the nearest one to the line through both ends: after `i` of `dx` rounds it has
gone on by `dy * i / dx`, rounded.

The function is modelled for any function that plots a point, and is used with the clipped
`setpixel`.

## Main results

* `framebufLine_right`: the points of a line, and what is drawn of it.
-/

namespace Pycopy

/-! ### The source -/

section Source

variable {σ : Type} (plot : ℤ → ℤ → σ → σ) (wd fuel : ℕ)

/-- The inner loop of `framebuf_line`: `y1` and `e` -/
def lineAdjust (dx sy : ℤ) : ℕ → ℤ → ℤ → Option (ℤ × ℤ)
  | 0, _, _ => none
  | fuel + 1, y1, e =>
    if e ≥ 0 then lineAdjust dx sy fuel (wordAdd wd y1 sy) (wordAdd wd e (-wordMul wd 2 dx))
    else some (y1, e)

/-- The outer loop of `framebuf_line`, of which there are `n` rounds to come -/
def lineLoop (steep : Bool) (dx dy sx sy : ℤ) : ℕ → ℤ → ℤ → ℤ → σ → Option σ
  | 0, _, _, _, s => some s
  | n + 1, x1, y1, e, s => do
    let s := if steep then plot y1 x1 s else plot x1 y1 s
    let (y1, e) ← lineAdjust wd dx sy fuel y1 e
    lineLoop steep dx dy sx sy n (wordAdd wd x1 sx) y1 (wordAdd wd e (wordMul wd 2 dy)) s

/-- A difference without its sign, and the sign -/
def lineDelta (d : ℤ) : ℤ × ℤ := if d > 0 then (d, 1) else ((-d).bmod (2 ^ wd), -1)

/-- `framebuf_line` -/
def framebufLine (x1 y1 x2 y2 : ℤ) (s : σ) : Option σ := do
  let (dx, sx) := lineDelta wd (wordAdd wd x2 (-x1))
  let (dy, sy) := lineDelta wd (wordAdd wd y2 (-y1))
  let s ←
    if dy > dx then
      lineLoop plot wd fuel true dy dx sy sx dy.toNat y1 x1 (wordAdd wd (wordMul wd 2 dx) (-dy)) s
    else
      lineLoop plot wd fuel false dx dy sx sy dx.toNat x1 y1 (wordAdd wd (wordMul wd 2 dy) (-dx)) s
  some (plot x2 y2 s)

end Source

/-- The pixel is set if it is in the frame, where its coordinates are `int`s. -/
def clippedSetpixel (fb : Framebuf) (col : BitVec 32) (x y : ℤ) (m : FbMem) : FbMem :=
  if fb.Has x y then setpixel fb x y col m else m

/-! ### The rounded coordinate -/

/-- The nearest number to `dy * i / dx` -/
def lineMinor (dx dy i : ℤ) : ℤ := (2 * dy * i + dx) / (2 * dx)

section Minor

variable {dx dy i k : ℤ}

theorem lineMinor_eq_iff (hdx : 0 < dx) :
    lineMinor dx dy i = k ↔ 2 * dx * k ≤ 2 * dy * i + dx ∧ 2 * dy * i < 2 * dx * k + dx := by
  rw [lineMinor, Int.ediv_eq_iff_of_pos (by omega)]
  constructor
  · rintro ⟨h₁, h₂⟩
    exact ⟨by linarith, by linarith⟩
  · rintro ⟨h₁, h₂⟩
    exact ⟨by linarith, by linarith⟩

theorem lineMinor_spec (hdx : 0 < dx) (dy i : ℤ) :
    2 * dx * lineMinor dx dy i ≤ 2 * dy * i + dx ∧ 2 * dy * i < 2 * dx * lineMinor dx dy i + dx :=
  (lineMinor_eq_iff hdx).mp rfl

/-- **The rounded coordinate changes** where the error term is not negative. -/
theorem lineMinor_succ (hdx : 0 < dx) (hdy : 0 ≤ dy) (hle : dy ≤ dx) (hk : lineMinor dx dy i = k) :
    lineMinor dx dy (i + 1) = if 2 * dy * (i + 1) - dx - 2 * dx * k ≥ 0 then k + 1 else k := by
  obtain ⟨h₁, h₂⟩ := (lineMinor_eq_iff hdx).mp hk
  split_ifs with he
  · exact (lineMinor_eq_iff hdx).mpr ⟨by linarith, by linarith⟩
  · exact (lineMinor_eq_iff hdx).mpr ⟨by linarith, by linarith⟩

theorem lineMinor_bounds (hdx : 0 < dx) (hdy : 0 ≤ dy) (hi : 0 ≤ i) (hidx : i ≤ dx) :
    0 ≤ lineMinor dx dy i ∧ lineMinor dx dy i ≤ dy := by
  obtain ⟨h₁, -⟩ := lineMinor_spec hdx dy i
  have hmul : dy * i ≤ dy * dx := mul_le_mul_of_nonneg_left hidx hdy
  refine ⟨Int.ediv_nonneg (by positivity) (by omega), ?_⟩
  by_contra hgt
  have hstep : 2 * dx * (dy + 1) ≤ 2 * dx * lineMinor dx dy i :=
    mul_le_mul_of_nonneg_left (by omega) (by omega)
  linarith

end Minor

/-! ### The loop -/

/-- The point after `i` rounds -/
def linePoint (steep : Bool) (x1 y1 dx dy sx sy : ℤ) (i : ℕ) : ℤ × ℤ :=
  if steep then (y1 + lineMinor dx dy i * sy, x1 + i * sx)
  else (x1 + i * sx, y1 + lineMinor dx dy i * sy)

section Loop

variable {wd fuel : ℕ} {x1 y1 dx dy sx sy : ℤ} {σ : Type} (plot : ℤ → ℤ → σ → σ)

theorem isWord_between {a d s k : ℤ} (ha : IsWord wd a) (hd : IsWord wd (a + d * s))
    (hs : s = 1 ∨ s = -1) (hk : 0 ≤ k) (hkd : k ≤ d) : IsWord wd (a + k * s) := by
  obtain ⟨ha₁, ha₂⟩ := ha
  obtain ⟨hd₁, hd₂⟩ := hd
  rcases hs with rfl | rfl <;> exact ⟨by omega, by omega⟩

section

variable (hwd : 0 < wd) (hfuel : 2 ≤ fuel) (hdx : 0 < dx) (hdy : 0 ≤ dy) (hle : dy ≤ dx)
  (h2dx : IsWord wd (2 * dx)) (hsx : sx = 1 ∨ sx = -1) (hsy : sy = 1 ∨ sy = -1)
  (hx1 : IsWord wd x1) (hx2 : IsWord wd (x1 + dx * sx)) (hy1 : IsWord wd y1)
  (hy2 : IsWord wd (y1 + dy * sy))

include hwd hfuel hdx hdy hle h2dx hsy hy1 hy2 in
/-- The inner loop makes one round at most. -/
theorem lineAdjust_eq {i : ℤ} (hi : 0 ≤ i) (hidx : i < dx) :
    lineAdjust wd dx sy fuel (y1 + lineMinor dx dy i * sy)
        (2 * dy * (i + 1) - dx - 2 * dx * lineMinor dx dy i) =
      some (y1 + lineMinor dx dy (i + 1) * sy,
        2 * dy * (i + 1) - dx - 2 * dx * lineMinor dx dy (i + 1)) := by
  obtain ⟨n, rfl⟩ : ∃ n, fuel = n + 2 := ⟨fuel - 2, by omega⟩
  obtain ⟨h₁, h₂⟩ := lineMinor_spec hdx dy i
  have hsucc := lineMinor_succ hdx hdy hle (rfl : lineMinor dx dy i = _)
  have hbounds := lineMinor_bounds hdx hdy (by omega : 0 ≤ i + 1) hidx
  rw [lineAdjust]
  split_ifs at hsucc ⊢ with he
  · have hword := isWord_between hy1 hy2 hsy hbounds.1 hbounds.2
    have hnext : y1 + lineMinor dx dy i * sy + sy = y1 + lineMinor dx dy (i + 1) * sy := by
      rw [hsucc]
      ring
    have herr : 2 * dy * (i + 1) - dx - 2 * dx * lineMinor dx dy i + -(2 * dx) =
        2 * dy * (i + 1) - dx - 2 * dx * lineMinor dx dy (i + 1) := by
      rw [hsucc]
      ring
    have hneg : ¬2 * dy * (i + 1) - dx - 2 * dx * lineMinor dx dy (i + 1) ≥ 0 := by
      rw [hsucc]
      linarith
    have hmul : wordMul wd 2 dx = 2 * dx := bmod_of_bounds hwd h2dx.1 h2dx.2
    rw [hmul, wordAdd_eq hwd (hnext ▸ hword), hnext, wordAdd_eq hwd, herr, lineAdjust, if_neg hneg]
    obtain ⟨hw₁, hw₂⟩ := h2dx
    rw [herr]
    exact ⟨by rw [hsucc]; linarith, by linarith⟩
  · rw [hsucc]

include hwd hfuel hdx hdy hle h2dx hsx hsy hx1 hx2 hy1 hy2 in
/-- **The points of the loop**, from any round on -/
theorem lineLoop_eq (steep : Bool) (n i : ℕ) (hn : (i + n : ℕ) = dx) (s : σ) :
    lineLoop plot wd fuel steep dx dy sx sy n (x1 + i * sx) (y1 + lineMinor dx dy i * sy)
        (2 * dy * (i + 1) - dx - 2 * dx * lineMinor dx dy i) s =
      some (((List.range' i n).map (linePoint steep x1 y1 dx dy sx sy)).foldl
        (fun s p => plot p.1 p.2 s) s) := by
  induction n generalizing i s with
  | zero => rfl
  | succ n ih =>
    have hnext := ih (i + 1) (by omega)
    push_cast at hn hnext
    have hplot : (if steep then plot (y1 + lineMinor dx dy i * sy) (x1 + i * sx) s
        else plot (x1 + i * sx) (y1 + lineMinor dx dy i * sy) s) =
        plot (linePoint steep x1 y1 dx dy sx sy i).1 (linePoint steep x1 y1 dx dy sx sy i).2 s := by
      cases steep <;> rfl
    have hx : wordAdd wd (x1 + i * sx) sx = x1 + ((i : ℤ) + 1) * sx := by
      have hword := isWord_between hx1 hx2 hsx (by omega : 0 ≤ (i : ℤ) + 1) (by omega)
      have heq : x1 + i * sx + sx = x1 + ((i : ℤ) + 1) * sx := by ring
      rw [wordAdd_eq hwd (heq ▸ hword), heq]
    have he : wordAdd wd (2 * dy * ((i : ℤ) + 1) - dx - 2 * dx * lineMinor dx dy (i + 1))
        (wordMul wd 2 dy) = 2 * dy * ((i : ℤ) + 1 + 1) - dx - 2 * dx * lineMinor dx dy (i + 1) := by
      obtain ⟨h₁, h₂⟩ := lineMinor_spec hdx dy (i + 1)
      have hpos : (0 : ℤ) < 2 ^ (wd - 1) := by positivity
      have hmul : wordMul wd 2 dy = 2 * dy :=
        bmod_of_bounds hwd (by omega) (by have := h2dx.2; omega)
      rw [hmul, wordAdd_eq hwd]
      · ring
      · exact ⟨by linarith [h2dx.2], by linarith [h2dx.2]⟩
    rw [lineLoop, hplot, lineAdjust_eq hwd hfuel hdx hdy hle h2dx hsy hy1 hy2 (by omega) (by omega)]
    simp only [Option.bind_eq_bind, Option.bind_some, hx, he, hnext]
    rw [List.range'_succ, List.map_cons, List.foldl_cons]

end

end Loop

/-! ### Lines -/

/-- The point `(u, v)` is near the line after `i` of its rounds: `u` is the longer direction, from
`a` to `a'`, and `v` goes from `b` to `b'` and is at most half a pixel off. -/
def NearLine (a b a' b' : ℤ) (i : ℕ) (u v : ℤ) : Prop :=
  u = a + i * (a' - a).sign ∧ 2 * |(v - b) * |a' - a| - i * (b' - b)| ≤ |a' - a|

/-- The points of a line: one for each value of the coordinate of the longer direction, near the
line, the last one its end -/
structure LineRight (x1 y1 x2 y2 : ℤ) (pts : List (ℤ × ℤ)) : Prop where
  length : (pts.length : ℤ) = max |x2 - x1| |y2 - y1| + 1
  last : pts.getLast? = some (x2, y2)
  near : ∀ i p, pts[i]? = some p →
    if |y2 - y1| ≤ |x2 - x1| then NearLine x1 y1 x2 y2 i p.1 p.2 else NearLine y1 x1 y2 x2 i p.2 p.1

section Line

variable {wd fuel : ℕ} {a b a' b' s t : ℤ} {σ : Type} (plot : ℤ → ℤ → σ → σ)

/-- A sign for a difference -/
structure IsSign (d s : ℤ) : Prop where
  unit : s = 1 ∨ s = -1
  abs_mul : |d| * s = d

theorem IsSign.eq_sign {d : ℤ} (h : IsSign d s) (hd : d ≠ 0) : s = d.sign := by
  have hmul : |d| * s = |d| * d.sign := by rw [h.abs_mul, mul_comm, Int.sign_mul_abs]
  exact mul_left_cancel₀ (abs_ne_zero.mpr hd) hmul

theorem lineDelta_eq (hwd : 0 < wd) {d : ℤ} (hd : IsWord wd (2 * |d|)) :
    ∃ s, IsSign d s ∧ lineDelta wd d = (|d|, s) := by
  have hP : (0 : ℤ) < 2 ^ (wd - 1) := by positivity
  have h₂ := hd.2
  rw [lineDelta]
  split_ifs with hpos
  · have habs := abs_of_pos hpos
    exact ⟨1, ⟨.inl rfl, by rw [habs, mul_one]⟩, by rw [habs]⟩
  · have habs := abs_of_nonpos (not_lt.mp hpos)
    refine ⟨-1, ⟨.inr rfl, by rw [habs]; ring⟩, ?_⟩
    rw [habs] at h₂ ⊢
    rw [bmod_of_bounds hwd (by omega) (by omega)]

/-- The loop with the longer direction from `a` to `a'` -/
theorem lineLoop_points (hwd : 0 < wd) (hfuel : 2 ≤ fuel) (ha : IsWord wd a) (ha' : IsWord wd a')
    (hb : IsWord wd b) (hb' : IsWord wd b') (h2 : IsWord wd (2 * |a' - a|)) (hs : IsSign (a' - a) s)
    (ht : IsSign (b' - b) t) (hle : |b' - b| ≤ |a' - a|) (steep : Bool) (st : σ) :
    lineLoop plot wd fuel steep |a' - a| |b' - b| s t |a' - a|.toNat a b
        (wordAdd wd (wordMul wd 2 |b' - b|) (-|a' - a|)) st =
      some (((List.range |a' - a|.toNat).map
        (linePoint steep a b |a' - a| |b' - b| s t)).foldl (fun st p => plot p.1 p.2 st) st) := by
  have hdy : 0 ≤ |b' - b| := abs_nonneg _
  rcases (abs_nonneg (a' - a)).eq_or_lt with h0 | hdx
  · rw [← h0]
    rfl
  have hP : (0 : ℤ) < 2 ^ (wd - 1) := by positivity
  have h₂ := h2.2
  have hmul : wordMul wd 2 |b' - b| = 2 * |b' - b| := bmod_of_bounds hwd (by omega) (by omega)
  have hminor : lineMinor |a' - a| |b' - b| (0 : ℕ) = 0 := by
    refine (lineMinor_eq_iff hdx).mpr ⟨?_, ?_⟩ <;> push_cast <;> linarith
  have hloop := lineLoop_eq plot hwd hfuel hdx hdy hle h2 hs.unit ht.unit ha
    (by rw [hs.abs_mul, add_sub_cancel]; exact ha') hb
    (by rw [ht.abs_mul, add_sub_cancel]; exact hb')
    steep |a' - a|.toNat 0 (by omega) st
  rw [hminor, ← List.range_eq_range'] at hloop
  rw [hmul, wordAdd_eq hwd ⟨by omega, by omega⟩, ← hloop]
  congr 1 <;> push_cast <;> ring

/-- **The points are near the line**, the end included. -/
theorem line_near (hs : IsSign (a' - a) s) (ht : IsSign (b' - b) t) (steep : Bool) {i : ℕ}
    {p : ℤ × ℤ}
    (hp : ((List.range |a' - a|.toNat).map (linePoint steep a b |a' - a| |b' - b| s t) ++
      [if steep then (b', a') else (a', b')])[i]? = some p) :
    NearLine a b a' b' i (if steep then p.2 else p.1) (if steep then p.1 else p.2) := by
  rcases lt_or_ge i |a' - a|.toNat with hi | hi
  · rw [List.getElem?_append_left (by simpa using hi), List.getElem?_map, List.getElem?_range hi,
      Option.map_some, Option.some_inj] at hp
    have hdx : 0 < |a' - a| := by omega
    obtain ⟨h₁, h₂⟩ := lineMinor_spec hdx |b' - b| i
    have hpoint : (if steep then p.2 else p.1) = a + i * s ∧
        (if steep then p.1 else p.2) = b + lineMinor |a' - a| |b' - b| i * t := by
      rw [← hp]
      cases steep <;> exact ⟨rfl, rfl⟩
    rw [hpoint.1, hpoint.2]
    refine ⟨by rw [hs.eq_sign (abs_pos.mp hdx)], ?_⟩
    have hfactor : (b + lineMinor |a' - a| |b' - b| i * t - b) * |a' - a| - i * (b' - b) =
        (lineMinor |a' - a| |b' - b| i * |a' - a| - i * |b' - b|) * t := by
      linear_combination (i : ℤ) * ht.abs_mul
    have habs : |t| = 1 := by rcases ht.unit with rfl | rfl <;> rfl
    rw [hfactor, abs_mul, habs, mul_one]
    have hlow : -|a' - a| ≤ 2 * (lineMinor |a' - a| |b' - b| i * |a' - a| - i * |b' - b|) := by
      linarith
    have hhigh : 2 * (lineMinor |a' - a| |b' - b| i * |a' - a| - i * |b' - b|) ≤ |a' - a| := by
      linarith
    rw [← abs_two, ← abs_mul]
    exact abs_le.mpr ⟨hlow, hhigh⟩
  · rw [List.getElem?_append_right (by simpa using hi)] at hp
    simp only [List.length_map, List.length_range] at hp
    obtain ⟨hlast, hval⟩ := List.getElem?_eq_some_iff.mp hp
    rw [List.length_singleton] at hlast
    have hi' : (i : ℤ) = |a' - a| := by have := abs_nonneg (a' - a); omega
    have hpoint : (if steep then p.2 else p.1) = a' ∧ (if steep then p.1 else p.2) = b' := by
      rw [← hval]
      cases steep <;> simp
    rw [hpoint.1, hpoint.2, NearLine, hi', mul_comm |a' - a|, Int.sign_mul_abs, add_sub_cancel]
    refine ⟨rfl, ?_⟩
    rw [mul_comm (b' - b), sub_self, abs_zero, mul_zero]
    exact abs_nonneg _

end Line

section Right

variable {wd fuel : ℕ} {x1 y1 x2 y2 : ℤ}

/-- **A line has the points that it should have**, whatever is done to plot one. -/
theorem framebufLine_points (hwd : 0 < wd) (hfuel : 2 ≤ fuel) (hx1 : IsWord wd x1)
    (hy1 : IsWord wd y1) (hx2 : IsWord wd x2) (hy2 : IsWord wd y2)
    (hdx : IsWord wd (2 * |x2 - x1|)) (hdy : IsWord wd (2 * |y2 - y1|)) :
    ∃ pts, LineRight x1 y1 x2 y2 pts ∧ ∀ (σ : Type) (plot : ℤ → ℤ → σ → σ) (st : σ),
      framebufLine plot wd fuel x1 y1 x2 y2 st =
        some (pts.foldl (fun st p => plot p.1 p.2 st) st) := by
  have hP : (0 : ℤ) < 2 ^ (wd - 1) := by positivity
  have hsub (u v : ℤ) (h : IsWord wd (2 * |v - u|)) : wordAdd wd v (-u) = v - u := by
    have habs := abs_le.mp (le_refl |v - u|)
    have h₂ := h.2
    exact wordAdd_eq hwd ⟨by omega, by omega⟩
  obtain ⟨s, hs, hsx⟩ := lineDelta_eq hwd hdx
  obtain ⟨t, ht, hsy⟩ := lineDelta_eq hwd hdy
  have hx0 := abs_nonneg (x2 - x1)
  have hy0 := abs_nonneg (y2 - y1)
  by_cases hsteep : |y2 - y1| > |x2 - x1|
  · refine ⟨(List.range |y2 - y1|.toNat).map (linePoint true y1 x1 |y2 - y1| |x2 - x1| t s) ++
      [(x2, y2)], ⟨?_, List.getLast?_concat, fun i p hp => ?_⟩, fun σ plot st => ?_⟩
    · rw [List.length_append, List.length_map, List.length_range, List.length_singleton,
        max_eq_right hsteep.le]
      omega
    · rw [if_neg (not_le.mpr hsteep)]
      exact line_near ht hs true hp
    · rw [framebufLine, hsub _ _ hdx, hsub _ _ hdy, hsx, hsy]
      simp only [if_pos hsteep]
      rw [lineLoop_points plot hwd hfuel hy1 hy2 hx1 hx2 hdy ht hs hsteep.le, List.foldl_append]
      rfl
  · refine ⟨(List.range |x2 - x1|.toNat).map (linePoint false x1 y1 |x2 - x1| |y2 - y1| s t) ++
      [(x2, y2)], ⟨?_, List.getLast?_concat, fun i p hp => ?_⟩, fun σ plot st => ?_⟩
    · rw [List.length_append, List.length_map, List.length_range, List.length_singleton,
        max_eq_left (not_lt.mp hsteep)]
      omega
    · rw [if_pos (not_lt.mp hsteep)]
      exact line_near hs ht false hp
    · rw [framebufLine, hsub _ _ hdx, hsub _ _ hdy, hsx, hsy]
      simp only [if_neg hsteep]
      rw [lineLoop_points plot hwd hfuel hx1 hx2 hy1 hy2 hdx hs ht (not_lt.mp hsteep),
        List.foldl_append]
      rfl

theorem foldl_clippedSetpixel (fb : Framebuf) (col : BitVec 32) (pts : List (ℤ × ℤ)) (m : FbMem) :
    pts.foldl (fun m p => clippedSetpixel fb col p.1 p.2 m) m =
      (pts.filter fun p => fb.Has p.1 p.2).foldl (fun m p => setpixel fb p.1 p.2 col m) m := by
  induction pts generalizing m with
  | nil => rfl
  | cons p pts ih =>
    rw [List.foldl_cons, ih, clippedSetpixel]
    by_cases hp : fb.Has p.1 p.2
    · rw [if_pos hp, List.filter_cons, if_pos (decide_eq_true hp), List.foldl_cons]
    · rw [if_neg hp, List.filter_cons, if_neg (by rwa [decide_eq_true_eq])]

theorem foldl_concat_eq (pts l : List (ℤ × ℤ)) :
    pts.foldl (fun l p => l ++ [(p.1, p.2)]) l = l ++ pts := by
  induction pts generalizing l with
  | nil => rw [List.foldl_nil, List.append_nil]
  | cons p pts ih => rw [List.foldl_cons, ih, List.append_assoc]; rfl

/-- **`framebuf_line` plots one point for each value of the coordinate of the longer direction**,
each at most half a pixel off the line and the last one its end, and draws those that are in the
frame. -/
theorem framebufLine_right (hwd : 0 < wd) (hfuel : 2 ≤ fuel) (hx1 : IsWord wd x1)
    (hy1 : IsWord wd y1) (hx2 : IsWord wd x2) (hy2 : IsWord wd y2)
    (hdx : IsWord wd (2 * |x2 - x1|)) (hdy : IsWord wd (2 * |y2 - y1|)) :
    ∃ pts, framebufLine (fun x y l => l ++ [(x, y)]) wd fuel x1 y1 x2 y2 [] = some pts ∧
      LineRight x1 y1 x2 y2 pts ∧ ∀ fb col m,
        framebufLine (clippedSetpixel fb col) wd fuel x1 y1 x2 y2 m =
          some ((pts.filter fun p => fb.Has p.1 p.2).foldl
            (fun m p => setpixel fb p.1 p.2 col m) m) := by
  obtain ⟨pts, hright, hline⟩ := framebufLine_points hwd hfuel hx1 hy1 hx2 hy2 hdx hdy
  refine ⟨pts, ?_, hright, fun fb col m => ?_⟩
  · rw [hline, foldl_concat_eq, List.nil_append]
  · rw [hline, foldl_clippedSetpixel]

end Right

/-- A line upwards to the left -/
theorem framebufLine_right_five :
    ∃ pts, framebufLine (fun x y l => l ++ [(x, y)]) 32 2 3 1 (-2) 3 [] = some pts ∧
      LineRight 3 1 (-2) 3 pts := by
  obtain ⟨pts, hpts, hright, -⟩ :=
    @framebufLine_right 32 2 3 1 (-2) 3 (by decide) (by decide) (by decide) (by decide) (by decide)
    (by decide) (by decide) (by decide)
  exact ⟨pts, hpts, hright⟩

end Pycopy
