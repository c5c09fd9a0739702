import Mathlib.Data.List.Range
import Mathlib.Data.Nat.ModEq
import Mathlib.Logic.Function.Basic

/-!
# Ring Buffers

A queue in an array of `cap` places: `len` elements from the place `idx` on, which go on at the
start of the array when they reach its end.

## Main results

* `contents_push`, `contents_pop`: the operations on the elements.
-/

namespace RingBuffer

variable {α : Type} {cap : ℕ}

/-- The array, the place of the first element and the number of elements -/
structure Ring (α : Type) where
  idx : ℕ
  len : ℕ
  buf : ℕ → α

namespace Ring

/-- The elements in order -/
def contents (cap : ℕ) (r : Ring α) : List α :=
  (List.range r.len).map fun k => r.buf ((r.idx + k) % cap)

/-- An element behind the last one -/
def push (cap : ℕ) (r : Ring α) (x : α) : Ring α :=
  { r with len := r.len + 1, buf := Function.update r.buf ((r.idx + r.len) % cap) x }

/-- The first element is left out. -/
def pop (cap : ℕ) (r : Ring α) : Ring α := { r with idx := (r.idx + 1) % cap, len := r.len - 1 }

@[simp] theorem length_contents (r : Ring α) : (r.contents cap).length = r.len := by
  rw [contents, List.length_map, List.length_range]

/-- Two places of the queue are different. -/
theorem place_ne {idx len k : ℕ} (hlen : len < cap) (hk : k < len) :
    (idx + k) % cap ≠ (idx + len) % cap := by
  intro h
  have hmod : k ≡ len [MOD cap] := Nat.ModEq.add_left_cancel' idx h
  rw [Nat.ModEq, Nat.mod_eq_of_lt (by omega), Nat.mod_eq_of_lt hlen] at hmod
  omega

/-- **An element is added at the end, if there is room for it.** -/
theorem contents_push {r : Ring α} (h : r.len < cap) (x : α) :
    (r.push cap x).contents cap = r.contents cap ++ [x] := by
  simp only [contents, push, List.range_succ, List.map_append, List.map_cons, List.map_nil,
    Function.update_self]
  congr 1
  refine List.map_congr_left fun k hk => ?_
  exact Function.update_of_ne (place_ne h (List.mem_range.mp hk)) x r.buf

/-- **The first element is taken away.** -/
theorem contents_pop {r : Ring α} (h : 0 < r.len) :
    r.contents cap = r.buf (r.idx % cap) :: (r.pop cap).contents cap := by
  obtain ⟨n, hn⟩ : ∃ n, r.len = n + 1 := ⟨r.len - 1, by omega⟩
  simp only [contents, pop, hn, Nat.add_sub_cancel, List.range_succ_eq_map, List.map_cons,
    List.map_map, Nat.add_zero]
  congr 1
  refine List.map_congr_left fun k _ => ?_
  rw [Function.comp_apply, Nat.mod_add_mod, Nat.succ_eq_add_one, Nat.add_assoc, Nat.add_comm 1]

end Ring

end RingBuffer
