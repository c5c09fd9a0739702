import Mathlib.Data.List.Sort
import Mathlib.Data.List.TakeDrop
import Mathlib.Data.Nat.Notation

/-!
# Codes that synchronise

A code gives every symbol a word. Here each word starts with a letter that can only start a word,
and no word continues another one. So a text is cut into its words in one way, and whoever looks at
a letter in the middle of it knows whether a word starts there.

## Main results

* `countP_encode`: the number of symbols is the number of letters that start a word.
* `exists_offset_of_not_cont`: a letter that starts a word is where a word starts.
* `encode_prefix_encode_iff`: the text of a list continues the text of another one just when the
  list does.
* `prefix_drop_encode_iff`: where a text occurs in another one.
* `occurrences_encode`: all the places, in a part of it.
-/

/-- Where `xs` occurs in `ys` between `lo` and `hi` -/
def occurrences {α : Type*} [DecidableEq α] (xs ys : List α) (lo hi : ℕ) : List ℕ :=
  (List.range (ys.length + 1)).filter fun p => lo ≤ p ∧ p + xs.length ≤ hi ∧ xs <+: ys.drop p

variable {p : ℕ}

theorem mem_occurrences {α : Type*} [DecidableEq α] {xs ys : List α} {lo hi : ℕ} :
    p ∈ occurrences xs ys lo hi ↔
      p ≤ ys.length ∧ lo ≤ p ∧ p + xs.length ≤ hi ∧ xs <+: ys.drop p := by
  rw [occurrences, List.mem_filter, List.mem_range, decide_eq_true_eq, Nat.lt_succ_iff]

theorem pairwise_occurrences {α : Type*} [DecidableEq α] (xs ys : List α) (lo hi : ℕ) :
    (occurrences xs ys lo hi).Pairwise (· < ·) :=
  List.pairwise_lt_range.filter _

/-- A code with words over `α` for the symbols `β` -/
structure SyncCode (α β : Type*) where
  word : β → List α
  /-- the letters that do not start a word -/
  cont : α → Bool
  word_eq : ∀ c, ∃ h t, word c = h :: t ∧ cont h = false ∧ ∀ x ∈ t, cont x = true
  word_prefix : ∀ {c d}, word c <+: word d → c = d

namespace SyncCode

variable {α β : Type*} (C : SyncCode α β)

/-- The text of a list of symbols -/
def encode (l : List β) : List α := l.flatMap C.word

/-- Where the `i`-th word of a text starts -/
def offset (l : List β) (i : ℕ) : ℕ := (C.encode (l.take i)).length

@[simp] theorem encode_nil : C.encode [] = [] := rfl

@[simp] theorem encode_cons (c : β) (l : List β) : C.encode (c :: l) = C.word c ++ C.encode l :=
  List.flatMap_cons

@[simp] theorem encode_singleton (c : β) : C.encode [c] = C.word c := List.flatMap_singleton _ _

@[simp] theorem encode_append (l l' : List β) : C.encode (l ++ l') = C.encode l ++ C.encode l' :=
  List.flatMap_append

theorem word_ne_nil (c : β) : C.word c ≠ [] := by
  obtain ⟨h, t, heq, -⟩ := C.word_eq c
  rw [heq]
  exact List.cons_ne_nil h t

theorem length_word_pos (c : β) : 0 < (C.word c).length :=
  List.length_pos_iff.mpr (C.word_ne_nil c)

/-! ### Counting and cutting -/

theorem countP_word (c : β) : (C.word c).countP (fun x => !C.cont x) = 1 := by
  obtain ⟨h, t, heq, hh, ht⟩ := C.word_eq c
  rw [heq, List.countP_cons, List.countP_eq_zero.mpr]
  · simp [hh]
  · intro x hx
    simp [ht x hx]

/-- The number of symbols is the number of letters that start a word. -/
theorem countP_encode (l : List β) : (C.encode l).countP (fun x => !C.cont x) = l.length := by
  induction l with
  | nil => rfl
  | cons c l ih => rw [encode_cons, List.countP_append, ih, countP_word, List.length_cons,
    Nat.add_comm]

theorem length_le_length_encode (l : List β) : l.length ≤ (C.encode l).length := by
  have := (C.encode l).countP_le_length (p := fun b => !C.cont b)
  rwa [countP_encode] at this

theorem offset_zero (l : List β) : C.offset l 0 = 0 := rfl

variable {l : List β} {i : ℕ}

theorem offset_of_length_le (h : l.length ≤ i) : C.offset l i = (C.encode l).length := by
  rw [offset, List.take_of_length_le h]

theorem offset_cons_succ (c : β) (l : List β) (i : ℕ) :
    C.offset (c :: l) (i + 1) = (C.word c).length + C.offset l i := by
  simp [offset]

theorem encode_take_append_drop (l : List β) (i : ℕ) :
    C.encode (l.take i) ++ C.encode (l.drop i) = C.encode l := by
  rw [← encode_append, List.take_append_drop]

theorem drop_offset (l : List β) (i : ℕ) :
    (C.encode l).drop (C.offset l i) = C.encode (l.drop i) := by
  rw [← C.encode_take_append_drop l i, offset, List.drop_left]

theorem take_offset (l : List β) (i : ℕ) :
    (C.encode l).take (C.offset l i) = C.encode (l.take i) := by
  rw [← C.encode_take_append_drop l i, offset, List.take_left]

theorem offset_le (l : List β) (i : ℕ) : C.offset l i ≤ (C.encode l).length := by
  rw [← C.encode_take_append_drop l i, List.length_append, offset]
  exact Nat.le_add_right _ _

theorem offset_add (l : List β) (i k : ℕ) :
    C.offset l (i + k) = C.offset l i + C.offset (l.drop i) k := by
  rw [offset, List.take_add, encode_append, List.length_append]
  rfl

theorem offset_mono (l : List β) {j : ℕ} (h : i ≤ j) : C.offset l i ≤ C.offset l j := by
  obtain ⟨k, rfl⟩ := Nat.exists_eq_add_of_le h
  rw [offset_add]
  exact Nat.le_add_right _ _

/-- Words start one after the other. -/
theorem offset_lt_offset {l : List β} {i j : ℕ} (hi : i < l.length) (h : i < j) :
    C.offset l i < C.offset l j := by
  refine Nat.lt_of_lt_of_le ?_ (C.offset_mono l (Nat.succ_le_of_lt h))
  rw [Nat.succ_eq_add_one, offset_add]
  obtain ⟨c, l', hl⟩ : ∃ c l', l.drop i = c :: l' := by
    rw [List.drop_eq_getElem_cons hi]
    exact ⟨_, _, rfl⟩
  rw [hl, offset_cons_succ, offset_zero]
  have := C.length_word_pos c
  omega

theorem offset_lt_length {l : List β} {i : ℕ} (hi : i < l.length) :
    C.offset l i < (C.encode l).length := by
  rw [← C.offset_of_length_le (le_refl l.length)]
  exact C.offset_lt_offset hi hi

theorem offset_le_offset_iff {j : ℕ} (hi : i ≤ l.length) : C.offset l i ≤ C.offset l j ↔ i ≤ j := by
  refine ⟨fun h => ?_, C.offset_mono l⟩
  by_contra hlt
  have := C.offset_lt_offset (l := l) (i := j) (j := i) (by omega) (by omega)
  omega

/-- The symbols in front of the `i`-th word are counted by their first letters. -/
theorem countP_take_offset (h : i ≤ l.length) :
    ((C.encode l).take (C.offset l i)).countP (fun x => !C.cont x) = i := by
  rw [take_offset, countP_encode, List.length_take, Nat.min_eq_left h]

/-! ### Where a word starts -/

/-- The text from a word on starts with a letter that starts a word. -/
theorem exists_encode_eq_cons (h : l ≠ []) : ∃ x xs, C.encode l = x :: xs ∧ C.cont x = false := by
  cases l with
  | nil => exact absurd rfl h
  | cons c l =>
    obtain ⟨x, t, heq, hx, -⟩ := C.word_eq c
    exact ⟨x, t ++ C.encode l, by rw [encode_cons, heq, List.cons_append], hx⟩

/-- A letter that starts a word is where a word starts. -/
theorem exists_offset_of_not_cont {x : α} (hp : (C.encode l)[p]? = some x)
    (hx : C.cont x = false) : ∃ i < l.length, p = C.offset l i := by
  induction l generalizing p with
  | nil => simp at hp
  | cons c l ih =>
    obtain ⟨h, t, heq, -, ht⟩ := C.word_eq c
    rw [encode_cons] at hp
    rcases Nat.lt_or_ge p (C.word c).length with hlt | hge
    · rw [List.getElem?_append_left hlt, heq] at hp
      cases p with
      | zero => exact ⟨0, by simp, rfl⟩
      | succ p =>
        have hmem : x ∈ t := List.mem_of_getElem? hp
        rw [ht x hmem] at hx
        cases hx
    · rw [List.getElem?_append_right hge] at hp
      obtain ⟨i, hi, hoff⟩ := ih hp
      refine ⟨i + 1, by simpa using hi, ?_⟩
      rw [offset_cons_succ]
      omega

/-- **The text of a list continues the text of another one** just when the list does. -/
theorem encode_prefix_encode_iff {l' : List β} : C.encode l <+: C.encode l' ↔ l <+: l' := by
  refine ⟨fun h => ?_, ?_⟩
  · induction l generalizing l' with
    | nil => exact List.nil_prefix
    | cons c l ih =>
      cases l' with
      | nil =>
        rw [encode_nil, List.prefix_nil, encode_cons, List.append_eq_nil_iff] at h
        exact absurd h.1 (C.word_ne_nil c)
      | cons d l' =>
        rw [encode_cons, encode_cons] at h
        have hcd : c = d := by
          rcases List.prefix_or_prefix_of_prefix ((List.prefix_append _ _).trans h)
            (List.prefix_append _ _) with hp | hp
          · exact C.word_prefix hp
          · exact (C.word_prefix hp).symm
        rw [hcd, List.prefix_append_right_inj] at h
        rw [hcd]
        exact List.cons_prefix_cons.mpr ⟨rfl, ih h⟩
  · rintro ⟨l'', rfl⟩
    rw [encode_append]
    exact List.prefix_append _ _

/-- **A text occurs in another one** where a word starts, and there its symbols do. -/
theorem prefix_drop_encode_iff {n : List β} (hn : n ≠ []) :
    C.encode n <+: (C.encode l).drop p ↔ ∃ i, p = C.offset l i ∧ n <+: l.drop i := by
  constructor
  · rintro ⟨ys, h⟩
    obtain ⟨x, xs, hcons, hx⟩ := C.exists_encode_eq_cons hn
    have hp : (C.encode l)[p]? = some x := by
      rw [← Nat.add_zero p, ← List.getElem?_drop, ← h, hcons]
      rfl
    obtain ⟨i, -, rfl⟩ := C.exists_offset_of_not_cont hp hx
    refine ⟨i, rfl, C.encode_prefix_encode_iff.mp ?_⟩
    rw [← C.drop_offset, ← h]
    exact List.prefix_append _ _
  · rintro ⟨i, rfl, h⟩
    rw [drop_offset]
    exact C.encode_prefix_encode_iff.mpr h

/-- **All the places where a text occurs** in a part of another one -/
theorem occurrences_encode [DecidableEq α] [DecidableEq β] {n : List β} (hn : n ≠ []) {lo hi : ℕ}
    (hlo : lo ≤ l.length) (hhi : hi ≤ l.length) :
    occurrences (C.encode n) (C.encode l) (C.offset l lo) (C.offset l hi) =
      (occurrences n l lo hi).map (C.offset l) := by
  have hmono : ∀ i ∈ occurrences n l lo hi, ∀ j ∈ occurrences n l lo hi, i < j →
      C.offset l i < C.offset l j := by
    intro i hi j hj hlt
    exact C.offset_lt_offset (Nat.lt_of_lt_of_le hlt (mem_occurrences.mp hj).1) hlt
  have hpair : ((occurrences n l lo hi).map (C.offset l)).Pairwise (· < ·) := by
    rw [List.pairwise_map]
    exact (pairwise_occurrences n l lo hi).imp_of_mem fun {i j} hi hj h => hmono i hi j hj h
  have hend {i : ℕ} (h : n <+: l.drop i) :
      C.offset l i + (C.encode n).length = C.offset l (i + n.length) := by
    obtain ⟨m, hm⟩ := h
    rw [offset_add, ← hm]
    simp [offset]
  refine (pairwise_occurrences _ _ _ _).eq_of_mem_iff hpair fun p => ?_
  rw [mem_occurrences, C.prefix_drop_encode_iff hn, List.mem_map]
  constructor
  · rintro ⟨hp, hlow, hhigh, i, rfl, h⟩
    have hle := h.length_le
    rw [List.length_drop] at hle
    have hpos := List.length_pos_iff.mpr hn
    rw [hend h, C.offset_le_offset_iff (by omega)] at hhigh
    rw [C.offset_le_offset_iff hlo] at hlow
    exact ⟨i, mem_occurrences.mpr ⟨by omega, hlow, hhigh, h⟩, rfl⟩
  · rintro ⟨i, hmem, rfl⟩
    obtain ⟨hi, hlow, hhigh, h⟩ := mem_occurrences.mp hmem
    refine ⟨C.offset_le l i, C.offset_mono l hlow, ?_, i, rfl, h⟩
    rw [hend h]
    exact C.offset_mono l hhigh

end SyncCode
