import Pycopy.Lib.BinaryHeap

/-!
# Heaps in Lists

`heapify`, `heappush` and `heappop` of `extmod/moduheapq.c`. The heap is a list, and nothing but the
calls themselves keeps it in order: `heappush` and `heappop` work on any list, but what they promise
they promise for a heap. `heapify` makes a heap of any list, from its last parent to its first item.

Items are compared by a key, so that different items may be equal in the order. The place behind the
end that `heappop` sets to `MP_OBJ_NULL` is not read again, and is left alone here.

## Main results

* `uheapq_right`: every call after any other calls.
* `uheapq_sorts`: sorting a list with a heap.
-/

namespace Pycopy

open BinaryHeap
open Function (update update_self update_of_ne)

variable {α κ : Type} [LinearOrder κ]

/-! ### The source -/

/-- `mp_obj_list_t` -/
structure ListObj (α : Type) where
  items : ℕ → α
  len : ℕ

/-- `mp_binary_op(MP_BINARY_OP_LESS, lhs, rhs)` -/
def itemLess (key : α → κ) (lhs rhs : α) : Bool := decide (key lhs < key rhs)

variable (key : α → κ)

/-- `uheapq_heap_siftdown` -/
def uheapqHeapSiftdown (heap : ListObj α) (startPos pos : ℕ) : ListObj α :=
  { heap with items := siftdown (itemLess key) startPos heap.items pos }

/-- `uheapq_heap_siftup` -/
def uheapqHeapSiftup (heap : ListObj α) (pos : ℕ) : ListObj α :=
  { heap with items := siftup (itemLess key) heap.len heap.items pos }

/-- `mod_uheapq_heappush` -/
def modUheapqHeappush (heap : ListObj α) (item : α) : ListObj α :=
  uheapqHeapSiftdown key ⟨update heap.items heap.len item, heap.len + 1⟩ 0 heap.len

/-- `mod_uheapq_heappop`: the item, or the text of an `IndexError` -/
def modUheapqHeappop (heap : ListObj α) : ListObj α × Except String α :=
  if heap.len = 0 then (heap, .error "empty heap")
  else
    let item := heap.items 0
    let heap : ListObj α := ⟨update heap.items 0 (heap.items (heap.len - 1)), heap.len - 1⟩
    (if heap.len ≠ 0 then uheapqHeapSiftup key heap 0 else heap, .ok item)

/-- The loop of `mod_uheapq_heapify` -/
def heapifyLoop : ℕ → ListObj α → ListObj α
  | 0, heap => heap
  | i + 1, heap => heapifyLoop i (uheapqHeapSiftup key heap i)

/-- `mod_uheapq_heapify` -/
def modUheapqHeapify (heap : ListObj α) : ListObj α := heapifyLoop key (heap.len / 2) heap

/-- A call -/
inductive HeapqOp (α : Type)
  | heapify
  | heappush (item : α)
  | heappop

/-- The list after a call -/
def heapqStep (heap : ListObj α) : HeapqOp α → ListObj α
  | .heapify => modUheapqHeapify key heap
  | .heappush item => modUheapqHeappush key heap item
  | .heappop => (modUheapqHeappop key heap).1

/-! ### What is in a list -/

/-- The items of a list, in any order -/
def ListObj.contents (heap : ListObj α) : Multiset α := (Multiset.range heap.len).map heap.items

/-- No item is less than its parent. -/
def ListObj.IsHeap (heap : ListObj α) : Prop := Ordered heap.len (key ∘ heap.items)

variable {heap : ListObj α} {len : ℕ} {h h' : ℕ → α} {item : α}

theorem map_range_succ (h : ℕ → α) (len : ℕ) (item : α) :
    (Multiset.range (len + 1)).map (update h len item) = item ::ₘ (Multiset.range len).map h := by
  rw [Multiset.range_succ, Multiset.map_cons, update_self]
  congr 1
  refine Multiset.map_congr rfl fun i hi => update_of_ne ?_ item h
  exact (Multiset.mem_range.mp hi).ne

theorem contents_siftup {pos : ℕ} (hpos : pos < heap.len) :
    (uheapqHeapSiftup key heap pos).contents = heap.contents :=
  (siftup_rearranged hpos).map_range

/-- The keys are moved as the items are. -/
theorem keys_siftup {pos : ℕ} (hpos : pos < heap.len) :
    key ∘ (uheapqHeapSiftup key heap pos).items = siftup keyLt heap.len (key ∘ heap.items) pos :=
  (siftup_map (P := fun _ => True) (fun _ _ _ _ => rfl) (fun _ _ => trivial) hpos).symm

/-! ### The calls -/

theorem contents_heappush :
    (modUheapqHeappush key heap item).contents = item ::ₘ heap.contents := by
  rw [ListObj.contents, ListObj.contents, ← map_range_succ heap.items heap.len item]
  exact (siftdown_rearranged (Nat.lt_succ_self _)).map_range

/-- **A pushed item** is moved to its place. -/
theorem heappush_isHeap (hheap : heap.IsHeap key) :
    (modUheapqHeappush key heap item).IsHeap key := by
  have hbefore : Ordered heap.len (key ∘ update heap.items heap.len item) := by
    refine (Ordered.congr fun i hi => ?_).mp hheap
    rw [Function.comp_apply, Function.comp_apply, update_of_ne hi.ne]
  have hord := siftdown_ordered hbefore
  rwa [siftdown_map (P := fun _ => True) (fun _ _ _ _ => rfl) (fun _ _ => trivial)
    (Nat.lt_succ_self _)] at hord

/-- The last item in the place of the first one -/
theorem map_range_replace (h : ℕ → α) (n : ℕ) :
    (Multiset.range (n + 1)).map h = h 0 ::ₘ (Multiset.range n).map (update h 0 (h n)) := by
  have hswap : Rearranged (n + 1) h (h ∘ Equiv.swap 0 n) :=
    ⟨Equiv.swap 0 n, fun i hi => Equiv.swap_apply_of_ne_of_ne (by omega) (by omega), rfl⟩
  rw [← hswap.map_range, Multiset.range_succ, Multiset.map_cons, Function.comp_apply,
    Equiv.swap_apply_right]
  congr 1
  refine Multiset.map_congr rfl fun i hi => ?_
  have hne := (Multiset.mem_range.mp hi).ne
  by_cases h0 : i = 0
  · rw [h0, Function.comp_apply, Equiv.swap_apply_left, update_self]
  · rw [Function.comp_apply, Equiv.swap_apply_of_ne_of_ne h0 hne, update_of_ne h0]

/-- What is left of a list that is not empty, before its first item is moved to its place -/
def ListObj.replaceFirst (heap : ListObj α) : ListObj α :=
  ⟨update heap.items 0 (heap.items (heap.len - 1)), heap.len - 1⟩

theorem heappop_replaceFirst (hlen : heap.len ≠ 0) :
    modUheapqHeappop key heap =
      (if heap.replaceFirst.len ≠ 0 then uheapqHeapSiftup key heap.replaceFirst 0
        else heap.replaceFirst, .ok (heap.items 0)) := by
  rw [modUheapqHeappop, if_neg hlen]
  rfl

/-- **The popped item** is the only one that is missing. -/
theorem contents_heappop (hlen : heap.len ≠ 0) :
    heap.contents = heap.items 0 ::ₘ (modUheapqHeappop key heap).1.contents := by
  have hreplace : heap.contents = heap.items 0 ::ₘ heap.replaceFirst.contents := by
    obtain ⟨n, hn⟩ := Nat.exists_eq_succ_of_ne_zero hlen
    simp only [ListObj.contents, ListObj.replaceFirst, hn, Nat.succ_eq_add_one,
      Nat.add_sub_cancel]
    exact map_range_replace heap.items n
  rw [hreplace, heappop_replaceFirst key hlen]
  split_ifs with h0
  · rw [contents_siftup key (Nat.pos_of_ne_zero h0)]
  · rfl

theorem heappop_isHeap (hheap : heap.IsHeap key) : (modUheapqHeappop key heap).1.IsHeap key := by
  by_cases hlen : heap.len = 0
  · rwa [modUheapqHeappop, if_pos hlen]
  rw [heappop_replaceFirst key hlen]
  split_ifs with h0
  · have hpos := Nat.pos_of_ne_zero h0
    have hfewer : Ordered heap.replaceFirst.len (key ∘ heap.items) :=
      fun i hi hi' => hheap i hi (hi'.trans_le (Nat.sub_le _ _))
    rw [ListObj.IsHeap, keys_siftup key hpos, ListObj.replaceFirst, Function.comp_update]
    exact (siftup_ordered_iff hfewer hpos _).mpr fun h => absurd h (lt_irrefl 0)
  · intro i hi hi'
    exact absurd (hi.trans hi') (by rw [not_ne_iff.mp h0]; exact lt_irrefl 0)

/-- The first item of a heap is a smallest one. -/
theorem isHeap_first_le (hheap : heap.IsHeap key) {y : α} (hy : y ∈ heap.contents) :
    key (heap.items 0) ≤ key y := by
  obtain ⟨i, hi, rfl⟩ := Multiset.mem_map.mp hy
  exact hheap.root_le (Multiset.mem_range.mp hi)

/-- The loop of `heapify` from its place `i` on: what is behind it is in order. -/
theorem heapifyLoop_spec (i : ℕ) (heap : ListObj α) (hi : i ≤ heap.len)
    (hfrom : OrderedFrom i heap.len (key ∘ heap.items)) :
    (heapifyLoop key i heap).IsHeap key ∧ (heapifyLoop key i heap).contents = heap.contents := by
  induction i generalizing heap with
  | zero => exact ⟨ordered_of_orderedFrom_zero hfrom, rfl⟩
  | succ i ih =>
    have hlt : i < heap.len := hi
    obtain ⟨hheap, hcont⟩ := ih (uheapqHeapSiftup key heap i) hlt.le (by
      rw [keys_siftup key hlt]
      exact siftup_orderedFrom hfrom hlt)
    exact ⟨hheap, hcont.trans (contents_siftup key hlt)⟩

/-- **`heapify` makes a heap of any list** of the same items. The items of the second half have no
children. -/
theorem heapify_spec (heap : ListObj α) :
    (modUheapqHeapify key heap).IsHeap key ∧
      (modUheapqHeapify key heap).contents = heap.contents := by
  refine heapifyLoop_spec key _ heap (Nat.div_le_self _ _) fun i hi hlen hpar => ?_
  omega

/-! ### Sequences of calls -/

/-- What a call promises -/
def HeapqRight (heap : ListObj α) : HeapqOp α → Prop
  | .heapify =>
    (modUheapqHeapify key heap).IsHeap key ∧
      (modUheapqHeapify key heap).contents = heap.contents
  | .heappush item =>
    (heap.IsHeap key → (modUheapqHeappush key heap item).IsHeap key) ∧
      (modUheapqHeappush key heap item).contents = item ::ₘ heap.contents
  | .heappop =>
    (heap.len = 0 ∧ modUheapqHeappop key heap = (heap, .error "empty heap")) ∨
      ∃ item, (modUheapqHeappop key heap).2 = .ok item ∧
        heap.contents = item ::ₘ (modUheapqHeappop key heap).1.contents ∧
        (heap.IsHeap key → (modUheapqHeappop key heap).1.IsHeap key ∧
          ∀ y ∈ heap.contents, key item ≤ key y)

theorem heapqRight (heap : ListObj α) (op : HeapqOp α) : HeapqRight key heap op := by
  cases op with
  | heapify => exact heapify_spec key heap
  | heappush item => exact ⟨heappush_isHeap key, contents_heappush key⟩
  | heappop =>
    by_cases hlen : heap.len = 0
    · exact .inl ⟨hlen, if_pos hlen⟩
    · refine .inr ⟨heap.items 0, ?_, contents_heappop key hlen, fun hheap => ?_⟩
      · rw [heappop_replaceFirst key hlen]
      · exact ⟨heappop_isHeap key hheap, fun y hy => isHeap_first_le key hheap hy⟩

theorem heapqStep_isHeap (op : HeapqOp α) (hheap : heap.IsHeap key) :
    (heapqStep key heap op).IsHeap key := by
  cases op with
  | heapify => exact (heapify_spec key heap).1
  | heappush item => exact heappush_isHeap key hheap
  | heappop => exact heappop_isHeap key hheap

theorem heapqRun_isHeap (ops : List (HeapqOp α)) (heap : ListObj α)
    (hheap : heap.IsHeap key ∨ HeapqOp.heapify ∈ ops) :
    (ops.foldl (heapqStep key) heap).IsHeap key := by
  induction ops generalizing heap with
  | nil => exact hheap.resolve_right List.not_mem_nil
  | cons op ops ih =>
    refine ih (heapqStep key heap op) ?_
    rcases hheap with hheap | hmem
    · exact .inl (heapqStep_isHeap key op hheap)
    · rcases List.mem_cons.mp hmem with rfl | hmem
      · exact .inl (heapify_spec key heap).1
      · exact .inr hmem

/-- **Every call after any other calls** does what it promises, and the list is a heap from the
first `heapify` on, or from the start if it was one. -/
theorem uheapq_right (heap : ListObj α) (ops : List (HeapqOp α)) :
    (∀ op, HeapqRight key (ops.foldl (heapqStep key) heap) op) ∧
      (heap.IsHeap key ∨ HeapqOp.heapify ∈ ops → (ops.foldl (heapqStep key) heap).IsHeap key) :=
  ⟨heapqRight key _, heapqRun_isHeap key ops heap⟩

/-- The smallest of three items in any order, and what is left of them -/
theorem uheapq_right_three :
    (HeapqRight id (modUheapqHeapify id ⟨fun i => [5, 3, 4].getD i 0, 3⟩) .heappop ∧
      (modUheapqHeapify id ⟨fun i => [5, 3, 4].getD i 0, 3⟩).IsHeap id) ∧
    (modUheapqHeappop id (modUheapqHeapify id ⟨fun i => [5, 3, 4].getD i 0, 3⟩)).2.toOption
      = some 3 :=
  ⟨⟨(uheapq_right id ⟨fun i => [5, 3, 4].getD i 0, 3⟩ [.heapify]).1 .heappop,
    (uheapq_right id ⟨fun i => [5, 3, 4].getD i 0, 3⟩ [.heapify]).2 (.inr (by simp))⟩, by decide⟩

/-! ### Sorting -/

/-- The items that up to `n` calls of `heappop` return -/
def heappops : ℕ → ListObj α → List α
  | 0, _ => []
  | n + 1, heap =>
    match modUheapqHeappop key heap with
    | (_, .error _) => []
    | (heap, .ok item) => item :: heappops n heap

theorem heappops_spec (n : ℕ) (heap : ListObj α) (hheap : heap.IsHeap key)
    (hn : heap.contents.card ≤ n) : (heappops key n heap).Pairwise (fun x y => key x ≤ key y) ∧
      (heappops key n heap : Multiset α) = heap.contents := by
  induction n generalizing heap with
  | zero => exact ⟨.nil, (Multiset.card_eq_zero.mp (Nat.le_zero.mp hn)).symm⟩
  | succ n ih =>
    rcases heapqRight key heap .heappop with ⟨hlen, hpop⟩ | ⟨item, hitem, hcont, hsmallest⟩
    · rw [heappops, hpop, ListObj.contents, hlen]
      exact ⟨.nil, rfl⟩
    · obtain ⟨hheap', hle⟩ := hsmallest hheap
      have hrest := ih _ hheap' (by rwa [hcont, Multiset.card_cons, Nat.add_le_add_iff_right] at hn)
      have hstep : heappops key (n + 1) heap = item :: heappops key n
        (modUheapqHeappop key heap).1 := by
        rw [heappops]
        generalize modUheapqHeappop key heap = out at hitem
        obtain ⟨heap', r⟩ := out
        cases hitem
        rfl
      rw [hstep, ← Multiset.cons_coe, hrest.2, ← hcont]
      refine ⟨.cons (fun y hy => hle y ?_) hrest.1, rfl⟩
      rw [hcont, ← hrest.2]
      exact Multiset.mem_cons_of_mem (Multiset.mem_coe.mpr hy)

/-- **Any list is sorted** by `heapify` and calls of `heappop`. -/
theorem uheapq_sorts (heap : ListObj α) :
    (heappops key heap.len (modUheapqHeapify key heap)).Pairwise (fun x y => key x ≤ key y) ∧
      (heappops key heap.len (modUheapqHeapify key heap) : Multiset α) = heap.contents := by
  obtain ⟨hheap, hcont⟩ := heapify_spec key heap
  rw [← hcont]
  refine heappops_spec key _ _ hheap ?_
  rw [hcont, ListObj.contents, Multiset.card_map, Multiset.card_range]

end Pycopy
