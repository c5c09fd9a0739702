import Mathlib.Data.List.Basic

/-!
# Non-Blocking Streams

The reading end of a stream. A call of `read` gives at least one of the bytes that are asked for and
that have not been read, or it fails because nothing is there yet, or it says that the stream has
ended. Which of these happens is not known in advance: it is given as a schedule. What is read goes
into a buffer, from some place of it on.

## Main results

* `Source.read_cases`: what a call of `read` can do.
-/

namespace Stream

variable {α : Type}

/-- What happens in a call of `read`: it fails, it finds the end of the stream, or there are `n + 1`
bytes for it. -/
inductive Delivery
  | error
  | eof
  | upTo (n : ℕ)
  deriving DecidableEq, Repr

/-- What a call of `read` returns -/
inductive ReadResult (α : Type)
  | error
  | eof
  | bytes (bs : List α)
  deriving DecidableEq, Repr

/-- What has not been read, and what happens in the next calls. After them every call fails. -/
structure Source (α : Type) where
  data : List α
  sched : List Delivery
  deriving DecidableEq, Repr

/-- A call of `read` for at most `n` bytes -/
def Source.read (s : Source α) (n : ℕ) : ReadResult α × Source α :=
  match s.sched with
  | [] => (.error, s)
  | .error :: sched => (.error, { s with sched := sched })
  | .eof :: sched => (.eof, { s with sched := sched })
  | .upTo k :: sched =>
    if s.data = [] then (.error, { s with sched := sched })
    else
      (.bytes (s.data.take (min (k + 1) n)),
        { data := s.data.drop (min (k + 1) n), sched := sched })

/-- **What a call of `read` can do**: it returns the next bytes, or it changes nothing. It returns
bytes only if it is in the schedule. -/
theorem Source.read_cases (s : Source α) {n : ℕ} (hn : 0 < n) :
    (∃ bs, (s.read n).1 = .bytes bs ∧ bs ≠ [] ∧ bs.length ≤ n ∧
      s.data = bs ++ (s.read n).2.data ∧ (s.read n).2.sched.length + 1 = s.sched.length) ∨
    (((s.read n).1 = .error ∨ (s.read n).1 = .eof) ∧ (s.read n).2.data = s.data ∧
      (s.read n).2.sched.length ≤ s.sched.length) := by
  rw [Source.read]
  split
  · exact .inr ⟨.inl rfl, rfl, Nat.le_refl _⟩
  · next h => exact .inr ⟨.inl rfl, rfl, by rw [h]; exact Nat.le_succ _⟩
  · next h => exact .inr ⟨.inr rfl, rfl, by rw [h]; exact Nat.le_succ _⟩
  · next h =>
      split
      · exact .inr ⟨.inl rfl, rfl, by rw [h]; exact Nat.le_succ _⟩
      · next k sched hdata =>
          refine .inl ⟨_, rfl, ?_, ?_, (List.take_append_drop _ _).symm, by rw [h]; rfl⟩
          · have hlen : 0 < s.data.length := List.length_pos_iff.mpr hdata
            rw [← List.length_pos_iff, List.length_take]
            omega
          · rw [List.length_take]
            omega

variable {bs : List α}

theorem Source.length_le_of_read {s s' : Source α} {n : ℕ}
    (h : s.read n = (.bytes bs, s')) : bs.length ≤ n := by
  rw [Source.read] at h
  split at h
  · cases h
  · cases h
  · cases h
  · split at h
    · cases h
    · cases h
      rw [List.length_take]
      omega

/-! ### Buffers -/

/-- A buffer into which bytes are read from a place on -/
def splice (buf : List α) (pos : ℕ) (bs : List α) : List α :=
  buf.take pos ++ bs ++ buf.drop (pos + bs.length)

theorem take_splice {buf bs : List α} {pos : ℕ} (h : pos ≤ buf.length) :
    (splice buf pos bs).take (pos + bs.length) = buf.take pos ++ bs := by
  rw [splice]
  exact List.take_left' (by rw [List.length_append, List.length_take, Nat.min_eq_left h])

variable {buf : List α}

/-- A part of a buffer is a buffer as well. -/
theorem drop_splice {k : ℕ} (h : k ≤ buf.length) (pos : ℕ) (bs : List α) :
    (splice buf (k + pos) bs).drop k = splice (buf.drop k) pos bs := by
  simp only [splice, List.append_assoc]
  rw [List.drop_append_of_le_length (by rw [List.length_take]; omega), List.drop_take,
    Nat.add_sub_cancel_left, List.drop_drop, Nat.add_assoc]

theorem length_splice {pos : ℕ} (h : pos + bs.length ≤ buf.length) :
    (splice buf pos bs).length = buf.length := by
  simp only [splice, List.length_append, List.length_take, List.length_drop]
  omega

variable {bs : List α} {pos : ℕ}

theorem splice_append {a b : List α} (h : pos + bs.length ≤ a.length) :
    splice (a ++ b) pos bs = splice a pos bs ++ b := by
  rw [splice, splice, List.take_append_of_le_length (by omega), List.drop_append_of_le_length h,
    List.append_assoc, List.append_assoc, List.append_assoc]

/-- Elements that are stored below `m` -/
theorem take_splice_of_le {m : ℕ} (h : pos + bs.length ≤ m) (hm : m ≤ buf.length) :
    (splice buf pos bs).take m = splice (buf.take m) pos bs := by
  have hlen : (buf.take m).length = m := List.length_take_of_le hm
  conv_lhs => rw [← List.take_append_drop m buf]
  rw [splice_append (by omega)]
  exact List.take_left' (by rw [length_splice (by omega), hlen])

theorem drop_splice_of_le {k : ℕ} (h : pos + bs.length ≤ k) (hpos : pos ≤ buf.length) :
    (splice buf pos bs).drop k = buf.drop k := by
  have hlen : (buf.take pos ++ bs).length = pos + bs.length := by
    rw [List.length_append, List.length_take_of_le hpos]
  rw [splice, show k = pos + bs.length + (k - (pos + bs.length)) by omega, ← List.drop_drop,
    List.drop_left' hlen, List.drop_drop]

/-- The elements before the place -/
theorem take_splice_pos (hpos : pos ≤ buf.length) :
    (splice buf pos bs).take pos = buf.take pos := by
  rw [splice, List.append_assoc]
  exact List.take_left' (List.length_take_of_le hpos)

/-- What is written behind something that was written -/
theorem splice_splice {cs : List α} (hpos : pos ≤ buf.length) :
    splice (splice buf pos bs) (pos + bs.length) cs = splice buf pos (bs ++ cs) := by
  have hlen : pos + bs.length ≤ pos + bs.length + cs.length := Nat.le_add_right _ _
  rw [splice, take_splice hpos, drop_splice_of_le hlen hpos, splice, List.length_append,
    List.append_assoc (buf.take pos), Nat.add_assoc]

/-- What is written before something that was written -/
theorem splice_splice_before {cs : List α} (hpos : pos + bs.length ≤ buf.length) :
    splice (splice buf (pos + bs.length) cs) pos bs = splice buf pos (bs ++ cs) := by
  have hlen : (buf.take (pos + bs.length)).length = pos + bs.length := List.length_take_of_le hpos
  rw [splice, splice, splice, List.append_assoc (buf.take (pos + bs.length)),
    List.take_append_of_le_length (by omega), List.take_take, Nat.min_eq_left (by omega),
    List.drop_left' hlen, List.length_append, List.append_assoc, List.append_assoc,
    List.append_assoc, Nat.add_assoc]

end Stream
