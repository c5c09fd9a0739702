import Pycopy.Lib.SyncCode

/-!
# Cutting a List at the Occurrences of Another

A list is cut at some of the places where a separator occurs. The places must not overlap, and there
are two ways to choose as many as possible: from the left, where each place is the first one behind
the last cut, and from the right. If the separator does not overlap with itself they are the same.

## Main results

* `leftmost_eq`, `rightmost_eq`: the first cut, and the others.
* `intercalate_pieces`: joining the pieces gives the list.
* `pieces_inj`: the pieces say where the cuts are.
* `not_infix_of_mem_pieces`: from the left, no piece but the last one has the separator in it.
-/

section Occurrences

variable {α : Type*} [DecidableEq α] {xs ys : List α} {lo hi p : ℕ}

theorem occurrences_eq_nil (h : hi < lo + xs.length) : occurrences xs ys lo hi = [] := by
  rw [List.eq_nil_iff_forall_not_mem]
  intro p hp
  obtain ⟨-, h1, h2, -⟩ := mem_occurrences.mp hp
  omega

theorem filter_occurrences {lo' : ℕ} (h : lo ≤ lo') :
    (occurrences xs ys lo hi).filter (lo' ≤ ·) = occurrences xs ys lo' hi := by
  rw [occurrences, occurrences, List.filter_filter]
  refine List.filter_congr fun p _ => ?_
  rw [← Bool.decide_and, decide_eq_decide]
  constructor
  · rintro ⟨h1, -, h2⟩
    exact ⟨h1, h2⟩
  · rintro ⟨h1, h2⟩
    exact ⟨h1, h.trans h1, h2⟩

theorem occurrences_of_starts (hhi : lo + xs.length ≤ hi) (hle : lo ≤ ys.length)
    (h : xs <+: ys.drop lo) : occurrences xs ys lo hi = lo :: occurrences xs ys (lo + 1) hi := by
  refine (pairwise_occurrences _ _ _ _).eq_of_mem_iff
    (List.pairwise_cons.mpr ⟨fun p hp => ?_, pairwise_occurrences _ _ _ _⟩) fun p => ?_
  · obtain ⟨-, h1, -⟩ := mem_occurrences.mp hp
    omega
  · rw [List.mem_cons, mem_occurrences, mem_occurrences]
    constructor
    · rintro ⟨h1, h2, h3, h4⟩
      rcases Nat.eq_or_lt_of_le h2 with rfl | hlt
      · exact .inl rfl
      · exact .inr ⟨h1, hlt, h3, h4⟩
    · rintro (rfl | ⟨h1, h2, h3, h4⟩)
      · exact ⟨hle, le_rfl, hhi, h⟩
      · exact ⟨h1, by omega, h3, h4⟩

theorem occurrences_of_not_starts (h : ¬xs <+: ys.drop lo) :
    occurrences xs ys lo hi = occurrences xs ys (lo + 1) hi := by
  refine (pairwise_occurrences _ _ _ _).eq_of_mem_iff (pairwise_occurrences _ _ _ _) fun p => ?_
  rw [mem_occurrences, mem_occurrences]
  constructor
  · rintro ⟨h1, h2, h3, h4⟩
    rcases Nat.eq_or_lt_of_le h2 with rfl | hlt
    · exact absurd h4 h
    · exact ⟨h1, hlt, h3, h4⟩
  · rintro ⟨h1, h2, h3, h4⟩
    exact ⟨h1, by omega, h3, h4⟩

theorem occurrences_below_of_starts (hlo : lo ≤ p) (hle : p ≤ ys.length) (h : xs <+: ys.drop p)
    (hxs : xs ≠ []) :
    occurrences xs ys lo (p + xs.length) = occurrences xs ys lo (p + xs.length - 1) ++ [p] := by
  have hpos := List.length_pos_iff.mpr hxs
  refine (pairwise_occurrences _ _ _ _).eq_of_mem_iff (List.pairwise_append.mpr
    ⟨pairwise_occurrences _ _ _ _, List.pairwise_singleton _ _, fun q hq r hr => ?_⟩) fun q => ?_
  · obtain ⟨-, -, h1, -⟩ := mem_occurrences.mp hq
    rw [List.mem_singleton.mp hr]
    omega
  · rw [List.mem_append, List.mem_singleton, mem_occurrences, mem_occurrences]
    constructor
    · rintro ⟨h1, h2, h3, h4⟩
      rcases Nat.eq_or_lt_of_le (Nat.le_of_add_le_add_right h3) with rfl | hlt
      · exact .inr rfl
      · exact .inl ⟨h1, h2, by omega, h4⟩
    · rintro (⟨h1, h2, h3, h4⟩ | rfl)
      · exact ⟨h1, h2, by omega, h4⟩
      · exact ⟨hle, hlo, le_rfl, h⟩

theorem occurrences_below_of_not_starts (h : ¬xs <+: ys.drop p) :
    occurrences xs ys lo (p + xs.length) = occurrences xs ys lo (p + xs.length - 1) := by
  refine (pairwise_occurrences _ _ _ _).eq_of_mem_iff (pairwise_occurrences _ _ _ _) fun q => ?_
  rw [mem_occurrences, mem_occurrences]
  constructor
  · rintro ⟨h1, h2, h3, h4⟩
    rcases Nat.eq_or_lt_of_le (Nat.le_of_add_le_add_right h3) with rfl | hlt
    · exact absurd h4 h
    · exact ⟨h1, h2, by omega, h4⟩
  · rintro ⟨h1, h2, h3, h4⟩
    exact ⟨h1, h2, by omega, h4⟩

end Occurrences

namespace Cut

variable {α : Type*} [DecidableEq α] {sep ys : List α} {k lo hi p : ℕ} {ps : List ℕ}

/-! ### Places that do not overlap -/

/-- From places in rising order: the first one that is not in front of `lo`, then the first one that
is at least `k` behind it, and so on -/
def apart (k : ℕ) : ℕ → List ℕ → List ℕ
  | _, [] => []
  | lo, p :: ps => if lo ≤ p then p :: apart k (p + k) ps else apart k lo ps

/-- From places in falling order: the first one that ends at `hi` or in front of it, and so on -/
def apartBelow (k : ℕ) : ℕ → List ℕ → List ℕ
  | _, [] => []
  | hi, p :: ps => if p + k ≤ hi then p :: apartBelow k p ps else apartBelow k hi ps

/-- The leftmost occurrences between `lo` and `hi` that do not overlap -/
def leftmost (sep ys : List α) (lo hi : ℕ) : List ℕ :=
  apart sep.length lo (occurrences sep ys lo hi)

/-- The rightmost occurrences in front of `hi` that do not overlap, the last one first -/
def rightmost (sep ys : List α) (hi : ℕ) : List ℕ :=
  apartBelow sep.length hi (occurrences sep ys 0 hi).reverse

/-- Places in front of the bound do not matter. -/
theorem apart_filter {m : ℕ} (h : m ≤ lo) (ps : List ℕ) :
    apart k lo (ps.filter (m ≤ ·)) = apart k lo ps := by
  induction ps generalizing lo with
  | nil => rfl
  | cons p ps ih =>
    rw [List.filter_cons, apart]
    by_cases hm : m ≤ p
    · rw [if_pos (by simpa using hm), apart, ih h, ih (by omega)]
    · rw [if_neg (by simpa using hm), if_neg (by omega), ih h]

theorem apartBelow_filter {m : ℕ} (h : hi ≤ m) (ps : List ℕ) :
    apartBelow k hi (ps.filter (· + k ≤ m)) = apartBelow k hi ps := by
  induction ps generalizing hi with
  | nil => rfl
  | cons p ps ih =>
    rw [List.filter_cons, apartBelow]
    by_cases hm : p + k ≤ m
    · rw [if_pos (by simpa using hm), apartBelow, ih h, ih (by omega)]
    · rw [if_neg (by simpa using hm), if_neg (by omega), ih h]

theorem leftmost_of_occurrences_eq_nil (h : occurrences sep ys lo hi = []) :
    leftmost sep ys lo hi = [] := by
  rw [leftmost, h, apart]

/-- **The first cut from the left, and the others** -/
theorem leftmost_eq (hsep : sep ≠ []) (h : (occurrences sep ys lo hi).head? = some p) :
    leftmost sep ys lo hi = p :: leftmost sep ys (p + sep.length) hi := by
  obtain ⟨ps, hps⟩ := List.head?_eq_some_iff.mp h
  have hlo : lo ≤ p := (mem_occurrences.mp (List.mem_of_head? h)).2.1
  have hpos := List.length_pos_iff.mpr hsep
  have hle : lo ≤ p + sep.length := by omega
  have htail : apart sep.length (p + sep.length) (p :: ps) =
      apart sep.length (p + sep.length) ps := by
    rw [apart, if_neg (by omega)]
  rw [leftmost, leftmost, hps, apart, if_pos hlo, ← filter_occurrences hle,
    apart_filter le_rfl, hps, htail]

theorem leftmost_of_filter {lo' : ℕ} (h : lo ≤ lo')
    (hocc : occurrences sep ys lo hi = occurrences sep ys lo' hi) :
    leftmost sep ys lo hi = leftmost sep ys lo' hi := by
  cases hhead : occurrences sep ys lo' hi with
  | nil => rw [leftmost, leftmost, hocc, hhead, apart, apart]
  | cons p ps =>
    have hp : lo' ≤ p := (mem_occurrences.mp (hhead ▸ List.mem_cons_self)).2.1
    rw [leftmost, leftmost, hocc, hhead, apart, apart, if_pos hp, if_pos (h.trans hp)]

theorem leftmost_of_not_starts (h : ¬sep <+: ys.drop lo) :
    leftmost sep ys lo hi = leftmost sep ys (lo + 1) hi :=
  leftmost_of_filter (Nat.le_succ lo) (occurrences_of_not_starts h)

theorem filter_occurrences_below {hi' : ℕ} (h : hi' ≤ hi) :
    (occurrences sep ys lo hi).filter (· + sep.length ≤ hi') = occurrences sep ys lo hi' := by
  rw [occurrences, occurrences, List.filter_filter]
  refine List.filter_congr fun p _ => ?_
  rw [← Bool.decide_and, decide_eq_decide]
  constructor
  · rintro ⟨h1, h2, -, h3⟩
    exact ⟨h2, h1, h3⟩
  · rintro ⟨h1, h2, h3⟩
    exact ⟨h2, h1, h2.trans h, h3⟩

theorem rightmost_of_occurrences_eq_nil (h : occurrences sep ys 0 hi = []) :
    rightmost sep ys hi = [] := by
  rw [rightmost, h, List.reverse_nil, apartBelow]

/-- **The first cut from the right, and the others** -/
theorem rightmost_eq (hsep : sep ≠ []) (h : (occurrences sep ys 0 hi).getLast? = some p) :
    rightmost sep ys hi = p :: rightmost sep ys p := by
  obtain ⟨ps, hps⟩ := List.getLast?_eq_some_iff.mp h
  have hhi : p + sep.length ≤ hi := (mem_occurrences.mp (List.mem_of_getLast? h)).2.2.1
  have hpos := List.length_pos_iff.mpr hsep
  have htail : apartBelow sep.length p (p :: ps.reverse) = apartBelow sep.length p ps.reverse := by
    rw [apartBelow, if_neg (by omega)]
  have hrest : rightmost sep ys p = apartBelow sep.length p ps.reverse := by
    have hle : p ≤ hi := by omega
    rw [rightmost, ← filter_occurrences_below hle, ← List.filter_reverse,
      apartBelow_filter le_rfl, hps, List.reverse_append, List.reverse_singleton,
      List.singleton_append, htail]
  rw [hrest, rightmost, hps, List.reverse_append, List.reverse_singleton, List.singleton_append,
    apartBelow, if_pos hhi]

theorem apart_sublist (k lo : ℕ) (ps : List ℕ) : (apart k lo ps).Sublist ps := by
  induction ps generalizing lo with
  | nil => exact List.Sublist.refl _
  | cons p ps ih =>
    rw [apart]
    split
    · exact (ih _).cons_cons p
    · exact (ih _).cons p

theorem apartBelow_sublist (k hi : ℕ) (ps : List ℕ) : (apartBelow k hi ps).Sublist ps := by
  induction ps generalizing hi with
  | nil => exact List.Sublist.refl _
  | cons p ps ih =>
    rw [apartBelow]
    split
    · exact (ih _).cons_cons p
    · exact (ih _).cons p

theorem le_of_mem_apart (h : p ∈ apart k lo ps) : lo ≤ p := by
  induction ps generalizing lo with
  | nil => cases h
  | cons q ps ih =>
    rw [apart] at h
    split at h
    · rename_i hq
      rcases List.mem_cons.mp h with rfl | h
      · exact hq
      · have := ih h
        omega
    · exact ih h

theorem le_of_mem_apartBelow (h : p ∈ apartBelow k hi ps) : p + k ≤ hi := by
  induction ps generalizing hi with
  | nil => cases h
  | cons q ps ih =>
    rw [apartBelow] at h
    split at h
    · rename_i hq
      rcases List.mem_cons.mp h with rfl | h
      · exact hq
      · have := ih h
        omega
    · exact ih h

theorem pairwise_apart (k lo : ℕ) (ps : List ℕ) : (apart k lo ps).Pairwise (· + k ≤ ·) := by
  induction ps generalizing lo with
  | nil => exact List.Pairwise.nil
  | cons p ps ih =>
    rw [apart]
    split
    · exact List.pairwise_cons.mpr ⟨fun q hq => le_of_mem_apart hq, ih _⟩
    · exact ih _

theorem pairwise_apartBelow (k hi : ℕ) (ps : List ℕ) :
    (apartBelow k hi ps).Pairwise fun p q => q + k ≤ p := by
  induction ps generalizing hi with
  | nil => exact List.Pairwise.nil
  | cons p ps ih =>
    rw [apartBelow]
    split
    · exact List.pairwise_cons.mpr ⟨fun q hq => le_of_mem_apartBelow hq, ih _⟩
    · exact ih _

/-! ### Cuts -/

/-- Some places are cuts behind `lo`: the separator is at each of them, and they do not overlap. -/
structure IsCuts (sep ys : List α) (lo : ℕ) (ps : List ℕ) : Prop where
  lo_le : lo ≤ ys.length
  mem : ∀ p ∈ ps, p ∈ occurrences sep ys lo ys.length
  apart : ps.Pairwise (· + sep.length ≤ ·)

theorem isCuts_leftmost (sep : List α) (h : lo ≤ ys.length) :
    IsCuts sep ys lo (leftmost sep ys lo ys.length) where
  lo_le := h
  mem _ hp := (apart_sublist _ _ _).subset hp
  apart := pairwise_apart _ _ _

theorem isCuts_rightmost (sep ys : List α) (n : ℕ) :
    IsCuts sep ys 0 ((rightmost sep ys ys.length).take n).reverse where
  lo_le := Nat.zero_le _
  mem p hp := by
    have h := (apartBelow_sublist _ _ _).subset (List.mem_of_mem_take (List.mem_reverse.mp hp))
    exact List.mem_reverse.mp h
  apart := by
    rw [List.pairwise_reverse]
    exact (pairwise_apartBelow _ _ _).sublist (List.take_sublist _ _)

theorem IsCuts.sublist {qs : List ℕ} (h : IsCuts sep ys lo ps) (hqs : qs.Sublist ps) :
    IsCuts sep ys lo qs :=
  ⟨h.lo_le, fun p hp => h.mem p (hqs.subset hp), h.apart.sublist hqs⟩

theorem IsCuts.tail (h : IsCuts sep ys lo (p :: ps)) : IsCuts sep ys (p + sep.length) ps where
  lo_le := (mem_occurrences.mp (h.mem p List.mem_cons_self)).2.2.1
  mem q hq := by
    obtain ⟨h1, h2, h3, h4⟩ := mem_occurrences.mp (h.mem q (List.mem_cons_of_mem p hq))
    exact mem_occurrences.mpr ⟨h1, (List.pairwise_cons.mp h.apart).1 q hq, h3, h4⟩
  apart := (List.pairwise_cons.mp h.apart).2

/-! ### Pieces -/

/-- The pieces of a list behind `lo`, with cuts of `k` elements -/
def pieces (k : ℕ) (ys : List α) : ℕ → List ℕ → List (List α)
  | lo, [] => [ys.drop lo]
  | lo, p :: ps => (ys.drop lo).take (p - lo) :: pieces k ys (p + k) ps

omit [DecidableEq α] in
theorem length_pieces (k : ℕ) (ys : List α) (lo : ℕ) (ps : List ℕ) :
    (pieces k ys lo ps).length = ps.length + 1 := by
  induction ps generalizing lo with
  | nil => rfl
  | cons p ps ih => rw [pieces, List.length_cons, ih, List.length_cons]

omit [DecidableEq α] in
theorem pieces_ne_nil (k : ℕ) (ys : List α) (lo : ℕ) (ps : List ℕ) : pieces k ys lo ps ≠ [] := by
  rw [← List.length_pos_iff, length_pieces]
  exact Nat.succ_pos _

/-- **Joining the pieces gives the list.** -/
theorem intercalate_pieces (h : IsCuts sep ys lo ps) :
    sep.intercalate (pieces sep.length ys lo ps) = ys.drop lo := by
  induction ps generalizing lo with
  | nil => simp [pieces]
  | cons p ps ih =>
    obtain ⟨-, hlo, -, t, ht⟩ := mem_occurrences.mp (h.mem p List.mem_cons_self)
    have hdrop : ys.drop (p + sep.length) = t := by
      rw [← List.drop_drop, ← ht, List.drop_left]
    rw [pieces, List.intercalate_cons_of_ne_nil (pieces_ne_nil _ _ _ _), ih h.tail, hdrop,
      List.append_assoc, ht]
    calc (ys.drop lo).take (p - lo) ++ ys.drop p
        = (ys.drop lo).take (p - lo) ++ (ys.drop lo).drop (p - lo) := by
          rw [List.drop_drop, Nat.add_sub_cancel' hlo]
      _ = ys.drop lo := List.take_append_drop _ _

/-- The length, where something else is put between the pieces -/
theorem length_intercalate_pieces (new : List α) (h : IsCuts sep ys lo ps) :
    (new.intercalate (pieces sep.length ys lo ps)).length + ps.length * sep.length + lo =
      ys.length + ps.length * new.length := by
  induction ps generalizing lo with
  | nil =>
    have := h.lo_le
    simp [pieces]
    omega
  | cons p ps ih =>
    obtain ⟨hle, hlo, -, -⟩ := mem_occurrences.mp (h.mem p List.mem_cons_self)
    have htail := ih h.tail
    rw [pieces, List.intercalate_cons_of_ne_nil (pieces_ne_nil _ _ _ _), List.length_append,
      List.length_append, List.length_take, List.length_drop, List.length_cons, Nat.add_mul,
      Nat.add_mul]
    omega

/-- **The pieces say where the cuts are.** -/
theorem pieces_inj {qs : List ℕ} (hp : IsCuts sep ys lo ps) (hq : IsCuts sep ys lo qs)
    (h : pieces sep.length ys lo ps = pieces sep.length ys lo qs) : ps = qs := by
  induction ps generalizing lo qs with
  | nil =>
    have hlen := congrArg List.length h
    rw [length_pieces, length_pieces, List.length_nil] at hlen
    exact (List.eq_nil_of_length_eq_zero (by omega)).symm
  | cons p ps ih =>
    cases qs with
    | nil =>
      have hlen := congrArg List.length h
      rw [length_pieces, length_pieces, List.length_nil, List.length_cons] at hlen
      omega
    | cons q qs =>
      rw [pieces, pieces] at h
      injection h with hhead htail
      have hlen := congrArg List.length hhead
      rw [List.length_take, List.length_take, List.length_drop] at hlen
      obtain ⟨hp1, hp2, -, -⟩ := mem_occurrences.mp (hp.mem p List.mem_cons_self)
      obtain ⟨hq1, hq2, -, -⟩ := mem_occurrences.mp (hq.mem q List.mem_cons_self)
      obtain rfl : p = q := by omega
      rw [ih hp.tail hq.tail htail]

omit [DecidableEq α] in
/-- The last piece comes off at the last cut. -/
theorem pieces_concat {last : ℕ} (hps : ∀ q ∈ ps, q + k ≤ p) (hlo : lo ≤ p) (hlast : p ≤ last) :
    pieces k (ys.take last) lo (ps ++ [p]) =
      pieces k (ys.take p) lo ps ++ [(ys.take last).drop (p + k)] := by
  have htake {m : ℕ} (hm : m ≤ p) (lo : ℕ) :
      ((ys.take last).drop lo).take (m - lo) = ((ys.take p).drop lo).take (m - lo) := by
    rw [List.drop_take, List.drop_take, List.take_take, List.take_take]
    congr 1
    omega
  induction ps generalizing lo with
  | nil =>
    rw [List.nil_append, pieces, pieces, pieces, htake le_rfl, List.drop_take, List.take_take,
      Nat.min_self]
    rfl
  | cons q ps ih =>
    have hq := hps q List.mem_cons_self
    rw [List.cons_append, pieces, pieces, htake (by omega), ih, List.cons_append]
    · exact fun r hr => hps r (List.mem_cons_of_mem q hr)
    · exact hq

/-- In front of the first occurrence there is none. -/
theorem not_infix_take (h : (occurrences sep ys lo ys.length).head? = some p) (hsep : sep ≠ []) :
    ¬sep <:+: (ys.drop lo).take (p - lo) := by
  rintro ⟨s, t, hst⟩
  have hpos := List.length_pos_iff.mpr hsep
  have hlen := congrArg List.length hst
  simp only [List.length_append, List.length_take, List.length_drop] at hlen
  -- an occurrence in the piece is one in the list, and it is in front of `p`
  have hprefix : sep <+: ys.drop (lo + s.length) := by
    rw [← List.drop_drop, ← List.take_append_drop (p - lo) (ys.drop lo), ← hst]
    simp only [List.append_assoc, List.drop_left]
    exact List.prefix_append _ _
  have hmem : lo + s.length ∈ occurrences sep ys lo ys.length :=
    mem_occurrences.mpr ⟨by omega, by omega, by omega, hprefix⟩
  obtain ⟨ps, hps⟩ := List.head?_eq_some_iff.mp h
  have hsorted := pairwise_occurrences sep ys lo ys.length
  rw [hps] at hmem hsorted
  rcases List.mem_cons.mp hmem with heq | hin
  · omega
  · have := (List.pairwise_cons.mp hsorted).1 _ hin
    omega

/-- **From the left, no piece but the last one has the separator in it.** -/
theorem not_infix_of_mem_pieces (hsep : sep ≠ []) (n : ℕ) {piece : List α}
    (h : piece ∈ (pieces sep.length ys lo ((leftmost sep ys lo ys.length).take n)).dropLast) :
    ¬sep <:+: piece := by
  induction n generalizing lo with
  | zero => simp [pieces] at h
  | succ n ih =>
    cases hocc : (occurrences sep ys lo ys.length).head? with
    | none =>
      rw [leftmost_of_occurrences_eq_nil (List.head?_eq_none_iff.mp hocc)] at h
      simp [pieces] at h
    | some p =>
      rw [leftmost_eq hsep hocc, List.take_succ_cons, pieces,
        List.dropLast_cons_of_ne_nil (pieces_ne_nil _ _ _ _)] at h
      rcases List.mem_cons.mp h with rfl | h
      · exact not_infix_take hocc hsep
      · exact ih h

end Cut
