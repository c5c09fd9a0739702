import Mathlib.Data.List.Pairwise
import Pycopy.Map.Ordered

/-!
# Equality of Dictionaries

`dict_binary_op` of `py/objdict.c` for `MP_BINARY_OP_EQUAL`, between a `dict` and an `OrderedDict`
in any combination. `mp_obj_equal` calls the function of its left operand and does not try the right
one.

Two `OrderedDict`s are compared entry by entry. Otherwise the right operand has to be a `dict`, and
the entries of the left one are looked up in it. So a `dict` is never equal to an `OrderedDict` on
its right, while an `OrderedDict` may be equal to a `dict`.

## Main results

* `dict_equal_iff`: when a comparison is symmetric and right.
-/

open OpenAddressing

namespace Pycopy

universe u

variable {S O V : Type u}

/-! ### The source -/

/-- A `dict` or an `OrderedDict` -/
inductive DictObj (S O V : Type u)
  | dict (map : MpMap S O V)
  | ordered (map : OrdMap S O V)

/-- What an iteration with `dict_iter_next` gives -/
def DictObj.iter : DictObj S O V → List (MapKey S O × Option V)
  | .dict map => map.table.filterMap Slot.elem?
  | .ordered map => ordDictIter map

/-- `map.used` -/
def DictObj.used : DictObj S O V → ℕ
  | .dict map => map.used
  | .ordered map => map.used

def DictObj.isOrdered : DictObj S O V → Bool
  | .dict _ => false
  | .ordered _ => true

section Source

variable [DecidableEq S] [DecidableEq O] (K : KeyHashing S O) (valueEqual : V → V → Bool)

/-- `mp_obj_equal` of two values that are there -/
def slotsEqual (v1 v2 : Option V) : Bool := v1.any fun v1 => v2.any fun v2 => valueEqual v1 v2

/-- The loop over two `OrderedDict`s -/
def orderedEqual : List (MapKey S O × Option V) → List (MapKey S O × Option V) → Bool
  | e1 :: l1, e2 :: l2 =>
    if mpObjEqual K.toKeyData e1.1 e2.1 && slotsEqual valueEqual e1.2 e2.2 then orderedEqual l1 l2
    else false
  | [], [] => true
  | _, _ => false

/-- The loop of lookups in a `dict` -/
def lookupEqual (rhs : MpMap S O V) (l : List (MapKey S O × Option V)) : Bool :=
  l.all fun next =>
    match mpMapLookup K 2 rhs next.1 .lookup with
    | some (.slot _ elem, _) => slotsEqual valueEqual next.2 elem.2
    | _ => false

/-- `dict_binary_op` for `MP_BINARY_OP_EQUAL` -/
def dictBinaryOpEqual : DictObj S O V → DictObj S O V → Bool
  | .ordered lhs, .ordered rhs =>
    orderedEqual K valueEqual (ordDictIter lhs) (ordDictIter rhs)
  | lhs, .dict rhs =>
    if lhs.used ≠ rhs.used then false else lookupEqual K valueEqual rhs lhs.iter
  -- a `dict` is not equal to an instance of any other type
  | .dict _, .ordered _ => false

end Source

/-! ### The same pairs -/

/-- Every entry of `la` has a partner in `lb`, which is the partner of no other. If `lb` is not
longer, nothing of it is left out. -/
theorem covers {α β : Type u} {R : α → β → Prop} {la : List α} {lb : List β}
    (hall : ∀ a ∈ la, ∃ b ∈ lb, R a b) (hone : la.Pairwise fun a a' => ∀ b, R a b → ¬R a' b) :
    la.length ≤ lb.length ∧ (lb.length ≤ la.length → ∀ b ∈ lb, ∃ a ∈ la, R a b) := by
  induction la generalizing lb with
  | nil =>
    refine ⟨Nat.zero_le _, fun hlen b hb => ?_⟩
    rw [List.length_eq_zero_iff.mp (Nat.le_zero.mp hlen)] at hb
    exact absurd hb List.not_mem_nil
  | cons a la ih =>
    obtain ⟨b₀, hb₀, hR⟩ := hall a List.mem_cons_self
    obtain ⟨l₁, l₂, rfl⟩ := List.append_of_mem hb₀
    obtain ⟨hhead, htail⟩ := List.pairwise_cons.mp hone
    obtain ⟨hle, hcov⟩ := @ih (l₁ ++ l₂) (fun a' ha' => by
      obtain ⟨b, hb, hR'⟩ := hall a' (List.mem_cons_of_mem a ha')
      refine ⟨b, ?_, hR'⟩
      rcases List.mem_append.mp hb with hb | hb
      · exact List.mem_append_left _ hb
      · refine List.mem_append_right _ ((List.mem_cons.mp hb).resolve_left fun heq => ?_)
        exact hhead a' ha' b₀ hR (heq ▸ hR')) htail
    simp only [List.length_append, List.length_cons] at hle hcov ⊢
    refine ⟨by omega, fun hlen b hb => ?_⟩
    have hrest : b = b₀ ∨ b ∈ l₁ ++ l₂ := by
      simp only [List.mem_append, List.mem_cons] at hb ⊢
      tauto
    rcases hrest with rfl | hb
    · exact ⟨a, List.mem_cons_self, hR⟩
    · obtain ⟨a', ha', hR'⟩ := hcov (by omega) b hb
      exact ⟨a', List.mem_cons_of_mem a ha', hR'⟩

/-- Two entries are the same pair. -/
def SamePair (D : KeyData S O) (valueEqual : V → V → Bool) (e e' : MapKey S O × V) : Prop :=
  mpObjEqual D e.1 e'.1 = true ∧ valueEqual e.2 e'.2 = true

/-- Both lists contain the same pairs. -/
def SamePairs (D : KeyData S O) (valueEqual : V → V → Bool) (l l' : List (MapKey S O × V)) : Prop :=
  (∀ e ∈ l, ∃ e' ∈ l', SamePair D valueEqual e e') ∧ ∀ e' ∈ l', ∃ e ∈ l, SamePair D valueEqual e e'

/-- The entries of a dictionary: the table is in order, every key has a value, and no two keys are
equal. -/
def DictObj.Holds (K : KeyHashing S O) (l : List (MapKey S O × V)) : DictObj S O V → Prop
  | .dict map => map.Good K ∧ map.table.filterMap Slot.elem? = l.map fun e => (e.1, some e.2)
  | .ordered map =>
    (∃ rest, map.Shows l rest) ∧ l.Pairwise fun e e' => mpObjEqual K.toKeyData e.1 e'.1 = false

/-- What equality should be: two `OrderedDict`s also have their pairs in the same order. -/
def SameDict (D : KeyData S O) (valueEqual : V → V → Bool) (a b : DictObj S O V)
    (la lb : List (MapKey S O × V)) : Prop :=
  if a.isOrdered = true ∧ b.isOrdered = true then List.Forall₂ (SamePair D valueEqual) la lb
  else SamePairs D valueEqual la lb

section Entries

variable {K : KeyHashing S O} {valueEqual : V → V → Bool} {a b : DictObj S O V}
  {la lb : List (MapKey S O × V)}

theorem SamePair.symm (hv : Equivalence fun a b => valueEqual a b = true) {e e' : MapKey S O × V}
    (h : SamePair K.toKeyData valueEqual e e') : SamePair K.toKeyData valueEqual e' e :=
  ⟨mpObjEqual_symm _ h.1, hv.symm h.2⟩

theorem SamePairs.symm (hv : Equivalence fun a b => valueEqual a b = true)
    (h : SamePairs K.toKeyData valueEqual la lb) : SamePairs K.toKeyData valueEqual lb la := by
  refine ⟨fun e he => ?_, fun e he => ?_⟩
  · obtain ⟨e', he', hsame⟩ := h.2 e he
    exact ⟨e', he', hsame.symm hv⟩
  · obtain ⟨e', he', hsame⟩ := h.1 e he
    exact ⟨e', he', hsame.symm hv⟩

theorem DictObj.Holds.iter_eq (h : a.Holds K la) : a.iter = la.map fun e => (e.1, some e.2) := by
  cases a with
  | dict map => exact h.2
  | ordered map =>
    obtain ⟨⟨rest, hshows⟩, -⟩ := h
    exact hshows.iter_eq

theorem DictObj.Holds.used_eq (h : a.Holds K la) : a.used = la.length := by
  cases a with
  | dict map =>
    have hcard := congrArg List.length h.2
    rw [List.length_map] at hcard
    exact h.1.used_eq.trans hcard
  | ordered map =>
    obtain ⟨⟨rest, hshows⟩, -⟩ := h
    exact hshows.used_eq

theorem DictObj.Holds.pairwise (h : a.Holds K la) :
    la.Pairwise fun e e' => mpObjEqual K.toKeyData e.1 e'.1 = false := by
  cases a with
  | dict map =>
    have hpair := h.1.consistent.separated.pairwise
    rw [h.2, List.pairwise_map] at hpair
    exact hpair.imp fun hne => Bool.not_eq_true _ ▸ hne
  | ordered map => exact h.2

/-- No pair has two partners on the left. -/
theorem DictObj.Holds.one (h : a.Holds K la) : la.Pairwise fun e e' => ∀ e'',
    SamePair K.toKeyData valueEqual e e'' → ¬SamePair K.toKeyData valueEqual e' e'' :=
  h.pairwise.imp fun hne e'' h₁ h₂ => by
    rw [mpObjEqual_trans _ h₁.1 (mpObjEqual_symm _ h₂.1)] at hne
    exact Bool.false_ne_true hne.symm

/-- **The comparison of two `OrderedDict`s** -/
theorem orderedEqual_iff : orderedEqual K valueEqual (la.map fun e => (e.1, some e.2))
      (lb.map fun e => (e.1, some e.2)) = true ↔
        List.Forall₂ (SamePair K.toKeyData valueEqual) la lb := by
  induction la generalizing lb with
  | nil => cases lb <;> simp [orderedEqual]
  | cons e la ih =>
    cases lb with
    | nil => simp [orderedEqual]
    | cons e' lb =>
      rw [List.map_cons, List.map_cons, orderedEqual, List.forall₂_cons, ← ih, SamePair]
      simp [slotsEqual, and_assoc]

variable [DecidableEq S] [DecidableEq O]

/-- A lookup in a `dict` finds the partner of a pair. -/
theorem lookup_pair {map : MpMap S O V} (hb : (DictObj.dict map).Holds K lb) (e : MapKey S O × V) :
    (match mpMapLookup K 2 map e.1 .lookup with
      | some (.slot _ elem, _) => slotsEqual valueEqual (some e.2) elem.2
      | _ => false) = true ↔ ∃ e' ∈ lb, SamePair K.toKeyData valueEqual e e' := by
  have hcont : contents map.table = (lb.map fun e => (e.1, some e.2) : List _) :=
    congrArg _ hb.2
  have hmem : ∀ {elem}, elem ∈ contents map.table ↔ ∃ e' ∈ lb, (e'.1, some e'.2) = elem := by
    intro elem
    rw [hcont, Multiset.mem_coe, List.mem_map]
  obtain ⟨ref, map', hlookup, -, hstep⟩ := mpMapLookup_spec hb.1 0 e.1 .lookup
  rw [hlookup]
  generalize contents map.table = m at hstep hmem
  generalize htable : map'.table = table at hstep
  cases hstep with
  | found hpos hequal _ hm =>
    obtain ⟨e', he', rfl⟩ := hmem.mp (hm ▸ mem_contents.mpr ⟨_, hpos⟩)
    refine ⟨fun h => ⟨e', he', mpObjEqual_symm _ hequal, h⟩, ?_⟩
    rintro ⟨e'', he'', hsame⟩
    -- the keys of the table differ, so it is the entry that was found
    have hkeys := mpObjEqual_trans _ hequal hsame.1
    have heq : e' = e'' := by
      by_contra hne
      have : Std.Symm fun e e' : MapKey S O × V => mpObjEqual K.toKeyData e.1 e'.1 = false :=
        ⟨fun _ _ h => Bool.not_eq_true _ ▸ fun h' => Bool.false_ne_true (h.symm.trans
          (mpObjEqual_symm _ h'))⟩
      have hdiff := hb.pairwise.forall he' he'' hne
      rw [hkeys] at hdiff
      exact Bool.false_ne_true hdiff.symm
    subst heq
    exact hsame.2
  | null hnew _ _ =>
    refine iff_of_false Bool.false_ne_true ?_
    rintro ⟨e', he', hsame⟩
    have hdiff := hnew _ (hmem.mpr ⟨e', he', rfl⟩)
    rw [mpObjEqual_symm _ hsame.1] at hdiff
    exact Bool.false_ne_true hdiff.symm

/-- **The comparison by lookups**: as many pairs that all have a partner are the same pairs. -/
theorem lookupEqual_iff {map : MpMap S O V} (hv : Equivalence fun a b => valueEqual a b = true)
    (ha : a.Holds K la) (hb : (DictObj.dict map).Holds K lb) :
    (if a.used ≠ map.used then false else lookupEqual K valueEqual map a.iter) = true ↔
      SamePairs K.toKeyData valueEqual la lb := by
  have hall : lookupEqual K valueEqual map a.iter = true ↔
      ∀ e ∈ la, ∃ e' ∈ lb, SamePair K.toKeyData valueEqual e e' := by
    rw [lookupEqual, ha.iter_eq, List.all_eq_true, List.forall_mem_map]
    exact forall₂_congr fun e _ => lookup_pair hb e
  have hused : map.used = lb.length := hb.used_eq
  rw [ha.used_eq, hused]
  constructor
  · intro h
    split at h
    · exact absurd h Bool.false_ne_true
    · rename_i hlen
      have hpairs := hall.mp h
      exact ⟨hpairs, (covers hpairs ha.one).2 (not_not.mp hlen).ge⟩
  · intro h
    have hle := (covers h.1 ha.one).1
    have hge := (covers (h.symm hv).1 hb.one).1
    rw [if_neg (not_not.mpr (Nat.le_antisymm hle hge))]
    exact hall.mpr h.1

/-- **When a comparison of dictionaries is symmetric and right**: the operands have the same type,
or they do not contain the same pairs. -/
theorem dict_equal_iff (hv : Equivalence fun a b => valueEqual a b = true)
    (ha : a.Holds K la) (hb : b.Holds K lb) :
    (dictBinaryOpEqual K valueEqual a b = dictBinaryOpEqual K valueEqual b a ∧
        (dictBinaryOpEqual K valueEqual a b = true ↔ SameDict K.toKeyData valueEqual a b la lb)) ↔
      a.isOrdered = b.isOrdered ∨ ¬SamePairs K.toKeyData valueEqual la lb := by
  cases a with
  | ordered ma =>
    cases b with
    | ordered mb =>
      refine iff_of_true ?_ (.inl rfl)
      have hab := @orderedEqual_iff _ _ _ K valueEqual la lb
      have hba := @orderedEqual_iff _ _ _ K valueEqual lb la
      rw [← ha.iter_eq, ← hb.iter_eq] at hab hba
      refine ⟨?_, hab⟩
      rw [Bool.eq_iff_iff]
      refine hab.trans (Iff.trans ?_ hba.symm)
      exact ⟨fun h => h.flip.imp fun _ _ => SamePair.symm hv,
        fun h => h.flip.imp fun _ _ => SamePair.symm hv⟩
    | dict mb =>
      have hab := lookupEqual_iff hv ha hb
      have hba : dictBinaryOpEqual K valueEqual (.dict mb) (.ordered ma) = false := rfl
      have hcode : dictBinaryOpEqual K valueEqual (.ordered ma) (.dict mb) = true ↔
          SamePairs K.toKeyData valueEqual la lb := hab
      rw [hba, ← Bool.not_eq_true, hcode]
      exact ⟨fun h => .inr h.1, fun h => ⟨h.resolve_left nofun, Iff.rfl⟩⟩
  | dict ma =>
    cases b with
    | ordered mb =>
      have hcode : dictBinaryOpEqual K valueEqual (.ordered mb) (.dict ma) = true ↔
          SamePairs K.toKeyData valueEqual lb la := lookupEqual_iff hv hb ha
      have hab : dictBinaryOpEqual K valueEqual (.dict ma) (.ordered mb) = false := rfl
      have hsame : SameDict K.toKeyData valueEqual (.dict ma) (.ordered mb) la lb ↔
          SamePairs K.toKeyData valueEqual la lb := Iff.rfl
      rw [hab, hsame]
      constructor
      · exact fun h => .inr fun hpairs => Bool.false_ne_true (h.2.mpr hpairs)
      · intro h
        have hne := h.resolve_left nofun
        refine ⟨?_, iff_of_false Bool.false_ne_true hne⟩
        rw [eq_comm, ← Bool.not_eq_true, hcode]
        exact fun hpairs => hne (hpairs.symm hv)
    | dict mb =>
      refine iff_of_true ?_ (.inl rfl)
      have hab := lookupEqual_iff hv ha hb
      have hba := lookupEqual_iff hv hb ha
      refine ⟨?_, hab⟩
      rw [Bool.eq_iff_iff]
      exact hab.trans ⟨fun h => hba.mpr (h.symm hv), fun h => (hba.mp h).symm hv⟩

end Entries

/-- A table with one entry -/
def oneDict : MpMap (List UInt8) ℕ ℕ := ⟨false, 1, [.filled (.other 0, some 5), .null]⟩

def oneOrdered : OrdMap (List UInt8) ℕ ℕ := ⟨false, 1, [(.filled (.other 0), some 5)]⟩

/-- Neither `OrderedDict({0: 5}) == {0: 6}` nor `{0: 6} == OrderedDict({0: 5})` holds: the second
`dict` is what storing 6 under 0 in an empty one leaves. -/
theorem dict_equal_other :
    ∃ r map, mpMapOp zeroKeys 2 (mpMapInit 2) (.lookup (.other 0) .addIfNotFound fun _ => some 6) =
        some (r, map) ∧
      dictBinaryOpEqual zeroKeys (fun a b : ℕ => a == b) (.ordered oneOrdered) (.dict map) =
        dictBinaryOpEqual zeroKeys (fun a b : ℕ => a == b) (.dict map) (.ordered oneOrdered) := by
  obtain ⟨r, map, hop, hmap, -⟩ := mpMapOp_lookup (mpMapInit_good zeroKeys 2) 0 (.other 0)
    .addIfNotFound fun _ => some 6
  have hone : (DictObj.ordered oneOrdered).Holds zeroKeys [(.other 0, 5)] :=
    ⟨⟨[], rfl, rfl, nofun, nofun⟩, List.pairwise_singleton _ _⟩
  have hother : (DictObj.dict map).Holds zeroKeys [(.other 0, 6)] := by
    refine ⟨hmap, ?_⟩
    cases hop
    rfl
  refine ⟨r, map, hop, ((dict_equal_iff ?_ hone hother).mpr (.inr ?_)).1⟩
  · simpa only [beq_iff_eq] using eq_equivalence
  · rintro ⟨hsame, -⟩
    simpa [SamePair] using hsame _ List.mem_cons_self

/-- `OrderedDict({0: 5}) == {0: 5}` holds, and `{0: 5} == OrderedDict({0: 5})` does not. -/
theorem dict_equal_asymmetric :
    dictBinaryOpEqual zeroKeys (fun a b : ℕ => a == b) (.ordered oneOrdered) (.dict oneDict) =
        true ∧
      dictBinaryOpEqual zeroKeys (fun a b : ℕ => a == b) (.dict oneDict) (.ordered oneOrdered) =
        false := by
  decide

end Pycopy
