import Mathlib.Data.Set.Basic
import Pycopy.Runtime.Hash

/-!
# The Methods of Sets

The methods and operators of `py/objset.c`. Each of them passes the elements of its argument to
`mp_set_lookup`, one after the other, with the kind of lookup that fits the method.

An element that the argument has twice is looked up twice. That does no harm where the second lookup
finds what the first one left, but `symmetric_difference` adds an element that is missing and
removes one that is there, so the second lookup undoes the first.

## Main results

* `set_methods_iff`: every method gives what it should, `symmetric_difference` if and only if every
  value of the argument is there an odd number of times.
* `set_make_new_values`: the elements and the equality of new sets.
-/

open OpenAddressing

namespace Pycopy

/-! ### The source -/

/-- What a method is given: the set it is called on, another set, or another iterable -/
inductive SetArg (α : Type)
  | self
  | set (other : MpSet α)
  | iterable (elems : List α)

/-- The methods with one argument, and the comparisons `<` and `>` -/
inductive SetMethod
  | union
  | update
  | intersection
  | intersectionUpdate
  | difference
  | differenceUpdate
  | symmetricDifference
  | symmetricDifferenceUpdate
  | issubset
  | issuperset
  | isdisjoint
  | less
  | more
  deriving DecidableEq, Repr

inductive SetResult (α : Type)
  | none
  | set (out : MpSet α)
  | bool (b : Bool)
  /-- `MP_OBJ_NULL` -/
  | notSupported

section Source

variable {α : Type} (H : Hashing α)

/-- The elements that `set_it_iternext` gives -/
def MpSet.elems (set : MpSet α) : List α := set.table.filterMap Slot.elem?

def SetArg.elems (self : MpSet α) : SetArg α → List α
  | .self => self.elems
  | .set other => other.elems
  | .iterable elems => elems

def SetArg.isSelf : SetArg α → Bool
  | .self => true
  | _ => false

/-- `is_set_or_frozenset` -/
def SetArg.isSet : SetArg α → Bool
  | .iterable _ => false
  | _ => true

/-- A loop over an iterable with a lookup of each element -/
def mpSetLookupAll (kind : LookupKind) (set : MpSet α) (t : List α) : Option (MpSet α) :=
  t.foldlM (fun set next => (mpSetLookup H 2 set next kind).map Prod.snd) set

/-- `set_intersect_int`, up to the use of its result -/
def setIntersectLoop (self out : MpSet α) (t : List α) : Option (MpSet α) :=
  t.foldlM
    (fun out next => do
      let (found, _) ← mpSetLookup H 2 self next .lookup
      if found.isSome then (mpSetLookup H 2 out next .addIfNotFound).map Prod.snd else some out)
    out

def setIntersectInt (self : MpSet α) (arg : SetArg α) : Option (MpSet α) :=
  if arg.isSelf then some self else setIntersectLoop H self (mpSetInit 0) (arg.elems self)

/-- `set_diff_int`: a copy of the set is not its argument. -/
def setDiffInt (self : MpSet α) (arg : SetArg α) (update : Bool) : Option (MpSet α) :=
  if update = true ∧ arg.isSelf = true then some (mpSetInit 0)
  else mpSetLookupAll H .removeIfFound self (arg.elems self)

/-- `set_isdisjoint` -/
def setIsdisjoint (self : MpSet α) : List α → Option Bool
  | [] => some true
  | next :: t => do
    let (found, _) ← mpSetLookup H 2 self next .lookup
    if found.isSome then some false else setIsdisjoint self t

/-- `set_issubset_internal` makes a set of an operand that is not one. -/
def SetArg.toSet (self : MpSet α) : SetArg α → Option (MpSet α)
  | .self => some self
  | .set other => some other
  | .iterable elems => mpSetLookupAll H .addIfNotFound (mpSetInit 0) elems

/-- `set_issubset_internal` for two sets -/
def setIssubset (proper : Bool) (self other : MpSet α) : Bool :=
  if proper = true ∧ self.used = other.used then false else setIssubsetInternal H self other

/-- A call of a method: the set after it, and its result. A method that does not update the set
works on a copy. -/
def setCall (self : MpSet α) (arg : SetArg α) : SetMethod → Option (MpSet α × SetResult α)
  | .union => (mpSetLookupAll H .addIfNotFound self (arg.elems self)).map (self, .set ·)
  | .update => (mpSetLookupAll H .addIfNotFound self (arg.elems self)).map (·, .none)
  | .intersection => (setIntersectInt H self arg).map (self, .set ·)
  | .intersectionUpdate => (setIntersectInt H self arg).map (·, .none)
  | .difference => (setDiffInt H self arg false).map (self, .set ·)
  | .differenceUpdate => (setDiffInt H self arg true).map (·, .none)
  | .symmetricDifference =>
    (mpSetLookupAll H .addIfNotFoundOrRemoveIfFound self (arg.elems self)).map (self, .set ·)
  | .symmetricDifferenceUpdate =>
    (mpSetLookupAll H .addIfNotFoundOrRemoveIfFound self (arg.elems self)).map (·, .none)
  | .issubset => (arg.toSet H self).map fun other => (self, .bool (setIssubset H false self other))
  | .issuperset => (arg.toSet H self).map fun other =>
    (self, .bool (setIssubset H false other self))
  | .isdisjoint => (setIsdisjoint H self (arg.elems self)).map (self, .bool ·)
  | .less =>
    if arg.isSet then
      (arg.toSet H self).map fun other => (self, .bool (setIssubset H true self other))
    else some (self, .notSupported)
  | .more =>
    if arg.isSet then
      (arg.toSet H self).map fun other => (self, .bool (setIssubset H true other self))
    else some (self, .notSupported)

end Source

/-! ### What the methods are for -/

/-- A result, with the values of a set and the meaning of a truth value -/
inductive SetAnswer (V : Type)
  | none
  | set (s : Set V)
  | bool (p : Prop)
  | notSupported

/-- The set after a call and the result, for a set `s` and an argument with the values `T` -/
def methodSpec {V : Type} (s T : Set V) (isSet : Bool) : SetMethod → Set V × SetAnswer V
  | .union => (s, .set (s ∪ T))
  | .update => (s ∪ T, .none)
  | .intersection => (s, .set (s ∩ T))
  | .intersectionUpdate => (s ∩ T, .none)
  | .difference => (s, .set (s \ T))
  | .differenceUpdate => (s \ T, .none)
  | .symmetricDifference => (s, .set (s \ T ∪ T \ s))
  | .symmetricDifferenceUpdate => (s \ T ∪ T \ s, .none)
  | .issubset => (s, .bool (s ⊆ T))
  | .issuperset => (s, .bool (T ⊆ s))
  | .isdisjoint => (s, .bool (s ∩ T = ∅))
  | .less => (s, if isSet then .bool (s ⊆ T ∧ s ≠ T) else .notSupported)
  | .more => (s, if isSet then .bool (T ⊆ s ∧ s ≠ T) else .notSupported)

/-- The values after a lookup of a value -/
def lookupStep {V : Type} (kind : LookupKind) (s : Set V) (v : V) : Set V :=
  {x | x ≠ v ∧ x ∈ s ∨ x = v ∧ (x ∈ s ∧ kind.removes = false ∨ x ∉ s ∧ kind.adds = true)}

section Steps

variable {V : Type} (s : Set V) (l : List V) (x : V)

theorem foldl_add : x ∈ l.foldl (lookupStep .addIfNotFound) s ↔ x ∈ s ∨ x ∈ l := by
  induction l generalizing s with
  | nil => simp
  | cons v l ih =>
    have hstep : x ∈ lookupStep .addIfNotFound s v ↔ x ∈ s ∨ x = v := by
      simp only [lookupStep, Set.mem_ofPred_eq,
        show LookupKind.addIfNotFound.removes = false from rfl,
        show LookupKind.addIfNotFound.adds = true from rfl]
      tauto
    rw [List.foldl_cons, ih, hstep, List.mem_cons, or_assoc]

theorem foldl_remove : x ∈ l.foldl (lookupStep .removeIfFound) s ↔ x ∈ s ∧ x ∉ l := by
  induction l generalizing s with
  | nil => simp
  | cons v l ih =>
    have hstep : x ∈ lookupStep .removeIfFound s v ↔ x ∈ s ∧ x ≠ v := by
      simp only [lookupStep, Set.mem_ofPred_eq,
        show LookupKind.removeIfFound.removes = true from rfl,
        show LookupKind.removeIfFound.adds = false from rfl, Bool.true_eq_false, Bool.false_eq_true]
      tauto
    rw [List.foldl_cons, ih, hstep, List.mem_cons, not_or, and_assoc]

open Classical in
/-- **Adding and removing in turns**: only the parity of a value counts. -/
theorem foldl_toggle : x ∈ l.foldl (lookupStep .addIfNotFoundOrRemoveIfFound) s ↔
    (x ∈ s ↔ l.count x % 2 = 0) := by
  induction l generalizing s with
  | nil => simp
  | cons v l ih =>
    have hstep : x ∈ lookupStep .addIfNotFoundOrRemoveIfFound s v ↔ (x ∈ s ↔ x ≠ v) := by
      simp only [lookupStep, Set.mem_ofPred_eq,
        show LookupKind.addIfNotFoundOrRemoveIfFound.removes = true from rfl,
        show LookupKind.addIfNotFoundOrRemoveIfFound.adds = true from rfl, Bool.true_eq_false]
      tauto
    rw [List.foldl_cons, ih, hstep, List.count_cons]
    by_cases hv : v = x
    · rw [if_pos (beq_iff_eq.mpr hv)]
      simp only [hv, ne_eq, not_true, iff_false]
      have hparity : (l.count x + 1) % 2 = 0 ↔ ¬l.count x % 2 = 0 := by omega
      rw [hparity]
      tauto
    · rw [if_neg (by simpa using hv), Nat.add_zero]
      simp only [ne_eq, Ne.symm hv, not_false_eq_true, iff_true]

end Steps

/-! ### The values of a set -/

section Values

variable {w : ℕ} {E : ObjConfig w} {L : ObjLevel E} {set self other : MpSet L.Carrier}

/-- The values of the elements -/
def MpSet.values (L : ObjLevel E) (set : MpSet L.Carrier) : Set L.Value :=
  {v | v ∈ (contents set.table).map L.value}

theorem mem_values_iff {v : L.Value} : v ∈ set.values L ↔ v ∈ set.elems.map L.value := by
  rw [MpSet.values, Set.mem_ofPred_eq, contents, Multiset.map_coe, Multiset.mem_coe]
  rfl

theorem values_mpSetInit : (mpSetInit 0 : MpSet L.Carrier).values L = ∅ := by
  ext v
  simp [mem_values_iff, MpSet.elems, mpSetInit]

/-- **A lookup** changes the values by one step. -/
theorem lookup_values (hset : set.Good L.hashing) (next : L.Carrier) (kind : LookupKind) :
    ∃ found set', mpSetLookup L.hashing 2 set next kind = some (found, set') ∧
      set'.Good L.hashing ∧ set'.values L = lookupStep kind (set.values L) (L.value next) := by
  obtain ⟨found, set', hlookup, hset', hstep⟩ := mpSetLookup_spec hset 0 next kind
  refine ⟨found, set', hlookup, hset', Set.ext fun x => ?_⟩
  have hnodup := nodup_values hset
  have hvalue : ∀ a b, L.hashing.equal a b = true ↔ L.value a = L.value b := L.equal_iff
  rw [lookupStep, Set.mem_ofPred_eq, MpSet.values, MpSet.values, Set.mem_ofPred_eq,
    Set.mem_ofPred_eq]
  generalize contents set.table = m at hstep hnodup ⊢
  generalize contents set'.table = m' at hstep ⊢
  have hout (hnew : ∀ elem ∈ m, L.hashing.equal elem next = false) :
      L.value next ∉ m.map L.value := fun h => by
    obtain ⟨elem, hmem, hequal⟩ := Multiset.mem_map.mp h
    exact Bool.false_ne_true ((hnew elem hmem).symm.trans ((hvalue _ _).mpr hequal))
  cases hstep with
  | hit hmem hequal hkind =>
    have hin := Multiset.mem_map_of_mem L.value hmem
    rw [(hvalue _ _).mp hequal] at hin
    by_cases hx : x = L.value next
    · simp [hx, hin, hkind]
    · simp [hx]
  | delete hequal hkind =>
    rw [Multiset.map_cons, Multiset.nodup_cons, (hvalue _ _).mp hequal] at hnodup
    rw [Multiset.map_cons, Multiset.mem_cons, (hvalue _ _).mp hequal]
    by_cases hx : x = L.value next
    · simp [hx, hnodup.1, hkind]
    · simp [hx]
  | insert hnew hkind =>
    have hout := hout hnew
    rw [Multiset.map_cons, Multiset.mem_cons]
    by_cases hx : x = L.value next
    · simp [hx, hout, hkind]
    · simp [hx]
  | miss hnew hkind =>
    have hout := hout hnew
    by_cases hx : x = L.value next
    · simp [hx, hout, hkind]
    · simp [hx]

/-- **A loop of lookups** takes a step for every element. -/
theorem lookupAll_values (kind : LookupKind) (hset : set.Good L.hashing) (t : List L.Carrier) :
    ∃ out, mpSetLookupAll L.hashing kind set t = some out ∧ out.Good L.hashing ∧
      out.values L = (t.map L.value).foldl (lookupStep kind) (set.values L) := by
  induction t generalizing set with
  | nil => exact ⟨set, rfl, hset, rfl⟩
  | cons next t ih =>
    obtain ⟨found, set', hlookup, hset', hvalues⟩ := lookup_values hset next kind
    obtain ⟨out, hall, hout, houtValues⟩ := ih hset'
    refine ⟨out, ?_, hout, ?_⟩
    · rw [mpSetLookupAll, List.foldlM_cons, hlookup]
      exact hall
    · rw [houtValues, hvalues, List.map_cons, List.foldl_cons]

/-- A lookup that changes nothing finds the values of the set. -/
theorem lookup_found (hself : self.Good L.hashing) (next : L.Carrier) :
    ∃ found set', mpSetLookup L.hashing 2 self next .lookup = some (found, set') ∧
      (found.isSome = true ↔ L.value next ∈ self.values L) := by
  obtain ⟨found, set', hlookup, -, -⟩ := lookup_values hself next .lookup
  have hiff := lookup_isSome_iff hself next
  rw [hlookup, Option.any_some] at hiff
  exact ⟨found, set', hlookup, hiff⟩

theorem setIntersectLoop_values (hself : self.Good L.hashing) {out : MpSet L.Carrier}
    (hout : out.Good L.hashing) (t : List L.Carrier) :
    ∃ out', setIntersectLoop L.hashing self out t = some out' ∧ out'.Good L.hashing ∧
      ∀ v, v ∈ out'.values L ↔ v ∈ out.values L ∨ v ∈ self.values L ∧ v ∈ t.map L.value := by
  induction t generalizing out with
  | nil => exact ⟨out, rfl, hout, by simp⟩
  | cons next t ih =>
    obtain ⟨found, set', hfind, hfound⟩ := lookup_found hself next
    by_cases hin : L.value next ∈ self.values L
    · obtain ⟨_, out₁, hadd, hout₁, hvalues⟩ := lookup_values hout next .addIfNotFound
      obtain ⟨out', hloop, hout', hall⟩ := ih hout₁
      refine ⟨out', ?_, hout', fun v => ?_⟩
      · rw [setIntersectLoop, List.foldlM_cons, hfind]
        simp only [Option.bind_eq_bind, Option.bind_some, hfound.mpr hin, if_true, hadd,
          Option.map_some]
        exact hloop
      · have hone := foldl_add (out.values L) [L.value next] v
        rw [List.foldl_cons, List.foldl_nil, ← hvalues, List.mem_singleton] at hone
        rw [hall, hone, List.map_cons, List.mem_cons]
        constructor
        · rintro ((h | rfl) | h)
          · exact .inl h
          · exact .inr ⟨hin, .inl rfl⟩
          · exact .inr ⟨h.1, .inr h.2⟩
        · rintro (h | ⟨hself, rfl | h⟩)
          · exact .inl (.inl h)
          · exact .inl (.inr rfl)
          · exact .inr ⟨hself, h⟩
    · obtain ⟨out', hloop, hout', hall⟩ := ih hout
      refine ⟨out', ?_, hout', fun v => ?_⟩
      · rw [setIntersectLoop, List.foldlM_cons, hfind]
        simp only [Option.bind_eq_bind, Option.bind_some, mt hfound.mp hin, Bool.false_eq_true,
          if_false]
        exact hloop
      · rw [hall, List.map_cons, List.mem_cons]
        refine or_congr_right (and_congr_right fun hv => ?_)
        exact ⟨.inr, fun h => h.resolve_left fun heq => hin (heq ▸ hv)⟩

theorem setIsdisjoint_iff (hself : self.Good L.hashing) (t : List L.Carrier) :
    ∃ b, setIsdisjoint L.hashing self t = some b ∧
      (b = true ↔ ∀ v ∈ t.map L.value, v ∉ self.values L) := by
  induction t with
  | nil => exact ⟨true, rfl, by simp⟩
  | cons next t ih =>
    obtain ⟨found, set', hfind, hfound⟩ := lookup_found hself next
    obtain ⟨b, hloop, hb⟩ := ih
    rw [setIsdisjoint, hfind, List.map_cons, List.forall_mem_cons]
    simp only [Option.bind_eq_bind, Option.bind_some]
    by_cases hin : L.value next ∈ self.values L
    · exact ⟨false, if_pos (hfound.mpr hin), iff_of_false Bool.false_ne_true fun h => h.1 hin⟩
    · exact ⟨b, (if_neg (mt hfound.mp hin)).trans hloop, by rw [hb, and_iff_right hin]⟩

theorem setIssubset_iff (hother : other.Good L.hashing) :
    setIssubset L.hashing false self other = true ↔ self.values L ⊆ other.values L := by
  rw [setIssubset, if_neg fun h => Bool.false_ne_true h.1, setIssubsetInternal_iff hother]
  rfl

/-- A subset with another number of elements is a proper one. -/
theorem setIssubset_proper_iff (hself : self.Good L.hashing) (hother : other.Good L.hashing) :
    setIssubset L.hashing true self other = true ↔
      self.values L ⊆ other.values L ∧ self.values L ≠ other.values L := by
  have heq : self.values L = other.values L ↔ setEqual L.hashing self other = true := by
    rw [setEqual_iff hself hother, (nodup_values hself).ext (nodup_values hother), Set.ext_iff]
    rfl
  rw [← setIssubset_iff hother, ne_eq, heq, setIssubset, setIssubset, setEqual]
  by_cases hused : self.used = other.used
  · simp [hused]
  · simp [hused]

end Values

/-! ### All methods -/

section Calls

variable {w : ℕ} {E : ObjConfig w} {L : ObjLevel E} {self : MpSet L.Carrier}
  {arg : SetArg L.Carrier}

/-- A set that is an argument is a good one. -/
def SetArg.Good (L : ObjLevel E) : SetArg L.Carrier → Prop
  | .set other => other.Good L.hashing
  | _ => True

/-- The values of an argument -/
def SetArg.values (L : ObjLevel E) (self : MpSet L.Carrier) (arg : SetArg L.Carrier) :
    Set L.Value :=
  {v | v ∈ (arg.elems self).map L.value}

/-- A result stands for the answer. -/
def SetResult.Shows (L : ObjLevel E) : SetResult L.Carrier → SetAnswer L.Value → Prop
  | .none, .none => True
  | .set out, .set s => out.Good L.hashing ∧ out.values L = s
  | .bool b, .bool p => b = true ↔ p
  | .notSupported, .notSupported => True
  | _, _ => False

/-- **A call of a method is right**: it returns, and leaves the set and gives the result that it
should. -/
def CallRight (L : ObjLevel E) (self : MpSet L.Carrier) (arg : SetArg L.Carrier)
    (method : SetMethod) : Prop :=
  ∃ self' res, setCall L.hashing self arg method = some (self', res) ∧ self'.Good L.hashing ∧
    self'.values L = (methodSpec (self.values L) (arg.values L self) arg.isSet method).1 ∧
      res.Shows L (methodSpec (self.values L) (arg.values L self) arg.isSet method).2

theorem toSet_values (hself : self.Good L.hashing) (harg : arg.Good L) :
    ∃ other, arg.toSet L.hashing self = some other ∧ other.Good L.hashing ∧
      other.values L = arg.values L self := by
  cases arg with
  | self => exact ⟨self, rfl, hself, Set.ext fun _ => mem_values_iff⟩
  | set other => exact ⟨other, rfl, harg, Set.ext fun _ => mem_values_iff⟩
  | iterable elems =>
    obtain ⟨out, hall, hout, hvalues⟩ :=
      lookupAll_values .addIfNotFound (mpSetInit_good L.hashing 0) elems
    refine ⟨out, hall, hout, Set.ext fun v => ?_⟩
    rw [hvalues, foldl_add, values_mpSetInit]
    exact or_iff_right (Set.notMem_empty v)

theorem values_of_isSelf (h : arg.isSelf = true) : arg.values L self = self.values L := by
  cases arg with
  | self => exact Set.ext fun _ => mem_values_iff.symm
  | _ => exact absurd h Bool.false_ne_true

theorem setIntersectInt_values (hself : self.Good L.hashing) (arg : SetArg L.Carrier) :
    ∃ out, setIntersectInt L.hashing self arg = some out ∧ out.Good L.hashing ∧
      out.values L = self.values L ∩ arg.values L self := by
  rw [setIntersectInt]
  split
  · rename_i hs
    exact ⟨self, rfl, hself, by rw [values_of_isSelf hs, Set.inter_self]⟩
  · obtain ⟨out, hloop, hout, hvalues⟩ :=
      setIntersectLoop_values hself (mpSetInit_good L.hashing 0) (arg.elems self)
    refine ⟨out, hloop, hout, Set.ext fun v => ?_⟩
    rw [hvalues, values_mpSetInit]
    exact or_iff_right (Set.notMem_empty v)

theorem setDiffInt_values (hself : self.Good L.hashing) (arg : SetArg L.Carrier) (update : Bool) :
    ∃ out, setDiffInt L.hashing self arg update = some out ∧ out.Good L.hashing ∧
      out.values L = self.values L \ arg.values L self := by
  rw [setDiffInt]
  split
  · rename_i hs
    refine ⟨_, rfl, mpSetInit_good _ 0, ?_⟩
    rw [values_of_isSelf hs.2, values_mpSetInit, Set.sdiff_self]
  · obtain ⟨out, hall, hout, hvalues⟩ := lookupAll_values .removeIfFound hself (arg.elems self)
    refine ⟨out, hall, hout, Set.ext fun v => ?_⟩
    rw [hvalues, foldl_remove]
    rfl

open Classical in
/-- The values that are left by `symmetric_difference` are those that should be if and only if every
value of the argument is there an odd number of times. -/
theorem toggle_eq_iff {V : Type} (s : Set V) (l : List V) :
    l.foldl (lookupStep .addIfNotFoundOrRemoveIfFound) s = s \ {v | v ∈ l} ∪ {v | v ∈ l} \ s ↔
      ∀ v ∈ l, l.count v % 2 = 1 := by
  have hmem : ∀ x, (x ∈ s \ {v | v ∈ l} ∪ {v | v ∈ l} \ s) ↔ (x ∈ s ↔ x ∉ l) := by
    intro x
    simp only [Set.mem_union, Set.mem_sdiff, Set.mem_ofPred_eq]
    tauto
  rw [Set.ext_iff]
  constructor
  · intro h v hv
    have hiff := (foldl_toggle s l v).symm.trans ((h v).trans (hmem v))
    by_contra hodd
    have heven : l.count v % 2 = 0 := by omega
    simp only [heven, hv, not_true, iff_true, iff_false] at hiff
    tauto
  · intro h x
    rw [foldl_toggle, hmem]
    by_cases hx : x ∈ l
    · have hodd := h x hx
      simp [hx, hodd]
    · simp [hx, List.count_eq_zero_of_not_mem hx]

/-- The values of an argument that are there an odd number of times -/
theorem odd_iff (t : List L.Carrier) :
    (open Classical in ∀ v ∈ t.map L.value, (t.map L.value).count v % 2 = 1) ↔
      ∀ a ∈ t, t.countP (fun b => L.equal b a) % 2 = 1 := by
  classical
  rw [List.forall_mem_map]
  refine forall₂_congr fun a _ => ?_
  rw [List.count, List.countP_map]
  have hcount : ∀ b ∈ t, (((· == L.value a) ∘ L.value) b = true ↔ L.equal b a = true) := by
    intro b _
    rw [L.equal_iff, Function.comp_apply, beq_iff_eq]
  rw [List.countP_congr hcount]

/-- **The methods of sets.** Every method returns, leaves the set as it should be and gives the
right result. Only `symmetric_difference` needs more: that every value is there an odd number of
times in the argument. -/
theorem set_methods_iff (hself : self.Good L.hashing) (harg : arg.Good L) (method : SetMethod) :
    CallRight L self arg method ↔
      (method = .symmetricDifference ∨ method = .symmetricDifferenceUpdate →
        ∀ a ∈ arg.elems self, (arg.elems self).countP (fun b => L.equal b a) % 2 = 1) := by
  obtain ⟨sum, hsum, hsumGood, hsumValues⟩ :=
    lookupAll_values .addIfNotFound hself (arg.elems self)
  obtain ⟨sym, hsym, hsymGood, hsymValues⟩ :=
    lookupAll_values .addIfNotFoundOrRemoveIfFound hself (arg.elems self)
  obtain ⟨other, hother, hotherGood, hotherValues⟩ := toSet_values hself harg
  have hunion : sum.values L = self.values L ∪ arg.values L self := Set.ext fun v => by
    rw [hsumValues, foldl_add]
    rfl
  have hodd : sym.values L = self.values L \ arg.values L self ∪ arg.values L self \ self.values L ↔
      ∀ a ∈ arg.elems self, (arg.elems self).countP (fun b => L.equal b a) % 2 = 1 := by
    rw [hsymValues, ← odd_iff]
    exact toggle_eq_iff _ _
  cases method with
  | symmetricDifference =>
    rw [CallRight, setCall, hsym, ← hodd]
    simp only [Option.map_some, Option.some.injEq, Prod.mk.injEq, true_or, true_imp_iff]
    constructor
    · rintro ⟨_, _, ⟨rfl, rfl⟩, -, -, -, hres⟩
      exact hres
    · exact fun h => ⟨_, _, ⟨rfl, rfl⟩, hself, rfl, hsymGood, h⟩
  | symmetricDifferenceUpdate =>
    rw [CallRight, setCall, hsym, ← hodd]
    simp only [Option.map_some, Option.some.injEq, Prod.mk.injEq, or_true, true_imp_iff]
    constructor
    · rintro ⟨_, _, ⟨rfl, rfl⟩, -, hres, -⟩
      exact hres
    · exact fun h => ⟨_, _, ⟨rfl, rfl⟩, hsymGood, h, trivial⟩
  | union =>
    refine iff_of_true ⟨self, .set sum, ?_, hself, rfl, hsumGood, hunion⟩ nofun
    rw [setCall, hsum, Option.map_some]
  | update =>
    refine iff_of_true ⟨sum, .none, ?_, hsumGood, hunion, trivial⟩ nofun
    rw [setCall, hsum, Option.map_some]
  | intersection =>
    obtain ⟨out, hcall, hout, hvalues⟩ := setIntersectInt_values hself arg
    refine iff_of_true ⟨self, .set out, ?_, hself, rfl, hout, hvalues⟩ nofun
    rw [setCall, hcall, Option.map_some]
  | intersectionUpdate =>
    obtain ⟨out, hcall, hout, hvalues⟩ := setIntersectInt_values hself arg
    refine iff_of_true ⟨out, .none, ?_, hout, hvalues, trivial⟩ nofun
    rw [setCall, hcall, Option.map_some]
  | difference =>
    obtain ⟨out, hcall, hout, hvalues⟩ := setDiffInt_values hself arg false
    refine iff_of_true ⟨self, .set out, ?_, hself, rfl, hout, hvalues⟩ nofun
    rw [setCall, hcall, Option.map_some]
  | differenceUpdate =>
    obtain ⟨out, hcall, hout, hvalues⟩ := setDiffInt_values hself arg true
    refine iff_of_true ⟨out, .none, ?_, hout, hvalues, trivial⟩ nofun
    rw [setCall, hcall, Option.map_some]
  | issubset =>
    refine iff_of_true ⟨self, _, by rw [setCall, hother]; rfl, hself, rfl, ?_⟩ nofun
    rw [← hotherValues]
    exact setIssubset_iff hotherGood
  | issuperset =>
    refine iff_of_true ⟨self, _, by rw [setCall, hother]; rfl, hself, rfl, ?_⟩ nofun
    rw [← hotherValues]
    exact setIssubset_iff hself
  | isdisjoint =>
    obtain ⟨b, hdisjoint, hb⟩ := setIsdisjoint_iff hself (arg.elems self)
    refine iff_of_true ⟨self, .bool b, by rw [setCall, hdisjoint]; rfl, hself, rfl,
      hb.trans ?_⟩ nofun
    rw [Set.eq_empty_iff_forall_notMem]
    exact ⟨fun h v hv => h v hv.2 hv.1, fun h v hv hs => h v ⟨hs, hv⟩⟩
  | less =>
    have hres := setIssubset_proper_iff hself hotherGood
    rw [hotherValues] at hres
    refine iff_of_true ?_ nofun
    by_cases hset : arg.isSet = true
    · refine ⟨self, _, by rw [setCall, if_pos hset, hother]; rfl, hself, rfl, ?_⟩
      rw [methodSpec, if_pos hset]
      exact hres
    · refine ⟨self, .notSupported, by rw [setCall, if_neg hset], hself, rfl, ?_⟩
      rw [methodSpec, if_neg hset]
      trivial
  | more =>
    have hres := setIssubset_proper_iff hotherGood hself
    rw [hotherValues, ne_comm] at hres
    refine iff_of_true ?_ nofun
    by_cases hset : arg.isSet = true
    · refine ⟨self, _, by rw [setCall, if_pos hset, hother]; rfl, hself, rfl, ?_⟩
      rw [methodSpec, if_pos hset]
      exact hres
    · refine ⟨self, .notSupported, by rw [setCall, if_neg hset], hself, rfl, ?_⟩
      rw [methodSpec, if_neg hset]
      trivial

/-- `{True}.symmetric_difference([False, True])`: the set is what adding `True` to an empty one
leaves. -/
theorem set_methods_once :
    ∃ self, mpSetLookupAll (objLevel objConfigSmall 1).hashing .addIfNotFound (mpSetInit 0)
        [.bool true] = some self ∧
      CallRight (objLevel objConfigSmall 1) self (.iterable [.bool false, .bool true])
        .symmetricDifference := by
  obtain ⟨self, hadd, hself, -⟩ := lookupAll_values .addIfNotFound
    (mpSetInit_good (objLevel objConfigSmall 1).hashing 0) [.bool true]
  have hodd : ∀ a ∈ [Obj.bool false, .bool true], [Obj.bool false, .bool true].countP
      (fun b => (objLevel objConfigSmall 1).equal b a) % 2 = 1 := by decide
  exact ⟨self, hadd, (@set_methods_iff _ _ (objLevel objConfigSmall 1) self
    (.iterable [.bool false, .bool true]) hself trivial _).mpr fun _ => hodd⟩

/-- `set().symmetric_difference([False, False])` is empty. -/
theorem symmetric_difference_twice :
    ¬CallRight (objLevel objConfigSmall 1) (mpSetInit 0) (.iterable [.bool false, .bool false])
      .symmetricDifference := by
  rintro ⟨_, res, hcall, -, -, hres⟩
  cases hcall
  have hmem := (Set.ext_iff.mp hres.2 (View.int (intKey mpzConfig16 0))).mpr
    (.inr ⟨List.mem_cons_self, fun h => absurd (mem_values_iff.mp h) List.not_mem_nil⟩)
  exact absurd (mem_values_iff.mp hmem) List.not_mem_nil

end Calls

/-! ### New sets -/

/-- `set_make_new`, with an iterable -/
def setMakeNew {α : Type} (H : Hashing α) (t : List α) : Option (MpSet α) :=
  mpSetLookupAll H .addIfNotFound (mpSetInit 0) t

open scoped Classical in
/-- A new set has one element for each value of the iterable. -/
theorem setMakeNew_spec {w : ℕ} {E : ObjConfig w} {L : ObjLevel E} (t : List L.Carrier) :
    ∃ set, setMakeNew L.hashing t = some set ∧ set.Good L.hashing ∧
      (contents set.table).map L.value = (↑(t.map L.value).dedup : Multiset L.Value) := by
  obtain ⟨set, hmake, hset, hvalues⟩ :=
    lookupAll_values .addIfNotFound (mpSetInit_good L.hashing 0) t
  refine ⟨set, hmake, hset, ?_⟩
  rw [← Multiset.coe_dedup]
  refine (Multiset.Nodup.ext (nodup_values hset) (Multiset.nodup_dedup _)).mpr fun v => ?_
  rw [Multiset.mem_dedup, Multiset.mem_coe]
  have hmem := foldl_add (x := v) (l := t.map L.value) (s := ∅)
  rw [values_mpSetInit] at hvalues
  rw [← hvalues] at hmem
  exact hmem.trans (or_iff_right (Set.notMem_empty v))

open scoped Classical in
/-- **Sets of objects** of any kind. The elements of `set(t)` are the values in `t`, each of them
once, and two sets are equal if and only if they are made from the same values. -/
theorem set_make_new_values {w : ℕ} (E : ObjConfig w) (n : ℕ) (t t' : List (objLevel E n).Carrier) :
    ∃ set set', setMakeNew (objLevel E n).hashing t = some set ∧
      setMakeNew (objLevel E n).hashing t' = some set' ∧
      (contents set.table).map (objLevel E n).value =
        (↑(t.map (objLevel E n).value).dedup : Multiset (objLevel E n).Value) ∧
      set.used = (t.map (objLevel E n).value).dedup.length ∧
      (setEqual (objLevel E n).hashing set set' = true ↔
        ∀ v, v ∈ t.map (objLevel E n).value ↔ v ∈ t'.map (objLevel E n).value) := by
  obtain ⟨set, hmake, hset, hvalues⟩ := setMakeNew_spec t
  obtain ⟨set', hmake', hset', hvalues'⟩ := setMakeNew_spec t'
  refine ⟨set, set', hmake, hmake', hvalues, ?_, ?_⟩
  · rw [hset.used_eq, ← Multiset.card_map (objLevel E n).value, hvalues, Multiset.coe_card]
  · rw [setEqual_iff hset hset', hvalues, hvalues', ← Multiset.coe_dedup, ← Multiset.coe_dedup,
      Multiset.dedup_ext]
    rfl

end Pycopy
