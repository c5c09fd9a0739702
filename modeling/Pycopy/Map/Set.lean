import Pycopy.Lib.OpenAddressing

/-!
# Sets

The hash set of `py/map.c`: `mp_set_init`, `mp_set_rehash`, `mp_set_lookup` and
`mp_set_remove_first`. One function serves all uses of a set: the kind of a lookup has one bit
for adding an element that is not found and one for removing an element that is. Removing
leaves a mark unless the next slot was never used, adding takes the first marked slot on its
way, and a table without room is rehashed into a larger one in the middle of a search.

Calls return `none` when the model runs out of rounds; the theorems say that they do not.

## Main results

* `mp_set_run`: so does every sequence of operations on a new set.
-/

open OpenAddressing

namespace Pycopy

universe u

variable {α : Type u}

/-! ### The growth of hash tables -/

/-- `hash_allocation_sizes` -/
def hashAllocationSizes : List ℕ :=
  [0, 2, 4, 6, 8, 10, 12,
   17, 23, 29, 37, 47, 59, 73,
   97, 127, 167, 223, 293, 389, 521, 691, 919, 1223, 1627, 2161,
   3229, 4831, 7243, 10861, 16273, 24407, 36607, 54907]

/-- `get_hash_alloc_greater_or_equal_to` -/
def getHashAllocGreaterOrEqualTo (x : ℕ) : ℕ :=
  match hashAllocationSizes.find? (fun size => decide (size ≥ x)) with
  | some size => size
  -- ran out of sizes: something sensible, and odd
  | none => (x + x / 2) ||| 1

theorem le_getHashAllocGreaterOrEqualTo (x : ℕ) : x ≤ getHashAllocGreaterOrEqualTo x := by
  rw [getHashAllocGreaterOrEqualTo]
  split
  · rename_i size hfind
    exact of_decide_eq_true (List.find?_some hfind :)
  · exact (Nat.le_add_right x (x / 2)).trans Nat.left_le_or

/-! ### Definitions -/

/-- `mp_map_lookup_kind_t` -/
inductive LookupKind
  | lookup
  | addIfNotFound
  | removeIfFound
  | addIfNotFoundOrRemoveIfFound
  deriving DecidableEq, Repr

namespace LookupKind

def code : LookupKind → ℕ
  | lookup => 0
  | addIfNotFound => 1
  | removeIfFound => 2
  | addIfNotFoundOrRemoveIfFound => 3

/-- `lookup_kind & MP_MAP_LOOKUP_ADD_IF_NOT_FOUND` -/
def adds (kind : LookupKind) : Bool := kind.code &&& addIfNotFound.code ≠ 0

/-- `lookup_kind & MP_MAP_LOOKUP_REMOVE_IF_FOUND` -/
def removes (kind : LookupKind) : Bool := kind.code &&& removeIfFound.code ≠ 0

end LookupKind

/-- The objects that are stored: `mp_obj_equal` and the value of `MP_UNARY_OP_HASH`. Equality
is symmetric, and equal objects hash equally. -/
structure Hashing (α : Type u) where
  equal : α → α → Bool
  hash : α → ℕ
  equal_symm : ∀ a b, equal a b = true → equal b a = true
  hash_eq : ∀ a b, equal a b = true → hash a = hash b

/-- `mp_set_t` -/
structure MpSet (α : Type u) where
  used : ℕ
  table : List (Slot α)
  deriving Repr

/-- `set->alloc` -/
def MpSet.alloc (set : MpSet α) : ℕ := set.table.length

/-- `mp_set_init` -/
def mpSetInit (n : ℕ) : MpSet α := ⟨0, List.replicate n .null⟩

/-- `mp_set_rehash`, the elements added by `lookup`. -/
def mpSetRehash (lookup : MpSet α → α → LookupKind → Option (Option α × MpSet α))
    (set : MpSet α) : Option (MpSet α) :=
  set.table.foldlM
    (fun s slot =>
      match slot with
      | .filled elem => (lookup s elem .addIfNotFound).map Prod.snd
      | _ => some s)
    (mpSetInit (getHashAllocGreaterOrEqualTo (set.alloc + 1)))

/-- The search loop of `mp_set_lookup`. A round is one way round the table; a search that
found no room starts over in the rehashed set. -/
def mpSetLoop (H : Hashing α) (rehash : MpSet α → Option (MpSet α)) (index : α)
    (kind : LookupKind) : ℕ → MpSet α → Option (Option α × MpSet α)
  | 0, _ => none
  | rounds + 1, set =>
    match search set.table (H.equal · index) (H.hash index % set.alloc) with
    | .found pos elem =>
      if kind.removes then
        some (some elem, ⟨set.used - 1, set.table.set pos (tombstone set.table pos)⟩)
      else some (some elem, set)
    | .absent availSlot =>
      if kind.adds then
        match availSlot with
        | some pos => some (some index, ⟨set.used + 1, set.table.set pos (.filled index)⟩)
        | none => (rehash set).bind (mpSetLoop H rehash index kind rounds)
      else some (none, set)
    | .fault => none

/-- `mp_set_lookup`, with calls nested at most `fuel` deep; `none` is `MP_OBJ_NULL`. -/
def mpSetLookup (H : Hashing α) :
    ℕ → MpSet α → α → LookupKind → Option (Option α × MpSet α)
  | 0, _, _, _ => none
  | fuel + 1, set, index, kind =>
    let rehash := mpSetRehash (mpSetLookup H fuel)
    let loop := mpSetLoop H rehash index kind (fuel + 1)
    if set.alloc = 0 then
      if kind.adds then (rehash set).bind loop else some (none, set)
    else loop set

/-- `mp_set_remove_first` -/
def mpSetRemoveFirst (set : MpSet α) : Option α × MpSet α :=
  match firstFilled set.table 0 with
  | some (pos, elem) =>
    (some elem, ⟨set.used - 1, set.table.set pos (tombstone set.table pos)⟩)
  | none => (none, set)

/-! ### The abstract set -/

/-- The operations on a set. -/
inductive SetOp (α : Type u)
  | lookup (index : α) (kind : LookupKind)
  | removeFirst
  deriving Repr

/-- What an operation does to the elements of a set, and its result. -/
inductive SetStep (H : Hashing α) : Multiset α → SetOp α → Option α → Multiset α → Prop
  /-- an equal element is there and stays -/
  | hit {m : Multiset α} {index elem : α} {kind : LookupKind} (hmem : elem ∈ m)
      (heq : H.equal elem index = true) (hkind : kind.removes = false) :
      SetStep H m (.lookup index kind) (some elem) m
  /-- an equal element is there and is deleted -/
  | delete {m : Multiset α} {index elem : α} {kind : LookupKind}
      (heq : H.equal elem index = true) (hkind : kind.removes = true) :
      SetStep H (elem ::ₘ m) (.lookup index kind) (some elem) m
  /-- no equal element is there, and the new one is inserted -/
  | insert {m : Multiset α} {index : α} {kind : LookupKind}
      (hnew : ∀ elem ∈ m, H.equal elem index = false) (hkind : kind.adds = true) :
      SetStep H m (.lookup index kind) (some index) (index ::ₘ m)
  /-- no equal element is there -/
  | miss {m : Multiset α} {index : α} {kind : LookupKind}
      (hnew : ∀ elem ∈ m, H.equal elem index = false) (hkind : kind.adds = false) :
      SetStep H m (.lookup index kind) none m
  | removeFirst {m : Multiset α} {elem : α} :
      SetStep H (elem ::ₘ m) .removeFirst (some elem) m
  | removeFirstEmpty : SetStep H 0 .removeFirst none 0

/-- A sequence of steps with their results. -/
inductive SetSteps (H : Hashing α) :
    Multiset α → List (SetOp α) → List (Option α) → Multiset α → Prop
  | nil {m : Multiset α} : SetSteps H m [] [] m
  | cons {m m' m'' : Multiset α} {op : SetOp α} {ops : List (SetOp α)} {r : Option α}
      {rs : List (Option α)} (hstep : SetStep H m op r m') (hsteps : SetSteps H m' ops rs m'') :
      SetSteps H m (op :: ops) (r :: rs) m''

/-! ### The invariant -/

/-- Equality as a relation. -/
def Hashing.Rel (H : Hashing α) (a b : α) : Prop := H.equal a b = true

/-- A set whose searches are complete, without equal elements, and with the right count. -/
structure MpSet.Good (H : Hashing α) (set : MpSet α) : Prop where
  consistent : Consistent H.hash H.Rel set.table
  used_eq : set.used = (contents set.table).card

theorem mpSetInit_good (H : Hashing α) (n : ℕ) : (mpSetInit n : MpSet α).Good H where
  consistent := .replicate_null _ _ n
  used_eq := by rw [mpSetInit, contents_replicate_null]; rfl

variable {H : Hashing α} {set : MpSet α} {index : α}

/-- Adding an element at the end of its search. -/
theorem MpSet.Good.add (hset : set.Good H) {hit : α → Bool} {pos : ℕ}
    (hend : SearchEnd set.table hit (H.hash index % set.table.length) (.absent (some pos)))
    (hnew : ∀ elem ∈ contents set.table, H.equal elem index = false) :
    (⟨set.used + 1, set.table.set pos (.filled index)⟩ : MpSet α).Good H ∧
      contents (set.table.set pos (.filled index)) = index ::ₘ contents set.table := by
  obtain ⟨hcons, hcont⟩ := hset.consistent.insert H.equal_symm hend
    (fun a ha h => Bool.false_ne_true ((hnew a ha).symm.trans h))
  exact ⟨⟨hcons, by rw [hcont, Multiset.card_cons, hset.used_eq]⟩, hcont⟩

theorem MpSet.Good.remove (hset : set.Good H) {pos : ℕ} {elem : α}
    (hpos : set.table[pos]? = some (.filled elem)) :
    (⟨set.used - 1, set.table.set pos (tombstone set.table pos)⟩ : MpSet α).Good H ∧
      contents set.table = elem ::ₘ contents (set.table.set pos (tombstone set.table pos)) := by
  obtain ⟨hcons, hcont⟩ := hset.consistent.set_tombstone hpos
  refine ⟨⟨hcons, ?_⟩, hcont⟩
  rw [hset.used_eq, hcont, Multiset.card_cons, Nat.add_sub_cancel]

/-- A search that ends without a hit has seen that no element is equal. -/
theorem MpSet.Good.not_equal (hset : set.Good H) {slot : Option ℕ}
    (hend : SearchEnd set.table (H.equal · index) (H.hash index % set.table.length)
      (.absent slot)) :
    ∀ elem ∈ contents set.table, H.equal elem index = false := by
  intro elem hmem
  obtain ⟨pos, hpos⟩ := mem_contents.mp hmem
  exact search_absent hset.consistent.chained hend
    (fun a ha => by rw [H.hash_eq a index ha]) hpos

/-! ### Lookups -/

/-- A call that returned from `set`: the new set is good and has the elements it should. -/
def SetReturns (H : Hashing α) (set : MpSet α) (op : SetOp α)
    (out : Option (Option α × MpSet α)) : Prop :=
  ∃ r set', out = some (r, set') ∧ set'.Good H ∧
    SetStep H (contents set.table) op r (contents set'.table)

/-- One round: the loop returns and leaves the size alone, or the table is full. -/
theorem mpSetLoop_round (hset : set.Good H) (halloc : 0 < set.alloc)
    (rehash : MpSet α → Option (MpSet α)) (index : α) (kind : LookupKind) (rounds : ℕ) :
    (∃ r set', mpSetLoop H rehash index kind (rounds + 1) set = some (r, set') ∧ set'.Good H ∧
      SetStep H (contents set.table) (.lookup index kind) r (contents set'.table) ∧
        set'.alloc = set.alloc) ∨
    ((contents set.table).card = set.alloc ∧ mpSetLoop H rehash index kind (rounds + 1) set =
      (rehash set).bind (mpSetLoop H rehash index kind rounds)) := by
  have hend := @search_spec α set.table (H.equal · index) (H.hash index % set.alloc)
    (Nat.mod_lt _ halloc)
  rw [mpSetLoop]
  cases hsearch : search set.table (H.equal · index) (H.hash index % set.alloc) with
  | fault =>
    rw [hsearch] at hend
    cases hend
  | found pos elem =>
    rw [hsearch] at hend
    obtain ⟨hpos, hhit⟩ | _ | _ := hend
    left
    dsimp only
    cases hkind : kind.removes with
    | true =>
      obtain ⟨hgood, hcont⟩ := hset.remove hpos
      refine ⟨_, _, rfl, hgood, ?_, List.length_set⟩
      rw [hcont]
      exact .delete hhit hkind
    | false =>
      exact ⟨_, _, rfl, hset, .hit (mem_contents.mpr ⟨pos, hpos⟩) hhit hkind, rfl⟩
  | absent availSlot =>
    rw [hsearch] at hend
    have hnew := hset.not_equal hend
    dsimp only
    cases hkind : kind.adds with
    | false => exact .inl ⟨_, _, rfl, hset, .miss hnew hkind, rfl⟩
    | true =>
      cases availSlot with
      | none => exact .inr ⟨hend.card_contents (Nat.mod_lt _ halloc), rfl⟩
      | some pos =>
        obtain ⟨hgood, hcont⟩ := hset.add hend hnew
        refine .inl ⟨_, _, rfl, hgood, ?_, List.length_set⟩
        dsimp only
        rw [hcont]
        exact .insert hnew hkind

/-- A lookup in a table with room returns and leaves the size alone. -/
theorem mpSetLookup_of_room (hset : set.Good H)
    (hroom : (contents set.table).card < set.alloc) (fuel : ℕ) (index : α) (kind : LookupKind) :
    ∃ r set', mpSetLookup H (fuel + 1) set index kind = some (r, set') ∧ set'.Good H ∧
      SetStep H (contents set.table) (.lookup index kind) r (contents set'.table) ∧
        set'.alloc = set.alloc := by
  rw [mpSetLookup, if_neg (by omega)]
  rcases mpSetLoop_round hset (by omega) (mpSetRehash (mpSetLookup H fuel)) index kind fuel with
    hret | ⟨hfull, -⟩
  · exact hret
  · omega

/-- Adding an element that no element equals. -/
theorem SetStep.add_cases {m m' : Multiset α} {r : Option α}
    (h : SetStep H m (.lookup index .addIfNotFound) r m')
    (hnew : ∀ elem ∈ m, H.equal elem index = false) : m' = index ::ₘ m := by
  cases h with
  | hit hmem heq => exact absurd heq (by rw [hnew _ hmem]; decide)
  | delete _ hkind => exact absurd hkind (by decide)
  | insert => rfl
  | miss _ hkind => exact absurd hkind (by decide)

/-- **Rehashing** keeps the elements and makes room. -/
theorem mpSetRehash_spec (hset : set.Good H) (fuel : ℕ) :
    ∃ set', mpSetRehash (mpSetLookup H (fuel + 1)) set = some set' ∧ set'.Good H ∧
      contents set'.table = contents set.table ∧ (contents set'.table).card < set'.alloc := by
  have hsize := le_getHashAllocGreaterOrEqualTo (set.alloc + 1)
  have hcard : (contents set.table).card ≤ set.alloc := card_contents_le set.table
  generalize hn : getHashAllocGreaterOrEqualTo (set.alloc + 1) = n at hsize
  have hfresh : contents (mpSetInit n : MpSet α).table = 0 := contents_replicate_null n
  have halloc : (mpSetInit n : MpSet α).alloc = n := List.length_replicate
  obtain ⟨set', hfold, hset', hcont, halloc'⟩ :=
    insertAll MpSet.table
      (fun s elem => (mpSetLookup H (fuel + 1) s elem .addIfNotFound).map Prod.snd)
      (fun s elem hs hroom hmiss => by
        obtain ⟨r, s', hlook, hs', hstep, hlen⟩ :=
          mpSetLookup_of_room hs hroom fuel elem .addIfNotFound
        rw [hlook]
        exact ⟨s', rfl, hs', hstep.add_cases fun a ha => Bool.not_eq_true _ ▸ hmiss a ha, hlen⟩)
      set.table (mpSetInit_good H n)
      (by rw [hfresh, ← MpSet.alloc, halloc, Multiset.card_zero]; omega)
      hset.consistent.separated.pairwise
      (fun a ha => absurd ha (by rw [hfresh]; exact Multiset.notMem_zero a))
  rw [hfresh, Multiset.add_zero] at hcont
  refine ⟨set', ?_, hset', hcont, ?_⟩
  · rw [mpSetRehash, hn]
    exact hfold
  · rw [hcont, MpSet.alloc, halloc', ← MpSet.alloc, halloc]
    omega

/-- **Every lookup returns**, and changes the elements as its kind prescribes. -/
theorem mpSetLookup_spec (hset : set.Good H) (fuel : ℕ) (index : α) (kind : LookupKind) :
    SetReturns H set (.lookup index kind) (mpSetLookup H (fuel + 2) set index kind) := by
  obtain ⟨set₁, hrehash, hset₁, hcont₁, hroom⟩ := mpSetRehash_spec hset fuel
  -- a round in the rehashed set ends the call
  have hagain : ∀ rounds, SetReturns H set (.lookup index kind)
      ((mpSetRehash (mpSetLookup H (fuel + 1)) set).bind
        (mpSetLoop H (mpSetRehash (mpSetLookup H (fuel + 1))) index kind (rounds + 1))) := by
    intro rounds
    rw [hrehash, Option.bind_some]
    rcases mpSetLoop_round hset₁ (by omega) (mpSetRehash (mpSetLookup H (fuel + 1))) index kind
      rounds with ⟨r, set', hret, hset', hstep, -⟩ | ⟨hfull, -⟩
    · rw [hcont₁] at hstep
      exact ⟨r, set', hret, hset', hstep⟩
    · omega
  rw [mpSetLookup]
  split
  · rename_i hzero
    cases hkind : kind.adds with
    | true => exact hagain (fuel + 1)
    | false =>
      refine ⟨_, _, rfl, hset, .miss (fun elem hmem => ?_) hkind⟩
      have hcard := card_contents_le set.table
      have hpos := Multiset.card_pos_iff_exists_mem.mpr ⟨elem, hmem⟩
      rw [MpSet.alloc] at hzero
      omega
  · rename_i hpos
    rcases mpSetLoop_round hset (Nat.pos_of_ne_zero hpos) (mpSetRehash (mpSetLookup H (fuel + 1)))
      index kind (fuel + 1) with ⟨r, set', hret, hset', hstep, -⟩ | ⟨-, hloop⟩
    · exact ⟨r, set', hret, hset', hstep⟩
    · rw [hloop]
      exact hagain fuel

/-- **Removal of some element** -/
theorem mpSetRemoveFirst_spec (hset : set.Good H) :
    SetReturns H set .removeFirst (some (mpSetRemoveFirst set)) := by
  rw [mpSetRemoveFirst]
  split
  · rename_i pos elem hfirst
    obtain ⟨-, hpos⟩ := firstFilled_some hfirst
    obtain ⟨hgood, hcont⟩ := hset.remove hpos
    refine ⟨_, _, rfl, hgood, ?_⟩
    rw [hcont]
    exact .removeFirst
  · rename_i hnone
    refine ⟨_, _, rfl, hset, ?_⟩
    rw [firstFilled_none hnone]
    exact .removeFirstEmpty

/-! ### Runs -/

/-- One operation on a set. -/
def mpSetOp (H : Hashing α) (fuel : ℕ) (set : MpSet α) : SetOp α → Option (Option α × MpSet α)
  | .lookup index kind => mpSetLookup H fuel set index kind
  | .removeFirst => some (mpSetRemoveFirst set)

/-- A sequence of operations, with their results. -/
def mpSetRun (H : Hashing α) (fuel : ℕ) : MpSet α → List (SetOp α) →
    Option (List (Option α) × MpSet α)
  | set, [] => some ([], set)
  | set, op :: ops => do
    let (r, set) ← mpSetOp H fuel set op
    let (rs, set) ← mpSetRun H fuel set ops
    some (r :: rs, set)

theorem mpSetOp_spec (hset : set.Good H) (fuel : ℕ)
    (op : SetOp α) : SetReturns H set op (mpSetOp H (fuel + 2) set op) := by
  cases op with
  | lookup index kind => exact mpSetLookup_spec hset fuel index kind
  | removeFirst => exact mpSetRemoveFirst_spec hset

theorem mpSetRun_spec (fuel : ℕ) (ops : List (SetOp α)) (hset : set.Good H) :
    ∃ rs set', mpSetRun H (fuel + 2) set ops = some (rs, set') ∧ set'.Good H ∧
      SetSteps H (contents set.table) ops rs (contents set'.table) := by
  induction ops generalizing set with
  | nil => exact ⟨[], set, rfl, hset, .nil⟩
  | cons op ops ih =>
    obtain ⟨r, set₁, hop, hset₁, hstep⟩ := mpSetOp_spec hset fuel op
    obtain ⟨rs, set', hrun, hset', hsteps⟩ := ih hset₁
    refine ⟨r :: rs, set', ?_, hset', .cons hstep hsteps⟩
    rw [mpSetRun, hop]
    dsimp only [bind, Option.bind]
    rw [hrun]

/-- **Sets are sets.** Every sequence of lookups of any kind and removals on a new set returns;
its results and the elements it leaves are those of the abstract set, the count of the set is
the number of its filled slots, and no two filled slots hold equal elements. -/
theorem mp_set_run (H : Hashing α) (n fuel : ℕ) (ops : List (SetOp α)) :
    ∃ rs set, mpSetRun H (fuel + 2) (mpSetInit n) ops = some (rs, set) ∧
      SetSteps H 0 ops rs (contents set.table) ∧
      set.used = (set.table.filter fun slot => slot.elem?.isSome).length ∧
      ∀ (p q : ℕ) (a b : α), set.table[p]? = some (.filled a) →
        set.table[q]? = some (.filled b) → H.equal a b = true → p = q := by
  obtain ⟨rs, set, hrun, hset, hsteps⟩ := mpSetRun_spec fuel ops (mpSetInit_good H n)
  refine ⟨rs, set, hrun, ?_, ?_, hset.consistent.separated⟩
  · rwa [mpSetInit, contents_replicate_null] at hsteps
  · rw [hset.used_eq, contents, Multiset.coe_card, List.length_filterMap_eq_countP,
      List.countP_eq_length_filter]

/-- Natural numbers that are equal modulo ten, all with one hash. -/
def moduloTen : Hashing ℕ where
  equal a b := a % 10 == b % 10
  hash _ := 3
  equal_symm a b h := by rw [beq_iff_eq] at h ⊢; exact h.symm
  hash_eq _ _ _ := rfl

/-- Toggling twice: the second finds the first, and the mark it leaves is used again. -/
example :
    (mpSetRun moduloTen 2 (mpSetInit 0)
      [.lookup 1 .addIfNotFoundOrRemoveIfFound, .lookup 2 .addIfNotFound, .lookup 5 .addIfNotFound,
       .lookup 11 .addIfNotFoundOrRemoveIfFound, .lookup 7 .addIfNotFound, .lookup 1 .removeIfFound,
       .lookup 17 .lookup]).map (fun out => (out.1, out.2.used)) =
      some ([some 1, some 2, some 5, some 1, some 7, none, some 7], 3) := by decide

end Pycopy
