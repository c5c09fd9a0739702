import Pycopy.Map.Set

/-!
# Maps

The hash table behind dictionaries, `mp_map_t` of `py/map.c` (the tables that are not ordered
arrays): `mp_map_init`, `mp_map_rehash` and `mp_map_lookup`, and `dict_popitem` of
`py/objdict.c`.

As long as all keys are interned strings a lookup compares pointers only. This is right because
`mp_obj_equal` never equates a string with an object that is not one, and because two interned
strings are the same object when they have the same text; for an index that is a string but not
interned the lookup falls back to full comparisons.

A lookup returns a pointer to a slot, through which its caller reads and writes the value.

## Main results

* `mp_map_run`: every sequence of operations on a new map answers as a finite map.
-/

open OpenAddressing

namespace Pycopy

universe u

variable {S O V : Type u}

/-! ### Key objects -/

/-- The objects that serve as keys: interned strings, other objects of type `str`, and all the
rest. Pointers are equal when the keys are. -/
inductive MapKey (S O : Type u)
  | qstr (q : ℕ)
  | str (s : S)
  | other (o : O)
  deriving DecidableEq, Repr

/-- `mp_obj_is_qstr` -/
def MapKey.isQstr : MapKey S O → Bool
  | .qstr _ => true
  | _ => false

/-- The texts of the strings, and `MP_BINARY_OP_EQUAL` of the other objects. No text is interned
twice, and equality is an equivalence. -/
structure KeyData (S O : Type u) where
  qstrData : ℕ → List UInt8
  strData : S → List UInt8
  otherEqual : O → O → Bool
  qstrData_injective : Function.Injective qstrData
  otherEqual_equivalence : Equivalence fun a b => otherEqual a b = true

/-- `mp_obj_equal` -/
def mpObjEqual (D : KeyData S O) : MapKey S O → MapKey S O → Bool
  | .qstr p, .qstr q => p == q
  | .qstr q, .str s => D.qstrData q == D.strData s
  | .str s, .qstr q => D.strData s == D.qstrData q
  | .str s, .str s' => D.strData s == D.strData s'
  | .other a, .other b => D.otherEqual a b
  -- a string is never equal to anything else
  | _, _ => false

/-- Keys with their hashes; equal keys hash equally. -/
structure KeyHashing (S O : Type u) extends KeyData S O where
  hash : MapKey S O → ℕ
  hash_eq : ∀ a b, mpObjEqual toKeyData a b = true → hash a = hash b

/-! ### Definitions -/

/-- `mp_map_elem_t`; a value `none` is `MP_OBJ_NULL`. -/
abbrev MapElem (S O V : Type u) := MapKey S O × Option V

/-- `mp_map_t` -/
structure MpMap (S O V : Type u) where
  allKeysAreQstrs : Bool
  used : ℕ
  table : List (Slot (MapElem S O V))
  deriving Repr

/-- `map->alloc` -/
def MpMap.alloc (map : MpMap S O V) : ℕ := map.table.length

/-- `mp_map_init` -/
def mpMapInit (n : ℕ) : MpMap S O V := ⟨true, 0, List.replicate n .null⟩

/-- What `mp_map_lookup` returns: `NULL`, a pointer to a slot, or a pointer to a slot whose key
is gone and whose value is still there. -/
inductive MapRef (S O V : Type u)
  | null
  | slot (pos : ℕ) (elem : MapElem S O V)
  | removed (value : Option V)
  deriving Repr

/-- `elem->value = value`; a store through `NULL` has no result. -/
def MpMap.storeValue (map : MpMap S O V) (ref : MapRef S O V) (value : Option V) :
    Option (MpMap S O V) :=
  match ref with
  | .null => none
  | .slot pos elem => some { map with table := map.table.set pos (.filled (elem.1, value)) }
  | .removed _ => some map

/-- `mp_map_rehash`, the keys added by `lookup`. -/
def mpMapRehash
    (lookup : MpMap S O V → MapKey S O → LookupKind → Option (MapRef S O V × MpMap S O V))
    (map : MpMap S O V) : Option (MpMap S O V) :=
  map.table.foldlM
    (fun m slot =>
      match slot with
      | .filled elem =>
        (lookup m elem.1 .addIfNotFound).bind fun out => out.2.storeValue out.1 elem.2
      | _ => some m)
    (mpMapInit (getHashAllocGreaterOrEqualTo (map.alloc + 1)))

section Lookup

variable [DecidableEq S] [DecidableEq O]

/-- `slot->key == index || (!compare_only_ptrs && mp_obj_equal(slot->key, index))` -/
def mapHit (K : KeyHashing S O) (compareOnlyPtrs : Bool) (index : MapKey S O)
    (elem : MapElem S O V) : Bool :=
  elem.1 == index || (!compareOnlyPtrs && mpObjEqual K.toKeyData elem.1 index)

/-- The search loop of `mp_map_lookup`. A round is one way round the table; a search that found
no room starts over in the rehashed map, with comparisons as before. -/
def mpMapLoop (K : KeyHashing S O) (rehash : MpMap S O V → Option (MpMap S O V))
    (compareOnlyPtrs : Bool) (index : MapKey S O) (kind : LookupKind) :
    ℕ → MpMap S O V → Option (MapRef S O V × MpMap S O V)
  | 0, _ => none
  | rounds + 1, map =>
    match search map.table (mapHit K compareOnlyPtrs index) (K.hash index % map.alloc) with
    | .found pos elem =>
      if kind = .removeIfFound then
        some (.removed elem.2,
          { map with
            used := map.used - 1
            table := map.table.set pos (tombstone map.table pos) })
      else some (.slot pos elem, map)
    | .absent availSlot =>
      if kind = .addIfNotFound then
        match availSlot with
        | some pos =>
          some (.slot pos (index, none),
            { used := map.used + 1
              table := map.table.set pos (.filled (index, none))
              allKeysAreQstrs := map.allKeysAreQstrs && index.isQstr })
        | none => (rehash map).bind (mpMapLoop K rehash compareOnlyPtrs index kind rounds)
      else some (.null, map)
    | .fault => none

/-- The hash lookup of `mp_map_lookup`, after the comparison has been chosen. -/
def mpMapHashLookup (K : KeyHashing S O) (rehash : MpMap S O V → Option (MpMap S O V))
    (compareOnlyPtrs : Bool) (index : MapKey S O) (kind : LookupKind) (rounds : ℕ)
    (map : MpMap S O V) : Option (MapRef S O V × MpMap S O V) :=
  if map.alloc = 0 then
    if kind = .addIfNotFound then
      (rehash map).bind (mpMapLoop K rehash compareOnlyPtrs index kind rounds)
    else some (.null, map)
  else mpMapLoop K rehash compareOnlyPtrs index kind rounds map

/-- `mp_map_lookup` on a map that is neither fixed nor ordered, with calls nested at most `fuel`
deep. -/
def mpMapLookup (K : KeyHashing S O) :
    ℕ → MpMap S O V → MapKey S O → LookupKind → Option (MapRef S O V × MpMap S O V)
  | 0, _, _, _ => none
  | fuel + 1, map, index, kind =>
    let lookup compareOnlyPtrs := mpMapHashLookup K (mpMapRehash (mpMapLookup K fuel))
      compareOnlyPtrs index kind (fuel + 1) map
    if map.allKeysAreQstrs then
      match index with
      | .qstr _ => lookup true
      | .str _ => lookup false
      | .other _ =>
        -- not adding: the index cannot be there
        if kind ≠ .addIfNotFound then some (.null, map) else lookup true
    else lookup false

end Lookup

/-- How `dict_popitem` ends. -/
inductive PopResult (S O V : Type u)
  | item (elem : MapElem S O V)
  | keyError (msg : String)
  deriving DecidableEq, Repr

/-- `dict_popitem`; the assertion is that there is a filled slot. -/
def dictPopitem (map : MpMap S O V) : Option (PopResult S O V × MpMap S O V) :=
  if map.used = 0 then some (.keyError "popitem(): dictionary is empty", map)
  else
    match firstFilled map.table 0 with
    | some (pos, elem) =>
      some (.item elem,
        { map with used := map.used - 1, table := map.table.set pos .sentinel })
    | none => none

/-! ### The abstract map -/

/-- A finite map: the entry of each key, with the key it was added under. -/
abbrev Entries (S O V : Type u) := MapKey S O → Option (MapElem S O V)

/-- The entry of all keys equal to `key` becomes `elem?`. -/
def Entries.update (D : KeyData S O) (m : Entries S O V) (key : MapKey S O)
    (elem? : Option (MapElem S O V)) : Entries S O V :=
  fun k => if mpObjEqual D key k then elem? else m k

/-- The operations on a map. A lookup comes with what its caller leaves as the value of the slot
that is returned. -/
inductive MapOp (S O V : Type u)
  | lookup (index : MapKey S O) (kind : LookupKind) (write : Option V → Option V)
  | popitem

/-- The result of an operation: the slot of a lookup, or the end of `popitem`. -/
inductive MapResult (S O V : Type u)
  | null
  | slot (elem : MapElem S O V)
  | removed (value : Option V)
  | pop (r : PopResult S O V)
  deriving DecidableEq, Repr

/-- What an operation does to a finite map, and its result. -/
inductive MapStep (D : KeyData S O) :
    Entries S O V → MapOp S O V → MapResult S O V → Entries S O V → Prop
  /-- the key is there, and stays with the value its caller leaves -/
  | found {m : Entries S O V} {index : MapKey S O} {kind : LookupKind}
      {write : Option V → Option V} {elem : MapElem S O V} (hm : m index = some elem)
      (hkind : kind ≠ .removeIfFound) :
      MapStep D m (.lookup index kind write) (.slot elem)
        (m.update D index (some (elem.1, write elem.2)))
  /-- the key is there and is removed -/
  | removed {m : Entries S O V} {index : MapKey S O} {write : Option V → Option V}
      {elem : MapElem S O V} (hm : m index = some elem) :
      MapStep D m (.lookup index .removeIfFound write) (.removed elem.2) (m.update D index none)
  /-- the key is not there and is added -/
  | added {m : Entries S O V} {index : MapKey S O} {write : Option V → Option V}
      (hm : m index = none) :
      MapStep D m (.lookup index .addIfNotFound write) (.slot (index, none))
        (m.update D index (some (index, write none)))
  /-- the key is not there -/
  | missing {m : Entries S O V} {index : MapKey S O} {kind : LookupKind}
      {write : Option V → Option V} (hm : m index = none) (hkind : kind ≠ .addIfNotFound) :
      MapStep D m (.lookup index kind write) .null m
  | popitem {m : Entries S O V} {elem : MapElem S O V} (hm : m elem.1 = some elem) :
      MapStep D m .popitem (.pop (.item elem)) (m.update D elem.1 none)
  | popitemEmpty {m : Entries S O V} (hm : ∀ key, m key = none) :
      MapStep D m .popitem (.pop (.keyError "popitem(): dictionary is empty")) m

/-- A sequence of steps with their results. -/
inductive MapSteps (D : KeyData S O) :
    Entries S O V → List (MapOp S O V) → List (MapResult S O V) → Entries S O V → Prop
  | nil {m : Entries S O V} : MapSteps D m [] [] m
  | cons {m m' m'' : Entries S O V} {op : MapOp S O V} {ops : List (MapOp S O V)}
      {r : MapResult S O V} {rs : List (MapResult S O V)} (hstep : MapStep D m op r m')
      (hsteps : MapSteps D m' ops rs m'') : MapSteps D m (op :: ops) (r :: rs) m''

/-! ### Equality of keys -/

theorem mpObjEqual_refl (D : KeyData S O) (a : MapKey S O) : mpObjEqual D a a = true := by
  cases a with
  | qstr q => exact beq_self_eq_true q
  | str s => exact beq_self_eq_true (D.strData s)
  | other o => exact D.otherEqual_equivalence.refl o

variable {a b : MapKey S O}

theorem mpObjEqual_symm (D : KeyData S O) (h : mpObjEqual D a b = true) :
    mpObjEqual D b a = true := by
  cases a <;> cases b <;> simp only [mpObjEqual, beq_iff_eq, Bool.false_eq_true] at h ⊢
  case other.other => exact D.otherEqual_equivalence.symm h
  all_goals exact h.symm

theorem mpObjEqual_trans (D : KeyData S O) {c : MapKey S O} (hab : mpObjEqual D a b = true)
    (hbc : mpObjEqual D b c = true) : mpObjEqual D a c = true := by
  cases a <;> cases b <;> cases c <;>
    simp only [mpObjEqual, beq_iff_eq, Bool.false_eq_true] at hab hbc ⊢
  case other.other.other => exact D.otherEqual_equivalence.trans hab hbc
  -- two interned strings with the text of a third string are the same
  case qstr.str.qstr => exact D.qstrData_injective (hab.trans hbc)
  case qstr.qstr.str => rw [hab, hbc]
  case str.qstr.qstr => rw [hab, hbc]
  all_goals exact hab.trans hbc

/-- An interned string equals only strings. -/
theorem mpObjEqual_other_of_isQstr (D : KeyData S O) (ha : a.isQstr = true)
    (o : O) : mpObjEqual D a (.other o) = false := by
  cases a with
  | qstr q => rfl
  | str s => cases ha
  | other o => cases ha

/-! ### The invariant -/

/-- Entries with equal keys. -/
def KeyData.Rel (D : KeyData S O) (a b : MapElem S O V) : Prop := mpObjEqual D a.1 b.1 = true

variable {D : KeyData S O}

theorem KeyData.Rel.symm (a b : MapElem S O V) (h : D.Rel a b) : D.Rel b a :=
  mpObjEqual_symm D h

/-- A map whose searches are complete, without equal keys, with the right count, and with only
interned keys when it says so. -/
structure MpMap.Good (K : KeyHashing S O) (map : MpMap S O V) : Prop where
  consistent : Consistent (fun elem => K.hash elem.1) K.Rel map.table
  used_eq : map.used = (contents map.table).card
  qstrs : map.allKeysAreQstrs = true → ∀ elem ∈ contents map.table, elem.1.isQstr = true

theorem mpMapInit_good (K : KeyHashing S O) (n : ℕ) : (mpMapInit n : MpMap S O V).Good K where
  consistent := .replicate_null _ _ n
  used_eq := by rw [mpMapInit, contents_replicate_null]; rfl
  qstrs _ elem hmem := by
    rw [mpMapInit, contents_replicate_null] at hmem
    exact absurd hmem (Multiset.notMem_zero elem)

variable {K : KeyHashing S O} {map : MpMap S O V} {index : MapKey S O} {pos : ℕ}

theorem MpMap.Good.add (hmap : map.Good K) {hit : MapElem S O V → Bool}
    (hend : SearchEnd map.table hit (K.hash index % map.table.length) (.absent (some pos)))
    (hnew : ∀ elem ∈ contents map.table, mpObjEqual K.toKeyData elem.1 index = false) :
    ({ used := map.used + 1
       table := map.table.set pos (.filled (index, none))
       allKeysAreQstrs := map.allKeysAreQstrs && index.isQstr } : MpMap S O V).Good K ∧
      contents (map.table.set pos (.filled (index, none))) =
        (index, none) ::ₘ contents map.table := by
  obtain ⟨hcons, hcont⟩ := hmap.consistent.insert (x := (index, none)) KeyData.Rel.symm hend
    (fun a ha h => Bool.false_ne_true ((hnew a ha).symm.trans h))
  refine ⟨⟨hcons, by rw [hcont, Multiset.card_cons, hmap.used_eq], ?_⟩, hcont⟩
  intro hq elem hmem
  rw [Bool.and_eq_true] at hq
  rw [hcont, Multiset.mem_cons] at hmem
  rcases hmem with rfl | hmem
  · exact hq.2
  · exact hmap.qstrs hq.1 elem hmem

variable {elem : MapElem S O V}

theorem MpMap.Good.remove (hmap : map.Good K) {table' : List (Slot (MapElem S O V))}
    (h : Consistent (fun elem => K.hash elem.1) K.Rel table' ∧
      contents map.table = elem ::ₘ contents table') :
    ({ map with used := map.used - 1, table := table' } : MpMap S O V).Good K where
  consistent := h.1
  used_eq := by rw [hmap.used_eq, h.2, Multiset.card_cons, Nat.add_sub_cancel]
  qstrs hq a ha := hmap.qstrs hq a (by rw [h.2]; exact Multiset.mem_cons_of_mem ha)

theorem MpMap.Good.storeValue (hmap : map.Good K) (hpos : map.table[pos]? = some (.filled elem))
    (value : Option V) :
    ({ map with table := map.table.set pos (.filled (elem.1, value)) } : MpMap S O V).Good K ∧
      ∃ rest, contents map.table = elem ::ₘ rest ∧
        contents (map.table.set pos (.filled (elem.1, value))) = (elem.1, value) ::ₘ rest := by
  obtain ⟨rest, hold, hnew⟩ := contents_set_replace hpos
  refine ⟨⟨hmap.consistent.replace KeyData.Rel.symm hpos rfl (fun c hc => hc), ?_, ?_⟩,
    rest, hold, hnew _⟩
  · rw [hmap.used_eq, hold, hnew, Multiset.card_cons, Multiset.card_cons]
  · intro hq a ha
    have hall := hmap.qstrs hq
    rw [hold] at hall
    rw [hnew, Multiset.mem_cons] at ha
    rcases ha with rfl | ha
    · exact hall elem (Multiset.mem_cons_self _ _)
    · exact hall a (Multiset.mem_cons_of_mem ha)

/-! ### Lookups -/

/-- What a lookup returns and leaves, when the entries were `m`. -/
inductive RefStep (D : KeyData S O) (m : Multiset (MapElem S O V)) (index : MapKey S O) :
    LookupKind → MapRef S O V → List (Slot (MapElem S O V)) → Prop
  | found {kind : LookupKind} {pos : ℕ} {elem : MapElem S O V}
      {table : List (Slot (MapElem S O V))} (hpos : table[pos]? = some (.filled elem))
      (heq : mpObjEqual D elem.1 index = true) (hkind : kind ≠ .removeIfFound)
      (hm : contents table = m) : RefStep D m index kind (.slot pos elem) table
  | removed {elem : MapElem S O V} {table : List (Slot (MapElem S O V))}
      (heq : mpObjEqual D elem.1 index = true)
      (hrest : ∀ e ∈ contents table, mpObjEqual D e.1 index = false)
      (hm : m = elem ::ₘ contents table) :
      RefStep D m index .removeIfFound (.removed elem.2) table
  | added {pos : ℕ} {table : List (Slot (MapElem S O V))}
      (hpos : table[pos]? = some (.filled (index, none)))
      (hnew : ∀ e ∈ m, mpObjEqual D e.1 index = false)
      (hm : contents table = (index, none) ::ₘ m) :
      RefStep D m index .addIfNotFound (.slot pos (index, none)) table
  | null {kind : LookupKind} {table : List (Slot (MapElem S O V))}
      (hnew : ∀ e ∈ m, mpObjEqual D e.1 index = false) (hkind : kind ≠ .addIfNotFound)
      (hm : contents table = m) : RefStep D m index kind .null table

variable {rest : Multiset (MapElem S O V)}

/-- The other keys differ from a key that was found. -/
theorem MpMap.Good.rest_not_equal (hmap : map.Good K)
    (hpos : map.table[pos]? = some (.filled elem)) (hrest : contents map.table = elem ::ₘ rest)
    (heq : mpObjEqual K.toKeyData elem.1 index = true) :
    ∀ e ∈ rest, mpObjEqual K.toKeyData e.1 index = false := by
  intro e he
  rw [← Bool.not_eq_true]
  intro h
  exact hmap.consistent.separated.not_rel hpos hrest e he
    (mpObjEqual_trans _ h (mpObjEqual_symm _ heq))

section Lookup

variable [DecidableEq S] [DecidableEq O]

/-- When pointers may be compared: all keys are interned, and the index is no other string. -/
def PtrsSuffice (index : MapKey S O) (m : Multiset (MapElem S O V)) : Prop :=
  (∀ elem ∈ m, elem.1.isQstr = true) ∧ ∀ s, index ≠ .str s

variable {compareOnlyPtrs : Bool}

/-- **The comparison of a search agrees with equality** on the keys of the table. -/
theorem mapHit_iff
    {m : Multiset (MapElem S O V)} (hptrs : compareOnlyPtrs = true → PtrsSuffice index m)
      (hmem : elem ∈ m) :
    mapHit K compareOnlyPtrs index elem = mpObjEqual K.toKeyData elem.1 index := by
  rw [Bool.eq_iff_iff, mapHit, Bool.or_eq_true, Bool.and_eq_true, beq_iff_eq]
  constructor
  · rintro (heq | ⟨-, heq⟩)
    · rw [heq]
      exact mpObjEqual_refl _ index
    · exact heq
  · intro heq
    cases compareOnlyPtrs with
    | false => exact .inr ⟨rfl, heq⟩
    | true =>
      obtain ⟨hall, hindex⟩ := hptrs rfl
      left
      rcases elem with ⟨key, value⟩
      have hkey := hall _ hmem
      cases index with
      | qstr q =>
        cases key with
        | qstr p => exact congrArg MapKey.qstr (beq_iff_eq.mp heq)
        | str s => cases hkey
        | other o => cases hkey
      | str s => exact absurd rfl (hindex s)
      | other o =>
        dsimp only at heq
        rw [mpObjEqual_other_of_isQstr _ hkey] at heq
        cases heq

/-- A hit has the hash of the index. -/
theorem hash_of_mapHit (h : mapHit K compareOnlyPtrs index elem = true) :
    K.hash elem.1 = K.hash index := by
  rw [mapHit, Bool.or_eq_true, Bool.and_eq_true, beq_iff_eq] at h
  rcases h with heq | ⟨-, heq⟩
  · rw [heq]
  · exact K.hash_eq _ _ heq

/-- A search that ends without a hit has seen that no key is equal. -/
theorem MpMap.Good.not_equal (hmap : map.Good K)
    (hptrs : compareOnlyPtrs = true → PtrsSuffice index (contents map.table)) {slot : Option ℕ}
    (hend : SearchEnd map.table (mapHit K compareOnlyPtrs index)
      (K.hash index % map.table.length) (.absent slot)) :
    ∀ elem ∈ contents map.table, mpObjEqual K.toKeyData elem.1 index = false := by
  intro elem hmem
  obtain ⟨pos, hpos⟩ := mem_contents.mp hmem
  rw [← mapHit_iff hptrs hmem]
  exact search_absent hmap.consistent.chained hend (fun a ha => by rw [hash_of_mapHit ha]) hpos

/-- One round: the loop returns and leaves the size alone, or the table is full. -/
theorem mpMapLoop_round (hmap : map.Good K)
    (halloc : 0 < map.alloc) (rehash : MpMap S O V → Option (MpMap S O V))
    (hptrs : compareOnlyPtrs = true → PtrsSuffice index (contents map.table)) (kind : LookupKind)
    (rounds : ℕ) :
    (∃ ref map', mpMapLoop K rehash compareOnlyPtrs index kind (rounds + 1) map =
        some (ref, map') ∧ map'.Good K ∧
      RefStep K.toKeyData (contents map.table) index kind ref map'.table ∧
        map'.alloc = map.alloc) ∨
    ((contents map.table).card = map.alloc ∧
      mpMapLoop K rehash compareOnlyPtrs index kind (rounds + 1) map =
        (rehash map).bind (mpMapLoop K rehash compareOnlyPtrs index kind rounds)) := by
  have hend := @search_spec _ map.table (mapHit K compareOnlyPtrs index) (K.hash index % map.alloc)
    (Nat.mod_lt _ halloc)
  rw [mpMapLoop]
  cases hsearch : search map.table (mapHit K compareOnlyPtrs index)
    (K.hash index % map.alloc) with
  | fault =>
    rw [hsearch] at hend
    cases hend
  | found pos elem =>
    rw [hsearch] at hend
    obtain ⟨hpos, hhit⟩ | _ | _ := hend
    rw [mapHit_iff hptrs (mem_contents.mpr ⟨pos, hpos⟩)] at hhit
    left
    dsimp only
    split
    · rename_i hkind
      have hrem := hmap.consistent.set_tombstone hpos
      subst hkind
      exact ⟨_, _, rfl, hmap.remove hrem,
        .removed hhit (hmap.rest_not_equal hpos hrem.2 hhit) hrem.2, List.length_set⟩
    · rename_i hkind
      exact ⟨_, _, rfl, hmap, .found hpos hhit hkind rfl, rfl⟩
  | absent availSlot =>
    rw [hsearch] at hend
    have hnew := hmap.not_equal hptrs hend
    dsimp only
    split
    · rename_i hkind
      subst hkind
      cases availSlot with
      | none => exact .inr ⟨hend.card_contents (Nat.mod_lt _ halloc), rfl⟩
      | some pos =>
        obtain ⟨hgood, hcont⟩ := hmap.add hend hnew
        obtain ⟨d, hd, hdp, -⟩ := hend.slot
        have hlt : pos < map.table.length := hdp ▸ Nat.mod_lt _ (by omega)
        exact .inl ⟨_, _, rfl, hgood, .added (List.getElem?_set_self hlt) hnew hcont,
          List.length_set⟩
    · rename_i hkind
      exact .inl ⟨_, _, rfl, hmap, .null hnew hkind rfl, rfl⟩

/-- The choice of the comparison: a failed lookup at once, or a hash lookup for which the
comparison is right. -/
theorem mpMapLookup_cases (hmap : map.Good K) (fuel : ℕ) (index : MapKey S O) (kind : LookupKind) :
    (mpMapLookup K (fuel + 1) map index kind = some (.null, map) ∧ kind ≠ .addIfNotFound ∧
      ∀ elem ∈ contents map.table, mpObjEqual K.toKeyData elem.1 index = false) ∨
    ∃ compareOnlyPtrs : Bool,
      (compareOnlyPtrs = true → PtrsSuffice index (contents map.table)) ∧
      mpMapLookup K (fuel + 1) map index kind =
        mpMapHashLookup K (mpMapRehash (mpMapLookup K fuel)) compareOnlyPtrs index kind
          (fuel + 1) map := by
  rw [mpMapLookup.eq_def]
  dsimp only
  split
  · rename_i hflag
    have hall := hmap.qstrs hflag
    cases index with
    | qstr q => exact .inr ⟨true, fun _ => ⟨hall, fun s h => nomatch h⟩, rfl⟩
    | str s => exact .inr ⟨false, fun h => absurd h Bool.false_ne_true, rfl⟩
    | other o =>
      dsimp only
      split
      · rename_i hkind
        exact .inl ⟨rfl, hkind, fun elem hmem => mpObjEqual_other_of_isQstr _ (hall elem hmem) o⟩
      · exact .inr ⟨true, fun _ => ⟨hall, fun s h => nomatch h⟩, rfl⟩
  · exact .inr ⟨false, fun h => absurd h Bool.false_ne_true, rfl⟩

/-- A lookup in a table with room returns and leaves the size alone. -/
theorem mpMapLookup_of_room (hmap : map.Good K)
    (hroom : (contents map.table).card < map.alloc) (fuel : ℕ) (index : MapKey S O)
    (kind : LookupKind) :
    ∃ ref map', mpMapLookup K (fuel + 1) map index kind = some (ref, map') ∧ map'.Good K ∧
      RefStep K.toKeyData (contents map.table) index kind ref map'.table ∧
        map'.alloc = map.alloc := by
  rcases mpMapLookup_cases hmap fuel index kind with ⟨hret, hkind, hnew⟩ | ⟨cmp, hptrs, hlook⟩
  · exact ⟨_, _, hret, hmap, .null hnew hkind rfl, rfl⟩
  · rw [hlook, mpMapHashLookup, if_neg (by omega)]
    rcases mpMapLoop_round hmap (by omega) (mpMapRehash (mpMapLookup K fuel)) hptrs kind fuel with
      hret | ⟨hfull, -⟩
    · exact hret
    · omega

/-- Adding a key and its value in a table with room. -/
theorem mpMapLookup_store (hmap : map.Good K)
    (hroom : (contents map.table).card < map.alloc) (fuel : ℕ) (elem : MapElem S O V)
    (hnew : ∀ e ∈ contents map.table, mpObjEqual K.toKeyData e.1 elem.1 = false) :
    ∃ map', (mpMapLookup K (fuel + 1) map elem.1 .addIfNotFound).bind
        (fun out => out.2.storeValue out.1 elem.2) = some map' ∧ map'.Good K ∧
      contents map'.table = elem ::ₘ contents map.table ∧ map'.alloc = map.alloc := by
  obtain ⟨ref, map₁, hlook, hmap₁, hstep, halloc⟩ :=
    mpMapLookup_of_room hmap hroom fuel elem.1 .addIfNotFound
  rw [hlook]
  cases hstep with
  | @found _ pos e _ hpos heq hkind hm =>
    have hmem : e ∈ contents map₁.table := mem_contents.mpr ⟨pos, hpos⟩
    rw [hm] at hmem
    exact absurd heq (by rw [hnew e hmem]; decide)
  | null _ hkind => exact absurd rfl hkind
  | @added pos _ hpos _ hm =>
    obtain ⟨hgood, rest, hold, hcont⟩ := hmap₁.storeValue hpos elem.2
    rw [hm, Multiset.cons_inj_right] at hold
    refine ⟨_, rfl, hgood, ?_, List.length_set.trans halloc⟩
    dsimp only
    rw [hcont, hold]

/-- **Rehashing** keeps the entries and makes room. -/
theorem mpMapRehash_spec (hmap : map.Good K) (fuel : ℕ) :
    ∃ map', mpMapRehash (mpMapLookup K (fuel + 1)) map = some map' ∧ map'.Good K ∧
      contents map'.table = contents map.table ∧ (contents map'.table).card < map'.alloc := by
  have hsize := le_getHashAllocGreaterOrEqualTo (map.alloc + 1)
  have hcard : (contents map.table).card ≤ map.alloc := card_contents_le map.table
  generalize hn : getHashAllocGreaterOrEqualTo (map.alloc + 1) = n at hsize
  have hfresh : contents (mpMapInit n : MpMap S O V).table = 0 := contents_replicate_null n
  have halloc : (mpMapInit n : MpMap S O V).alloc = n := List.length_replicate
  obtain ⟨map', hfold, hmap', hcont, halloc'⟩ :=
    insertAll MpMap.table
      (fun m elem => (mpMapLookup K (fuel + 1) m elem.1 .addIfNotFound).bind
        fun out => out.2.storeValue out.1 elem.2)
      (fun m elem hm hroom hmiss =>
        mpMapLookup_store hm hroom fuel elem fun a ha => Bool.not_eq_true _ ▸ hmiss a ha)
      map.table (mpMapInit_good K n)
      (by rw [hfresh, ← MpMap.alloc, halloc, Multiset.card_zero]; omega)
      hmap.consistent.separated.pairwise
      (fun a ha => absurd ha (by rw [hfresh]; exact Multiset.notMem_zero a))
  rw [hfresh, Multiset.add_zero] at hcont
  refine ⟨map', ?_, hmap', hcont, ?_⟩
  · rw [mpMapRehash, hn, ← hfold]
    congr 1
    funext m slot
    cases slot <;> rfl
  · rw [hcont, MpMap.alloc, halloc', ← MpMap.alloc, halloc]
    omega

/-- **Every lookup returns**, with the slot of its key. -/
theorem mpMapLookup_spec (hmap : map.Good K) (fuel : ℕ) (index : MapKey S O) (kind : LookupKind) :
    ∃ ref map', mpMapLookup K (fuel + 2) map index kind = some (ref, map') ∧ map'.Good K ∧
      RefStep K.toKeyData (contents map.table) index kind ref map'.table := by
  obtain ⟨map₁, hrehash, hmap₁, hcont₁, hroom⟩ := mpMapRehash_spec hmap fuel
  rcases mpMapLookup_cases hmap (fuel + 1) index kind with
    ⟨hret, hkind, hnew⟩ | ⟨cmp, hptrs, hlook⟩
  · exact ⟨_, _, hret, hmap, .null hnew hkind rfl⟩
  -- a round in the rehashed map ends the call
  have hagain : ∀ rounds, ∃ ref map', (mpMapRehash (mpMapLookup K (fuel + 1)) map).bind
        (mpMapLoop K (mpMapRehash (mpMapLookup K (fuel + 1))) cmp index kind (rounds + 1)) =
          some (ref, map') ∧ map'.Good K ∧
      RefStep K.toKeyData (contents map.table) index kind ref map'.table := by
    intro rounds
    rw [← hcont₁] at hptrs ⊢
    rw [hrehash, Option.bind_some]
    rcases mpMapLoop_round hmap₁ (by omega) (mpMapRehash (mpMapLookup K (fuel + 1))) hptrs kind
      rounds with ⟨ref, map', hret, hmap', hstep, -⟩ | ⟨hfull, -⟩
    · exact ⟨ref, map', hret, hmap', hstep⟩
    · omega
  rw [hlook, mpMapHashLookup]
  split
  · rename_i hzero
    split
    · exact hagain (fuel + 1)
    · rename_i hkind
      refine ⟨_, _, rfl, hmap, .null (fun elem hmem => ?_) hkind rfl⟩
      have hcard := card_contents_le map.table
      have hpos := Multiset.card_pos_iff_exists_mem.mpr ⟨elem, hmem⟩
      rw [MpMap.alloc] at hzero
      omega
  · rename_i hpos
    rcases mpMapLoop_round hmap (Nat.pos_of_ne_zero hpos) (mpMapRehash (mpMapLookup K (fuel + 1)))
      hptrs kind (fuel + 1) with ⟨ref, map', hret, hmap', hstep, -⟩ | ⟨-, hloop⟩
    · exact ⟨ref, map', hret, hmap', hstep⟩
    · rw [hloop]
      exact hagain fuel

end Lookup

/-! ### The entries of a map -/

/-- The abstract map of a table. -/
def MpMap.entries (D : KeyData S O) (map : MpMap S O V) : Entries S O V :=
  fun key => (map.table.filterMap Slot.elem?).find? fun elem => mpObjEqual D elem.1 key

variable {key : MapKey S O}

theorem MpMap.Good.entries_eq_some_iff (hmap : map.Good K) :
    map.entries K.toKeyData key = some elem ↔
      elem ∈ contents map.table ∧ mpObjEqual K.toKeyData elem.1 key = true := by
  constructor
  · intro h
    exact ⟨List.mem_of_find?_eq_some h, (List.find?_some h :)⟩
  · rintro ⟨hmem, heq⟩
    cases hfind : map.entries K.toKeyData key with
    | none => exact absurd heq (List.find?_eq_none.mp hfind elem hmem)
    | some elem' =>
      obtain ⟨p, hp⟩ := mem_contents.mp hmem
      obtain ⟨q, hq⟩ := mem_contents.mp (List.mem_of_find?_eq_some hfind)
      have heq' : mpObjEqual K.toKeyData elem'.1 key = true :=
        (List.find?_some hfind :)
      obtain rfl := hmap.consistent.separated p q elem elem' hp hq
        (mpObjEqual_trans _ heq (mpObjEqual_symm _ heq'))
      rw [hp] at hq
      cases hq
      rfl

theorem MpMap.entries_eq_none_iff :
    map.entries D key = none ↔ ∀ elem ∈ contents map.table, mpObjEqual D elem.1 key = false := by
  rw [MpMap.entries, List.find?_eq_none]
  simp only [Bool.not_eq_true]
  rfl

theorem mem_elim_singleton {o : Option (MapElem S O V)} :
    elem ∈ (o.elim 0 ({·}) : Multiset (MapElem S O V)) ↔ o = some elem := by
  cases o with
  | none => simp
  | some a => simp [eq_comm]

/-- Tables that differ in one entry, before or after, have maps that differ at its key. -/
theorem MpMap.Good.entries_update {map' : MpMap S O V} (hmap : map.Good K)
    (hmap' : map'.Good K) (key : MapKey S O) (old new : Option (MapElem S O V))
    (hold : contents map.table = old.elim 0 ({·}) + rest)
    (hnew : contents map'.table = new.elim 0 ({·}) + rest)
    (hrest : ∀ e ∈ rest, mpObjEqual K.toKeyData e.1 key = false)
    (holdKey : ∀ e, old = some e → mpObjEqual K.toKeyData e.1 key = true)
    (hnewKey : ∀ e, new = some e → mpObjEqual K.toKeyData e.1 key = true) :
    map'.entries K.toKeyData = (map.entries K.toKeyData).update K.toKeyData key new := by
  funext k
  refine Option.ext fun e => ?_
  rw [hmap'.entries_eq_some_iff, hnew, Multiset.mem_add, mem_elim_singleton, Entries.update]
  split
  · rename_i hk
    constructor
    · rintro ⟨hmem | hmem, hek⟩
      · exact hmem
      · have := mpObjEqual_trans _ hek (mpObjEqual_symm _ hk)
        rw [hrest e hmem] at this
        cases this
    · intro he
      exact ⟨.inl he, mpObjEqual_trans _ (hnewKey e he) hk⟩
  · rename_i hk
    -- an entry with the key is not the entry of `k`
    have hne : mpObjEqual K.toKeyData e.1 k = true → mpObjEqual K.toKeyData e.1 key ≠ true :=
      fun hek h => hk (mpObjEqual_trans _ (mpObjEqual_symm _ h) hek)
    rw [hmap.entries_eq_some_iff, hold, Multiset.mem_add, mem_elim_singleton]
    constructor
    · rintro ⟨hmem | hmem, hek⟩
      · exact absurd (hnewKey e hmem) (hne hek)
      · exact ⟨.inr hmem, hek⟩
    · rintro ⟨hmem | hmem, hek⟩
      · exact absurd (holdKey e hmem) (hne hek)
      · exact ⟨.inr hmem, hek⟩

/-! ### Runs -/

section Runs

variable [DecidableEq S] [DecidableEq O]

/-- One operation on a map. -/
def mpMapOp (K : KeyHashing S O) (fuel : ℕ) (map : MpMap S O V) :
    MapOp S O V → Option (MapResult S O V × MpMap S O V)
  | .lookup index kind write =>
    (mpMapLookup K fuel map index kind).bind fun (ref, map) =>
      match ref with
      | .null => some (.null, map)
      | .slot _ elem => (map.storeValue ref (write elem.2)).map fun map => (.slot elem, map)
      | .removed value => some (.removed value, map)
  | .popitem => (dictPopitem map).map fun (r, map) => (.pop r, map)

/-- A sequence of operations, with their results. -/
def mpMapRun (K : KeyHashing S O) (fuel : ℕ) : MpMap S O V → List (MapOp S O V) →
    Option (List (MapResult S O V) × MpMap S O V)
  | map, [] => some ([], map)
  | map, op :: ops => do
    let (r, map) ← mpMapOp K fuel map op
    let (rs, map) ← mpMapRun K fuel map ops
    some (r :: rs, map)

/-- A lookup and what its caller stores are a step of the finite map. -/
theorem mpMapOp_lookup (hmap : map.Good K) (fuel : ℕ)
    (index : MapKey S O) (kind : LookupKind) (write : Option V → Option V) :
    ∃ r map', mpMapOp K (fuel + 2) map (.lookup index kind write) = some (r, map') ∧
      map'.Good K ∧ MapStep K.toKeyData (map.entries K.toKeyData) (.lookup index kind write) r
        (map'.entries K.toKeyData) := by
  obtain ⟨ref, map₁, hlook, hmap₁, hstep⟩ := mpMapLookup_spec hmap fuel index kind
  rw [mpMapOp, hlook, Option.bind_some]
  cases hstep with
  | @found kind pos elem table hpos heq hkind hm =>
    obtain ⟨hgood, rest, hold, hcont⟩ := hmap₁.storeValue hpos (write elem.2)
    have hrest := hmap₁.rest_not_equal hpos hold heq
    rw [hm] at hold
    refine ⟨_, _, rfl, hgood, ?_⟩
    rw [hmap.entries_update hgood index (some elem) (some (elem.1, write elem.2)) hold hcont
      hrest (fun e he => Option.some.inj he ▸ heq)
      (fun e he => Option.some.inj he ▸ heq)]
    exact .found (hmap.entries_eq_some_iff.mpr
      ⟨by rw [hold]; exact Multiset.mem_cons_self _ _, heq⟩) hkind
  | @removed elem table heq hrest hm =>
    refine ⟨_, _, rfl, hmap₁, ?_⟩
    rw [hmap.entries_update hmap₁ index (some elem) none hm (Multiset.zero_add _).symm hrest
      (fun e he => Option.some.inj he ▸ heq)
      (fun e he => nomatch he)]
    exact .removed (hmap.entries_eq_some_iff.mpr
      ⟨by rw [hm]; exact Multiset.mem_cons_self _ _, heq⟩)
  | @added pos table hpos hnew hm =>
    obtain ⟨hgood, rest, hold, hcont⟩ := hmap₁.storeValue hpos (write none)
    rw [hm, Multiset.cons_inj_right] at hold
    subst hold
    refine ⟨_, _, rfl, hgood, ?_⟩
    rw [hmap.entries_update hgood index none (some (index, write none))
      (Multiset.zero_add _).symm hcont hnew (fun e he => nomatch he)
      (fun e he => Option.some.inj he ▸ mpObjEqual_refl _ index)]
    exact .added (MpMap.entries_eq_none_iff.mpr hnew)
  | @null kind table hnew hkind hm =>
    refine ⟨_, _, rfl, hmap₁, ?_⟩
    have hsame : map₁.entries K.toKeyData = map.entries K.toKeyData :=
      funext fun k => Option.ext fun e => by
        rw [hmap₁.entries_eq_some_iff, hmap.entries_eq_some_iff, hm]
    rw [hsame]
    exact .missing (MpMap.entries_eq_none_iff.mpr hnew) hkind

/-- `dict_popitem` removes some entry, or reports that there is none. -/
theorem mpMapOp_popitem (hmap : map.Good K) (fuel : ℕ) :
    ∃ r map', mpMapOp K fuel map .popitem = some (r, map') ∧ map'.Good K ∧
      MapStep K.toKeyData (map.entries K.toKeyData) .popitem r (map'.entries K.toKeyData) := by
  rw [mpMapOp, dictPopitem]
  split
  · rename_i hzero
    rw [hmap.used_eq, Multiset.card_eq_zero] at hzero
    refine ⟨_, _, rfl, hmap, .popitemEmpty fun key => ?_⟩
    rw [MpMap.entries_eq_none_iff, hzero]
    exact fun elem h => absurd h (Multiset.notMem_zero elem)
  · rename_i hused
    split
    · rename_i pos elem hfirst
      obtain ⟨-, hpos⟩ := firstFilled_some hfirst
      rw [Nat.sub_zero] at hpos
      have hrem := hmap.consistent.set_sentinel hpos
      have hself := mpObjEqual_refl K.toKeyData elem.1
      refine ⟨_, _, rfl, hmap.remove hrem, ?_⟩
      rw [hmap.entries_update (hmap.remove hrem) elem.1 (some elem) none hrem.2
        (Multiset.zero_add _).symm (hmap.rest_not_equal hpos hrem.2 hself)
        (fun e he => Option.some.inj he ▸ hself) (fun e he => nomatch he)]
      exact .popitem (hmap.entries_eq_some_iff.mpr ⟨mem_contents.mpr ⟨_, hpos⟩, hself⟩)
    · rename_i hnone
      rw [hmap.used_eq, firstFilled_none hnone] at hused
      exact absurd rfl hused

theorem mpMapOp_spec (hmap : map.Good K) (fuel : ℕ) (op : MapOp S O V) :
    ∃ r map', mpMapOp K (fuel + 2) map op = some (r, map') ∧ map'.Good K ∧
      MapStep K.toKeyData (map.entries K.toKeyData) op r (map'.entries K.toKeyData) := by
  cases op with
  | lookup index kind write => exact mpMapOp_lookup hmap fuel index kind write
  | popitem => exact mpMapOp_popitem hmap (fuel + 2)

theorem mpMapRun_spec (fuel : ℕ) (ops : List (MapOp S O V)) (hmap : map.Good K) :
    ∃ rs map', mpMapRun K (fuel + 2) map ops = some (rs, map') ∧ map'.Good K ∧
      MapSteps K.toKeyData (map.entries K.toKeyData) ops rs (map'.entries K.toKeyData) := by
  induction ops generalizing map with
  | nil => exact ⟨[], map, rfl, hmap, .nil⟩
  | cons op ops ih =>
    obtain ⟨r, map₁, hop, hmap₁, hstep⟩ := mpMapOp_spec hmap fuel op
    obtain ⟨rs, map', hrun, hmap', hsteps⟩ := ih hmap₁
    refine ⟨r :: rs, map', ?_, hmap', .cons hstep hsteps⟩
    rw [mpMapRun, hop]
    dsimp only [bind, Option.bind]
    rw [hrun]

/-- **Maps are finite maps.** Every sequence of lookups and `popitem` calls on a new map returns
and answers as a finite map does, whatever kinds of objects the keys are; the count of the map
is the number of its filled slots, and no two filled slots hold equal keys. -/
theorem mp_map_run (K : KeyHashing S O) (n fuel : ℕ) (ops : List (MapOp S O V)) :
    ∃ rs map, mpMapRun K (fuel + 2) (mpMapInit n) ops = some (rs, map) ∧
      MapSteps K.toKeyData (fun _ => none) ops rs (map.entries K.toKeyData) ∧
      map.used = (map.table.filter fun slot => slot.elem?.isSome).length ∧
      ∀ (p q : ℕ) (a b : MapElem S O V), map.table[p]? = some (.filled a) →
        map.table[q]? = some (.filled b) → mpObjEqual K.toKeyData a.1 b.1 = true → p = q := by
  obtain ⟨rs, map, hrun, hmap, hsteps⟩ := mpMapRun_spec fuel ops (mpMapInit_good K n)
  have hempty : (mpMapInit n : MpMap S O V).entries K.toKeyData = fun _ => none := by
    funext key
    rw [MpMap.entries_eq_none_iff, mpMapInit, contents_replicate_null]
    exact fun elem h => absurd h (Multiset.notMem_zero elem)
  rw [hempty] at hsteps
  refine ⟨rs, map, hrun, hsteps, ?_, hmap.consistent.separated⟩
  rw [hmap.used_eq, contents, Multiset.coe_card, List.length_filterMap_eq_countP,
    List.countP_eq_length_filter]

end Runs

/-- Interned strings of zero bytes, strings by their bytes, numbers as other objects. -/
def zeroKeys : KeyHashing (List UInt8) ℕ where
  qstrData q := List.replicate q 0
  strData s := s
  otherEqual a b := a == b
  qstrData_injective a b h := by simpa using congrArg List.length h
  otherEqual_equivalence := by simpa only [beq_iff_eq] using eq_equivalence
  hash
    | .qstr q => q
    | .str s => s.length
    | .other o => o
  hash_eq a b h := by
    cases a <;> cases b <;> simp only [mpObjEqual, beq_iff_eq, Bool.false_eq_true] at h
    case qstr.str => exact (by simpa using congrArg List.length h)
    case str.qstr => exact (by simpa using congrArg List.length h)
    case str.str => rw [h]
    all_goals exact h

/-- A string that is not interned finds the entry of an interned one. -/
example :
    (mpMapRun (V := ℕ) zeroKeys 2 (mpMapInit 0)
      [.lookup (.qstr 2) .addIfNotFound (fun _ => some 7), .lookup (.str [0, 0]) .lookup id,
       .lookup (.other 2) .lookup id, .lookup (.other 2) .addIfNotFound (fun _ => some 8),
       .lookup (.str [0, 0]) .removeIfFound id, .popitem, .popitem]).map Prod.fst =
      some [.slot (.qstr 2, none), .slot (.qstr 2, some 7), .null, .slot (.other 2, none),
        .removed (some 7), .pop (.item (.other 2, some 8)),
        .pop (.keyError "popitem(): dictionary is empty")] := by decide

end Pycopy
