import Pycopy.Map.Map

/-!
# Ordered Dictionaries

The ordered arrays of `mp_map_lookup` in `py/map.c`, and the operations of `py/objdict.c` on an
`OrderedDict`.

The entries are the first `used` slots of the table. Removing an entry moves those behind it down
and leaves its value in the slot just behind the end, and adding a key takes that slot with the
value that is in it. An iteration goes over the whole table. So it matters that the slots behind the
end have no key, and that whoever removes an entry clears the value that is left.

## Main results

* `ordered_dict_run`: every sequence of operations answers as a list of entries in the order of
  their insertion, and an iteration gives this list. -/

open OpenAddressing

namespace Pycopy

universe u

variable {S O V : Type u}

/-! ### The source -/

/-- A slot: its key may be `MP_OBJ_NULL` or `MP_OBJ_SENTINEL`, and its value `MP_OBJ_NULL`. -/
abbrev OrdSlot (S O V : Type u) := Slot (MapKey S O) × Option V

/-- `mp_map_t` with `is_ordered` -/
structure OrdMap (S O V : Type u) where
  allKeysAreQstrs : Bool
  used : ℕ
  table : List (OrdSlot S O V)
  deriving Repr

/-- `mp_obj_dict_make_new` without arguments -/
def ordDictNew : OrdMap S O V := ⟨true, 0, []⟩

/-- `elem->value = value` -/
def OrdMap.storeValue (map : OrdMap S O V) (elem : ℕ) (value : Option V) : OrdMap S O V :=
  { map with table := map.table.modify elem fun slot => (slot.1, value) }

/-- `elem->value` -/
def OrdMap.loadValue (map : OrdMap S O V) (elem : ℕ) : Option V := map.table[elem]?.bind Prod.snd

section Source

variable [DecidableEq S] [DecidableEq O] (K : KeyHashing S O)

/-- The comparison of a slot with the index -/
def ordHit (compareOnlyPtrs : Bool) (index : MapKey S O) (slot : OrdSlot S O V) : Bool :=
  slot.1.elem?.any fun key => mapHit K compareOnlyPtrs index (key, slot.2)

/-- The linear search of `mp_map_lookup`: the position of an element, or `NULL` -/
def ordMapScan (compareOnlyPtrs : Bool) (map : OrdMap S O V) (index : MapKey S O)
    (kind : LookupKind) : Option ℕ × OrdMap S O V :=
  match (map.table.take map.used).findIdx? (ordHit K compareOnlyPtrs index) with
  | some i =>
    if kind = .removeIfFound then
      -- the rest of the array moves down, and the value is put after the end
      (some (map.used - 1),
        { map with
          used := map.used - 1
          table := (map.table.take map.used).eraseIdx i ++
            (.null, map.loadValue i) :: map.table.drop map.used })
    else (some i, map)
  | none =>
    if kind ≠ .addIfNotFound then (none, map)
    else
      let table :=
        if map.used = map.table.length then map.table ++ List.replicate 4 (.null, none)
        else map.table
      (some map.used,
        { used := map.used + 1
          table := table.modify map.used fun slot => (.filled index, slot.2)
          allKeysAreQstrs := map.allKeysAreQstrs && index.isQstr })

/-- `mp_map_lookup` on an ordered map -/
def ordMapLookup (map : OrdMap S O V) (index : MapKey S O) (kind : LookupKind) :
    Option ℕ × OrdMap S O V :=
  if map.allKeysAreQstrs then
    match index with
    | .qstr _ => ordMapScan K true map index kind
    | .str _ => ordMapScan K false map index kind
    | .other _ =>
      if kind ≠ .addIfNotFound then (none, map) else ordMapScan K true map index kind
  else ordMapScan K false map index kind

/-- How an operation ends; `null` is a result `MP_OBJ_NULL`. -/
inductive DictResult (S O V : Type u)
  | none
  | value (v : V)
  | item (key : MapKey S O) (v : V)
  | keyError
  | null
  deriving DecidableEq, Repr

/-- `dict_get_helper`; a default may be given. -/
def dictGetHelper (noneObj : V) (map : OrdMap S O V) (key : MapKey S O) (default : Option V)
    (kind : LookupKind) : DictResult S O V × OrdMap S O V :=
  let (elem, map) := ordMapLookup K map key kind
  match elem.bind map.loadValue with
  | none =>
    if default = none ∧ kind = .removeIfFound then (.keyError, map)
    else
      let value := default.getD noneObj
      (.value value,
        if kind = .addIfNotFound then elem.elim map (map.storeValue · (some value)) else map)
  | some value =>
    (.value value,
      if kind = .removeIfFound then elem.elim map (map.storeValue · none) else map)

/-- `dict_popitem`: `dict_iter_next` starts at the last element. -/
def ordDictPopitem (map : OrdMap S O V) : DictResult S O V × OrdMap S O V :=
  if map.used = 0 then (.keyError, map)
  else
    match (map.table.drop (map.used - 1)).findIdx? fun slot => slot.1.elem?.isSome with
    | none => (.null, map)
    | some i =>
      match map.table[map.used - 1 + i]? with
      | some (.filled key, some value) =>
        (.item key value,
          { map with
            used := map.used - 1
            table := map.table.set (map.used - 1 + i) (.sentinel, none) })
      | _ => (.null, map)

/-- The operations -/
inductive DictOp (S O V : Type u)
  | store (key : MapKey S O) (v : V)
  | load (key : MapKey S O)
  | get (key : MapKey S O) (default : Option V)
  | delete (key : MapKey S O)
  | pop (key : MapKey S O) (default : Option V)
  | setdefault (key : MapKey S O) (default : Option V)
  | popitem
  deriving DecidableEq, Repr

/-- A result that is not used, unless it is an error -/
def DictResult.discard : DictResult S O V → DictResult S O V
  | .keyError => .keyError
  | _ => .none

/-- An operation on an `OrderedDict` -/
def ordDictOp (noneObj : V) (map : OrdMap S O V) : DictOp S O V → DictResult S O V × OrdMap S O V
  | .store key v =>
    let (elem, map) := ordMapLookup K map key .addIfNotFound
    (.none, elem.elim map (map.storeValue · (some v)))
  | .load key =>
    let (elem, map) := ordMapLookup K map key .lookup
    match elem with
    | none => (.keyError, map)
    | some elem => ((map.loadValue elem).elim .null .value, map)
  | .get key default => dictGetHelper K noneObj map key default .lookup
  | .delete key =>
    let (r, map) := dictGetHelper K noneObj map key none .removeIfFound
    (r.discard, map)
  | .pop key default => dictGetHelper K noneObj map key default .removeIfFound
  | .setdefault key default => dictGetHelper K noneObj map key default .addIfNotFound
  | .popitem => ordDictPopitem map

/-- What an iteration with `dict_iter_next` gives -/
def ordDictIter (map : OrdMap S O V) : List (MapKey S O × Option V) :=
  map.table.filterMap fun slot => slot.1.elem?.map (·, slot.2)

def ordDictRun (noneObj : V) : OrdMap S O V → List (DictOp S O V) →
    List (DictResult S O V) × OrdMap S O V
  | map, [] => ([], map)
  | map, op :: ops =>
    let (r, map) := ordDictOp K noneObj map op
    let (rs, map) := ordDictRun noneObj map ops
    (r :: rs, map)

end Source

/-! ### Lists of entries -/

/-- The place of a key -/
def entryIdx (D : KeyData S O) (l : List (MapKey S O × V)) (key : MapKey S O) : Option ℕ :=
  l.findIdx? fun e => mpObjEqual D e.1 key

/-- What an operation does to the list of entries: a key that is there keeps its place, and a new
one comes to the end. -/
def entriesOp (D : KeyData S O) (noneObj : V) (l : List (MapKey S O × V)) :
    DictOp S O V → DictResult S O V × List (MapKey S O × V)
  | .store key v =>
    match entryIdx D l key with
    | some i => (.none, l.modify i fun e => (e.1, v))
    | none => (.none, l ++ [(key, v)])
  | .load key =>
    match entryIdx D l key with
    | some i => (l[i]?.elim .null (.value ·.2), l)
    | none => (.keyError, l)
  | .get key default =>
    match entryIdx D l key with
    | some i => (l[i]?.elim .null (.value ·.2), l)
    | none => (.value (default.getD noneObj), l)
  | .delete key =>
    match entryIdx D l key with
    | some i => (.none, l.eraseIdx i)
    | none => (.keyError, l)
  | .pop key default =>
    match entryIdx D l key with
    | some i => (l[i]?.elim .null (.value ·.2), l.eraseIdx i)
    | none => (default.elim .keyError .value, l)
  | .setdefault key default =>
    match entryIdx D l key with
    | some i => (l[i]?.elim .null (.value ·.2), l)
    | none => (.value (default.getD noneObj), l ++ [(key, default.getD noneObj)])
  | .popitem =>
    match l.getLast? with
    | none => (.keyError, l)
    | some e => (.item e.1 e.2, l.dropLast)

def entriesRun (D : KeyData S O) (noneObj : V) : List (MapKey S O × V) → List (DictOp S O V) →
    List (DictResult S O V) × List (MapKey S O × V)
  | l, [] => ([], l)
  | l, op :: ops =>
    let (r, l) := entriesOp D noneObj l op
    let (rs, l) := entriesRun D noneObj l ops
    (r :: rs, l)

/-! ### The table of a list of entries -/

/-- The slot of an entry -/
def fillSlot (e : MapKey S O × V) : OrdSlot S O V := (.filled e.1, some e.2)

/-- A slot behind the end has neither a key nor a value. -/
def FreeSlot (slot : OrdSlot S O V) : Prop := slot.1.elem? = none ∧ slot.2 = none

/-- **The table holds the entries** in their order, and nothing behind them. -/
structure OrdMap.Shows (map : OrdMap S O V) (l : List (MapKey S O × V))
    (rest : List (OrdSlot S O V)) : Prop where
  used_eq : map.used = l.length
  table_eq : map.table = l.map fillSlot ++ rest
  free : ∀ slot ∈ rest, FreeSlot slot
  qstrs : map.allKeysAreQstrs = true → ∀ e ∈ l, e.1.isQstr = true

theorem modify_append_cons {α : Type u} (xs : List α) (y : α) (ys : List α) (f : α → α) :
    (xs ++ y :: ys).modify xs.length f = xs ++ f y :: ys := by
  induction xs with
  | nil => rfl
  | cons x xs ih => simp [ih]

theorem map_modify_append {α β : Type u} (fill : α → β) (f : α → α) (g : β → β)
    (hfg : ∀ a, g (fill a) = fill (f a)) (l : List α) (rest : List β) {i : ℕ} (hi : i < l.length) :
    (l.map fill ++ rest).modify i g = (l.modify i f).map fill ++ rest := by
  induction l generalizing i with
  | nil => exact absurd hi (Nat.not_lt_zero i)
  | cons a l ih =>
    cases i with
    | zero => simp [hfg]
    | succ i => simp [ih (Nat.lt_of_succ_lt_succ hi)]

variable {map : OrdMap S O V} {l : List (MapKey S O × V)} {rest : List (OrdSlot S O V)}

namespace OrdMap.Shows

variable (h : map.Shows l rest)

include h

theorem take_used : map.table.take map.used = l.map fillSlot := by
  rw [h.table_eq, h.used_eq, ← List.length_map fillSlot, List.take_left']
  rfl

theorem loadValue_eq {i : ℕ} (hi : i < l.length) : map.loadValue i = l[i]?.map Prod.snd := by
  rw [OrdMap.loadValue, h.table_eq, List.getElem?_append_left (by simpa using hi),
    List.getElem?_map, Option.bind_map]
  cases l[i]? <;> rfl

theorem iter_eq : ordDictIter map = l.map fun e => (e.1, some e.2) := by
  have hrest : rest.filterMap (fun slot => slot.1.elem?.map (·, slot.2)) = [] := by
    refine List.filterMap_eq_nil_iff.mpr fun slot hslot => ?_
    rw [(h.free slot hslot).1, Option.map_none]
  rw [ordDictIter, h.table_eq, List.filterMap_append, hrest, List.append_nil, List.filterMap_map,
    ← List.filterMap_eq_map]
  rfl

variable [DecidableEq S] [DecidableEq O] {K : KeyHashing S O}

/-- The search finds the place of the key in the list. -/
theorem findIdx_eq {index : MapKey S O} {compareOnlyPtrs : Bool}
    (hptrs : compareOnlyPtrs = true → map.allKeysAreQstrs = true ∧ ∀ s, index ≠ .str s) :
    (map.table.take map.used).findIdx? (ordHit K compareOnlyPtrs index) =
      entryIdx K.toKeyData l index := by
  have hhit : ∀ e ∈ l, ordHit K compareOnlyPtrs index (fillSlot e) =
      mpObjEqual K.toKeyData e.1 index := by
    intro e he
    show mapHit K compareOnlyPtrs index (e.1, some e.2) = _
    refine mapHit_iff (m := (l.map fun e => (e.1, some e.2) :)) ?_
      (Multiset.mem_coe.mpr (List.mem_map_of_mem he))
    intro hcop
    obtain ⟨hall, hstr⟩ := hptrs hcop
    refine ⟨fun elem helem => ?_, hstr⟩
    obtain ⟨e', he', rfl⟩ := List.mem_map.mp (Multiset.mem_coe.mp helem)
    exact h.qstrs hall e' he'
  rw [h.take_used, List.findIdx?_map, entryIdx]
  clear h
  induction l with
  | nil => rfl
  | cons e l ih =>
    rw [List.findIdx?_cons, List.findIdx?_cons, Function.comp_apply, hhit e List.mem_cons_self,
      ih fun e' he' => hhit e' (List.mem_cons_of_mem e he')]

end OrdMap.Shows

theorem lt_of_entryIdx {D : KeyData S O} {key : MapKey S O} {i : ℕ}
    (h : entryIdx D l key = some i) : i < l.length :=
  (List.findIdx?_eq_some_iff_getElem.mp h).1

/-! ### Lookups -/

section Lookup

variable [DecidableEq S] [DecidableEq O] {K : KeyHashing S O} {index : MapKey S O}

/-- What a lookup finds and leaves -/
inductive OrdLookup (K : KeyHashing S O) (map : OrdMap S O V) (l : List (MapKey S O × V))
    (index : MapKey S O) : LookupKind → Option ℕ × OrdMap S O V → Prop
  | found {i : ℕ} {kind : LookupKind} (hi : entryIdx K.toKeyData l index = some i)
      (hkind : kind ≠ .removeIfFound) : OrdLookup K map l index kind (some i, map)
  /-- the value is in the slot behind the end -/
  | removed {i : ℕ} {flag : Bool} {e : MapKey S O × V} {rest : List (OrdSlot S O V)}
      (hi : entryIdx K.toKeyData l index = some i) (he : l[i]? = some e)
      (hrest : ∀ slot ∈ rest, FreeSlot slot)
      (hflag : flag = true → ∀ e ∈ l.eraseIdx i, e.1.isQstr = true) :
      OrdLookup K map l index .removeIfFound
        (some (l.eraseIdx i).length, ⟨flag, (l.eraseIdx i).length,
          (l.eraseIdx i).map fillSlot ++ (.null, some e.2) :: rest⟩)
  /-- the slot that is taken has no value -/
  | added {flag : Bool} {rest : List (OrdSlot S O V)}
      (hi : entryIdx K.toKeyData l index = none) (hrest : ∀ slot ∈ rest, FreeSlot slot)
      (hflag : flag = true → index.isQstr = true ∧ ∀ e ∈ l, e.1.isQstr = true) :
      OrdLookup K map l index .addIfNotFound
        (some l.length, ⟨flag, l.length + 1, l.map fillSlot ++ (.filled index, none) :: rest⟩)
  | missing {kind : LookupKind} (hi : entryIdx K.toKeyData l index = none)
      (hkind : kind ≠ .addIfNotFound) : OrdLookup K map l index kind (none, map)

theorem ordMapScan_eq (h : map.Shows l rest) {compareOnlyPtrs : Bool} (kind : LookupKind)
    (hptrs : compareOnlyPtrs = true → map.allKeysAreQstrs = true ∧ ∀ s, index ≠ .str s) :
    OrdLookup K map l index kind (ordMapScan K compareOnlyPtrs map index kind) := by
  rw [ordMapScan, h.findIdx_eq hptrs]
  cases hi : entryIdx K.toKeyData l index with
  | some i =>
    dsimp only
    have hlt := lt_of_entryIdx hi
    split
    · rename_i hkind
      subst hkind
      have hlen : map.used - 1 = (l.eraseIdx i).length := by
        rw [List.length_eraseIdx_of_lt hlt, h.used_eq]
      obtain ⟨e, he⟩ : ∃ e, l[i]? = some e := ⟨_, List.getElem?_eq_getElem hlt⟩
      have hdrop : map.table.drop map.used = rest := by
        rw [h.table_eq, h.used_eq, ← List.length_map fillSlot, List.drop_left']
        rfl
      rw [hlen, h.take_used, List.eraseIdx_map, h.loadValue_eq hlt, he, hdrop]
      exact .removed hi he h.free fun hall e' he' =>
        h.qstrs hall e' (List.mem_of_mem_eraseIdx he')
    · rename_i hkind
      exact .found hi hkind
  | none =>
    dsimp only
    split
    · rename_i hkind
      exact .missing hi hkind
    · rename_i hkind
      obtain rfl := not_not.mp hkind
      -- after the table has grown there is a free slot behind the end
      have hgrown : ∃ slot rest', (∀ s ∈ slot :: rest', FreeSlot s) ∧
          (if map.used = map.table.length then map.table ++ List.replicate 4 (.null, none)
            else map.table) = l.map fillSlot ++ slot :: rest' := by
        split
        · rename_i hfull
          rw [h.table_eq, h.used_eq, List.length_append, List.length_map] at hfull
          obtain rfl : rest = [] := List.length_eq_zero_iff.mp (by omega)
          refine ⟨(.null, none), List.replicate 3 (.null, none), fun s hs => ?_, ?_⟩
          · rw [← List.replicate_succ] at hs
            rw [List.eq_of_mem_replicate hs]
            exact ⟨rfl, rfl⟩
          · rw [h.table_eq, List.append_nil]
            rfl
        · rename_i hroom
          cases rest with
          | nil => exact absurd (by rw [h.used_eq, h.table_eq]; simp) hroom
          | cons slot rest => exact ⟨slot, rest, h.free, h.table_eq⟩
      obtain ⟨slot, rest', hfree, hgrown⟩ := hgrown
      rw [hgrown, h.used_eq]
      have hmodify := modify_append_cons (l.map fillSlot) slot rest'
        fun slot => (.filled index, slot.2)
      rw [List.length_map, (hfree slot List.mem_cons_self).2] at hmodify
      rw [hmodify]
      refine .added hi (fun s hs => hfree s (List.mem_cons_of_mem slot hs)) fun hall => ?_
      rw [Bool.and_eq_true] at hall
      exact ⟨hall.2, h.qstrs hall.1⟩

/-- **A lookup** finds the place of the key, whichever way it compares. -/
theorem ordMapLookup_eq (h : map.Shows l rest) (index : MapKey S O) (kind : LookupKind) :
    OrdLookup K map l index kind (ordMapLookup K map index kind) := by
  rw [ordMapLookup.eq_def]
  split
  · rename_i hall
    cases index with
    | qstr q => exact ordMapScan_eq h kind fun _ => ⟨hall, nofun⟩
    | str s => exact ordMapScan_eq h kind nofun
    | other o =>
      dsimp only
      split
      · rename_i hkind
        refine .missing (List.findIdx?_eq_none_iff.mpr fun e he => ?_) hkind
        exact mpObjEqual_other_of_isQstr _ (h.qstrs hall e he) o
      · exact ordMapScan_eq h kind fun _ => ⟨hall, nofun⟩
  · exact ordMapScan_eq h kind nofun

end Lookup

/-! ### Operations -/

/-- A new key that gets its value -/
theorem Shows.added {flag : Bool} {key : MapKey S O} (hrest : ∀ slot ∈ rest, FreeSlot slot)
    (hflag : flag = true → key.isQstr = true ∧ ∀ e ∈ l, e.1.isQstr = true) (v : V) :
    ((⟨flag, l.length + 1, l.map fillSlot ++ (.filled key, none) :: rest⟩ :
      OrdMap S O V).storeValue l.length (some v)).Shows (l ++ [(key, v)]) rest := by
  refine ⟨by simp [OrdMap.storeValue], ?_, hrest, fun hall e he => ?_⟩
  · have hmodify := modify_append_cons (l.map fillSlot) (.filled key, none) rest
      fun slot => (slot.1, some v)
    rw [List.length_map] at hmodify
    rw [OrdMap.storeValue, hmodify, List.map_append, List.append_assoc]
    rfl
  · rcases List.mem_append.mp he with he | he
    · exact (hflag hall).2 e he
    · rw [List.mem_singleton.mp he]
      exact (hflag hall).1

/-- The value of a removed entry is read and cleared. -/
theorem Shows.removed {flag : Bool} (hrest : ∀ slot ∈ rest, FreeSlot slot)
    (hflag : flag = true → ∀ e ∈ l, e.1.isQstr = true) (v : Option V) :
    let map : OrdMap S O V := ⟨flag, l.length, l.map fillSlot ++ (.null, v) :: rest⟩
    map.loadValue l.length = v ∧ ∃ rest', (map.storeValue l.length none).Shows l rest' := by
  have hmodify := modify_append_cons (l.map fillSlot) (.null, v) rest fun slot => (slot.1, none)
  rw [List.length_map] at hmodify
  refine ⟨?_, (.null, none) :: rest, rfl, hmodify, ?_, hflag⟩
  · rw [OrdMap.loadValue, List.getElem?_append_right (by simp), List.length_map, Nat.sub_self]
    rfl
  · exact List.forall_mem_cons.mpr ⟨⟨rfl, rfl⟩, hrest⟩

/-- The result of an operation, and the entries that its table holds -/
def OpShows (out : DictResult S O V × OrdMap S O V)
    (spec : DictResult S O V × List (MapKey S O × V)) : Prop :=
  out.1 = spec.1 ∧ ∃ rest, out.2.Shows spec.2 rest

theorem ordDictPopitem_spec (D : KeyData S O) (noneObj : V) (h : map.Shows l rest) :
    OpShows (ordDictPopitem map) (entriesOp D noneObj l .popitem) := by
  rw [ordDictPopitem, entriesOp]
  rcases List.eq_nil_or_concat' l with rfl | ⟨init, e, rfl⟩
  · rw [if_pos (show map.used = 0 from h.used_eq)]
    exact ⟨rfl, rest, h⟩
  · have hused : map.used - 1 = (init.map fillSlot).length := by
      rw [h.used_eq, List.length_append, List.length_map]
      rfl
    have htable : map.table = init.map fillSlot ++ fillSlot e :: rest := by
      rw [h.table_eq, List.map_append, List.append_assoc]
      rfl
    have hfirst : ((fillSlot e :: rest).findIdx? fun slot => slot.1.elem?.isSome) = some 0 := rfl
    rw [if_neg (by rw [h.used_eq]; simp), hused, htable, List.drop_left, hfirst]
    simp only [Nat.add_zero, List.getElem?_append_right, le_refl, Nat.sub_self,
      List.getElem?_cons_zero,
      List.set_append_right, List.set_cons_zero, List.getLast?_concat, List.dropLast_concat,
        fillSlot]
    refine ⟨rfl, (.sentinel, none) :: rest, ?_, rfl, ?_, fun hall e' he' => ?_⟩
    · rw [List.length_map]
    · exact List.forall_mem_cons.mpr ⟨⟨rfl, rfl⟩, h.free⟩
    · exact h.qstrs hall e' (List.mem_append_left _ he')

section Ops

variable [DecidableEq S] [DecidableEq O] (K : KeyHashing S O) (noneObj : V)

theorem dictGetHelper_spec (h : map.Shows l rest) (key : MapKey S O) (default : Option V) :
    OpShows (dictGetHelper K noneObj map key default .lookup)
        (entriesOp K.toKeyData noneObj l (.get key default)) ∧
      OpShows (dictGetHelper K noneObj map key default .removeIfFound)
        (entriesOp K.toKeyData noneObj l (.pop key default)) ∧
      OpShows (dictGetHelper K noneObj map key default .addIfNotFound)
        (entriesOp K.toKeyData noneObj l (.setdefault key default)) := by
  have hget : ∀ i, entryIdx K.toKeyData l key = some i →
      ∃ e, l[i]? = some e ∧ map.loadValue i = some e.2 := by
    intro i hi
    have hlt := lt_of_entryIdx hi
    exact ⟨_, List.getElem?_eq_getElem hlt,
      by rw [h.loadValue_eq hlt, List.getElem?_eq_getElem hlt]; rfl⟩
  refine ⟨?_, ?_, ?_⟩
  · have hlookup := ordMapLookup_eq (K := K) h key .lookup
    rw [dictGetHelper, entriesOp]
    cases hout : ordMapLookup K map key .lookup with
    | mk elem map' =>
      rw [hout] at hlookup
      cases hlookup with
      | found hi =>
        obtain ⟨e, he, hload⟩ := hget _ hi
        simp only [Option.bind_some, hload, hi, he]
        exact ⟨rfl, rest, h⟩
      | missing hi =>
        simp only [Option.bind_none, hi]
        cases default <;> exact ⟨rfl, rest, h⟩
  · have hlookup := ordMapLookup_eq (K := K) h key .removeIfFound
    rw [dictGetHelper, entriesOp]
    cases hout : ordMapLookup K map key .removeIfFound with
    | mk elem map' =>
      rw [hout] at hlookup
      cases hlookup with
      | found hi hkind => exact absurd rfl hkind
      | @removed _ _ e _ hi he hrest hflag =>
        obtain ⟨hload, rest', hshows⟩ := Shows.removed hrest hflag (some e.2)
        simp only [Option.bind_some, hload, hi, he]
        exact ⟨rfl, rest', hshows⟩
      | missing hi =>
        simp only [Option.bind_none, hi]
        cases default <;> exact ⟨rfl, rest, h⟩
  · have hlookup := ordMapLookup_eq (K := K) h key .addIfNotFound
    rw [dictGetHelper, entriesOp]
    cases hout : ordMapLookup K map key .addIfNotFound with
    | mk elem map' =>
      rw [hout] at hlookup
      cases hlookup with
      | found hi =>
        obtain ⟨e, he, hload⟩ := hget _ hi
        simp only [Option.bind_some, hload, hi, he]
        exact ⟨rfl, rest, h⟩
      | @added flag rest' hi hrest hflag =>
        have hload : (⟨flag, l.length + 1, l.map fillSlot ++ (.filled key, none) :: rest'⟩ :
            OrdMap S O V).loadValue l.length = none := by
          rw [OrdMap.loadValue, List.getElem?_append_right (by simp), List.length_map, Nat.sub_self]
          rfl
        simp only [Option.bind_some, hload, hi]
        cases default <;> exact ⟨rfl, rest', Shows.added hrest hflag _⟩
      | missing hi hkind => exact absurd rfl hkind

/-- **An operation** does what it should do to the list of entries. -/
theorem ordDictOp_spec (h : map.Shows l rest) (op : DictOp S O V) :
    OpShows (ordDictOp K noneObj map op) (entriesOp K.toKeyData noneObj l op) := by
  cases op with
  | get key default => exact (dictGetHelper_spec K noneObj h key default).1
  | pop key default => exact (dictGetHelper_spec K noneObj h key default).2.1
  | setdefault key default => exact (dictGetHelper_spec K noneObj h key default).2.2
  | popitem => exact ordDictPopitem_spec K.toKeyData noneObj h
  | delete key =>
    obtain ⟨hres, hshows⟩ := (dictGetHelper_spec K noneObj h key none).2.1
    rw [ordDictOp]
    dsimp only [entriesOp] at hres hshows ⊢
    cases hi : entryIdx K.toKeyData l key with
    | none =>
      rw [hi] at hres hshows
      dsimp only [Option.elim] at hres
      exact ⟨by rw [hres]; rfl, hshows⟩
    | some i =>
      rw [hi] at hres hshows
      dsimp only at hres
      rw [List.getElem?_eq_getElem (lt_of_entryIdx hi)] at hres
      exact ⟨by rw [hres]; rfl, hshows⟩
  | load key =>
    have hlookup := ordMapLookup_eq (K := K) h key .lookup
    rw [ordDictOp, entriesOp]
    cases hout : ordMapLookup K map key .lookup with
    | mk elem map' =>
      rw [hout] at hlookup
      cases hlookup with
      | @found i _ hi =>
        simp only [hi, h.loadValue_eq (lt_of_entryIdx hi)]
        refine ⟨?_, rest, h⟩
        cases l[i]? <;> rfl
      | missing hi =>
        simp only [hi]
        exact ⟨rfl, rest, h⟩
  | store key v =>
    have hlookup := ordMapLookup_eq (K := K) h key .addIfNotFound
    rw [ordDictOp, entriesOp]
    cases hout : ordMapLookup K map key .addIfNotFound with
    | mk elem map' =>
      rw [hout] at hlookup
      cases hlookup with
      | @found i _ hi =>
        simp only [hi]
        refine ⟨rfl, rest, ?_, ?_, h.free, fun hall e he => ?_⟩
        · rw [List.length_modify]
          exact h.used_eq
        · refine (congrArg (List.modify · i _) h.table_eq).trans ?_
          exact map_modify_append fillSlot (fun e => (e.1, v)) _ (fun _ => rfl) l rest
            (lt_of_entryIdx hi)
        · obtain ⟨j, hj⟩ := List.mem_iff_getElem?.mp he
          rw [List.getElem?_modify, Option.map_eq_map, Option.map_eq_some_iff] at hj
          obtain ⟨e', he', rfl⟩ := hj
          have hq := h.qstrs hall e' (List.mem_of_getElem? he')
          split <;> exact hq
      | @added flag rest' hi hrest hflag =>
        simp only [hi]
        exact ⟨rfl, rest', Shows.added hrest hflag v⟩
      | missing hi hkind => exact absurd rfl hkind

theorem ordDictRun_spec (ops : List (DictOp S O V)) (h : map.Shows l rest) :
    (ordDictRun K noneObj map ops).1 = (entriesRun K.toKeyData noneObj l ops).1 ∧
      ∃ rest,
        (ordDictRun K noneObj map ops).2.Shows (entriesRun K.toKeyData noneObj l ops).2 rest := by
  induction ops generalizing map l rest with
  | nil => exact ⟨rfl, rest, h⟩
  | cons op ops ih =>
    obtain ⟨hres, rest', hshows⟩ := ordDictOp_spec K noneObj h op
    obtain ⟨hrun, hrest⟩ := ih hshows
    exact ⟨congrArg₂ List.cons hres hrun, hrest⟩

/-- **Ordered dictionaries keep the order of insertion.** Every sequence of operations on a new
`OrderedDict` answers as a list of entries, in which a key keeps its place until it is removed, and
an iteration over the table gives this list. -/
theorem ordered_dict_run (ops : List (DictOp S O V)) :
    (ordDictRun K noneObj ordDictNew ops).1 = (entriesRun K.toKeyData noneObj [] ops).1 ∧
      ordDictIter (ordDictRun K noneObj ordDictNew ops).2 =
        (entriesRun K.toKeyData noneObj [] ops).2.map fun e => (e.1, some e.2) := by
  have hnew : (ordDictNew : OrdMap S O V).Shows [] [] := ⟨rfl, rfl, nofun, nofun⟩
  obtain ⟨hres, rest, hshows⟩ := ordDictRun_spec K noneObj ops hnew
  exact ⟨hres, hshows.iter_eq⟩

end Ops

/-- A key that is removed and added again comes to the end, and gets the default that is given. -/
example :
    (entriesRun zeroKeys.toKeyData 0 []
      [.store (.qstr 1) 5, .store (.other 2) 6, .store (.qstr 1) 7, .pop (.qstr 1) none,
       .setdefault (.str [0]) (some 9)]).2 = [(.other 2, 6), (.str [0], 9)] := by decide

end Pycopy
