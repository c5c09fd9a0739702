import Mathlib.Data.List.Basic
import Pycopy.Lib.PrefixTable

/-!
# The mount table

`mp_vfs_mount`, `mp_vfs_umount` and `mp_vfs_lookup_path` of `extmod/vfs.c`. The lookup takes the
first entry of the mount table whose mount point fits, and nothing in the table says how long the
mount points are but for the root, which is kept at the end. It is the check of a new mount point
against the table that makes the first match the longest one: nothing can be mounted below a mount
point other than the root.

## Main results

* `vfs_lookup_longest`: after any calls, the lookup finds the longest mount point.
-/

namespace Pycopy

/-! ### The source -/

/-- `mp_vfs_mount_t`, with the address of the entry -/
structure VfsMount (Obj : Type) where
  addr : ℕ
  str : List UInt8
  obj : Obj
  deriving DecidableEq, Repr

/-- `vfs_mount_table`, and `vfs_cur`, with `none` for `MP_VFS_ROOT` -/
structure Vfs (Obj : Type) where
  mountTable : List (VfsMount Obj)
  vfsCur : Option (VfsMount Obj)
  deriving DecidableEq, Repr

/-- What `mp_vfs_lookup_path` returns: `MP_VFS_NONE`, `MP_VFS_ROOT` or an entry with the path in
it -/
inductive VfsLookup (Obj : Type)
  | none
  | root
  | mount (vfs : VfsMount Obj) (pathOut : List UInt8)
  deriving DecidableEq, Repr

variable {Obj : Type}

/-- The comparison of the loop of `mp_vfs_lookup_path`: the path in the entry, if it is the one. A
path ends with a zero byte, so there is none at its length. -/
def mountMatch (vfs : VfsMount Obj) (path : List UInt8) (isAbs : Bool) : Option (List UInt8) :=
  let len := vfs.str.length - 1
  if len = 0 then some (if isAbs then 47 :: path else path)
  else if path.take len = (vfs.str.drop 1).take len then
    match path[len]? with
    | some c => if c = 47 then some (path.drop len) else none
    | none => some [47]
  else none

/-- The loop of `mp_vfs_lookup_path` -/
def searchMounts (path : List UInt8) (isAbs : Bool) :
    List (VfsMount Obj) → Option (VfsMount Obj × List UInt8)
  | [] => none
  | vfs :: rest =>
    match mountMatch vfs path isAbs with
    | some pathOut => some (vfs, pathOut)
    | none => searchMounts path isAbs rest

/-- `mp_vfs_lookup_path` -/
def mpVfsLookupPath (st : Vfs Obj) (path : List UInt8) : VfsLookup Obj :=
  let isAbs := decide (path.head? = some 47)
  let name := if isAbs then path.drop 1 else path
  let relative :=
    match st.vfsCur with
    | some vfs => .mount vfs path
    | none => .root
  if isAbs = true ∨ st.vfsCur = none then
    if name = [] then .root
    else
      match searchMounts name isAbs st.mountTable with
      | some (vfs, pathOut) => .mount vfs pathOut
      | none => if isAbs then .none else relative
  else relative

/-- The errors: `MP_EPERM`, `MP_EINVAL` and what a method of the object raises -/
inductive VfsError
  | eperm
  | einval
  | raised
  deriving DecidableEq, Repr

/-- The insertion at the end of `mp_vfs_mount` -/
def insertMount (vfs : VfsMount Obj) : List (VfsMount Obj) → List (VfsMount Obj)
  | [] => [vfs]
  | m :: rest => if m.str.length = 1 then vfs :: m :: rest else m :: insertMount vfs rest

/-- `mp_vfs_mount` of the object at a mount point, where `mountOk` says that the object's own
method returns -/
def mpVfsMount (st : Vfs Obj) (vfs : VfsMount Obj) (mountOk : Bool) :
    Vfs Obj × Except VfsError Unit :=
  if mountOk = false then (st, .error .raised)
  else
    let inserted := { st with mountTable := insertMount vfs st.mountTable }
    match mpVfsLookupPath st vfs.str with
    | .mount existing _ =>
      if vfs.str.length ≠ 1 ∧ existing.str.length = 1 then (inserted, .ok ())
      else (st, .error .eperm)
    | .none | .root => (inserted, .ok ())

/-- The argument of `mp_vfs_umount` is a mounted object or a string, which is an object as well. -/
structure UmountArg (Obj : Type) where
  obj : Obj
  str : Option (List UInt8)
  deriving DecidableEq, Repr

/-- The loop of `mp_vfs_umount`: the entry that is taken out and the others -/
def removeMount [DecidableEq Obj] (arg : UmountArg Obj) :
    List (VfsMount Obj) → Option (VfsMount Obj × List (VfsMount Obj))
  | [] => none
  | m :: rest =>
    if arg.str = some m.str ∨ m.obj = arg.obj then some (m, rest)
    else (removeMount arg rest).map fun (vfs, rest') => (vfs, m :: rest')

/-- `mp_vfs_umount`, where `umountOk` says that the object's own method returns -/
def mpVfsUmount [DecidableEq Obj] (st : Vfs Obj) (arg : UmountArg Obj) (umountOk : Bool) :
    Vfs Obj × Except VfsError Unit :=
  match removeMount arg st.mountTable with
  | none => (st, .error .einval)
  | some (vfs, table) =>
    (⟨table, if st.vfsCur = some vfs then none else st.vfsCur⟩,
      if umountOk then .ok () else .error .raised)

/-- A call -/
inductive VfsOp (Obj : Type)
  | mount (vfs : VfsMount Obj) (mountOk : Bool)
  | umount (arg : UmountArg Obj) (umountOk : Bool)
  deriving DecidableEq, Repr

/-- A call, which may raise -/
def vfsStep [DecidableEq Obj] (st : Vfs Obj) : VfsOp Obj → Vfs Obj
  | .mount vfs mountOk => (mpVfsMount st vfs mountOk).1
  | .umount arg umountOk => (mpVfsUmount st arg umountOk).1

/-! ### Paths and their components -/

/-- A component of a path -/
def IsComponent (c : List UInt8) : Prop := c ≠ [] ∧ 47 ∉ c ∧ 0 ∉ c

instance (c : List UInt8) : Decidable (IsComponent c) := inferInstanceAs (Decidable (_ ∧ _ ∧ _))

/-- Every component with the slash before it -/
def joinPath (comps : List (List UInt8)) : List UInt8 := comps.flatMap (47 :: ·)

theorem joinPath_cons (c : List UInt8) (comps : List (List UInt8)) :
    joinPath (c :: comps) = 47 :: (c ++ joinPath comps) := List.flatMap_cons

theorem joinPath_append (comps comps' : List (List UInt8)) :
    joinPath (comps ++ comps') = joinPath comps ++ joinPath comps' := List.flatMap_append

/-- The mount point with these components -/
def mountPoint (comps : List (List UInt8)) : List UInt8 :=
  if comps = [] then [47] else joinPath comps

/-- The path of these components, with a slash at its end or without -/
def pathOf (comps : List (List UInt8)) (trailing : Bool) : List UInt8 :=
  joinPath comps ++ if trailing then [47] else []

/-- The path that is left of one after some components -/
def remainingPath (comps : List (List UInt8)) (trailing : Bool) : List UInt8 :=
  if comps = [] then [47] else pathOf comps trailing

/-- The bytes are the end of a path, or go on with a slash. -/
def SlashOrEnd (bs : List UInt8) : Prop := ∀ b, bs.head? = some b → b = 47

theorem slashOrEnd_nil : SlashOrEnd [] := fun b hb => by cases hb

theorem slashOrEnd_cons (bs : List UInt8) : SlashOrEnd (47 :: bs) := fun b hb => by
  rw [List.head?_cons, Option.some.injEq] at hb
  exact hb.symm

variable {bs : List UInt8}

theorem SlashOrEnd.joinPath_append (comps : List (List UInt8))
    (h : SlashOrEnd bs) : SlashOrEnd (joinPath comps ++ bs) := by
  cases comps with
  | nil => exact h
  | cons c comps => exact slashOrEnd_cons _

/-- Up to the next slash there is only one component. -/
theorem component_inj {c c' bs' : List UInt8} (hc : 47 ∉ c) (hc' : 47 ∉ c')
    (hbs : SlashOrEnd bs) (hbs' : SlashOrEnd bs') (h : c ++ bs = c' ++ bs') :
    c = c' ∧ bs = bs' := by
  induction c generalizing c' with
  | nil =>
    cases c' with
    | nil => exact ⟨rfl, h⟩
    | cons b c' =>
      rw [List.nil_append] at h
      exact absurd (hbs b (by rw [h]; rfl)) fun hb => hc' (hb ▸ List.mem_cons_self)
  | cons b c ih =>
    cases c' with
    | nil =>
      rw [List.nil_append] at h
      exact absurd (hbs' b (by rw [← h]; rfl)) fun hb => hc (hb ▸ List.mem_cons_self)
    | cons b' c' =>
      rw [List.cons_append, List.cons_append, List.cons.injEq] at h
      obtain ⟨rfl, h⟩ := h
      obtain ⟨rfl, hrest⟩ := ih (fun hm => hc (List.mem_cons_of_mem _ hm))
        (fun hm => hc' (List.mem_cons_of_mem _ hm)) h
      exact ⟨rfl, hrest⟩

theorem slashOrEnd_trailing (trailing : Bool) : SlashOrEnd (if trailing then [47] else []) := by
  cases trailing
  · exact slashOrEnd_nil
  · exact slashOrEnd_cons []

variable {comps mnt : List (List UInt8)} {trailing : Bool}

/-- If the bytes of a path start with those of another one, and the other one ends at a component,
so do their components. -/
theorem isPrefix_of_joinPath
    (hcomps : ∀ c ∈ comps, IsComponent c) (hmnt : ∀ c ∈ mnt, IsComponent c) (hbs : SlashOrEnd bs)
    (h : joinPath mnt ++ bs = pathOf comps trailing) : mnt <+: comps := by
  induction mnt generalizing comps with
  | nil => exact List.nil_prefix
  | cons a mnt ih =>
    have ha := hmnt a List.mem_cons_self
    rw [joinPath_cons, pathOf] at h
    cases comps with
    | nil =>
      -- what is left of the path has no room for a component
      have hlen : (47 :: (a ++ joinPath mnt) ++ bs).length = _ := congrArg List.length h
      have hle : (if trailing then [47] else ([] : List UInt8)).length ≤ 1 := by
        split <;> decide
      have := List.length_pos_iff.mpr ha.1
      simp only [joinPath, List.flatMap_nil, List.nil_append, List.length_append,
        List.length_cons] at hlen
      omega
    | cons c comps =>
      rw [joinPath_cons, List.cons_append, List.cons_append, List.cons.injEq, List.append_assoc,
        List.append_assoc] at h
      obtain ⟨rfl, hrest⟩ := component_inj ha.2.1 (hcomps c List.mem_cons_self).2.1
        (hbs.joinPath_append mnt) ((slashOrEnd_trailing trailing).joinPath_append comps) h.2
      have := ih (fun c hc => hcomps c (List.mem_cons_of_mem _ hc))
        (fun c hc => hmnt c (List.mem_cons_of_mem _ hc)) hrest
      exact List.cons_prefix_cons.mpr ⟨rfl, this⟩

theorem pathOf_append (mnt rest : List (List UInt8)) (trailing : Bool) :
    pathOf (mnt ++ rest) trailing = joinPath mnt ++ pathOf rest trailing := by
  rw [pathOf, joinPath_append, List.append_assoc]
  rfl

theorem slashOrEnd_pathOf (comps : List (List UInt8)) (trailing : Bool) :
    SlashOrEnd (pathOf comps trailing) := (slashOrEnd_trailing trailing).joinPath_append comps

/-- A path in an entry of the mount table, as the lookup finds it -/
theorem remainingPath_eq (rest : List (List UInt8)) (trailing : Bool) :
    remainingPath rest trailing =
      if pathOf rest trailing = [] then [47] else pathOf rest trailing := by
  cases rest with
  | nil => cases trailing <;> rfl
  | cons c rest => rfl

/-! ### The lookup -/

variable {vfs : VfsMount Obj} {name : List UInt8}

/-- One comparison of the lookup finds out if the mount point is a prefix of the path, by
components. -/
theorem mountMatch_eq (hstr : vfs.str = mountPoint mnt) (hmnt : ∀ c ∈ mnt, IsComponent c)
    (hcomps : ∀ c ∈ comps, IsComponent c) (hne : comps ≠ [])
    (hname : pathOf comps trailing = 47 :: name) :
    mountMatch vfs name true =
      if mnt <+: comps then some (remainingPath (comps.drop mnt.length) trailing) else none := by
  cases mnt with
  | nil =>
    have hlen : vfs.str.length - 1 = 0 := by rw [hstr]; rfl
    rw [mountMatch, if_pos hlen, if_pos rfl, if_pos List.nil_prefix, ← hname, List.length_nil,
      List.drop_zero,
      remainingPath, if_neg hne]
  | cons a mnt =>
    -- the mount point without its slash
    obtain ⟨tail, htail⟩ : ∃ tail, joinPath (a :: mnt) = 47 :: tail := ⟨_, joinPath_cons a mnt⟩
    have hpos : 0 < tail.length := by
      have := List.length_pos_iff.mpr (hmnt a List.mem_cons_self).1
      have hlen := congrArg List.length htail
      rw [joinPath_cons, List.length_cons, List.length_cons, List.length_append] at hlen
      omega
    have hstr' : vfs.str = 47 :: tail := hstr.trans htail
    have hlen : vfs.str.length - 1 = tail.length := by rw [hstr']; rfl
    rw [mountMatch, hlen, if_neg (by omega), hstr', List.drop_one, List.tail_cons, List.take_length]
    by_cases hpre : a :: mnt <+: comps
    · obtain ⟨rest, rfl⟩ := hpre
      have hname' : name = tail ++ pathOf rest trailing := by
        rw [pathOf_append, htail, List.cons_append, List.cons.injEq] at hname
        exact hname.2.symm
      have hslash := slashOrEnd_pathOf rest trailing
      rw [if_pos (List.prefix_append _ _), List.drop_left, remainingPath_eq, hname',
        List.take_left, if_pos rfl, List.getElem?_append_right (Nat.le_refl _), Nat.sub_self,
        List.drop_left]
      cases hrest : pathOf rest trailing with
      | nil => rfl
      | cons b bs =>
        obtain rfl : b = 47 := hslash b (by rw [hrest]; rfl)
        rfl
    · rw [if_neg hpre]
      split_ifs with htake
      · have hsplit : joinPath (a :: mnt) ++ name.drop tail.length = pathOf comps trailing := by
          have := List.take_append_drop tail.length name
          rw [htake] at this
          rw [htail, List.cons_append, this, hname]
        have hnot : ¬SlashOrEnd (name.drop tail.length) := fun hslash =>
          hpre (isPrefix_of_joinPath hcomps hmnt hslash hsplit)
        cases hbyte : name[tail.length]? with
        | none =>
          rw [List.drop_eq_nil_of_le (List.getElem?_eq_none_iff.mp hbyte)] at hnot
          exact absurd slashOrEnd_nil hnot
        | some b =>
          dsimp only
          rw [if_neg]
          rintro rfl
          refine hnot fun b hb => ?_
          rw [List.head?_drop, hbyte, Option.some.injEq] at hb
          exact hb.symm
      · rfl

/-- The mount points of a table, as components -/
structure MountKeys (table : List (VfsMount Obj)) (keys : List (List (List UInt8))) : Prop where
  strs : table.map VfsMount.str = keys.map mountPoint
  components : ∀ key ∈ keys, ∀ c ∈ key, IsComponent c

variable {table : List (VfsMount Obj)} {keys : List (List (List UInt8))}

theorem MountKeys.cons_iff : MountKeys (vfs :: table) keys ↔
      ∃ key keys', keys = key :: keys' ∧ vfs.str = mountPoint key ∧ (∀ c ∈ key, IsComponent c) ∧
        MountKeys table keys' := by
  constructor
  · rintro ⟨hstrs, hcomponents⟩
    cases keys with
    | nil => cases hstrs
    | cons key keys =>
      rw [List.map_cons, List.map_cons, List.cons.injEq] at hstrs
      exact ⟨key, keys, rfl, hstrs.1, hcomponents key List.mem_cons_self, hstrs.2,
        fun key hkey => hcomponents key (List.mem_cons_of_mem _ hkey)⟩
  · rintro ⟨key, keys, rfl, hstr, hkey, hstrs, hcomponents⟩
    refine ⟨by rw [List.map_cons, List.map_cons, hstr, hstrs], fun key hmem => ?_⟩
    rcases List.mem_cons.mp hmem with rfl | hmem
    · exact hkey
    · exact hcomponents key hmem

/-- What the loop of the lookup finds: the first mount point that is a prefix -/
theorem searchMounts_spec (h : MountKeys table keys)
    (hcomps : ∀ c ∈ comps, IsComponent c) (hne : comps ≠ [])
    (hname : pathOf comps trailing = 47 :: name) :
    (searchMounts name true table = none ∧ ∀ key ∈ keys, ¬key <+: comps) ∨
      ∃ vfs before key after, keys = before ++ key :: after ∧ vfs ∈ table ∧
        vfs.str = mountPoint key ∧ (∀ e ∈ before, ¬e <+: comps) ∧ key <+: comps ∧
        searchMounts name true table =
          some (vfs, remainingPath (comps.drop key.length) trailing) := by
  induction table generalizing keys with
  | nil =>
    obtain rfl : keys = [] := List.map_eq_nil_iff.mp h.strs.symm
    exact .inl ⟨rfl, fun key hkey => absurd hkey List.not_mem_nil⟩
  | cons vfs table ih =>
    obtain ⟨key, keys, rfl, hstr, hkey, hkeys⟩ := MountKeys.cons_iff.mp h
    have hmatch := mountMatch_eq hstr hkey hcomps hne hname
    by_cases hpre : key <+: comps
    · rw [if_pos hpre] at hmatch
      refine .inr ⟨vfs, [], key, keys, rfl, List.mem_cons_self, hstr,
        fun e he => absurd he List.not_mem_nil, hpre, ?_⟩
      rw [searchMounts, hmatch]
    · rw [if_neg hpre] at hmatch
      rw [searchMounts, hmatch]
      rcases ih hkeys with ⟨hnone, hall⟩ | ⟨v, before, k, after, rfl, hmem, hv, hbefore, hk, hs⟩
      · refine .inl ⟨hnone, fun k hk => ?_⟩
        rcases List.mem_cons.mp hk with rfl | hk
        · exact hpre
        · exact hall k hk
      · refine .inr ⟨v, key :: before, k, after, rfl, List.mem_cons_of_mem _ hmem, hv,
          fun e he => ?_, hk, hs⟩
        rcases List.mem_cons.mp he with rfl | he
        · exact hpre
        · exact hbefore e he

/-- `mp_vfs_lookup_path` on an absolute path -/
theorem mpVfsLookupPath_eq (st : Vfs Obj) (hne : name ≠ []) : mpVfsLookupPath st (47 :: name) =
      match searchMounts name true st.mountTable with
      | some (vfs, pathOut) => .mount vfs pathOut
      | none => .none := by
  rw [mpVfsLookupPath]
  simp only [List.head?_cons, decide_true, List.drop_one, List.tail_cons, if_pos, true_or, hne,
    if_false]

theorem exists_name (hcomps : ∀ c ∈ comps, IsComponent c) (hne : comps ≠ []) (trailing : Bool) :
    ∃ name, name ≠ [] ∧ pathOf comps trailing = 47 :: name := by
  cases comps with
  | nil => exact absurd rfl hne
  | cons c comps =>
    refine ⟨_, ?_, by rw [pathOf, joinPath_cons, List.cons_append]⟩
    exact fun h => (hcomps c List.mem_cons_self).1
      (List.append_eq_nil_iff.mp (List.append_eq_nil_iff.mp h).1).1

/-! ### The table -/

/-- The mount points of the table have components, and each one comes before its prefixes. -/
structure MountsGood (table : List (VfsMount Obj)) (keys : List (List (List UInt8))) : Prop
    extends MountKeys table keys where
  ordered : PrefixTable.Ordered keys

theorem mountPoint_length_eq_one (hcomps : ∀ c ∈ comps, IsComponent c) :
    (mountPoint comps).length = 1 ↔ comps = [] := by
  constructor
  · intro h
    by_contra hne
    obtain ⟨name, hname, heq⟩ := exists_name hcomps hne false
    rw [pathOf, if_neg Bool.false_ne_true, List.append_nil] at heq
    rw [mountPoint, if_neg hne, heq, List.length_cons] at h
    exact hname (List.length_eq_zero_iff.mp (by omega))
  · rintro rfl
    rfl

theorem mountPoint_inj {mnt' : List (List UInt8)} (hmnt : ∀ c ∈ mnt, IsComponent c)
    (hmnt' : ∀ c ∈ mnt', IsComponent c) (h : mountPoint mnt = mountPoint mnt') : mnt = mnt' := by
  by_cases hroot : mnt = []
  · rw [hroot] at h ⊢
    exact ((mountPoint_length_eq_one hmnt').mp (by rw [← h]; rfl)).symm
  · by_cases hroot' : mnt' = []
    · rw [hroot'] at h ⊢
      exact (mountPoint_length_eq_one hmnt).mp (by rw [h]; rfl)
    · rw [mountPoint, if_neg hroot, mountPoint, if_neg hroot'] at h
      have hpath : ∀ comps, joinPath comps ++ [] = pathOf comps false := fun _ => rfl
      have hpre : mnt <+: mnt' := isPrefix_of_joinPath hmnt' hmnt slashOrEnd_nil (h ▸ hpath mnt')
      have hpre' : mnt' <+: mnt := isPrefix_of_joinPath hmnt hmnt' slashOrEnd_nil (h ▸ hpath mnt)
      exact hpre.eq_of_length_le hpre'.length_le

variable {key : List (List UInt8)}

theorem insertMount_perm (vfs : VfsMount Obj) (table : List (VfsMount Obj)) :
    (insertMount vfs table).Perm (vfs :: table) := by
  induction table with
  | nil => exact .refl _
  | cons m rest ih =>
    rw [insertMount]
    split_ifs
    · exact .refl _
    · exact (ih.cons m).trans (.swap vfs m rest)

/-- A new entry comes after all but those at the root. -/
theorem insertMount_keys (h : MountKeys table keys)
    (hstr : vfs.str = mountPoint key) (hkey : ∀ c ∈ key, IsComponent c) :
    ∃ before after, keys = before ++ after ∧ (∀ e ∈ before, e ≠ []) ∧ after.head?.getD [] = [] ∧
      MountKeys (insertMount vfs table) (before ++ key :: after) := by
  induction table generalizing keys with
  | nil =>
    obtain rfl : keys = [] := List.map_eq_nil_iff.mp h.strs.symm
    exact ⟨[], [], rfl, fun e he => absurd he List.not_mem_nil, rfl,
      MountKeys.cons_iff.mpr ⟨key, [], rfl, hstr, hkey, h⟩⟩
  | cons m table ih =>
    obtain ⟨k, keys, rfl, hm, hk, hkeys⟩ := MountKeys.cons_iff.mp h
    rw [insertMount]
    split_ifs with hroot
    · rw [hm, mountPoint_length_eq_one hk] at hroot
      exact ⟨[], k :: keys, rfl, fun e he => absurd he List.not_mem_nil, hroot,
        MountKeys.cons_iff.mpr ⟨key, k :: keys, rfl, hstr, hkey, h⟩⟩
    · rw [hm, mountPoint_length_eq_one hk] at hroot
      obtain ⟨before, after, rfl, hbefore, hafter, hins⟩ := ih hkeys
      refine ⟨k :: before, after, rfl, fun e he => ?_, hafter,
        MountKeys.cons_iff.mpr ⟨k, _, rfl, hm, hk, hins⟩⟩
      rcases List.mem_cons.mp he with rfl | he
      · exact hroot
      · exact hbefore e he

/-- Behind an entry at the root there are only such entries. -/
theorem ordered_root {after : List (List (List UInt8))} (h : PrefixTable.Ordered after)
    (hhead : after.head?.getD [] = []) : ∀ e ∈ after, e = [] := by
  cases after with
  | nil => exact fun e he => absurd he List.not_mem_nil
  | cons k after =>
    obtain rfl : k = [] := hhead
    intro e he
    rcases List.mem_cons.mp he with rfl | he
    · rfl
    · exact ((List.pairwise_cons.mp h).1 e he List.nil_prefix).symm

/-- An entry may be inserted if no mount point other than the root is a prefix of the new one. -/
theorem MountsGood.insert {table : List (VfsMount Obj)} {keys : List (List (List UInt8))}
    (h : MountsGood table keys) {vfs : VfsMount Obj} {key : List (List UInt8)}
    (hstr : vfs.str = mountPoint key) (hkey : ∀ c ∈ key, IsComponent c)
    (hfree : ∀ e ∈ keys, e <+: key → e = []) :
    ∃ keys', MountsGood (insertMount vfs table) keys' := by
  obtain ⟨before, after, rfl, hbefore, hafter, hins⟩ := insertMount_keys h.toMountKeys hstr hkey
  have hroot := ordered_root (h.ordered.sublist (List.sublist_append_right _ _)) hafter
  refine ⟨_, hins, h.ordered.insert (fun e he hpre => ?_) fun e he hpre => ?_⟩
  · exact absurd (hfree e (List.mem_append_left _ he) hpre) (hbefore e he)
  · obtain rfl := hroot e he
    exact List.prefix_nil.mp hpre

variable {st : Vfs Obj}

/-- What the check of a new mount point rules out -/
theorem mpVfsLookupPath_free (h : MountsGood st.mountTable keys) (hkey : ∀ c ∈ key, IsComponent c)
    (hfree : ∀ existing pathOut, mpVfsLookupPath st (mountPoint key) = .mount existing pathOut →
      existing.str.length = 1) : ∀ e ∈ keys, e <+: key → e = [] := by
  intro e he hpre
  by_cases hne : key = []
  · rw [hne] at hpre
    exact List.prefix_nil.mp hpre
  · obtain ⟨name, hname, heq⟩ := exists_name hkey hne false
    have hpoint : mountPoint key = 47 :: name := by
      rw [mountPoint, if_neg hne, ← heq, pathOf, if_neg Bool.false_ne_true, List.append_nil]
    rw [hpoint, mpVfsLookupPath_eq st hname] at hfree
    rcases searchMounts_spec h.toMountKeys hkey hne heq with
      ⟨-, hnone⟩ | ⟨vfs, before, k, after, rfl, -, hvfs, hbefore, hk, hsearch⟩
    · exact absurd hpre (hnone e he)
    · -- the first match is at the root, so it is the longest one
      rw [hsearch] at hfree
      have hlen := hfree vfs _ rfl
      rw [hvfs, mountPoint_length_eq_one (h.components k (by simp))] at hlen
      have hle := h.ordered.length_le hk hbefore he hpre
      rw [hlen] at hle
      exact List.length_eq_zero_iff.mp (Nat.le_zero.mp hle)

/-- `mp_vfs_mount` keeps the order of the table. -/
theorem MountsGood.mount (h : MountsGood st.mountTable keys)
    (hstr : vfs.str = mountPoint key) (hkey : ∀ c ∈ key, IsComponent c) (mountOk : Bool) :
    ∃ keys', MountsGood (mpVfsMount st vfs mountOk).1.mountTable keys' := by
  rw [mpVfsMount]
  split_ifs
  · exact ⟨keys, h⟩
  · dsimp only
    split
    · rename_i existing pathOut hlookup
      split_ifs with hroot
      · refine h.insert hstr hkey (mpVfsLookupPath_free h hkey fun e out he => ?_)
        rw [← hstr, hlookup] at he
        cases he
        exact hroot.2
      · exact ⟨keys, h⟩
    all_goals
      rename_i hlookup
      refine h.insert hstr hkey (mpVfsLookupPath_free h hkey fun e out he => ?_)
      rw [← hstr, hlookup] at he
      cases he

variable {table' : List (VfsMount Obj)}

/-- What is taken out is the first one that has the string or the object. -/
theorem removeMount_spec [DecidableEq Obj] (arg : UmountArg Obj) (table : List (VfsMount Obj)) :
    (removeMount arg table = none ∧ ∀ m ∈ table, ¬(arg.str = some m.str ∨ m.obj = arg.obj)) ∨
      ∃ m before after, removeMount arg table = some (m, before ++ after) ∧
        table = before ++ m :: after ∧ (arg.str = some m.str ∨ m.obj = arg.obj) := by
  induction table with
  | nil => exact .inl ⟨rfl, fun m hm => absurd hm List.not_mem_nil⟩
  | cons m rest ih =>
    rw [removeMount]
    split_ifs with hm
    · exact .inr ⟨m, [], rest, rfl, rfl, hm⟩
    · rcases ih with ⟨hnone, hall⟩ | ⟨m', before, after, hsome, rfl, hm'⟩
      · rw [hnone]
        refine .inl ⟨rfl, fun m' hmem => ?_⟩
        rcases List.mem_cons.mp hmem with rfl | hmem
        · exact hm
        · exact hall m' hmem
      · rw [hsome]
        exact .inr ⟨m', m :: before, after, rfl, rfl, hm'⟩

theorem MountsGood.sublist (h : MountsGood table keys) (hsub : table'.Sublist table) :
    ∃ keys', MountsGood table' keys' := by
  have hmap := hsub.map VfsMount.str
  rw [h.strs] at hmap
  obtain ⟨keys', hkeys', heq⟩ := List.sublist_map_iff.mp hmap
  exact ⟨keys', ⟨heq, fun key hkey => h.components key (hkeys'.subset hkey)⟩,
    h.ordered.sublist hkeys'⟩

/-- `mp_vfs_umount` keeps the order of the table. -/
theorem MountsGood.umount [DecidableEq Obj]
    (h : MountsGood st.mountTable keys) (arg : UmountArg Obj) (umountOk : Bool) :
    ∃ keys', MountsGood (mpVfsUmount st arg umountOk).1.mountTable keys' := by
  rw [mpVfsUmount]
  rcases removeMount_spec arg st.mountTable with ⟨hnone, -⟩ | ⟨m, before, after, hsome, htable, -⟩
  · rw [hnone]
    exact ⟨keys, h⟩
  · rw [hsome]
    refine h.sublist ?_
    rw [htable]
    exact (List.sublist_cons_self m after).append_left before

/-! ### Runs -/

/-- The mount points of a call are absolute, and a string has no zero byte. -/
def VfsOp.Legal : VfsOp Obj → Prop
  | .mount vfs _ => ∃ key, vfs.str = mountPoint key ∧ ∀ c ∈ key, IsComponent c
  | .umount arg _ => ∀ str, arg.str = some str → 0 ∉ str

theorem mountsGood_run [DecidableEq Obj] {ops : List (VfsOp Obj)} (hops : ∀ op ∈ ops, op.Legal)
    (h : MountsGood st.mountTable keys) :
    ∃ keys', MountsGood (ops.foldl vfsStep st).mountTable keys' := by
  induction ops generalizing st keys with
  | nil => exact ⟨keys, h⟩
  | cons op ops ih =>
    have hlegal := hops op List.mem_cons_self
    have hrest : ∀ op ∈ ops, op.Legal := fun op hop => hops op (List.mem_cons_of_mem _ hop)
    have hstep : ∃ keys', MountsGood (vfsStep st op).mountTable keys' := by
      cases op with
      | mount vfs mountOk =>
        obtain ⟨key, hstr, hkey⟩ := hlegal
        exact h.mount hstr hkey mountOk
      | umount arg umountOk => exact h.umount arg umountOk
    obtain ⟨keys', hgood⟩ := hstep
    exact ih hrest hgood

/-- A call changes what is mounted, as what it returns says: a file system is mounted if the call
returns, and one that the argument names is taken out if there is one, also if its own method
raises. -/
inductive MountsChange [DecidableEq Obj] (st : Vfs Obj) :
    VfsOp Obj → List (VfsMount Obj) → List (VfsMount Obj) → Prop
  | mounted {vfs : VfsMount Obj} {ok : Bool} (before : List (VfsMount Obj)) :
      (mpVfsMount st vfs ok).2 = .ok () → MountsChange st (.mount vfs ok) before (vfs :: before)
  | refused {vfs : VfsMount Obj} {ok : Bool} (before : List (VfsMount Obj)) :
      (mpVfsMount st vfs ok).2 ≠ .ok () → MountsChange st (.mount vfs ok) before before
  | taken {arg : UmountArg Obj} {ok : Bool} {m : VfsMount Obj}
    {before after : List (VfsMount Obj)} :
      (mpVfsUmount st arg ok).2 ≠ .error .einval → arg.str = some m.str ∨ m.obj = arg.obj →
      before.Perm (m :: after) → MountsChange st (.umount arg ok) before after
  | unknown {arg : UmountArg Obj} {ok : Bool} {before : List (VfsMount Obj)} :
      (mpVfsUmount st arg ok).2 = .error .einval →
      (∀ m ∈ before, ¬(arg.str = some m.str ∨ m.obj = arg.obj)) →
      MountsChange st (.umount arg ok) before before

/-- What is mounted after some calls -/
def MountedAfter [DecidableEq Obj] :
    Vfs Obj → List (VfsMount Obj) → List (VfsOp Obj) → List (VfsMount Obj) → Prop
  | _, before, [], mounted => mounted = before
  | st, before, op :: ops, mounted =>
    ∃ next, MountsChange st op before next ∧ MountedAfter (vfsStep st op) next ops mounted

theorem vfsStep_changes [DecidableEq Obj] {before : List (VfsMount Obj)}
    (h : st.mountTable.Perm before) (op : VfsOp Obj) :
    ∃ next, MountsChange st op before next ∧ (vfsStep st op).mountTable.Perm next := by
  cases op with
  | mount vfs ok =>
    -- the table is changed if and only if the call returns
    have hcases : (mpVfsMount st vfs ok).2 = .ok () ∧
          (mpVfsMount st vfs ok).1.mountTable = insertMount vfs st.mountTable ∨
        (mpVfsMount st vfs ok).2 ≠ .ok () ∧
          (mpVfsMount st vfs ok).1.mountTable = st.mountTable := by
      rw [mpVfsMount]
      split_ifs
      · exact .inr ⟨by simp, rfl⟩
      · dsimp only
        split
        · split_ifs
          · exact .inl ⟨rfl, rfl⟩
          · exact .inr ⟨by simp, rfl⟩
        · exact .inl ⟨rfl, rfl⟩
        · exact .inl ⟨rfl, rfl⟩
    rcases hcases with ⟨hok, htable⟩ | ⟨herr, htable⟩
    · exact ⟨_, .mounted before hok, htable ▸ (insertMount_perm vfs _).trans (h.cons vfs)⟩
    · exact ⟨_, .refused before herr, htable ▸ h⟩
  | umount arg ok =>
    rcases removeMount_spec arg st.mountTable with
      ⟨hnone, hall⟩ | ⟨m, front, back, hsome, htable, hm⟩
    · have hcall : mpVfsUmount st arg ok = (st, .error .einval) := by rw [mpVfsUmount, hnone]
      refine ⟨before, .unknown (by rw [hcall]) fun m hmem => hall m (h.mem_iff.mpr hmem), ?_⟩
      rw [vfsStep, hcall]
      exact h
    · have hcall : (mpVfsUmount st arg ok).2 ≠ .error .einval ∧
          (mpVfsUmount st arg ok).1.mountTable = front ++ back := by
        rw [mpVfsUmount, hsome]
        cases ok <;> exact ⟨by simp, rfl⟩
      refine ⟨front ++ back, .taken hcall.1 hm ?_, by rw [vfsStep, hcall.2]⟩
      exact h.symm.trans (htable ▸ List.perm_middle)

/-- **The table holds what is mounted** after any calls. -/
theorem exists_mountedAfter [DecidableEq Obj] (ops : List (VfsOp Obj))
    {before : List (VfsMount Obj)} (h : st.mountTable.Perm before) :
    ∃ mounted, MountedAfter st before ops mounted ∧
      (ops.foldl vfsStep st).mountTable.Perm mounted := by
  induction ops generalizing st before with
  | nil => exact ⟨before, rfl, h⟩
  | cons op ops ih =>
    obtain ⟨next, hchange, hnext⟩ := vfsStep_changes h op
    obtain ⟨mounted, hafter, hperm⟩ := ih hnext
    exact ⟨mounted, ⟨next, hchange, hafter⟩, hperm⟩

/-- What the lookup of a path is to find in a table: an entry with the longest mount point that is a
prefix of the path, by components, and the rest of the path -/
def LookupRight (table : List (VfsMount Obj)) (comps : List (List UInt8)) (trailing : Bool) :
    VfsLookup Obj → Prop
  | .mount vfs pathOut =>
    vfs ∈ table ∧ ∃ key rest, vfs.str = mountPoint key ∧ comps = key ++ rest ∧
      pathOut = remainingPath rest trailing ∧
      ∀ m ∈ table, ∀ key', (∀ c ∈ key', IsComponent c) → m.str = mountPoint key' →
        key' <+: comps → key'.length ≤ key.length
  | .none => ∀ m ∈ table, ∀ key', (∀ c ∈ key', IsComponent c) → m.str = mountPoint key' →
      ¬key' <+: comps
  | .root => False

/-- A mount point of the table is one of the keys. -/
theorem MountKeys.mem (h : MountKeys table keys) {m : VfsMount Obj} (hm : m ∈ table)
    (hkey : ∀ c ∈ key, IsComponent c) (hstr : m.str = mountPoint key) : key ∈ keys := by
  have hmem : m.str ∈ keys.map mountPoint := h.strs ▸ List.mem_map_of_mem hm
  obtain ⟨k, hk, heq⟩ := List.mem_map.mp hmem
  rwa [mountPoint_inj hkey (h.components k hk) (hstr.symm.trans heq.symm)]

/-- **The lookup finds the longest mount point.** After any calls of `mp_vfs_mount` and
`mp_vfs_umount`, some of which may have failed, the lookup of an absolute path finds what is mounted
at the longest prefix of the path, with the rest of the path, or nothing if there is none. The table
has what the calls have mounted and not taken out again. -/
theorem vfs_lookup_longest [DecidableEq Obj] {ops : List (VfsOp Obj)}
    (hops : ∀ op ∈ ops, op.Legal) (vfsCur : Option (VfsMount Obj)) {comps : List (List UInt8)}
    (hcomps : ∀ c ∈ comps, IsComponent c) (hne : comps ≠ []) (trailing : Bool) :
    ∃ mounted, MountedAfter ⟨[], vfsCur⟩ [] ops mounted ∧
      (ops.foldl vfsStep ⟨[], vfsCur⟩).mountTable.Perm mounted ∧
      LookupRight mounted comps trailing
        (mpVfsLookupPath (ops.foldl vfsStep ⟨[], vfsCur⟩) (pathOf comps trailing)) := by
  have hempty : MountsGood (⟨[], vfsCur⟩ : Vfs Obj).mountTable [] :=
    ⟨⟨rfl, fun key hkey => absurd hkey List.not_mem_nil⟩, PrefixTable.ordered_nil⟩
  obtain ⟨keys, hgood⟩ := mountsGood_run hops hempty
  have hnil : (⟨[], vfsCur⟩ : Vfs Obj).mountTable.Perm [] := .nil
  obtain ⟨mounted, hafter, hperm⟩ := exists_mountedAfter ops hnil
  refine ⟨mounted, hafter, hperm, ?_⟩
  generalize ops.foldl vfsStep ⟨[], vfsCur⟩ = st at hgood hperm ⊢
  obtain ⟨name, hname, hpath⟩ := exists_name hcomps hne trailing
  rw [hpath, mpVfsLookupPath_eq st hname]
  rcases searchMounts_spec hgood.toMountKeys hcomps hne hpath with
    ⟨hnone, hall⟩ | ⟨vfs, before, key, after, rfl, hvfs, hstr, hbefore, hkey, hsearch⟩
  · rw [hnone]
    intro m hm key' hkey' hstr'
    exact hall key' (hgood.mem (hperm.mem_iff.mpr hm) hkey' hstr')
  · rw [hsearch]
    obtain ⟨rest, rfl⟩ := hkey
    refine ⟨hperm.mem_iff.mp hvfs, key, rest, hstr, rfl, by rw [List.drop_left],
      fun m hm key' hkey' hstr' hpre => ?_⟩
    exact hgood.ordered.length_le (List.prefix_append _ _) hbefore
      (hgood.mem (hperm.mem_iff.mpr hm) hkey' hstr') hpre

/-- File systems are mounted at `/`, `/a/b` and `/a`, in this order, one at `/a/c` is refused, and
the second one is taken out: the path `/a/b/c` is in the third one. -/
theorem vfs_lookup_three_mounts : let ops : List (VfsOp ℕ) :=
      [.mount ⟨1, [47], 10⟩ true, .mount ⟨2, [47, 97, 47, 98], 11⟩ true,
        .mount ⟨3, [47, 97], 12⟩ true, .mount ⟨4, [47, 97, 47, 99], 13⟩ true,
        .umount ⟨14, some [47, 97, 47, 98]⟩ true]
    mpVfsLookupPath (ops.foldl vfsStep ⟨[], none⟩) [47, 97, 47, 98, 47, 99] =
        .mount ⟨3, [47, 97], 12⟩ [47, 98, 47, 99] ∧
      ∃ mounted, MountedAfter ⟨[], none⟩ [] ops mounted ∧
        (ops.foldl vfsStep ⟨[], none⟩).mountTable.Perm mounted ∧
        LookupRight mounted [[97], [98], [99]] false
          (mpVfsLookupPath (ops.foldl vfsStep ⟨[], none⟩) [47, 97, 47, 98, 47, 99]) := by
  intro ops
  refine ⟨by decide, vfs_lookup_longest (fun op hop => ?_) none (by decide) (by decide) false⟩
  simp only [ops, List.mem_cons, List.not_mem_nil, or_false] at hop
  rcases hop with rfl | rfl | rfl | rfl | rfl
  · exact ⟨[], rfl, by decide⟩
  · exact ⟨[[97], [98]], rfl, by decide⟩
  · exact ⟨[[97]], rfl, by decide⟩
  · exact ⟨[[97], [99]], rfl, by decide⟩
  · rintro str ⟨⟩
    decide

end Pycopy
