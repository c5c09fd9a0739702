import Mathlib.Data.List.Nodup
import Pycopy.Extmod.Vfs

/-!
# Mount points in use

What `mp_vfs_mount` and `mp_vfs_umount` of `extmod/vfs.c` keep true of the mount table, for mount
points that are any C strings. The check that a mount point is not in use goes through the lookup.
The lookup gives the virtual root for `/`, whether something is mounted there or not, and it leaves
out the first byte of every mount point, so it does not find a relative one. The comparison of
`mp_vfs_umount` counts the bytes of its argument only, and a zero byte in it leads behind the end of
a mount point.

## Main results

* `vfs_mounts_right_iff`: sequences of calls.
-/

namespace Pycopy

variable {Obj : Type}

/-! ### The comparison of `mp_vfs_umount` -/

/-- `!memcmp(a, b, n)`, byte by byte: nothing if a byte is read that is not there -/
def memcmpEqual : List UInt8 → List UInt8 → ℕ → Option Bool
  | _, _, 0 => some true
  | x :: a, y :: b, n + 1 => if x = y then memcmpEqual a b n else some false
  | _, _, _ + 1 => none

/-- The loop of `mp_vfs_umount` with the bytes that it reads. A string is followed by a zero
byte. -/
def removeMountBytes [DecidableEq Obj] (arg : UmountArg Obj) :
    List (VfsMount Obj) → Option (Option (VfsMount Obj × List (VfsMount Obj)))
  | [] => some none
  | m :: rest => do
    let equal ←
      match arg.str with
      | some mntStr => memcmpEqual (mntStr ++ [0]) (m.str ++ [0]) (mntStr.length + 1)
      | none => some false
    if equal = true ∨ m.obj = arg.obj then some (some (m, rest))
    else do
      let found ← removeMountBytes arg rest
      some (found.map fun (vfs, rest') => (vfs, m :: rest'))

/-- **The comparison** stops at the first difference, and there is one unless the string goes on
behind a zero byte where the mount point ends. -/
theorem memcmpEqual_eq {b : List UInt8} (hb : 0 ∉ b) (a : List UInt8) :
    (memcmpEqual (a ++ [0]) (b ++ [0]) (a.length + 1) = none ↔ ∃ rest, a = b ++ 0 :: rest) ∧
      ∀ equal ∈ memcmpEqual (a ++ [0]) (b ++ [0]) (a.length + 1), equal = decide (a = b) := by
  induction a generalizing b with
  | nil =>
    cases b with
    | nil => exact ⟨by simp [memcmpEqual], by simp [memcmpEqual]⟩
    | cons y b =>
      have hy : (0 : UInt8) ≠ y := fun h => hb (h ▸ List.mem_cons_self)
      simp [memcmpEqual, hy]
  | cons x a ih =>
    cases b with
    | nil =>
      by_cases hx : x = 0
      · subst hx
        cases a <;> simp [memcmpEqual]
      · simp [memcmpEqual, hx]
    | cons y b =>
      by_cases hxy : x = y
      · subst hxy
        have h := ih (b := b) fun h => hb (List.mem_cons_of_mem x h)
        simpa [memcmpEqual] using h
      · simp [memcmpEqual, hxy]

/-! ### What is right -/

/-- A mount point is in use. -/
def MountInUse (table : List (VfsMount Obj)) (str : List UInt8) : Prop := ∃ m ∈ table, m.str = str

/-- A call is right if a mount point in use is refused, and if a string takes out the mount that has
it, without a byte that is not in one of the strings. -/
def VfsRight [DecidableEq Obj] (st : Vfs Obj) : VfsOp Obj → Prop
  | .mount vfs mountOk =>
    MountInUse st.mountTable vfs.str →
      (mpVfsMount st vfs mountOk).1 = st ∧ ∃ e, (mpVfsMount st vfs mountOk).2 = .error e
  | .umount arg umountOk =>
    ∀ s, arg.str = some s →
      removeMountBytes arg st.mountTable = some (removeMount arg st.mountTable) ∧
      ((mpVfsUmount st arg umountOk).2 = .error .einval ↔ ¬MountInUse st.mountTable s) ∧
      (¬MountInUse st.mountTable s → (mpVfsUmount st arg umountOk).1 = st) ∧
      ∀ m ∈ st.mountTable, m.str = s → ∃ before after, st.mountTable = before ++ m :: after ∧
        (mpVfsUmount st arg umountOk).1.mountTable = before ++ after

/-- All calls of a sequence are right, and the mount points are distinct between them. -/
def VfsRunRight [DecidableEq Obj] : Vfs Obj → List (VfsOp Obj) → Prop
  | st, [] => (st.mountTable.map VfsMount.str).Nodup
  | st, op :: ops =>
    (st.mountTable.map VfsMount.str).Nodup ∧ VfsRight st op ∧ VfsRunRight (vfsStep st op) ops

/-- The calls that are not right: a mount point in use that the lookup does not find, which is `/`
or a relative one of more than one byte, and a string that goes on behind the end of a mount
point. -/
def VfsUnseen (st : Vfs Obj) : VfsOp Obj → Prop
  | .mount vfs mountOk =>
    mountOk = true ∧ MountInUse st.mountTable vfs.str ∧
      (vfs.str = [47] ∨ vfs.str.length ≠ 1 ∧ vfs.str.head? ≠ some 47 ∧
        ∀ m ∈ st.mountTable, m.str.length ≠ 1 → mountMatch m vfs.str false = none)
  | .umount arg _ => ∃ m ∈ st.mountTable, ∃ rest, arg.str = some (m.str ++ 0 :: rest)

def VfsRunUnseen [DecidableEq Obj] : Vfs Obj → List (VfsOp Obj) → Prop
  | _, [] => False
  | st, op :: ops => VfsUnseen st op ∨ VfsRunUnseen (vfsStep st op) ops

/-- The mount points are C strings and not empty. A string is no file system, so its own method does
not return. -/
def VfsOp.IsCall (isStr : Obj → Prop) : VfsOp Obj → Prop
  | .mount vfs mountOk => vfs.str ≠ [] ∧ 0 ∉ vfs.str ∧ (mountOk = true → ¬isStr vfs.obj)
  | .umount arg _ => arg.str ≠ none → isStr arg.obj

/-! ### The table -/

/-- What is true of the table after any calls: what has a mount point of one byte is at the end. -/
structure MountsOrdered (isStr : Obj → Prop) (st : Vfs Obj) : Prop where
  cur : st.vfsCur = none
  ordered : st.mountTable.Pairwise fun m m' => m.str.length = 1 → m'.str.length = 1
  strings : ∀ m ∈ st.mountTable, m.str ≠ [] ∧ 0 ∉ m.str ∧ ¬isStr m.obj

variable {isStr : Obj → Prop} {st : Vfs Obj} {vfs : VfsMount Obj} {arg : UmountArg Obj}
  {table : List (VfsMount Obj)}

theorem insertMount_ordered (vfs : VfsMount Obj)
    (h : table.Pairwise fun m m' => m.str.length = 1 → m'.str.length = 1) :
    (insertMount vfs table).Pairwise fun m m' => m.str.length = 1 → m'.str.length = 1 := by
  induction table with
  | nil => exact List.pairwise_singleton _ _
  | cons m rest ih =>
    obtain ⟨hm, hrest⟩ := List.pairwise_cons.mp h
    rw [insertMount]
    split_ifs with hlen
    · refine List.pairwise_cons.mpr ⟨fun m' hm' _ => ?_, h⟩
      rcases List.mem_cons.mp hm' with rfl | hm'
      · exact hlen
      · exact hm m' hm' hlen
    · exact List.pairwise_cons.mpr ⟨fun _ _ h1 => absurd h1 hlen, ih hrest⟩

theorem vfsStep_ordered [DecidableEq Obj] (h : MountsOrdered isStr st) {op : VfsOp Obj}
    (hop : op.IsCall isStr) : MountsOrdered isStr (vfsStep st op) := by
  cases op with
  | mount vfs mountOk =>
    have hins (hok : mountOk ≠ false) :
        MountsOrdered isStr { st with mountTable := insertMount vfs st.mountTable } := by
      refine ⟨h.cur, insertMount_ordered vfs h.ordered, fun m hm => ?_⟩
      rcases List.mem_cons.mp ((insertMount_perm vfs st.mountTable).mem_iff.mp hm) with rfl | hm
      · exact ⟨hop.1, hop.2.1, hop.2.2 (eq_true_of_ne_false hok)⟩
      · exact h.strings m hm
    rw [vfsStep, mpVfsMount]
    split_ifs with hok
    · exact h
    · split
      · split_ifs
        · exact hins hok
        · exact h
      · exact hins hok
      · exact hins hok
  | umount arg umountOk =>
    rw [vfsStep, mpVfsUmount]
    rcases removeMount_spec arg st.mountTable with
      ⟨hnone, -⟩ | ⟨m, before, after, hsome, htable, -⟩
    · rwa [hnone]
    · rw [hsome]
      have hsub : (before ++ after).Sublist st.mountTable := by
        rw [htable]
        exact (List.sublist_cons_self m after).append_left before
      refine ⟨?_, h.ordered.sublist hsub, fun m hm => h.strings m (hsub.subset hm)⟩
      simp only [h.cur, ite_self]

/-! ### Mounting -/

/-- The path that the lookup compares with the mount points -/
def lookupName (path : List UInt8) : List UInt8 :=
  if path.head? = some 47 then path.drop 1 else path

/-- The lookup finds a mount that makes `mp_vfs_mount` refuse the mount point. -/
def Refusing (table : List (VfsMount Obj)) (str : List UInt8) : Prop :=
  lookupName str ≠ [] ∧
    ∃ m out, searchMounts (lookupName str) (decide (str.head? = some 47)) table = some (m, out) ∧
      ¬(str.length ≠ 1 ∧ m.str.length = 1)

theorem mount_cases (hcur : st.vfsCur = none) (vfs : VfsMount Obj) :
    (Refusing st.mountTable vfs.str ∧ mpVfsMount st vfs true = (st, .error .eperm)) ∨
      (¬Refusing st.mountTable vfs.str ∧ mpVfsMount st vfs true =
        ({ st with mountTable := insertMount vfs st.mountTable }, .ok ())) := by
  have hname : (if decide (vfs.str.head? = some 47) = true then vfs.str.drop 1 else vfs.str)
      = lookupName vfs.str := by
    simp only [decide_eq_true_eq, lookupName]
  rw [mpVfsMount, if_neg (by decide), mpVfsLookupPath, hcur]
  simp only [hname, or_true, if_true]
  by_cases hempty : lookupName vfs.str = []
  · rw [if_pos hempty]
    exact .inr ⟨fun h => h.1 hempty, rfl⟩
  rw [if_neg hempty]
  cases hsearch : searchMounts (lookupName vfs.str) (decide (vfs.str.head? = some 47))
      st.mountTable with
  | none =>
    refine .inr ⟨?_, ?_⟩
    · rintro ⟨-, m, out, hm, -⟩
      rw [hsearch] at hm
      cases hm
    · split_ifs <;> rfl
  | some found =>
    by_cases hsub : vfs.str.length ≠ 1 ∧ found.1.str.length = 1
    · refine .inr ⟨?_, if_pos hsub⟩
      rintro ⟨-, m, out, hm, hnot⟩
      rw [hsearch, Option.some_inj] at hm
      rw [hm] at hsub
      exact hnot hsub
    · exact .inl ⟨⟨hempty, found.1, found.2, hsearch, hsub⟩, if_neg hsub⟩

/-- The first mount that fits is one of more than one byte, if there is such a mount. -/
theorem searchMounts_long (path : List UInt8) (isAbs : Bool)
    (h : table.Pairwise fun m m' => m.str.length = 1 → m'.str.length = 1) :
    (∃ m out, searchMounts path isAbs table = some (m, out) ∧ m.str.length ≠ 1) ↔
      ∃ m ∈ table, m.str.length ≠ 1 ∧ mountMatch m path isAbs ≠ none := by
  induction table with
  | nil => simp [searchMounts]
  | cons m rest ih =>
    obtain ⟨hm, hrest⟩ := List.pairwise_cons.mp h
    rw [searchMounts, List.exists_mem_cons_iff]
    cases hmatch : mountMatch m path isAbs with
    | none =>
      rw [← ih hrest]
      exact ⟨.inr, fun h => h.resolve_left fun h => h.2 rfl⟩
    | some out =>
      constructor
      · rintro ⟨m', out', heq, hlen⟩
        rw [Option.some_inj, Prod.mk.injEq] at heq
        exact .inl ⟨heq.1 ▸ hlen, Option.some_ne_none _⟩
      · rintro (⟨hlen, -⟩ | ⟨m', hm', hlen, -⟩)
        · exact ⟨m, out, rfl, hlen⟩
        · exact ⟨m, out, rfl, fun h1 => hlen (hm m' hm' h1)⟩

theorem searchMounts_ne_none {path : List UInt8} {isAbs : Bool} {m : VfsMount Obj} (hm : m ∈ table)
    (hmatch : mountMatch m path isAbs ≠ none) : searchMounts path isAbs table ≠ none := by
  induction table with
  | nil => exact absurd hm List.not_mem_nil
  | cons m' rest ih =>
    rw [searchMounts]
    cases hm' : mountMatch m' path isAbs with
    | some out => exact Option.some_ne_none _
    | none =>
      rcases List.mem_cons.mp hm with rfl | hm
      · exact absurd hm' hmatch
      · exact ih hm

/-- An absolute mount point is found under its own path. -/
theorem mountMatch_self (m : VfsMount Obj) (hlen : m.str.length - 1 ≠ 0) (isAbs : Bool) :
    mountMatch m (m.str.drop 1) isAbs = some [47] := by
  have hend : (m.str.drop 1)[m.str.length - 1]? = none :=
    List.getElem?_eq_none (by rw [List.length_drop])
  rw [mountMatch]
  simp only [if_neg hlen, if_true, hend]

/-- **A mount point in use is refused**, unless it is `/`, or a relative one of more than one byte
that is below no mount point as the lookup compares them. -/
theorem mount_refused_iff (h : MountsOrdered isStr st) {str : List UInt8}
    (huse : MountInUse st.mountTable str) :
    Refusing st.mountTable str ↔ ¬(str = [47] ∨ str.length ≠ 1 ∧ str.head? ≠ some 47 ∧
      ∀ m ∈ st.mountTable, m.str.length ≠ 1 → mountMatch m str false = none) := by
  obtain ⟨m, hm, rfl⟩ := huse
  have hne := (h.strings m hm).1
  by_cases hroot : m.str = [47]
  · refine iff_of_false (fun href => href.1 ?_) (not_not.mpr (.inl hroot))
    rw [hroot]
    rfl
  by_cases habs : m.str.head? = some 47
  · -- it is found itself
    obtain ⟨rest, hrest⟩ : ∃ rest, m.str = 47 :: rest := by
      cases hstr : m.str with
      | nil => exact absurd hstr hne
      | cons b rest =>
        rw [hstr, List.head?_cons, Option.some_inj] at habs
        exact ⟨rest, by rw [habs]⟩
    have hrest' : rest ≠ [] := fun h0 => hroot (by rw [hrest, h0])
    have hpos := List.length_pos_of_ne_nil hrest'
    have hlen : m.str.length = rest.length + 1 := by rw [hrest, List.length_cons]
    have hself := mountMatch_self m (by omega) true
    refine iff_of_true ⟨?_, ?_⟩ fun hcase => ?_
    · rw [lookupName, if_pos habs, hrest]
      exact hrest'
    · obtain ⟨m', out, hsearch, hlen'⟩ := (searchMounts_long _ _ h.ordered).mpr
        ⟨m, hm, by omega, by rw [hself]; exact Option.some_ne_none _⟩
      rw [lookupName, if_pos habs, decide_eq_true habs]
      exact ⟨m', out, hsearch, fun h1 => hlen' h1.2⟩
    · exact hcase.elim hroot fun h => h.2.1 habs
  · rw [Refusing, lookupName, if_neg habs, decide_eq_false habs]
    by_cases hone : m.str.length = 1
    · have hmatch : mountMatch m m.str false ≠ none := by
        simp only [mountMatch, hone, Nat.sub_self, if_true]
        exact Option.some_ne_none _
      obtain ⟨found, hfound⟩ := Option.ne_none_iff_exists'.mp (searchMounts_ne_none hm hmatch)
      refine iff_of_true ⟨hne, found.1, found.2, hfound, fun h1 => h1.1 hone⟩ fun hcase => ?_
      exact hcase.elim hroot fun h => h.1 hone
    · have hlong := searchMounts_long m.str false h.ordered
      constructor
      · rintro ⟨-, m', out, hsearch, hlen⟩ hcase
        obtain ⟨m'', hm'', hlen'', hmatch⟩ :=
          hlong.mp ⟨m', out, hsearch, fun h1 => hlen ⟨hone, h1⟩⟩
        exact hmatch ((hcase.resolve_left hroot).2.2 m'' hm'' hlen'')
      · intro hcase
        simp only [not_or, not_and, not_forall] at hcase
        obtain ⟨m', hm', hlen', hmatch⟩ := hcase.2 hone habs
        obtain ⟨m'', out, hsearch, hlen''⟩ := hlong.mpr ⟨m', hm', hlen', hmatch⟩
        exact ⟨hne, m'', out, hsearch, fun h1 => hlen'' h1.2⟩

theorem mount_right_iff [DecidableEq Obj] (h : MountsOrdered isStr st) (mountOk : Bool) :
    VfsRight st (.mount vfs mountOk) ↔ ¬VfsUnseen st (.mount vfs mountOk) := by
  cases mountOk with
  | false => exact iff_of_true (fun _ => ⟨rfl, _, rfl⟩) fun h => Bool.false_ne_true h.1
  | true =>
    by_cases huse : MountInUse st.mountTable vfs.str
    · have hiff := mount_refused_iff h huse
      rw [VfsUnseen, VfsRight, forall_prop_of_true huse]
      rcases mount_cases h.cur vfs with ⟨href, hmount⟩ | ⟨href, hmount⟩
      · exact iff_of_true (by rw [hmount]; exact ⟨rfl, _, rfl⟩) fun hun => hiff.mp href hun.2.2
      · refine iff_of_false ?_ (not_not.mpr ⟨rfl, huse, not_not.mp fun hun => href (hiff.mpr hun)⟩)
        rw [hmount]
        rintro ⟨-, e, he⟩
        exact nomatch he
    · exact iff_of_true (fun h => absurd h huse) fun hun => huse hun.2.1

/-! ### Unmounting -/

section Umount

variable [DecidableEq Obj] {s : List UInt8}

/-- The comparison of the first entry, if the string does not go on behind its end -/
theorem removeMountBytes_cons {m : VfsMount Obj} (hs : arg.str = some s) (hm : 0 ∉ m.str)
    (hobj : m.obj ≠ arg.obj) (hend : ¬∃ rest, s = m.str ++ 0 :: rest) :
    removeMountBytes arg (m :: table) =
      if s = m.str then some (some (m, table))
      else (removeMountBytes arg table).map (·.map fun (vfs, rest') => (vfs, m :: rest')) := by
  obtain ⟨hnone, hequal⟩ := memcmpEqual_eq hm s
  obtain ⟨equal, hsome⟩ := Option.ne_none_iff_exists'.mp (hend ∘ hnone.mp)
  have heq := hequal equal hsome
  simp only [removeMountBytes, hs, hsome, Option.bind_eq_bind, Option.bind_some, heq,
    decide_eq_true_eq, hobj, or_false]
  congr 1
  cases removeMountBytes arg table <;> rfl

/-- **The loop finds what has the string** and reads no byte that is not there. -/
theorem removeMountBytes_eq (hs : arg.str = some s)
    (htable : ∀ m ∈ table, 0 ∉ m.str ∧ m.obj ≠ arg.obj ∧ ¬∃ rest, s = m.str ++ 0 :: rest) :
    removeMountBytes arg table = some (removeMount arg table) := by
  induction table with
  | nil => rfl
  | cons m table ih =>
    obtain ⟨hm, hobj, hend⟩ := htable m List.mem_cons_self
    rw [removeMountBytes_cons hs hm hobj hend, ih fun m hm => htable m (List.mem_cons_of_mem _ hm),
      removeMount, hs]
    simp only [Option.some_inj, hobj, or_false, Option.map_some]
    split_ifs <;> rfl

/-- A string that goes on behind the end of an entry is equal to none before it. -/
theorem removeMountBytes_none (hs : arg.str = some s)
    (htable : ∀ m ∈ table, 0 ∉ m.str ∧ m.obj ≠ arg.obj)
    (hend : ∃ m ∈ table, ∃ rest, s = m.str ++ 0 :: rest) : removeMountBytes arg table = none := by
  induction table with
  | nil => exact absurd hend (by simp)
  | cons m table ih =>
    obtain ⟨hm, hobj⟩ := htable m List.mem_cons_self
    by_cases hfirst : ∃ rest, s = m.str ++ 0 :: rest
    · simp only [removeMountBytes, hs, (memcmpEqual_eq hm s).1.mpr hfirst, Option.bind_eq_bind,
        Option.bind_none]
    · obtain ⟨m', hm', hend'⟩ := hend
      have hrest : m' ∈ table := by
        rcases List.mem_cons.mp hm' with rfl | hm'
        · exact absurd hend' hfirst
        · exact hm'
      have hne : s ≠ m.str := by
        obtain ⟨rest, rfl⟩ := hend'
        intro heq
        exact hm (heq ▸ by simp)
      rw [removeMountBytes_cons hs hm hobj hfirst, if_neg hne,
        ih (fun m hm => htable m (List.mem_cons_of_mem _ hm)) ⟨m', hrest, hend'⟩]
      rfl

theorem umount_right_iff (h : MountsOrdered isStr st)
    (hdistinct : (st.mountTable.map VfsMount.str).Nodup)
    (umountOk : Bool) (hop : (VfsOp.umount arg umountOk).IsCall isStr) :
    VfsRight st (.umount arg umountOk) ↔ ¬VfsUnseen st (.umount arg umountOk) := by
  cases hs : arg.str with
  | none =>
    refine iff_of_true (fun s hs' => ?_) ?_
    · rw [hs] at hs'
      exact nomatch hs'
    · rintro ⟨m, -, rest, hs'⟩
      rw [hs] at hs'
      exact nomatch hs'
  | some s =>
    have hstr : isStr arg.obj := hop (by rw [hs]; exact Option.some_ne_none s)
    have htable : ∀ m ∈ st.mountTable, 0 ∉ m.str ∧ m.obj ≠ arg.obj := fun m hm =>
      ⟨(h.strings m hm).2.1, fun heq => (h.strings m hm).2.2 (heq ▸ hstr)⟩
    rw [VfsUnseen]
    constructor
    · rintro hright ⟨m, hm, rest, hs'⟩
      rw [hs, Option.some_inj] at hs'
      have hbytes := (hright s hs).1
      rw [removeMountBytes_none hs htable ⟨m, hm, rest, hs'⟩] at hbytes
      exact nomatch hbytes
    · intro hunseen s' hs'
      obtain rfl : s = s' := Option.some_inj.mp (hs.symm.trans hs')
      refine ⟨removeMountBytes_eq hs fun m hm => ⟨(htable m hm).1, (htable m hm).2, ?_⟩, ?_⟩
      · rintro ⟨rest, hrest⟩
        exact hunseen ⟨m, hm, rest, by rw [hs, hrest]⟩
      rw [mpVfsUmount]
      rcases removeMount_spec arg st.mountTable with
        ⟨hnone, hall⟩ | ⟨m, before, after, hsome, htab, hfound⟩
      · have hfree : ¬MountInUse st.mountTable s := by
          rintro ⟨m, hm, rfl⟩
          exact hall m hm (.inl hs)
        simp only [hnone]
        exact ⟨iff_of_true trivial hfree, fun _ => trivial,
          fun m hm heq => absurd ⟨m, hm, heq⟩ hfree⟩
      · have hm : m ∈ st.mountTable := by
          rw [htab]
          simp
        obtain rfl : s = m.str := by
          rcases hfound with hfound | hfound
          · exact Option.some_inj.mp (hs.symm.trans hfound)
          · exact absurd hfound (htable m hm).2
        have huse : MountInUse st.mountTable m.str := ⟨m, hm, rfl⟩
        simp only [hsome]
        refine ⟨iff_of_false ?_ (not_not.mpr huse), fun hfree => absurd huse hfree,
          fun m' hm' heq => ⟨before, after, ?_, rfl⟩⟩
        · cases umountOk <;> simp
        · rwa [List.inj_on_of_nodup_map hdistinct hm' hm heq]

end Umount

/-! ### Sequences of calls -/

theorem mountsOrdered_empty : MountsOrdered isStr (⟨[], none⟩ : Vfs Obj) :=
  ⟨rfl, .nil, fun _ hm => absurd hm List.not_mem_nil⟩

section Run

variable [DecidableEq Obj]

/-- A call that is right leaves distinct mount points. -/
theorem vfsStep_distinct (hcur : st.vfsCur = none) {op : VfsOp Obj} (hright : VfsRight st op)
    (hdistinct : (st.mountTable.map VfsMount.str).Nodup) :
    ((vfsStep st op).mountTable.map VfsMount.str).Nodup := by
  cases op with
  | mount vfs mountOk =>
    cases mountOk with
    | false => exact hdistinct
    | true =>
      by_cases huse : MountInUse st.mountTable vfs.str
      · rw [vfsStep, (hright huse).1]
        exact hdistinct
      · rcases mount_cases hcur vfs with ⟨-, hmount⟩ | ⟨-, hmount⟩
        · rw [vfsStep, hmount]
          exact hdistinct
        · rw [vfsStep, hmount]
          refine ((insertMount_perm vfs st.mountTable).map VfsMount.str).nodup_iff.mpr ?_
          refine List.nodup_cons.mpr ⟨fun hmem => ?_, hdistinct⟩
          obtain ⟨m, hm, heq⟩ := List.mem_map.mp hmem
          exact huse ⟨m, hm, heq⟩
  | umount arg umountOk =>
    rw [vfsStep, mpVfsUmount]
    rcases removeMount_spec arg st.mountTable with ⟨hnone, -⟩ | ⟨m, before, after, hsome, htable, -⟩
    · rwa [hnone]
    · rw [hsome]
      rw [htable] at hdistinct
      exact hdistinct.sublist (((List.sublist_cons_self m after).append_left before).map _)

theorem vfsRun_right_iff (ops : List (VfsOp Obj)) (h : MountsOrdered isStr st)
    (hdistinct : (st.mountTable.map VfsMount.str).Nodup) (hops : ∀ op ∈ ops, op.IsCall isStr) :
    VfsRunRight st ops ↔ ¬VfsRunUnseen st ops := by
  induction ops generalizing st with
  | nil => exact iff_of_true hdistinct id
  | cons op ops ih =>
    have hop := hops op List.mem_cons_self
    have hiff : VfsRight st op ↔ ¬VfsUnseen st op := by
      cases op with
      | mount vfs mountOk => exact mount_right_iff h mountOk
      | umount arg umountOk => exact umount_right_iff h hdistinct umountOk hop
    rw [VfsRunRight, VfsRunUnseen, not_or, ← hiff]
    simp only [hdistinct, true_and]
    refine and_congr_right fun hright => ?_
    exact ih (vfsStep_ordered h hop) (vfsStep_distinct h.cur hright hdistinct)
      fun op hmem => hops op (List.mem_cons_of_mem _ hmem)

end Run

end Pycopy
