import Mathlib.Data.List.Basic
import Mathlib.Tactic.SplitIfs

/-!
# The Working Directory of a File System

`chdir` of `extmod/vfs_lfsx.c`. A path that does not start with a slash is added to the working
directory, and the result is brought into its normal form in place: `to` is where the part that is
finished ends, and slashes, `.` and `..` behind it are cut out of the buffer together with the
component that a `..` takes back.

The normal form has a slash in front and behind every component. The check that the directory exists
is taken to succeed.

## Main results

* `lfs_chdir_normal`: the working directory after any calls.
-/

namespace Pycopy

/-! ### The source -/

/-- The bytes of a string up to the first zero byte -/
def cStr (str : List UInt8) : List UInt8 := str.takeWhile (· ≠ 0)

/-- A `for` loop that goes on over bytes of the buffer -/
def scanBytes (p : UInt8 → Bool) (cwd : List UInt8) (i : ℕ) : ℕ :=
  i + ((cwd.drop i).takeWhile p).length

/-- The `for` loop that goes back to the start of a component -/
def skipBack (cwd : List UInt8) : ℕ → ℕ
  | 0 => 0
  | pos + 1 => if pos + 1 > 1 ∧ cwd[pos]? ≠ some 47 then skipBack cwd pos else pos + 1

/-- `vstr_cut_out_bytes`, on the bytes of the string -/
def cutOutBytes (cwd : List UInt8) (bytePos bytesToCut : ℕ) : List UInt8 :=
  cwd.take bytePos ++ cwd.drop (bytePos + bytesToCut)

/-- The `while` loop of `chdir`, with the indices `to` and `from` -/
def chdirLoop : ℕ → List UInt8 → ℕ → ℕ → Option (List UInt8)
  | 0, _, _, _ => none
  | fuel + 1, cwd, toPos, fromPos =>
    if fromPos < cwd.length then
      let fromPos := scanBytes (· = 47) cwd fromPos
      let (cwd, fromPos) :=
        if fromPos > toPos then (cutOutBytes cwd toPos (fromPos - toPos), toPos) else (cwd, fromPos)
      let fromPos := scanBytes (· ≠ 47) cwd fromPos
      if fromPos - toPos = 1 ∧ cwd[toPos]? = some 46 then
        chdirLoop fuel (cutOutBytes cwd toPos (fromPos + 1 - toPos)) toPos toPos
      else if fromPos - toPos = 2 ∧ cwd[toPos]? = some 46 ∧ cwd[toPos + 1]? = some 46 then
        let toPos := if toPos > 1 then skipBack cwd (toPos - 1) else toPos
        chdirLoop fuel (cutOutBytes cwd toPos (fromPos + 1 - toPos)) toPos toPos
      else chdirLoop fuel cwd (fromPos + 1) (fromPos + 1)
    else some cwd

/-- `make_path` and `chdir`: the working directory after a call -/
def lfsChdir (curDir path : List UInt8) : Option (List UInt8) :=
  let path := cStr path
  let cwd := if path.head? = some 47 then path else curDir ++ path
  if cwd.length ≠ 1 then chdirLoop (cwd.length + 2) (cwd ++ [47]) 1 1 else some cwd

/-! ### Directories as lists of components -/

/-- A slash, and every component with a slash behind it -/
def dirText (comps : List (List UInt8)) : List UInt8 := 47 :: comps.flatMap (· ++ [47])

/-- What a component of a path does -/
def stepDir (comps : List (List UInt8)) (c : List UInt8) : List (List UInt8) :=
  if c = [] ∨ c = [46] then comps else if c = [46, 46] then comps.dropLast else comps ++ [c]

/-- The components of a path, one after the other -/
def stepDirs (comps : List (List UInt8)) (path : List UInt8) : List (List UInt8) :=
  (path.splitOnP (· = 47)).foldl stepDir comps

/-- **The directory that a path names** -/
def dirAfter (comps : List (List UInt8)) (path : List UInt8) : List (List UInt8) :=
  stepDirs (if path.head? = some 47 then [] else comps) path

/-- The components of a directory -/
def IsDirName (c : List UInt8) : Prop := c ≠ [] ∧ 47 ∉ c ∧ c ≠ [46] ∧ c ≠ [46, 46]

variable {comps : List (List UInt8)} {c path rest : List UInt8}

theorem stepDirs_append (hc : 47 ∉ c) :
    stepDirs comps (c ++ 47 :: rest) = stepDirs (stepDir comps c) rest := by
  have hsplit : (c ++ 47 :: rest).splitOnP (· = 47) = c :: rest.splitOnP (· = 47) :=
    List.splitOnP_append_cons_of_forall_mem
      (fun x hx => decide_eq_false fun h : x = 47 => hc (h ▸ hx)) 47 (decide_eq_true rfl) rest
  rw [stepDirs, hsplit, List.foldl_cons]
  rfl

theorem stepDirs_slash : stepDirs comps (47 :: rest) = stepDirs comps rest :=
  (stepDirs_append (c := []) List.not_mem_nil).trans rfl

theorem stepDirs_slashes {slashes : List UInt8} (h : ∀ b ∈ slashes, b = 47) :
    stepDirs comps (slashes ++ rest) = stepDirs comps rest := by
  induction slashes with
  | nil => rfl
  | cons b slashes ih =>
    rw [h b List.mem_cons_self, List.cons_append, stepDirs_slash]
    exact ih fun b hb => h b (List.mem_cons_of_mem _ hb)

theorem stepDirs_trailing : stepDirs comps (path ++ [47]) = stepDirs comps path := by
  have hsplit : (path ++ [47]).splitOnP (· = 47) = path.splitOnP (· = 47) ++ [[]] :=
    List.splitOnP_append_cons path [] (decide_eq_true rfl)
  rw [stepDirs, hsplit, List.foldl_append]
  rfl

/-- A directory is the path of its components. -/
theorem stepDirs_dir (cs : List (List UInt8)) (hcs : ∀ c ∈ cs, IsDirName c) :
    stepDirs comps (cs.flatMap (· ++ [47]) ++ path) = stepDirs (comps ++ cs) path := by
  induction cs generalizing comps with
  | nil => rw [List.flatMap_nil, List.nil_append, List.append_nil]
  | cons c cs ih =>
    obtain ⟨hne, hslash, hdot, hdots⟩ := hcs c List.mem_cons_self
    have hstep : stepDir comps c = comps ++ [c] := by
      rw [stepDir, if_neg (not_or.mpr ⟨hne, hdot⟩), if_neg hdots]
    rw [List.flatMap_cons, List.append_assoc, List.append_assoc, List.singleton_append,
      stepDirs_append hslash, hstep, ih fun c hc => hcs c (List.mem_cons_of_mem _ hc),
      List.append_assoc, List.singleton_append]

theorem stepDir_good (hcomps : ∀ c ∈ comps, IsDirName c) (hc : 47 ∉ c) :
    ∀ c' ∈ stepDir comps c, IsDirName c' := by
  intro c' hc'
  rw [stepDir] at hc'
  split_ifs at hc' with h₁ h₂
  · exact hcomps c' hc'
  · exact hcomps c' (List.dropLast_subset _ hc')
  · rcases List.mem_append.mp hc' with hc' | hc'
    · exact hcomps c' hc'
    · rw [List.mem_singleton.mp hc']
      exact ⟨fun h => h₁ (.inl h), hc, fun h => h₁ (.inr h), h₂⟩

theorem dirText_concat : dirText (comps ++ [c]) = dirText comps ++ c ++ [47] := by
  simp [dirText]

/-! ### The loop -/

/-- A scan over bytes that are followed by another one, or by nothing -/
theorem scanBytes_append {p : UInt8 → Bool} {done bs rest : List UInt8} (hbs : ∀ b ∈ bs, p b = true)
    (hrest : ∀ b ∈ rest.head?, p b = false) :
    scanBytes p (done ++ (bs ++ rest)) done.length = done.length + bs.length := by
  have htake : rest.takeWhile p = [] := by
    cases rest with
    | nil => rfl
    | cons b rest => rw [List.takeWhile_cons_of_neg (by rw [hrest b rfl]; exact Bool.false_ne_true)]
  rw [scanBytes, List.drop_left, List.takeWhile_append_of_pos hbs, htake, List.append_nil]

theorem cutOutBytes_append (done bs rest : List UInt8) :
    cutOutBytes (done ++ (bs ++ rest)) done.length bs.length = done ++ rest := by
  rw [cutOutBytes, List.take_left, ← List.append_assoc, List.drop_append_of_le_length (by simp),
    ← List.length_append, List.drop_length, List.nil_append]

theorem dirText_ends (comps : List (List UInt8)) : ∃ text, dirText comps = text ++ [47] := by
  rcases List.eq_nil_or_concat comps with rfl | ⟨cs, c, rfl⟩
  · exact ⟨[], rfl⟩
  · exact ⟨_, by rw [List.concat_eq_append, dirText_concat]⟩

/-- The way back over the last component -/
theorem skipBack_dirText (hc : 47 ∉ c) (rest : List UInt8) :
    skipBack (dirText comps ++ (c ++ rest)) ((dirText comps).length + c.length) =
      (dirText comps).length := by
  have hback : ∀ j ≤ c.length,
    skipBack (dirText comps ++ (c ++ rest)) ((dirText comps).length + j) =
      (dirText comps).length := by
    intro j hj
    induction j with
    | zero =>
      obtain ⟨text, htext⟩ := dirText_ends comps
      have hend : (dirText comps ++ (c ++ rest))[text.length]? = some 47 := by
        rw [htext, List.append_assoc, List.getElem?_append_right (Nat.le_refl _), Nat.sub_self]
        rfl
      have hlen : (dirText comps).length = text.length + 1 := by rw [htext, List.length_append]; rfl
      rw [Nat.add_zero, hlen, skipBack, if_neg fun h => h.2 hend]
    | succ j ih =>
      have hbyte : (dirText comps ++ (c ++ rest))[(dirText comps).length + j]? ≠ some 47 := by
        rw [List.getElem?_append_right (Nat.le_add_right _ _), Nat.add_sub_cancel_left,
          List.getElem?_append_left hj]
        intro h
        exact hc (List.mem_of_getElem? h)
      have hlen : (dirText comps).length + j + 1 > 1 := by
        rw [dirText, List.length_cons]
        omega
      rw [← Nat.add_assoc, skipBack, if_pos ⟨hlen, hbyte⟩]
      exact ih (Nat.le_of_succ_le hj)
  exact hback c.length (Nat.le_refl _)

/-- What is left of the path is empty or ends with a slash. -/
def SlashEnds (rest : List UInt8) : Prop := ∀ b ∈ rest.getLast?, b = 47

theorem SlashEnds.tail {b : UInt8} (h : SlashEnds (b :: rest)) : SlashEnds rest := by
  intro b' hb'
  refine h b' ?_
  rw [List.getLast?_cons, Option.mem_def.mp hb']
  rfl

/-- The next component of what is left -/
theorem slashEnds_cases (h : SlashEnds rest) :
    (∀ b ∈ rest, b = 47) ∨ ∃ slashes c rest', rest = slashes ++ (c ++ 47 :: rest') ∧
      (∀ b ∈ slashes, b = 47) ∧ c ≠ [] ∧ 47 ∉ c ∧ SlashEnds rest' := by
  induction rest with
  | nil => exact .inl fun b hb => absurd hb List.not_mem_nil
  | cons b rest ih =>
    by_cases hb : b = 47
    · rcases ih h.tail with hall | ⟨slashes, c, rest', rfl, hslashes, hc⟩
      · exact .inl (List.forall_mem_cons.mpr ⟨hb, hall⟩)
      · exact .inr ⟨b :: slashes, c, rest', rfl, List.forall_mem_cons.mpr ⟨hb, hslashes⟩, hc⟩
    · have hmem : 47 ∉ [b] := fun hmem => hb (List.mem_singleton.mp hmem).symm
      have hnext : ∀ r, rest = 47 :: r → ∃ slashes c rest',
        b :: rest = slashes ++ (c ++ 47 :: rest') ∧
          (∀ b ∈ slashes, b = 47) ∧ c ≠ [] ∧ 47 ∉ c ∧ SlashEnds rest' := fun r hr =>
        ⟨[], [b], r, by rw [hr]; rfl, fun b hb => absurd hb List.not_mem_nil, List.cons_ne_nil b [],
          hmem, (hr ▸ h.tail).tail⟩
      right
      rcases ih h.tail with hall | ⟨slashes, c, rest', hrest, hslashes, -, hc, hends⟩
      · cases hr : rest with
        | nil =>
          rw [hr] at h
          exact absurd (h b rfl) hb
        | cons b' r =>
          rw [← hr]
          exact hnext r (by rw [hr, hall b' (hr ▸ List.mem_cons_self)])
      · cases slashes with
        | nil =>
          refine ⟨[], b :: c, rest', by rw [hrest]; rfl, hslashes, List.cons_ne_nil b c, ?_, hends⟩
          exact List.not_mem_cons_of_ne_of_not_mem (fun h => hb h.symm) hc
        | cons b' slashes =>
          exact hnext _ (by rw [hrest, hslashes b' List.mem_cons_self]; rfl)

theorem cutOutBytes_slashes (done slashes rest : List UInt8) :
    (if done.length + slashes.length > done.length then
      (cutOutBytes (done ++ (slashes ++ rest)) done.length
        (done.length + slashes.length - done.length), done.length)
      else (done ++ (slashes ++ rest), done.length + slashes.length)) = (done ++ rest,
        done.length) := by
  cases slashes with
  | nil => exact if_neg (Nat.lt_irrefl _)
  | cons b slashes =>
    have hlt : done.length + (b :: slashes).length > done.length :=
      Nat.lt_add_of_pos_right (Nat.succ_pos _)
    rw [if_pos hlt, Nat.add_sub_cancel_left, cutOutBytes_append]

/-- Where `..` goes back to: over the last component, if there is one -/
theorem skipBack_parent (hcomps : ∀ c ∈ comps, IsDirName c) (rest : List UInt8) :
    (if (dirText comps).length > 1 then skipBack (dirText comps ++ rest)
      ((dirText comps).length - 1)
      else (dirText comps).length) = (dirText comps.dropLast).length := by
  rcases List.eq_nil_or_concat comps with rfl | ⟨cs, c, rfl⟩
  · rfl
  · rw [List.concat_eq_append] at hcomps ⊢
    have hc : 47 ∉ c := (hcomps c (List.mem_append_right _ List.mem_cons_self)).2.1
    have hlen : (dirText cs).length = (cs.flatMap (· ++ [47])).length + 1 := List.length_cons
    have hback : (dirText (cs ++ [c])).length = (dirText cs).length + c.length + 1 := by
      rw [dirText_concat, List.length_append, List.length_append]
      rfl
    rw [if_pos (by omega), hback, Nat.add_sub_cancel, dirText_concat, List.append_assoc,
      List.append_assoc, skipBack_dirText hc, List.dropLast_concat]

/-- What `..` cuts out: the last component, if there is one, and itself -/
theorem cutOutBytes_parent (rest : List UInt8) :
    cutOutBytes (dirText comps ++ ([46, 46] ++ 47 :: rest)) (dirText comps.dropLast).length
        ((dirText comps).length + 2 + 1 - (dirText comps.dropLast).length) =
      dirText comps.dropLast ++ rest := by
  obtain ⟨last, hlast⟩ : ∃ last, dirText comps = dirText comps.dropLast ++ last := by
    rcases List.eq_nil_or_concat comps with rfl | ⟨cs, c, rfl⟩
    · exact ⟨[], rfl⟩
    · rw [List.concat_eq_append, List.dropLast_concat, dirText_concat, List.append_assoc]
      exact ⟨_, rfl⟩
  have hcut : (dirText comps).length + 2 + 1 - (dirText comps.dropLast).length =
      (last ++ [46, 46, 47]).length := by
    rw [hlast, List.length_append, List.length_append]
    simp only [List.length_cons, List.length_nil]
    omega
  have htext : dirText comps ++ ([46, 46] ++ 47 :: rest) =
      dirText comps.dropLast ++ ((last ++ [46, 46, 47]) ++ rest) := by
    rw [hlast]
    simp
  rw [hcut, htext, cutOutBytes_append]

/-- One round with a component: `.` and `..` are cut out with their slash, and `..` takes the last
component of the finished part with it. -/
theorem chdirLoop_component (fuel : ℕ) {slashes : List UInt8} (hcomps : ∀ c ∈ comps, IsDirName c)
    (hslashes : ∀ b ∈ slashes, b = 47) (hne : c ≠ []) (hc : 47 ∉ c) :
    chdirLoop (fuel + 1) (dirText comps ++ (slashes ++ (c ++ 47 :: rest))) (dirText comps).length
        (dirText comps).length =
      chdirLoop fuel (dirText (stepDir comps c) ++ rest) (dirText (stepDir comps c)).length
        (dirText (stepDir comps c)).length := by
  have hhead : ∀ b ∈ (c ++ 47 :: rest).head?, decide (b = 47) = false := by
    cases c with
    | nil => exact absurd rfl hne
    | cons b c =>
      intro b' hb'
      obtain rfl : b = b' := Option.some_inj.mp hb'
      exact decide_eq_false fun h => hc (h ▸ List.mem_cons_self)
  have hscan : scanBytes (· = 47) (dirText comps ++ (slashes ++ (c ++ 47 :: rest)))
      (dirText comps).length = (dirText comps).length + slashes.length :=
    scanBytes_append (fun b hb => decide_eq_true (hslashes b hb)) hhead
  have hscan' : scanBytes (· ≠ 47) (dirText comps ++ (c ++ 47 :: rest)) (dirText comps).length =
      (dirText comps).length + c.length :=
    scanBytes_append (fun b hb => decide_eq_true fun h : b = 47 => hc (h ▸ hb))
      (fun b hb => by rw [← Option.some_inj.mp hb]; rfl)
  have hlt : (dirText comps).length < (dirText comps ++ (slashes ++ (c ++ 47 :: rest))).length := by
    simp only [List.length_append, List.length_cons]
    omega
  have hbyte : ∀ i, (dirText comps ++ (c ++ 47 :: rest))[(dirText comps).length + i]? =
      (c ++ 47 :: rest)[i]? := by
    intro i
    rw [List.getElem?_append_right (Nat.le_add_right _ _), Nat.add_sub_cancel_left]
  have hdot : (c.length = 1 ∧ (c ++ 47 :: rest)[0]? = some 46) ↔ c = [46] := by
    constructor
    · rintro ⟨hlen, hbyte⟩
      obtain ⟨b, rfl⟩ := List.length_eq_one_iff.mp hlen
      rw [Option.some_inj.mp hbyte]
    · rintro rfl
      exact ⟨rfl, rfl⟩
  have hdots : (c.length = 2 ∧ (c ++ 47 :: rest)[0]? = some 46 ∧ (c ++ 47 :: rest)[1]? = some 46) ↔
      c = [46, 46] := by
    constructor
    · rintro ⟨hlen, hbyte₀, hbyte₁⟩
      obtain ⟨b₀, b₁, rfl⟩ := List.length_eq_two.mp hlen
      rw [Option.some_inj.mp hbyte₀, Option.some_inj.mp hbyte₁]
    · rintro rfl
      exact ⟨rfl, rfl, rfl⟩
  have hbyte₀ := hbyte 0
  rw [Nat.add_zero] at hbyte₀
  simp only [chdirLoop, if_pos hlt, hscan, cutOutBytes_slashes]
  simp only [hscan', Nat.add_sub_cancel_left, hbyte₀, hbyte 1, hdot, hdots, skipBack_parent hcomps,
    stepDir, hne, false_or]
  split_ifs with hone htwo
  · subst hone
    have hcut : (dirText comps).length + ([46] : List UInt8).length + 1 - (dirText comps).length =
        ([46, 47] : List UInt8).length :=
      Nat.add_sub_cancel_left (dirText comps).length 2
    have hcut' := cutOutBytes_append (dirText comps) [46, 47] rest
    rw [hcut, ← hcut']
    rfl
  · subst htwo
    rw [← cutOutBytes_parent]
    rfl
  · have hlen : (dirText (comps ++ [c])).length = (dirText comps).length + c.length + 1 := by
      rw [dirText_concat, List.length_append, List.length_append]
      rfl
    rw [hlen, dirText_concat]
    simp

/-- The last round: nothing but slashes is left. -/
theorem chdirLoop_slashes (fuel : ℕ) (hrest : ∀ b ∈ rest, b = 47) (hfuel : rest.length < fuel) :
    chdirLoop fuel (dirText comps ++ rest) (dirText comps).length (dirText comps).length =
      some (dirText comps) := by
  have hstop : ∀ fuel pos, (dirText comps).length ≤ pos →
      chdirLoop (fuel + 1) (dirText comps) pos pos = some (dirText comps) := by
    intro fuel pos hpos
    rw [chdirLoop, if_neg (Nat.not_lt.mpr hpos)]
  cases fuel with
  | zero => exact absurd hfuel (Nat.not_lt_zero _)
  | succ fuel =>
    cases rest with
    | nil => rw [List.append_nil, hstop fuel _ (Nat.le_refl _)]
    | cons b rest =>
      have hnil : ∀ b ∈ ([] : List UInt8).head?, decide (b = 47) = false := fun b hb => nomatch hb
      have hscan : scanBytes (· = 47) (dirText comps ++ (b :: rest ++ [])) (dirText comps).length =
          (dirText comps).length + (b :: rest).length :=
        scanBytes_append (fun b hb => decide_eq_true (hrest b hb)) hnil
      have hscan' : scanBytes (· ≠ 47) (dirText comps) (dirText comps).length =
        (dirText comps).length := by
        rw [scanBytes, List.drop_length]
        rfl
      have hlt : (dirText comps).length < (dirText comps ++ (b :: rest)).length := by
        rw [List.length_append]
        exact Nat.lt_add_of_pos_right (Nat.succ_pos _)
      have hcut := cutOutBytes_slashes (dirText comps) (b :: rest) []
      rw [List.append_nil] at hscan hcut
      simp only [chdirLoop, if_pos hlt, hscan, hcut]
      simp only [List.append_nil, hscan', Nat.sub_self]
      cases fuel with
      | zero => exact absurd (Nat.lt_of_succ_lt_succ hfuel) (Nat.not_lt_zero _)
      | succ fuel => exact hstop fuel _ (Nat.le_succ _)

/-- **The loop** from a state with a finished part, where both indices are at its end -/
theorem chdirLoop_eq (fuel : ℕ) (hfuel : rest.length < fuel) (hrest : SlashEnds rest)
    (hcomps : ∀ c ∈ comps, IsDirName c) :
    chdirLoop fuel (dirText comps ++ rest) (dirText comps).length (dirText comps).length =
      some (dirText (stepDirs comps rest)) := by
  -- By induction on the rounds: what is left starts with a component, or has none.
  induction fuel generalizing comps rest with
  | zero => exact absurd hfuel (Nat.not_lt_zero _)
  | succ fuel ih =>
    rcases slashEnds_cases hrest with hall | ⟨slashes, c, rest', rfl, hslashes, hne, hc, hrest'⟩
    · have hsame : stepDirs comps rest = comps := by
        rw [← List.append_nil rest, stepDirs_slashes hall]
        rfl
      rw [hsame, chdirLoop_slashes (fuel + 1) hall hfuel]
    · rw [chdirLoop_component fuel hcomps hslashes hne hc, stepDirs_slashes hslashes,
        stepDirs_append hc]
      refine ih ?_ hrest' (stepDir_good hcomps hc)
      simp only [List.length_append, List.length_cons] at hfuel
      omega

/-! ### Calls -/

theorem not_mem_of_mem_split (hc : c ∈ path.splitOnP (· = 47)) : 47 ∉ c := by
  induction path generalizing c with
  | nil =>
    rw [List.splitOnP_nil, List.mem_singleton] at hc
    rw [hc]
    exact List.not_mem_nil
  | cons b path ih =>
    rw [List.splitOnP_cons_eq_if_modifyHead] at hc
    split_ifs at hc with hb
    · rcases List.mem_cons.mp hc with rfl | hc
      · exact List.not_mem_nil
      · exact ih hc
    · obtain ⟨c₀, cs, hsplit⟩ := List.exists_cons_of_ne_nil (List.splitOnP_ne_nil (· = 47) path)
      rw [hsplit, List.modifyHead_cons] at hc
      rcases List.mem_cons.mp hc with rfl | hc
      · refine List.not_mem_cons_of_ne_of_not_mem (fun h => hb (decide_eq_true h.symm)) (ih ?_)
        rw [hsplit]
        exact List.mem_cons_self
      · refine ih ?_
        rw [hsplit]
        exact List.mem_cons_of_mem _ hc

theorem stepDirs_good (hcomps : ∀ c ∈ comps, IsDirName c) :
    ∀ c ∈ stepDirs comps path, IsDirName c := by
  have hfold : ∀ (cs : List (List UInt8)) (comps : List (List UInt8)), (∀ c ∈ cs, 47 ∉ c) →
      (∀ c ∈ comps, IsDirName c) → ∀ c ∈ cs.foldl stepDir comps, IsDirName c := by
    intro cs
    induction cs with
    | nil => exact fun comps _ hcomps => hcomps
    | cons c cs ih =>
      intro comps hcs hcomps
      refine ih (stepDir comps c) (fun c hc => hcs c (List.mem_cons_of_mem _ hc)) ?_
      exact stepDir_good hcomps (hcs c List.mem_cons_self)
  exact hfold _ comps (fun c hc => not_mem_of_mem_split hc) hcomps

/-- A call from a directory in normal form -/
theorem lfsChdir_eq (hcomps : ∀ c ∈ comps, IsDirName c) (path : List UInt8) :
    lfsChdir (dirText comps) path = some (dirText (dirAfter comps (cStr path))) := by
  have hroot : ∀ text : List UInt8, (if (47 :: text).length ≠ 1 then
      chdirLoop ((47 :: text).length + 2) (47 :: text ++ [47]) 1 1 else some (47 :: text)) =
      some (dirText (stepDirs [] text)) := by
    intro text
    by_cases htext : text = []
    · rw [htext]
      rfl
    · have hlen : (47 :: text).length ≠ 1 := by
        rw [List.length_cons]
        exact fun h => htext (List.length_eq_zero_iff.mp (Nat.succ_inj.mp h))
      have hends : SlashEnds (text ++ [47]) := by
        intro b hb
        rw [List.getLast?_concat] at hb
        exact (Option.some_inj.mp hb).symm
      rw [if_pos hlen, ← stepDirs_trailing]
      have hfuel : (text ++ [47]).length < (47 :: text).length + 2 := by
        rw [List.length_append, List.length_singleton, List.length_cons]
        omega
      have hnone : ∀ c ∈ ([] : List (List UInt8)), IsDirName c := fun c hc => nomatch hc
      exact chdirLoop_eq _ hfuel hends hnone
  rw [lfsChdir, dirAfter]
  generalize cStr path = path
  by_cases habs : path.head? = some 47
  · obtain ⟨text, rfl⟩ : ∃ text, path = 47 :: text := by
      cases path with
      | nil => nomatch habs
      | cons b text => exact ⟨text, by rw [Option.some_inj.mp habs]⟩
    rw [if_pos habs, if_pos habs, stepDirs_slash]
    exact hroot text
  · have hdir : stepDirs [] (comps.flatMap (· ++ [47]) ++ path) = stepDirs ([] ++ comps) path :=
      stepDirs_dir comps hcomps
    rw [List.nil_append] at hdir
    rw [if_neg habs, if_neg habs, ← hdir]
    exact hroot _

/-- **The working directory after any calls**, from the root: the normal form of the paths one after
the other. It starts and ends with a slash and has no empty component, `.` or `..`. -/
theorem lfs_chdir_normal (paths : List (List UInt8)) :
    ∃ comps, paths.foldlM lfsChdir [47] = some (dirText comps) ∧
      comps = paths.foldl (fun comps path => dirAfter comps (cStr path)) [] ∧
      (∀ c ∈ comps, IsDirName c) ∧ (dirText comps).head? = some 47 ∧
        (dirText comps).getLast? = some 47 ∧
      lfsChdir [47] [46, 46] = some [47] := by
  have hrun : ∀ (paths comps : List (List UInt8)), (∀ c ∈ comps, IsDirName c) →
      paths.foldlM lfsChdir (dirText comps) =
          some (dirText (paths.foldl (fun comps path => dirAfter comps (cStr path)) comps)) ∧
        ∀ c ∈ paths.foldl (fun comps path => dirAfter comps (cStr path)) comps, IsDirName c := by
    intro paths
    induction paths with
    | nil => exact fun comps hcomps => ⟨rfl, hcomps⟩
    | cons path paths ih =>
      intro comps hcomps
      have hgood : ∀ c ∈ dirAfter comps (cStr path), IsDirName c := by
        rw [dirAfter]
        refine stepDirs_good ?_
        split_ifs
        · exact fun c hc => nomatch hc
        · exact hcomps
      rw [List.foldlM_cons, lfsChdir_eq hcomps, List.foldl_cons]
      exact ih _ hgood
  obtain ⟨htext, hgood⟩ := hrun paths [] fun c hc => nomatch hc
  refine ⟨_, htext, rfl, hgood, rfl, ?_, rfl⟩
  obtain ⟨text, hends⟩ :=
    dirText_ends (paths.foldl (fun comps path => dirAfter comps (cStr path)) [])
  rw [hends, List.getLast?_concat]

end Pycopy
