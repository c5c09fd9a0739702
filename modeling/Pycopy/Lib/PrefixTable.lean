import Mathlib.Data.List.Infix
import Mathlib.Data.List.Pairwise

/-!
# Longest prefix by first match

A table of keys is searched from its front for a key that is a prefix of the given word. If every
key comes before its proper prefixes, the first match is the longest
one. -/

namespace PrefixTable

variable {α : Type*}

/-- Every key comes before its proper prefixes. -/
def Ordered (keys : List (List α)) : Prop :=
  keys.Pairwise fun k k' => k <+: k' → k = k'

theorem ordered_nil : Ordered ([] : List (List α)) := List.Pairwise.nil

theorem Ordered.sublist {keys keys' : List (List α)} (h : Ordered keys)
    (hsub : keys'.Sublist keys) : Ordered keys' :=
  List.Pairwise.sublist hsub h

/-- A key may be put behind those that are not prefixes of it and before those that it is not a
prefix of. -/
theorem Ordered.insert {before after : List (List α)} {k : List α}
    (h : Ordered (before ++ after)) (hbefore : ∀ e ∈ before, e <+: k → e = k)
    (hafter : ∀ e ∈ after, k <+: e → k = e) : Ordered (before ++ k :: after) := by
  obtain ⟨hb, ha, hba⟩ := List.pairwise_append.mp h
  refine List.pairwise_append.mpr ⟨hb, List.pairwise_cons.mpr ⟨hafter, ha⟩, fun e he e' he' => ?_⟩
  rcases List.mem_cons.mp he' with rfl | he'
  · exact hbefore e he
  · exact hba e he e' he'

/-- **The first match is the longest one.** -/
theorem Ordered.length_le {before after : List (List α)} {k word : List α}
    (h : Ordered (before ++ k :: after)) (hk : k <+: word) (hbefore : ∀ e ∈ before, ¬e <+: word)
    {e : List α} (he : e ∈ before ++ k :: after) (hword : e <+: word) : e.length ≤ k.length := by
  obtain ⟨-, hkafter, -⟩ := List.pairwise_append.mp h
  rcases List.mem_append.mp he with he | he
  · exact absurd hword (hbefore e he)
  · rcases List.mem_cons.mp he with rfl | he
    · exact Nat.le_refl _
    · rcases Nat.le_total e.length k.length with hle | hle
      · exact hle
      · have hpre : k <+: e := List.prefix_of_prefix_length_le hk hword hle
        rw [(List.pairwise_cons.mp hkafter).1 e he hpre]

end PrefixTable
