import Mathlib.Data.List.Perm.Basic

/-!
# Lists and arrays

What a test says about the members of a list is all that matters about it (`any_congr_of_mem`), and
tests that exclude one another split what passes any of them, up to the order (`filter_any_perm`).
What a list keeps from each entry to the later ones tells which entries stand before a given one
(`mem_before`), and which of two entries comes first (`pair_sublist`).
-/

namespace Privatization

variable {α β : Type} {as : List α} {p q : α → Bool}

/-- Whether some member passes depends on the members only. -/
theorem any_congr_of_mem (h : ∀ a ∈ as, p a = q a) : as.any p = as.any q := by
  rw [Bool.eq_iff_iff, List.any_eq_true, List.any_eq_true]
  exact exists_congr fun a => and_congr_right fun ha => by rw [h a ha]

/-- Whether all members pass depends on the members only. -/
theorem all_congr_of_mem (h : ∀ a ∈ as, p a = q a) : as.all p = as.all q := by
  rw [Bool.eq_iff_iff, List.all_eq_true, List.all_eq_true]
  exact forall₂_congr fun a ha => by rw [h a ha]

/-- Tests that exclude each other split what passes either of them. -/
theorem filter_or_perm (h : ∀ a, p a = true → q a = false) :
    (as.filter fun a => p a || q a).Perm (as.filter p ++ as.filter q) := by
  have hsplit := List.filter_append_perm p (as.filter fun a => p a || q a)
  rw [List.filter_filter, List.filter_filter] at hsplit
  refine hsplit.symm.trans (.of_eq ?_)
  congr 1
  · exact List.filter_congr fun a _ => by cases p a <;> rfl
  · refine List.filter_congr fun a _ => ?_
    cases hp : p a with
    | false => rfl
    | true => rw [h a hp]; rfl

/-- The numbers of members that pass tests which exclude each other add up. -/
theorem countP_or (h : ∀ a, p a = true → q a = false) :
    as.countP (fun a => p a || q a) = as.countP p + as.countP q := by
  rw [List.countP_eq_length_filter, (filter_or_perm h).length_eq, List.length_append,
    ← List.countP_eq_length_filter, ← List.countP_eq_length_filter]

/-- Tests of which no two pass together split what passes any of them. -/
theorem filter_any_perm {bs : List β} {q : β → α → Bool}
    (h : bs.Pairwise fun b c => ∀ a, q b a = true → q c a = false) :
    (as.filter fun a => bs.any fun b => q b a).Perm (bs.flatMap fun b => as.filter (q b)) := by
  induction bs with
  | nil => simp
  | cons b bs ih =>
    obtain ⟨hb, hbs⟩ := List.pairwise_cons.mp h
    rw [List.flatMap_cons]
    refine (filter_or_perm fun a ha => ?_).trans ((ih hbs).append_left _)
    -- What passes the first test passes none of the others.
    rw [List.any_eq_false]
    exact fun c hc hca => Bool.false_ne_true ((hb c hc a ha).symm.trans hca)

/-- In a list where `R` holds from each entry to every later one, an entry to which it does not hold
from `a` stands before `a`. -/
theorem mem_before {R : α → α → Prop} {before after : List α} {a b : α} (h : as.Pairwise R)
    (hsplit : as = before ++ a :: after) (hb : b ∈ as) (hne : b ≠ a) (hR : ¬R a b) :
    b ∈ before := by
  subst hsplit
  rcases List.mem_append.mp hb with hb | hb
  · exact hb
  · rcases List.mem_cons.mp hb with rfl | hb
    · exact absurd rfl hne
    · exact absurd (List.rel_of_pairwise_cons (List.pairwise_append.mp h).2.1 hb) hR

/-- In such a list an entry comes before another one if `R` does not hold the other way round. -/
theorem pair_sublist {R : α → α → Prop} {a b : α} (h : as.Pairwise R) (ha : a ∈ as) (hb : b ∈ as)
    (hne : a ≠ b) (hR : ¬R b a) : [a, b].Sublist as := by
  obtain ⟨before, after, rfl⟩ := List.append_of_mem hb
  have hbefore : a ∈ before := mem_before h rfl ha hne hR
  exact (List.singleton_sublist.mpr hbefore).append (List.singleton_sublist.mpr List.mem_cons_self)

/-- At most one entry means that no two entries differ and none comes twice. -/
theorem length_le_one_iff : as.length ≤ 1 ↔ (∀ a ∈ as, ∀ b ∈ as, a = b) ∧ as.Nodup := by
  rcases as with _ | ⟨a, _ | ⟨b, as⟩⟩
  · simp
  · simp
  · refine iff_of_false (by simp) fun ⟨hone, hnodup⟩ => ?_
    have hab : a = b := hone a List.mem_cons_self b (List.mem_cons_of_mem a List.mem_cons_self)
    exact (List.nodup_cons.mp hnodup).1 (hab ▸ List.mem_cons_self)

/-! ## Arrays -/

/-- A record that is written in a new way at one place alone is changed there. -/
theorem mapIdx_eq_modify {as : Array α} {f g : Nat → α → β} {j : Nat} {change : β → β}
    (h : ∀ i a, g i a = if j = i then change (f i a) else f i a) :
    as.mapIdx g = (as.mapIdx f).modify j change := by
  refine Array.ext_getElem? fun i => ?_
  rw [Array.getElem?_modify, Array.getElem?_mapIdx, Array.getElem?_mapIdx]
  cases as[i]? with
  | none => split <;> rfl
  | some a =>
    show some (g i a) = if j = i then some (change (f i a)) else some (f i a)
    rw [h]
    split <;> rfl

end Privatization
