/-!
# Maps that keep insertion order

An `OrderedMap α β` lists its pairs in the order their keys were first inserted; writing a key
again replaces the value and keeps the place. The main facts say what a lookup returns after each
operation.
-/

namespace Privatization

/-- Pairs with pairwise different keys, in the order the keys were first inserted. -/
structure OrderedMap (α β : Type) where
  toList : List (α × β)
  nodup : (toList.map Prod.fst).Nodup

namespace OrderedMap

variable {α β : Type}

/-- The map without any pair. -/
def empty : OrderedMap α β := ⟨[], List.nodup_nil⟩

instance : EmptyCollection (OrderedMap α β) := ⟨empty⟩

instance : Inhabited (OrderedMap α β) := ⟨empty⟩

/-- The keys in order. -/
def keys (m : OrderedMap α β) : List α := m.toList.map Prod.fst

theorem nodup_keys (m : OrderedMap α β) : m.keys.Nodup := m.nodup

/-- The values in order of their keys. -/
def values (m : OrderedMap α β) : List β := m.toList.map Prod.snd

/-- Number of pairs. -/
def size (m : OrderedMap α β) : Nat := m.toList.length

/-- Whether the map has no pair. -/
def isEmpty (m : OrderedMap α β) : Bool := m.toList.isEmpty

variable [DecidableEq α]

/-- The value stored under `a`. -/
def get? (m : OrderedMap α β) (a : α) : Option β :=
  (m.toList.find? (fun p => p.1 = a)).map Prod.snd

/-- Whether some value is stored under `a`. -/
def contains (m : OrderedMap α β) (a : α) : Bool := a ∈ m.keys

/-- Writes `b` over the value stored under `a`, wherever that pair stands. -/
def replace (l : List (α × β)) (a : α) (b : β) : List (α × β) :=
  l.map fun p => if p.1 = a then (p.1, b) else p

/-- Replacing a value leaves the keys where they are. -/
theorem map_fst_replace (l : List (α × β)) (a : α) (b : β) :
    (replace l a b).map Prod.fst = l.map Prod.fst := by
  induction l with
  | nil => rfl
  | cons p l ih =>
    simp only [replace, List.map_cons, List.cons.injEq] at ih ⊢
    exact ⟨by split <;> rfl, ih⟩

/-- Stores `b` under `a`; a key that is new goes to the end. -/
def insert (m : OrderedMap α β) (a : α) (b : β) : OrderedMap α β :=
  if h : a ∈ m.keys then
    ⟨replace m.toList a b, by rw [map_fst_replace]; exact m.nodup⟩
  else
    ⟨m.toList ++ [(a, b)], by
      rw [List.map_append, List.nodup_append]
      exact ⟨m.nodup, by simp, by simp [keys] at h ⊢; grind⟩⟩

/-- Drops the pairs whose key fails `keep`. -/
def filterKeys (m : OrderedMap α β) (keep : α → Bool) : OrderedMap α β :=
  ⟨m.toList.filter (fun p => keep p.1),
    (List.filter_sublist.map Prod.fst).nodup m.nodup⟩

/-- Drops the pair stored under `a`. -/
def erase (m : OrderedMap α β) (a : α) : OrderedMap α β :=
  m.filterKeys (fun b => b ≠ a)

/-- Applies `f` to the value stored under `a`, starting from `init` where there is none. -/
def update (m : OrderedMap α β) (a : α) (init : β) (f : β → β) : OrderedMap α β :=
  m.insert a (f ((m.get? a).getD init))

/-- Applies `f` to the value stored under `a`, if there is one. -/
def modify (m : OrderedMap α β) (a : α) (f : β → β) : OrderedMap α β :=
  match m.get? a with
  | some b => m.insert a (f b)
  | none => m

/-! ### Lookups -/

@[simp] theorem get?_empty (a : α) : (∅ : OrderedMap α β).get? a = none := rfl

theorem get?_insert_self (m : OrderedMap α β) (a : α) (b : β) : (m.insert a b).get? a = some b := by
  unfold insert
  split
  next h =>
    simp only [get?, replace, List.find?_map, Option.map_map, Option.map_eq_some_iff]
    obtain ⟨p, hp, rfl⟩ := List.mem_map.mp h
    have hsome : (m.toList.find? (fun q => decide (q.1 = p.1))).isSome := by
      rw [List.find?_isSome]; exact ⟨p, hp, by simp⟩
    obtain ⟨q, hq⟩ := Option.isSome_iff_exists.mp hsome
    refine ⟨q, ?_, ?_⟩
    · rw [← hq]; congr 1; funext r; simp only [Function.comp]; split <;> simp_all
    · have := List.find?_some hq; simp_all
  next h =>
    have hnone : m.toList.find? (fun q => decide (q.1 = a)) = none := by
      rw [List.find?_eq_none]; intro q hq hqa
      exact h (List.mem_map.mpr ⟨q, hq, by simpa using hqa⟩)
    simp [get?, List.find?_append, hnone]

theorem get?_insert_of_ne (m : OrderedMap α β) {a c : α} (b : β) (hne : c ≠ a) :
    (m.insert a b).get? c = m.get? c := by
  unfold insert
  split
  next h =>
    simp only [get?, replace, List.find?_map, Option.map_map]
    have hp : ((fun p : α × β => decide (p.1 = c)) ∘ fun p => if p.1 = a then (p.1, b) else p)
        = fun p => decide (p.1 = c) := by
      funext r; simp only [Function.comp]; split <;> simp_all
    rw [hp]
    cases hf : m.toList.find? (fun p => decide (p.1 = c)) with
    | none => rfl
    | some q =>
      have hq := List.find?_some hf
      have hqa : q.1 ≠ a := by intro e; simp_all
      simp [hqa]
  next h =>
    simp [get?, List.find?_append, Ne.symm hne]

/-- A new key goes to the end, and leaves the other pairs as they are. -/
theorem toList_insert_of_new {m : OrderedMap α β} {a : α} (b : β) (h : a ∉ m.keys) :
    (m.insert a b).toList = m.toList ++ [(a, b)] := by
  unfold insert
  rw [dif_neg h]

/-- A new key comes last. -/
theorem keys_insert_of_new {m : OrderedMap α β} {a : α} (b : β) (h : a ∉ m.keys) :
    (m.insert a b).keys = m.keys ++ [a] := by
  unfold keys
  rw [toList_insert_of_new b h, List.map_append, List.map_singleton]

/-- A key that is there keeps its place. -/
theorem keys_insert_of_mem {m : OrderedMap α β} {a : α} (b : β) (h : a ∈ m.keys) :
    (m.insert a b).keys = m.keys := by
  unfold insert
  rw [dif_pos h]
  exact map_fst_replace m.toList a b

/-- The pairs are what a lookup finds. -/
theorem mem_toList_iff {m : OrderedMap α β} {a : α} {b : β} :
    (a, b) ∈ m.toList ↔ m.get? a = some b := by
  obtain ⟨l, hnodup⟩ := m
  show (a, b) ∈ l ↔ (l.find? fun p => decide (p.1 = a)).map Prod.snd = some b
  induction l with
  | nil => simp
  | cons p l ih =>
    obtain ⟨hp, hnodup⟩ := List.nodup_cons.mp hnodup
    by_cases hpa : p.1 = a
    · -- The key does not occur again.
      have hout : (a, b) ∉ l := fun h => hp (List.mem_map.mpr ⟨(a, b), h, hpa.symm⟩)
      rw [List.find?_cons_of_pos (by simpa using hpa), Option.map_some, Option.some.injEq,
        List.mem_cons]
      constructor
      · intro h
        exact congrArg Prod.snd (h.resolve_right hout).symm
      · intro h
        exact .inl (Prod.ext hpa.symm h.symm)
    · have hne : (a, b) ≠ p := fun h => hpa (congrArg Prod.fst h).symm
      rw [List.find?_cons_of_neg (by simpa using hpa), ← ih hnodup, List.mem_cons]
      exact ⟨fun h => h.resolve_left hne, .inr⟩

/-- The keys are what a lookup finds something under. -/
theorem mem_keys_iff {m : OrderedMap α β} {a : α} : a ∈ m.keys ↔ ∃ b, m.get? a = some b := by
  constructor
  · intro h
    obtain ⟨p, hp, rfl⟩ := List.mem_map.mp h
    have hsome : (m.toList.find? fun q => decide (q.1 = p.1)).isSome := by
      rw [List.find?_isSome]
      exact ⟨p, hp, decide_eq_true rfl⟩
    obtain ⟨q, hq⟩ := Option.isSome_iff_exists.mp hsome
    exact ⟨q.2, by rw [get?, hq, Option.map_some]⟩
  · rintro ⟨b, h⟩
    obtain ⟨p, hp, -⟩ := Option.map_eq_some_iff.mp h
    have hpa : p.1 = a := by simpa using List.find?_some hp
    exact List.mem_map.mpr ⟨p, List.mem_of_find?_eq_some hp, hpa⟩

/-- A pair of the map after an insertion is the new one or an old one. -/
theorem mem_toList_insert {m : OrderedMap α β} {a : α} {b : β} {p : α × β}
    (h : p ∈ (m.insert a b).toList) : p = (a, b) ∨ p ∈ m.toList := by
  obtain ⟨c, d⟩ := p
  by_cases hne : c = a
  · rw [hne, mem_toList_iff, get?_insert_self] at h
    exact .inl (Prod.ext hne (Option.some.inj h).symm)
  · rw [mem_toList_iff, get?_insert_of_ne m b hne] at h
    exact .inr (mem_toList_iff.mpr h)

/-- The values are what a lookup finds under the keys. -/
theorem map_get?_keys (m : OrderedMap α β) : m.keys.map m.get? = m.values.map some := by
  unfold values keys
  rw [List.map_map, List.map_map]
  exact List.map_congr_left fun p hp => mem_toList_iff.mp hp

theorem contains_eq (m : OrderedMap α β) (a : α) : m.contains a = (m.get? a).isSome := by
  unfold contains
  rw [Bool.eq_iff_iff, decide_eq_true_iff, mem_keys_iff, Option.isSome_iff_exists]

theorem mem_keys_insert {m : OrderedMap α β} {a c : α} {b : β} :
    c ∈ (m.insert a b).keys ↔ c = a ∨ c ∈ m.keys := by
  rw [mem_keys_iff, mem_keys_iff]
  by_cases hne : c = a
  · rw [hne, get?_insert_self]
    exact ⟨fun _ => .inl rfl, fun _ => ⟨b, rfl⟩⟩
  · rw [get?_insert_of_ne m b hne]
    exact ⟨.inr, fun h => h.resolve_left hne⟩

/-- A filter on keys leaves the values of those it keeps. -/
theorem get?_filterKeys (m : OrderedMap α β) (keep : α → Bool) (a : α) :
    (m.filterKeys keep).get? a = if keep a then m.get? a else none := by
  unfold get? filterKeys
  rw [List.find?_filter]
  split
  next h =>
    congr 2
    funext p
    by_cases hp : p.1 = a
    · simp [hp, h]
    · simp [hp]
  next h =>
    rw [Option.map_eq_none_iff, List.find?_eq_none]
    intro p _ hp
    obtain ⟨hkeep, hpa⟩ := of_decide_eq_true hp
    exact h (of_decide_eq_true hpa ▸ hkeep)

theorem get?_erase_of_ne (m : OrderedMap α β) {a c : α} (hne : c ≠ a) :
    (m.erase a).get? c = m.get? c := by
  rw [erase, get?_filterKeys, if_pos (decide_eq_true hne)]

theorem get?_update_self (m : OrderedMap α β) (a : α) (init : β) (f : β → β) :
    (m.update a init f).get? a = some (f ((m.get? a).getD init)) :=
  get?_insert_self ..

theorem get?_update_of_ne (m : OrderedMap α β) {a c : α} (init : β) (f : β → β) (hne : c ≠ a) :
    (m.update a init f).get? c = m.get? c :=
  get?_insert_of_ne m _ hne

/-- Changing a value keeps the keys and their order. -/
theorem keys_modify (m : OrderedMap α β) (a : α) (f : β → β) : (m.modify a f).keys = m.keys := by
  unfold modify
  split
  next b hb => exact keys_insert_of_mem _ (mem_keys_iff.mpr ⟨b, hb⟩)
  next => rfl

/-- Changing the value under a key changes what is found under that key alone. -/
theorem get?_modify (m : OrderedMap α β) (a c : α) (f : β → β) :
    (m.modify a f).get? c = if c = a then (m.get? c).map f else m.get? c := by
  unfold modify
  split
  next b hb =>
    by_cases hne : c = a
    · rw [if_pos hne, hne, get?_insert_self, hb, Option.map_some]
    · rw [if_neg hne, get?_insert_of_ne m _ hne]
  next hb =>
    by_cases hne : c = a
    · rw [if_pos hne, hne, hb, Option.map_none]
    · rw [if_neg hne]

end OrderedMap

end Privatization
