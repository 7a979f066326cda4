import Privatization.Classification.Ledger
import Privatization.Proofs.Guarded.Basic

/-!
# Forwarding links

Entries lie in an array of cells. An entry that is folded into another keeps a link to it, and
whoever knows the old entry follows links to the one that speaks for both now. In a `Linked` array
every climb along links ends after fewer turns than there are cells: a fold makes climbs longer by at
most one link, and it uses up one of the entries without link, of which one is always left.
-/

namespace Privatization.Guarded

/-- A tracked piece of memory, with a link to the entry it was folded into. -/
structure Cell where
  memory : EstimateId
  value : Trait
  forward : Option EntryId
  deriving DecidableEq

section Cells

variable (cells : Array Cell)

/-- The cell of an entry. -/
def cell (id : EntryId) : Guarded Cell := found cells[id.index]?

/-- The entry that speaks for an entry, at the end of the links. -/
def resolve (id : EntryId) : Guarded EntryId :=
  loop (fun id => do
    match (← cell cells id).forward with
    | some next => return .inl next
    | none => return .inr id) cells.size id

/-- The cells with that of an entry changed. -/
def write (id : EntryId) (f : Cell → Cell) : Guarded (Array Cell) := do
  let c ← cell cells id
  return cells.setIfInBounds id.index (f c)

/-- The cells with that of the entry changed that speaks for `id`. -/
def change (id : EntryId) (f : Cell → Cell) : Guarded (Array Cell) := do
  write cells (← resolve cells id) f

/-- The cells after `source` has been folded into `target`. -/
def foldCells (source target : EntryId) : Guarded (Array Cell) := do
  let source ← resolve cells source
  let target ← resolve cells target
  if source = target then return cells
  let folded ← cell cells source
  let cells ← write cells target fun c => { c with value := c.value.meet folded.value }
  write cells source fun c => { c with forward := some target }

/-- The links of the cells. -/
def linksOf : Array (Option EntryId) := cells.map (·.forward)

end Cells

/-! ## Climbs along links -/

/-- `last` is reached from an entry along so many links, and has none itself. -/
inductive Climb (links : Array (Option EntryId)) : EntryId → EntryId → Nat → Prop where
  | top {id : EntryId} (h : links[id.index]? = some none) : Climb links id id 0
  | up {id next last : EntryId} {n : Nat} (h : links[id.index]? = some (some next))
    (rest : Climb links next last n) : Climb links id last (n + 1)

/-- How many entries have no link. -/
def heads (links : Array (Option EntryId)) : Nat := links.countP (·.isNone)

/-- Climbs from `id` end at `lead id`, and with each of them the entries without link leave room in
the array. A number outside of the array leads itself. -/
structure Linked (links : Array (Option EntryId)) (lead : EntryId → EntryId) : Prop where
  climbs : ∀ id : EntryId, id.index < links.size →
    ∃ n, Climb links id (lead id) n ∧ n + heads links ≤ links.size
  beyond : ∀ id : EntryId, links.size ≤ id.index → lead id = id

variable {links : Array (Option EntryId)} {lead : EntryId → EntryId} {id last : EntryId} {n : Nat}

/-- A climb ends at an entry without link. -/
theorem Climb.head (h : Climb links id last n) : links[last.index]? = some none := by
  induction h with
  | top h => exact h
  | up _ _ ih => exact ih

/-- From such an entry it goes nowhere. -/
theorem Climb.eq_of_head (h : Climb links id last n) (hid : links[id.index]? = some none) :
    last = id := by
  cases h with
  | top => rfl
  | up h =>
    rw [hid] at h
    cases h

namespace Linked

/-- The leader of an entry has no link. -/
theorem head (h : Linked links lead) (hid : id.index < links.size) :
    links[(lead id).index]? = some none := by
  obtain ⟨n, hclimb, -⟩ := h.climbs id hid
  exact hclimb.head

/-- The leader of an entry is in the array. -/
theorem lead_lt (h : Linked links lead) (hid : id.index < links.size) :
    (lead id).index < links.size :=
  (Array.getElem?_eq_some_iff.mp (h.head hid)).1

/-- An entry without link leads itself. -/
theorem lead_head (h : Linked links lead) (hid : links[id.index]? = some none) : lead id = id := by
  obtain ⟨n, hclimb, -⟩ := h.climbs id (Array.getElem?_eq_some_iff.mp hid).1
  exact hclimb.eq_of_head hid

/-- A leader leads itself. -/
theorem lead_lead (h : Linked links lead) (id : EntryId) : lead (lead id) = lead id := by
  by_cases hid : id.index < links.size
  · exact h.lead_head (h.head hid)
  · have hself := h.beyond id (by omega)
    rw [hself, hself]

/-- A climb takes fewer turns than there are entries. -/
theorem exists_climb_lt (h : Linked links lead) (hid : id.index < links.size) :
    ∃ n < links.size, Climb links id (lead id) n := by
  obtain ⟨n, hclimb, hroom⟩ := h.climbs id hid
  -- The end of the climb has no link.
  have hhead : 0 < heads links :=
    Array.countP_pos_iff.mpr ⟨none, Array.mem_iff_getElem?.mpr ⟨_, h.head hid⟩, rfl⟩
  exact ⟨n, by omega, hclimb⟩

/-- A new entry leads itself. -/
theorem push (h : Linked links lead) : Linked (links.push none) lead := by
  have hself : Climb (links.push none) ⟨links.size⟩ ⟨links.size⟩ 0 := .top (by simp)
  have hkept {id last : EntryId} {n : Nat} (hclimb : Climb links id last n) :
      Climb (links.push none) id last n := by
    have hold {id : EntryId} {o : Option EntryId} (ho : links[id.index]? = some o) :
        (links.push none)[id.index]? = some o := by
      have hlt := (Array.getElem?_eq_some_iff.mp ho).1
      rw [Array.getElem?_push, if_neg (by omega), ho]
    -- Links below the new entry stay, and climbs take none but those.
    induction hclimb with
    | top h => exact .top (hold h)
    | up h _ ih => exact .up (hold h) ih
  have hheads : heads (links.push none) = heads links + 1 := by
    rw [heads, Array.countP_push]
    rfl
  have hle : heads links ≤ links.size := Array.countP_le_size
  constructor
  · intro id hid
    rw [Array.size_push] at hid
    rw [hheads, Array.size_push]
    by_cases hnew : id.index < links.size
    · obtain ⟨n, hclimb, hroom⟩ := h.climbs id hnew
      exact ⟨n, hkept hclimb, by omega⟩
    · obtain rfl : id = ⟨links.size⟩ := congrArg EntryId.mk (by omega : id.index = links.size)
      rw [h.beyond ⟨links.size⟩ (Nat.le_refl _)]
      exact ⟨0, hself, by omega⟩
  · intro id hid
    rw [Array.size_push] at hid
    exact h.beyond id (by omega)

section Fold

variable {source target : EntryId}

/-- Climbs that ended at the source go on to the target. -/
theorem climb_fold (hs : links[source.index]? = some none) (ht : links[target.index]? = some none)
    (hne : source ≠ target) (hclimb : Climb links id last n) :
    ∃ m ≤ n + 1, Climb (links.setIfInBounds source.index (some target)) id
      (if last = source then target else last) m := by
  have hlt := (Array.getElem?_eq_some_iff.mp hs).1
  have hother {id : EntryId} (hid : id ≠ source) :
      (links.setIfInBounds source.index (some target))[id.index]? = links[id.index]? := by
    rw [Array.getElem?_setIfInBounds, if_neg fun h => hid (congrArg EntryId.mk h).symm]
  -- The source had no link, so climbs meet it only at their end.
  induction hclimb with
  | @top id h =>
    by_cases hid : id = source
    · rw [if_pos hid, hid]
      refine ⟨1, Nat.le_refl _, .up ?_ (.top ((hother hne.symm).trans ht))⟩
      rw [Array.getElem?_setIfInBounds, if_pos rfl, if_pos hlt]
    · rw [if_neg hid]
      exact ⟨0, Nat.zero_le _, .top ((hother hid).trans h)⟩
  | @up id next last n h rest ih =>
    have hid : id ≠ source := by
      rintro rfl
      rw [hs] at h
      cases h
    obtain ⟨m, hm, hclimb⟩ := ih
    exact ⟨m + 1, by omega, .up ((hother hid).trans h) hclimb⟩

/-- A fold uses up an entry without link. -/
theorem heads_fold (hs : links[source.index]? = some none) (target : EntryId) :
    heads (links.setIfInBounds source.index (some target)) + 1 = heads links := by
  obtain ⟨hlt, hnone⟩ := Array.getElem?_eq_some_iff.mp hs
  have hpos : 0 < heads links :=
    Array.countP_pos_iff.mpr ⟨none, Array.mem_iff_getElem?.mpr ⟨_, hs⟩, rfl⟩
  rw [heads, Array.setIfInBounds_def, dif_pos hlt, Array.countP_set hlt, hnone]
  show heads links - 1 + 0 + 1 = heads links
  omega

/-- After a fold, what the source led follows the target, and climbs leave room for the entries
without link. -/
theorem fold (h : Linked links lead) (hs : links[source.index]? = some none)
    (ht : links[target.index]? = some none) (hne : source ≠ target) :
    Linked (links.setIfInBounds source.index (some target))
      fun id => if lead id = source then target else lead id := by
  have hlt := (Array.getElem?_eq_some_iff.mp hs).1
  have hheads := heads_fold hs target
  constructor
  · intro id hid
    rw [Array.size_setIfInBounds] at hid ⊢
    obtain ⟨n, hclimb, hroom⟩ := h.climbs id hid
    obtain ⟨m, hm, hfold⟩ := climb_fold hs ht hne hclimb
    exact ⟨m, hfold, by omega⟩
  · intro id hid
    rw [Array.size_setIfInBounds] at hid
    have hself := h.beyond id hid
    have hid' : id ≠ source := by
      rintro rfl
      omega
    rw [hself, if_neg hid']

end Fold

end Linked

/-! ## Following links -/

section Following

variable {cells : Array Cell}

/-- Following links takes as many turns as the climb has links, and ends where it ends. -/
theorem Climb.loop_eq (hclimb : Climb (linksOf cells) id last n) {turns : Nat}
    (hturns : n < turns) :
    loop (fun id => do
      match (← cell cells id).forward with
      | some next => return .inl next
      | none => return .inr id) turns id = .ok last := by
  have hcell {id : EntryId} {o : Option EntryId} (ho : (linksOf cells)[id.index]? = some o) :
      ∃ c, cell cells id = .ok c ∧ c.forward = o := by
    rw [linksOf, Array.getElem?_map, Option.map_eq_some_iff] at ho
    obtain ⟨c, hc, rfl⟩ := ho
    exact ⟨c, by rw [cell, hc]; rfl, rfl⟩
  -- Every turn goes up one link.
  induction hclimb generalizing turns with
  | top h =>
    obtain ⟨c, hc, hnone⟩ := hcell h
    obtain ⟨k, rfl⟩ := Nat.exists_eq_add_of_lt hturns
    rw [loop, hc, ok_bind, hnone]
    rfl
  | up h rest ih =>
    obtain ⟨c, hc, hnext⟩ := hcell h
    obtain ⟨k, rfl⟩ := Nat.exists_eq_add_of_lt hturns
    rw [loop, hc, ok_bind, hnext]
    exact ih (by omega)

/-- There is a link or none for every cell. -/
theorem size_linksOf : (linksOf cells).size = cells.size := Array.size_map

/-- An entry in range is resolved to its leader. -/
theorem resolve_eq (h : Linked (linksOf cells) lead) (hid : id.index < cells.size) :
    resolve cells id = .ok (lead id) := by
  obtain ⟨n, hn, hclimb⟩ := h.exists_climb_lt (size_linksOf ▸ hid)
  exact hclimb.loop_eq (size_linksOf ▸ hn)

/-- The entry that speaks for another has a cell, and no link. -/
theorem exists_head (h : Linked (linksOf cells) lead) (hid : id.index < cells.size) :
    ∃ c, cells[(lead id).index]? = some c ∧ c.forward = none := by
  have hhead := h.head (size_linksOf.symm ▸ hid)
  rw [linksOf, Array.getElem?_map] at hhead
  exact Option.map_eq_some_iff.mp hhead

/-- An entry that has a cell can be written. -/
theorem write_eq {c : Cell} (hc : cells[id.index]? = some c) (f : Cell → Cell) :
    write cells id f = .ok (cells.setIfInBounds id.index (f c)) := by
  rw [write, cell, hc]
  rfl

/-- A cell that is written has its link written. -/
theorem linksOf_set (i : Nat) (c : Cell) : linksOf (cells.setIfInBounds i c)
    = (linksOf cells).setIfInBounds i c.forward := Array.map_setIfInBounds

/-- A change that keeps the link of a cell keeps all links. -/
theorem linksOf_set_of_forward {i : Nat} {c c' : Cell} (hc : cells[i]? = some c)
    (hforward : c'.forward = c.forward) :
    linksOf (cells.setIfInBounds i c') = linksOf cells := by
  have hlink : (linksOf cells)[i]? = some c'.forward := by
    rw [linksOf, Array.getElem?_map, hc, hforward]
    rfl
  obtain ⟨hi, -⟩ := Array.getElem?_eq_some_iff.mp hlink
  rw [linksOf_set]
  refine Array.ext_getElem? fun j => ?_
  rw [Array.getElem?_setIfInBounds]
  split
  next hij => rw [← hij, hlink]
  next => rfl

/-! ## Folding -/

/-- The cells after the source, whose cell is `cs`, was folded into the target, whose cell is
`ct`. -/
def merged (cells : Array Cell) (source target : EntryId) (cs ct : Cell) : Array Cell :=
  (cells.setIfInBounds target.index { ct with value := ct.value.meet cs.value }).setIfInBounds
    source.index { cs with forward := some target }

variable {source target : EntryId} {cs ct : Cell}

/-- A fold keeps the number of cells. -/
theorem size_merged : (merged cells source target cs ct).size = cells.size := by
  rw [merged, Array.size_setIfInBounds, Array.size_setIfInBounds]

/-- Of the links, a fold writes that of the source. -/
theorem linksOf_merged (hct : cells[target.index]? = some ct) :
    linksOf (merged cells source target cs ct)
      = (linksOf cells).setIfInBounds source.index (some target) := by
  have hnarrow : linksOf (cells.setIfInBounds target.index
      { ct with value := ct.value.meet cs.value }) = linksOf cells :=
    linksOf_set_of_forward hct rfl
  rw [merged, linksOf_set, hnarrow]

/-- The target is written first, which leaves the cell of the source as it was. -/
theorem getElem?_narrowed (hcs : cells[source.index]? = some cs) (hne : source ≠ target)
    (c : Cell) : (cells.setIfInBounds target.index c)[source.index]? = some cs := by
  rw [Array.getElem?_setIfInBounds, if_neg fun h => hne (congrArg EntryId.mk h).symm, hcs]

/-- Folding an entry into its own group changes nothing. -/
theorem foldCells_eq_self (h : Linked (linksOf cells) lead) (hs : source.index < cells.size)
    (ht : target.index < cells.size) (heq : lead source = lead target) :
    foldCells cells source target = .ok cells := by
  rw [foldCells, resolve_eq h hs, ok_bind, resolve_eq h ht, ok_bind, if_pos heq]
  rfl

/-- Folding an entry into another group merges the cells of the leaders. -/
theorem foldCells_eq (h : Linked (linksOf cells) lead) (hs : source.index < cells.size)
    (ht : target.index < cells.size) (hne : lead source ≠ lead target) :
    ∃ cs ct, cells[(lead source).index]? = some cs ∧ cells[(lead target).index]? = some ct
      ∧ foldCells cells source target = .ok (merged cells (lead source) (lead target) cs ct) := by
  obtain ⟨cs, hcs, -⟩ := exists_head h hs
  obtain ⟨ct, hct, -⟩ := exists_head h ht
  refine ⟨cs, ct, hcs, hct, ?_⟩
  rw [foldCells, resolve_eq h hs, ok_bind, resolve_eq h ht, ok_bind, if_neg hne, cell, hcs,
    found_some, ok_bind, write_eq hct, ok_bind, write_eq (getElem?_narrowed hcs hne _), merged]

end Following

end Privatization.Guarded
