import Mathlib.Logic.Relation
import Privatization.Proofs.Nest.Linked

/-!
# What every loop nest keeps

Whatever is added and whatever is refused, the loops of a nest are `WellNested`: the header of a
loop is one of its blocks, and a loop inside another has no block that the other one has not, and
the next depth. So the records that are built are `Linked`, with each loop listed in one place, and
what lies around a loop is told by its depth (`Linked.surrounded`). The order of a nest comes to the
loops from the outside in, and to siblings in the order they were added (`visits_preOrder`).
-/

namespace Privatization

namespace LoopNest

/-! ## Specification -/

namespace Records

variable (r : Records)

/-- What the records of a nest have to say about each other. -/
structure Linked : Prop where
  numbered : ∀ (i : Nat) (l : LoopRecord), r.loops[i]? = some l → l.id = ⟨i⟩
  header : ∀ (i : Nat) (l : LoopRecord), r.loops[i]? = some l → l.header ∈ l.blocks
  outermost : ∀ (i : Nat) (l : LoopRecord), r.loops[i]? = some l → l.parent = none → l.depth = 1
  nested : ∀ (i : Nat) (l : LoopRecord) (p : LoopId), r.loops[i]? = some l → l.parent = some p →
    p.index < i ∧ ∃ outer : LoopRecord, r.loops[p.index]? = some outer
      ∧ (∀ b ∈ l.blocks, b ∈ outer.blocks) ∧ l.depth = outer.depth + 1
  /-- A loop lists the loops directly inside it once each, and nothing else. -/
  children : ∀ (j : Nat) (m : LoopRecord) (c : LoopId), r.loops[j]? = some m →
    m.children.count c = if r.parent? c = some ⟨j⟩ then 1 else 0
  /-- The nest lists the loops without parent once each, and nothing else. -/
  topLevel : ∀ c, r.topLevel.count c
    = if (r.loops[c.index]?).map (·.parent) = some none then 1 else 0

/-- `a` is the parent of `b`, or lies around that. -/
def Around (a b : LoopId) : Prop := Relation.TransGen (fun c p => r.parent? c = some p) b a

/-- `a` is `b` or lies around it. -/
def AtOrAround (a b : LoopId) : Prop := Relation.ReflTransGen (fun c p => r.parent? c = some p) b a

/-- What a loop has to do with the loops around it. -/
structure Surrounded (id : LoopId) (l : LoopRecord) : Prop where
  /-- It is one deeper than there are such loops. -/
  depth : ∃ around : List LoopId, around.Nodup ∧ (∀ a, a ∈ around ↔ r.Around a id)
    ∧ l.depth = around.length + 1
  /-- Its blocks belong to all of them. -/
  blocks : ∀ a, r.Around a id →
    ∃ outer : LoopRecord, r.loops[a.index]? = some outer ∧ ∀ b ∈ l.blocks, b ∈ outer.blocks

/-- A list of all loops, outer loops before the loops they contain, siblings in the order they were
added. -/
structure Visits (order : List LoopId) : Prop where
  nodup : order.Nodup
  mem_iff : ∀ id, id ∈ order ↔ (r.loops[id.index]?).isSome = true
  /-- A loop comes before all loops inside it. -/
  inside : ∀ a b, r.Around a b → [a, b].Sublist order
  /-- All of an earlier sibling comes before all of a later one. -/
  siblings : ∀ (i j : Nat) (l m : LoopRecord), r.loops[i]? = some l → r.loops[j]? = some m →
    l.parent = m.parent → i < j →
      ∀ a b, r.AtOrAround ⟨i⟩ a → r.AtOrAround ⟨j⟩ b → [a, b].Sublist order

end Records

/-! ## One addition -/

/-- What the loops of every nest satisfy. -/
structure WellNested (n : LoopNest) : Prop where
  numbered : ∀ (i : Nat) (l : Loop), n.loops[i]? = some l → l.id = ⟨i⟩
  header : ∀ (i : Nat) (l : Loop), n.loops[i]? = some l → l.header ∈ l.blocks
  outermost : ∀ (i : Nat) (l : Loop), n.loops[i]? = some l → l.parent = none → l.depth = 1
  nested : ∀ (i : Nat) (l : Loop) (p : LoopId), n.loops[i]? = some l → l.parent = some p →
    ∃ outer : Loop, n.loops[p.index]? = some outer ∧ (∀ b ∈ l.blocks, b ∈ outer.blocks)
      ∧ l.depth = outer.depth + 1

variable {n n' : LoopNest} {s : LoopSpec} {id a b : LoopId} {depth : Nat}

/-- Without loops there is nothing to keep. -/
theorem wellNested_empty : WellNested ∅ where
  numbered _ _ h := nomatch h
  header _ _ h := nomatch h
  outermost _ _ h := nomatch h
  nested _ _ _ h := nomatch h

/-- The depth of a new loop tells where it is put. -/
theorem depthUnder_eq_ok (h : n.depthUnder s = .ok depth) :
    (s.parent = none → depth = 1) ∧ ∀ p, s.parent = some p →
      ∃ outer : Loop, n.loops[p.index]? = some outer ∧ (∀ b ∈ s.blocks, b ∈ outer.blocks)
        ∧ depth = outer.depth + 1 := by
  unfold depthUnder at h
  cases hp : s.parent with
  | none =>
    rw [hp] at h
    cases h
    exact ⟨fun _ => rfl, fun p hp => nomatch hp⟩
  | some p =>
    rw [hp] at h
    refine ⟨(nomatch ·), ?_⟩
    intro q hq
    obtain rfl := Option.some.inj hq
    dsimp only at h
    split at h
    · cases h
    next outer houter =>
      split at h
      next hsub =>
        cases h
        refine ⟨outer, houter, fun b hb => ?_, rfl⟩
        exact of_decide_eq_true (List.all_eq_true.mp hsub b hb)
      next => cases h

/-- A loop is new or was there before. -/
theorem loops_of_add (h : n.add s = .ok (n', id)) {i : Nat} {l : Loop}
    (hl : n'.loops[i]? = some l) : n.loops[i]? = some l
      ∨ i = n.loops.size ∧ ∃ depth, n.depthUnder s = .ok depth ∧ l = s.loop ⟨i⟩ depth := by
  obtain ⟨-, rfl, depth, hdepth, hloops⟩ := exists_depth_of_add h
  rw [hloops, Array.getElem?_push] at hl
  split at hl
  next hi =>
    cases hl
    exact .inr ⟨hi, depth, hdepth, hi ▸ rfl⟩
  next => exact .inl hl

/-- An addition that is accepted keeps a nest well nested: the new loop was checked, and the others
stand as they stood. -/
theorem WellNested.add (w : n.WellNested) (h : n.add s = .ok (n', id)) : n'.WellNested := by
  obtain ⟨hheader, -, _, -, hloops⟩ := exists_depth_of_add h
  -- The loop around another one is there before it.
  have hkept {i : Nat} {l : Loop} (hl : n.loops[i]? = some l) : n'.loops[i]? = some l := by
    rw [hloops, Array.getElem?_push_lt (Array.getElem?_eq_some_iff.mp hl).1]
    exact (Array.getElem?_eq_getElem _).symm.trans hl
  constructor
  case numbered =>
    intro i l hl
    obtain hl | ⟨-, d, -, rfl⟩ := loops_of_add h hl
    · exact w.numbered i l hl
    · rfl
  case header =>
    intro i l hl
    obtain hl | ⟨-, d, -, rfl⟩ := loops_of_add h hl
    · exact w.header i l hl
    · exact hheader
  case outermost =>
    intro i l hl
    obtain hl | ⟨-, d, hd, rfl⟩ := loops_of_add h hl
    · exact w.outermost i l hl
    · exact (depthUnder_eq_ok hd).1
  case nested =>
    intro i l p hl hp
    obtain hl | ⟨-, d, hd, rfl⟩ := loops_of_add h hl
    · obtain ⟨outer, houter, hl⟩ := w.nested i l p hl hp
      exact ⟨outer, hkept houter, hl⟩
    · obtain ⟨outer, houter, hl⟩ := (depthUnder_eq_ok hd).2 p hp
      exact ⟨outer, hkept houter, hl⟩

/-! ## Every addition -/

/-- Every nest that is built is well nested, whatever was added and whatever refused. -/
theorem wellNested_ofSpecs (specs : List LoopSpec) : (ofSpecs specs).WellNested := by
  -- A refused addition passes the nest on, so the induction is over any nest to start from.
  have hfold (n : LoopNest) (w : n.WellNested) : (specs.foldl grow n).WellNested := by
    induction specs generalizing n with
    | nil => exact w
    | cons s specs ih =>
      refine ih (n.grow s) ?_
      unfold grow
      cases h : n.add s with
      | ok q => exact w.add h
      | error e => exact w
  rw [ofSpecs_eq]
  exact hfold ∅ wellNested_empty

/-! ## Links -/

/-- The forest of a nest has the links of its records, as numbers. -/
theorem forest_parent (c : LoopId) :
    n.forest.parent c.index = (n.records.parent? c).map (·.index) := by
  rw [records_parent?]
  rfl

/-- A loop lies directly inside another exactly if the forest says so. -/
theorem parent?_records_iff {c p : LoopId} :
    n.records.parent? c = some p ↔ n.forest.parent c.index = some p.index := by
  rw [forest_parent, Option.map_eq_some_iff]
  constructor
  · exact fun h => ⟨p, h, rfl⟩
  · rintro ⟨q, hq, hqp⟩
    exact hq.trans (congrArg (some <| LoopId.mk ·) hqp)

/-- A loop with a parent is a loop of the nest. -/
theorem lt_of_parent? {c p : LoopId} (h : n.records.parent? c = some p) :
    c.index < n.loops.size := by
  rw [records_parent?] at h
  obtain ⟨l, hl, -⟩ := Option.bind_eq_some_iff.mp h
  exact (Array.getElem?_eq_some_iff.mp hl).1

/-- The children of a loop are the loops whose parent it is. -/
theorem mem_children {c : LoopId} : c ∈ n.children id ↔ n.records.parent? c = some id := by
  unfold children
  rw [List.mem_map]
  constructor
  · rintro ⟨i, hi, rfl⟩
    exact parent?_records_iff.mpr (n.forest.mem_children.mp hi).2
  · intro h
    refine ⟨c.index, n.forest.mem_children.mpr ⟨lt_of_parent? h, ?_⟩, rfl⟩
    exact parent?_records_iff.mp h

/-- The outermost loops are those without parent. -/
theorem mem_topLevel {c : LoopId} : c ∈ n.topLevel ↔ (n.get? c).map (·.parent) = some none := by
  unfold topLevel get?
  rw [List.mem_map, Option.map_eq_some_iff]
  constructor
  · rintro ⟨i, hi, rfl⟩
    obtain ⟨hlt, hparent⟩ := n.forest.mem_roots.mp hi
    refine ⟨n.loops[i], Array.getElem?_eq_getElem hlt, ?_⟩
    have hparent : Option.map _ (n.loops[i]?.bind (·.parent)) = none := hparent
    rwa [Array.getElem?_eq_getElem hlt, Option.map_eq_none_iff] at hparent
  · rintro ⟨l, hl, hparent⟩
    refine ⟨c.index, n.forest.mem_roots.mpr ⟨(Array.getElem?_eq_some_iff.mp hl).1, ?_⟩, rfl⟩
    show Option.map _ (n.loops[c.index]?.bind (·.parent)) = none
    rw [hl, Option.bind_some, hparent, Option.map_none]

/-- Loops listed by rising number are listed once. -/
theorem nodup_map_mk {is : List Nat} (h : is.Pairwise (· < ·)) : (is.map LoopId.mk).Nodup :=
  List.pairwise_map.mpr (h.imp fun hlt heq => Nat.ne_of_lt hlt (congrArg LoopId.index heq))

/-- The records of a well nested nest are linked. -/
theorem WellNested.linked_records (w : n.WellNested) : n.records.Linked := by
  -- A record is that of the loop with its number, so what the nest keeps carries over field by
  -- field.
  have hloop {i : Nat} {m : LoopRecord} (h : n.records.loops[i]? = some m) :
      ∃ l, n.loops[i]? = some l ∧ n.loopRecord i l = m := by
    rw [records_get?] at h
    exact Option.map_eq_some_iff.mp h
  constructor
  case numbered =>
    intro i m hm
    obtain ⟨l, hl, rfl⟩ := hloop hm
    exact w.numbered i l hl
  case header =>
    intro i m hm
    obtain ⟨l, hl, rfl⟩ := hloop hm
    exact w.header i l hl
  case outermost =>
    intro i m hm
    obtain ⟨l, hl, rfl⟩ := hloop hm
    exact w.outermost i l hl
  case nested =>
    intro i m p hm hp
    obtain ⟨l, hl, rfl⟩ := hloop hm
    obtain ⟨outer, houter, hblocks, hdepth⟩ := w.nested i l p hl hp
    refine ⟨n.parent_lt i l p hl hp, n.loopRecord p.index outer, ?_, hblocks, hdepth⟩
    rw [records_get?, houter, Option.map_some]
  case children =>
    intro j m c hm
    obtain ⟨l, hl, rfl⟩ := hloop hm
    have hnodup : (n.children ⟨j⟩).Nodup := nodup_map_mk (n.forest.children_pairwise j)
    exact hnodup.count.trans (if_congr mem_children rfl rfl)
  case topLevel =>
    intro c
    have hnodup : n.topLevel.Nodup := nodup_map_mk (List.pairwise_lt_range.filter _)
    have hparent : (n.records.loops[c.index]?).map (·.parent) = (n.get? c).map (·.parent) := by
      rw [records_get?, Option.map_map]
      rfl
    rw [hparent]
    exact hnodup.count.trans (if_congr mem_topLevel rfl rfl)

/-! ## Loops around a loop -/

namespace Records

variable {r : Records} {l : LoopRecord}

/-- The parent of a loop is read off its record. -/
theorem parent?_eq (h : r.loops[id.index]? = some l) : r.parent? id = l.parent := by
  rw [parent?, h, Option.bind_some]

/-- Around a loop lies its parent with what is around that. -/
theorem around_iff {p : LoopId} (hp : r.parent? b = some p) :
    r.Around a b ↔ a = p ∨ r.Around a p := by
  unfold Around
  rw [Relation.TransGen.head'_iff, ← Relation.reflTransGen_iff_eq_or_transGen]
  constructor
  · rintro ⟨q, hq, h⟩
    obtain rfl := Option.some.inj (hp.symm.trans hq)
    exact h
  · exact fun h => ⟨p, hp, h⟩

/-- Around a loop without parent there is nothing. -/
theorem not_around (hp : r.parent? b = none) : ¬r.Around a b := by
  intro h
  obtain ⟨q, hq, -⟩ := Relation.TransGen.head'_iff.mp h
  rw [hp] at hq
  cases hq

/-- What lies around a loop was added before it. -/
theorem Linked.around_lt (h : r.Linked) (hab : r.Around a b) : a.index < b.index := by
  have hparent {c p : LoopId} (hp : r.parent? c = some p) : p.index < c.index := by
    obtain ⟨l, hl, hp⟩ := Option.bind_eq_some_iff.mp hp
    exact (h.nested c.index l p hl hp).1
  induction hab with
  | single hp => exact hparent hp
  | tail _ hp ih => exact Nat.lt_trans (hparent hp) ih

/-- In linked records the depth of a loop counts the loops around it, and they have all
its blocks. -/
theorem Linked.surrounded (h : r.Linked) (hl : r.loops[id.index]? = some l) :
    r.Surrounded id l := by
  obtain ⟨i⟩ := id
  have hparent : r.parent? ⟨i⟩ = l.parent := parent?_eq hl
  -- The parent of a loop has a smaller number, and what was said of it is said of the loop next.
  induction i using Nat.strongRecOn generalizing l with
  | ind i ih =>
    cases hp : l.parent with
    | none =>
      have hnone (a : LoopId) : ¬r.Around a ⟨i⟩ := not_around (hparent.trans hp)
      constructor
      · refine ⟨[], List.nodup_nil, fun a => ?_, h.outermost i l hl hp⟩
        exact iff_of_false List.not_mem_nil (hnone a)
      · exact fun a ha => absurd ha (hnone a)
    | some p =>
      obtain ⟨hlt, outer, houter, hblocks, hdepth⟩ := h.nested i l p hl hp
      obtain ⟨⟨around, hnodup, hmem, hlength⟩, hin⟩ := ih p.index hlt houter (parent?_eq houter)
      have haround (a : LoopId) : r.Around a ⟨i⟩ ↔ a = p ∨ r.Around a p :=
        around_iff (hparent.trans hp)
      constructor
      · refine ⟨p :: around, List.nodup_cons.mpr ⟨?_, hnodup⟩, fun a => ?_, ?_⟩
        · exact fun hp => Nat.lt_irrefl _ (h.around_lt ((hmem p).mp hp))
        · rw [List.mem_cons, hmem, haround]
        · rw [hdepth, hlength, List.length_cons]
      · intro a ha
        obtain rfl | ha := (haround a).mp ha
        · exact ⟨outer, houter, hblocks⟩
        · obtain ⟨outmost, houtmost, hsub⟩ := hin a ha
          exact ⟨outmost, houtmost, fun b hb => hsub b (hblocks b hb)⟩

end Records

/-! ## The order of a nest -/

/-- The lineage of a loop holds the loop and what lies around it. -/
theorem mem_lineage_iff : a.index ∈ n.forest.lineage b.index ↔ n.records.AtOrAround a b := by
  constructor
  · intro h
    obtain ⟨i⟩ := b
    dsimp only at h
    induction i using n.forest.lineage_induction with
    | root i hi =>
      obtain rfl : a = ⟨i⟩ := congrArg LoopId.mk ((n.forest.mem_lineage_of_none hi).mp h)
      exact .refl
    | step i p hp ih =>
      rcases (n.forest.mem_lineage_of_some hp).mp h with hai | hap
      · obtain rfl : a = ⟨i⟩ := congrArg LoopId.mk hai
        exact .refl
      · exact .head (parent?_records_iff.mpr hp) (ih hap)
  · intro h
    induction h with
    | refl => exact n.forest.self_mem_lineage b.index
    | tail _ hp ih =>
      exact n.forest.lineage_trans (n.forest.parent_mem_lineage (parent?_records_iff.mp hp)) ih

/-- What comes first in the forest comes first in the order of the nest. -/
theorem sublist_preOrder (h : n.forest.Precedes a.index b.index) (ha : a.index < n.forest.size)
    (hb : b.index < n.forest.size) : [a, b].Sublist n.preOrder :=
  (Forest.sublist_stackOrder h ha hb).map LoopId.mk

/-- The order of a nest comes to each loop once, before the loops inside it, and to siblings in the
order they were added, with all that is inside them. -/
theorem visits_preOrder (n : LoopNest) : n.records.Visits n.preOrder := by
  -- What lies inside a loop of the nest is a loop of the nest.
  have hlt {c p : LoopId} (h : n.records.AtOrAround p c) (hp : p.index < n.forest.size) :
      c.index < n.forest.size := by
    rcases Relation.ReflTransGen.cases_head h with rfl | ⟨q, hq, -⟩
    · exact hp
    · exact lt_of_parent? hq
  constructor
  case nodup => exact n.preOrder_nodup
  case mem_iff =>
    intro id
    rw [mem_preOrder, records_get?, Option.isSome_map]
    rfl
  case inside =>
    intro a b hab
    obtain ⟨p, hp, hap⟩ := Relation.TransGen.head'_iff.mp hab
    have hbsize : b.index < n.forest.size := lt_of_parent? hp
    have hpb := n.forest.parent_lt (parent?_records_iff.mp hp)
    have hle := n.forest.le_of_mem_lineage (mem_lineage_iff.mpr hap)
    have hinside := mem_lineage_iff.mpr hab.to_reflTransGen
    exact sublist_preOrder (.inside (by omega) hinside) (by omega) hbsize
  case siblings =>
    intro i j l m hl hm hparent hij a b ha hb
    have hsize {k : Nat} {q : LoopRecord} (hq : n.records.loops[k]? = some q) :
        k < n.forest.size := by
      have hk := (Array.getElem?_eq_some_iff.mp hq).1
      rwa [size_records] at hk
    have hsiblings : n.forest.parent i = n.forest.parent j := by
      rw [forest_parent ⟨i⟩, forest_parent ⟨j⟩, Records.parent?_eq hl, Records.parent?_eq hm,
        hparent]
    exact sublist_preOrder
      (.siblings hsiblings hij (mem_lineage_iff.mpr ha) (mem_lineage_iff.mpr hb))
      (hlt ha (hsize hl)) (hlt hb (hsize hm))

/-- Whatever is added, and whatever is refused, the records that are built are linked, and each loop
has to do with the loops around it. The walk over the records comes to every loop in its place. A
further addition that is refused leaves the records as they are. -/
theorem nest_invariant (specs : List LoopSpec) :
    Records.built specs = (ofSpecs specs).records ∧ (Records.built specs).Linked
      ∧ (∀ id l, (Records.built specs).loops[id.index]? = some l →
        (Records.built specs).Surrounded id l)
      ∧ (Records.built specs).order = .ok (ofSpecs specs).preOrder
      ∧ (Records.built specs).Visits (ofSpecs specs).preOrder
      ∧ ∀ s e r, (Records.addLoop s).run (Records.built specs) = .error e r →
        r = Records.built specs := by
  have hlinked := (wellNested_ofSpecs specs).linked_records
  rw [built_eq]
  exact ⟨rfl, hlinked, fun id l => hlinked.surrounded, order_records _, visits_preOrder _,
    fun s e r => Records.eq_of_run_addLoop_error⟩

end LoopNest

end Privatization
