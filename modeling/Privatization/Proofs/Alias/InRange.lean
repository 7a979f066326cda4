import Privatization.Alias.Lookup
import Privatization.Proofs.Alias.Cover
import Privatization.Proofs.Alias.Lift

/-!
# Numbers in range

Whatever a walk through an alias tree or a look-up in it gives is a number of the tree: a node or an
estimate memory with a record.
-/

namespace Privatization.AliasTree

variable {t : AliasTree}

/-- The numbers of nodes are those in range. -/
theorem mem_nodeIds_lt {n : AliasNodeId} (h : n ∈ t.nodeIds) :
    n.index < t.nodes.size := by
  obtain ⟨i, hi, rfl⟩ := List.mem_map.mp h
  exact List.mem_range.mp hi

/-- The numbers of memory are those in range. -/
theorem mem_estimateIds_lt {e : EstimateId} (h : e ∈ t.estimateIds) :
    e.index < t.estimates.size := by
  obtain ⟨i, hi, rfl⟩ := List.mem_map.mp h
  exact List.mem_range.mp hi

/-- What is around memory in range is in range, for it is older. -/
theorem ancestor_lt {a e : EstimateId} (h : t.isEstimateAncestor a e = true)
    (he : e.index < t.estimates.size) : a.index < t.estimates.size :=
  Nat.lt_of_le_of_lt (estimate_index_le_of_ancestor h) he

/-- The climb within a node ends at memory in range. -/
theorem outermostIn_lt {n : AliasNodeId} {e : EstimateId} (hn : t.home e = n)
    (h : e.index < t.estimates.size) : (t.outermostIn n e).index < t.estimates.size :=
  ancestor_lt (outermostIn_spec hn).1 h

theorem mem_nodeChildren_lt {c n : AliasNodeId} (h : c ∈ t.nodeChildren n) :
    c.index < t.nodes.size :=
  node_lt_of_parent (mem_nodeChildren.mp h)

/-- What is chosen is one of those to choose from. -/
theorem mem_of_firstLeast {α : Type} {rank : α → Nat} {as : List α} {a : α}
    (h : firstLeast rank as = some a) : a ∈ as := by
  induction as with
  | nil => cases h
  | cons b as ih =>
    rw [firstLeast] at h
    split at h
    · cases h
      exact List.mem_cons_self
    next c hc =>
      -- Either the choice among the rest stays, or the first one takes its place.
      split at h <;> cases h
      · exact List.mem_cons_of_mem b (ih hc)
      · exact List.mem_cons_self

/-- Memory that is found for a location is in range. -/
theorem find?_lt {loc : MemoryLocation} {e : EstimateId} (h : t.find? loc = some e) :
    e.index < t.estimates.size :=
  mem_estimateIds_lt (List.mem_filter.mp (mem_of_firstLeast h)).1

/-- All parts of memory in range are in range. -/
theorem mem_estimateDescendants_lt {m e : EstimateId} (hm : m.index < t.estimates.size)
    (h : e ∈ t.estimateDescendants m) : e.index < t.estimates.size :=
  ((mem_estimateDescendants hm).mp h).1

theorem mem_nodeRoots_lt {n : AliasNodeId} {e : EstimateId} (h : e ∈ t.nodeRoots n) :
    e.index < t.estimates.size :=
  mem_estimateIds_lt (List.mem_filter.mp (List.mem_filter.mp h).1).1

/-- The climb to the outermost memory ends in range. -/
theorem outermost_lt {e : EstimateId} (h : e.index < t.estimates.size) :
    (t.outermost e).index < t.estimates.size := by
  have hroot := t.estimateForest.le_of_mem_lineage (t.estimateForest.root_mem_lineage e.index)
  exact Nat.lt_of_le_of_lt hroot h

end Privatization.AliasTree
