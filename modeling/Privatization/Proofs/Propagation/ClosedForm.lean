import Privatization.Proofs.Propagation.Recorded
import Privatization.Proofs.Resolution.Passes

/-!
# The propagation in closed form

What the propagation stores after the resolvers, for every tree that additions build: where there is
a result, which memories it lists, what it says about them and which values of the ledger that
decodes (`propagate_closed_form`). Nothing is said about the order in which anything was added, for
none of it matters.
-/

namespace Privatization

namespace Scope

variable {s : Scope}

/-- After the resolvers, the propagation stores a result for a node exactly if tracked memory lives,
or an unknown access is attributed, at or below it. The result lists the outermost lifts of that
memory, each once. What it says about a listed memory is the meet of what the resolvers found for
everything whose lift is that memory or lies inside it, and that the value from before the loop is
read if some of it was copied in at the node or below. That meet is the value itself which the
ledger holds for the memory once the node is finished, and what is stored decodes it: categories
alone do not tell all shared values apart. -/
theorem propagate_closed_form (grown : s.tree.Grown) (d : DependenceMap) (n : AliasNodeId) :
    (((s.propagate (s.resolved d) ∅).2.get? n).isSome = true ↔
        (∃ em ∈ (s.resolved d).explicit.keys, s.reaches n em = true)
          ∨ ∃ x ∈ (s.resolved d).unknowns, s.tree.isNodeAncestor n x.node = true)
      ∧ ∀ nt, (s.propagate (s.resolved d) ∅).2.get? n = some nt →
        (nt.memories.map (·.memory)).Nodup
          ∧ (∀ m, m ∈ nt.memories.map (·.memory) ↔ m ∈ s.lifted (s.resolved d) n
            ∧ ∀ m' ∈ s.lifted (s.resolved d) n, s.tree.isEstimateAncestor m' m = true → m' = m)
          ∧ (∀ mt ∈ nt.memories, mt.categories \ {.explicitAccess}
            = ((s.evidence (s.resolved d) n mt.memory).meet
                (.copyIn (s.copies (s.resolved d) n mt.memory))).categories)
          ∧ ∀ mt ∈ nt.memories, ∃ id ∈ (s.ledgerAfter (s.resolved d) n).entriesAt n,
            (s.ledgerAfter (s.resolved d) n).memory? id = some mt.memory
              ∧ (s.ledgerAfter (s.resolved d) n).value id
                = (s.evidence (s.resolved d) n mt.memory).meet
                  (.copyIn (s.copies (s.resolved d) n mt.memory))
              ∧ mt.categories \ {.explicitAccess}
                = ((s.ledgerAfter (s.resolved d) n).value id).categories := by
  obtain ⟨named, trait, h⟩ := noted_resolved s d
  have w := grown.wellFormed
  have hreported := propagate_reported w h.fresh (fun x hx => h.node_lt w hx) n
  refine ⟨hreported.stored, fun nt hnt => ?_⟩
  have hlisted := hreported.listed nt hnt
  refine ⟨hlisted.nodup, fun m => ?_, hlisted.verdict, fun mt hmt => ?_⟩
  · rw [hlisted.heads, mem_heads]
  · -- A listed memory is a head of the node, and so has a group there that holds the verdict.
    have hhead := (hlisted.heads mt.memory).mp (List.mem_map.mpr ⟨mt, hmt, rfl⟩)
    obtain ⟨id, hid, hmemory, hvalue⟩ := ledgerAfter_head w h.fresh hhead
    refine ⟨id, hid, hmemory, hvalue, ?_⟩
    rw [hvalue]
    exact hlisted.verdict mt hmt

end Scope

/-! An object of eight bytes and its halves, which a loop writes one after the other. -/

/-- The halves of the object. -/
def halves : List MemoryLocation := [⟨⟨1⟩, some 4⟩, ⟨⟨2⟩, some 4⟩]

def halvesTree : AliasTree := .ofAdditions [
  .node AliasTree.top .estimate, .estimate ⟨1⟩ [⟨0⟩] (some 8) 0 none,
  .estimate ⟨1⟩ [⟨1⟩] (some 4) 0 (some ⟨0⟩), .estimate ⟨1⟩ [⟨2⟩] (some 4) 4 (some ⟨0⟩)]

/-- The function of the loop, by what the loop reads first and what is read after it. -/
def halvesFunction (uses live : LocationSet) : Function where
  name := "halves"
  values := #[⟨"s", .alloca ⟨0⟩, none⟩, ⟨"lo", .other, none⟩, ⟨"hi", .other, none⟩]
  instructions := #[⟨⟨0⟩, ⟨2⟩, .store ⟨⟨1⟩, some 4⟩ none⟩, ⟨⟨1⟩, ⟨2⟩, .store ⟨⟨2⟩, some 4⟩ none⟩]
  aliasTree := some halvesTree
  defUse := OrderedMap.empty.insert ⟨0⟩ { explicit := halves, defs := .ofList halves, uses }
  reach := (OrderedMap.empty.insert ⟨0⟩ ⟨∅, ∅⟩).insert ⟨1⟩ ⟨∅, ∅⟩
  live := OrderedMap.empty.insert ⟨0⟩ live

def halvesScope (uses live : LocationSet) : Scope where
  function := halvesFunction uses live
  tree := halvesTree
  loop := twoBlocks
  defUse := { explicit := halves, defs := .ofList halves, uses }
  live
  latch := ⟨∅, ∅⟩
  exit := ⟨∅, ∅⟩

/-- At the node of the object, the halves are listed as the object. The ledger holds for it that all
iterations may share one copy and that what they write is dead after the loop. Of the two, the
categories say only the first. -/
theorem propagate_closed_form_halves : halvesTree.Grown ∧
    ∃ nt, ((halvesScope ∅ ∅).propagate ((halvesScope ∅ ∅).resolved ∅) ∅).2.get? ⟨1⟩ = some nt
      ∧ (nt.memories.map (·.memory)).Nodup
      ∧ (∀ m, m ∈ nt.memories.map (·.memory) ↔ m = ⟨0⟩)
      ∧ ∀ mt ∈ nt.memories,
        ∃ id ∈ ((halvesScope ∅ ∅).ledgerAfter ((halvesScope ∅ ∅).resolved ∅) ⟨1⟩).entriesAt ⟨1⟩,
          ((halvesScope ∅ ∅).ledgerAfter ((halvesScope ∅ ∅).resolved ∅) ⟨1⟩).value id
              = .independent .dead false true
            ∧ mt.categories \ {.explicitAccess}
              = (Trait.independent .dead false true).categories := by
  have grown : halvesTree.Grown := AliasTree.grown_ofAdditions _
  obtain ⟨hstored, hlisted⟩ := Scope.propagate_closed_form (s := halvesScope ∅ ∅) grown ∅ ⟨1⟩
  have hlifted : (halvesScope ∅ ∅).lifted ((halvesScope ∅ ∅).resolved ∅) ⟨1⟩ = [⟨0⟩, ⟨0⟩] := by
    decide +kernel
  have hmeet : ((halvesScope ∅ ∅).evidence ((halvesScope ∅ ∅).resolved ∅) ⟨1⟩ ⟨0⟩).meet
      (.copyIn ((halvesScope ∅ ∅).copies ((halvesScope ∅ ∅).resolved ∅) ⟨1⟩ ⟨0⟩))
      = .independent .dead false true := by
    decide +kernel
  have hsome := hstored.mpr (.inl ⟨⟨1⟩, by decide +kernel, by decide +kernel⟩)
  obtain ⟨nt, hnt⟩ := Option.isSome_iff_exists.mp hsome
  obtain ⟨hnodup, hmemories, -, hheld⟩ := hlisted nt hnt
  have hobject (m : EstimateId) : m ∈ nt.memories.map (·.memory) ↔ m = ⟨0⟩ := by
    rw [hmemories, hlifted]
    constructor
    · rintro ⟨hm, -⟩
      simpa using hm
    · rintro rfl
      exact ⟨List.mem_cons_self, fun m' hm' _ => by simpa using hm'⟩
  refine ⟨grown, nt, hnt, hnodup, hobject, fun mt hmt => ?_⟩
  obtain ⟨id, hid, -, hvalue, hdecoded⟩ := hheld mt hmt
  rw [(hobject mt.memory).mp (List.mem_map.mpr ⟨mt, hmt, rfl⟩), hmeet] at hvalue
  rw [hvalue] at hdecoded
  exact ⟨id, hid, hvalue, hdecoded⟩

end Privatization
