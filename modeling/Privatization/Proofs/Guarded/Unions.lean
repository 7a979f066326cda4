import Privatization.Proofs.Guarded.Arena
import Privatization.Proofs.Ledger.Unions

/-!
# Unions along links

The operations on entries once more, on cells with forwarding links. A fold sets a link from the end
of one climb to the end of another, so links never lead back (`Linked.acyclic`), and however long a
chain of folds has become, whoever follows it arrives at the one entry that speaks for the whole
group (`unions_sound`).
-/

namespace Privatization.Guarded

open EntryOp (Connected)

variable {links : Array (Option EntryId)} {lead : EntryId → EntryId} {id next last x y : EntryId}
  {n : Nat}

/-! ## Links lead nowhere twice -/

/-- An entry has a link to another. -/
def Link (links : Array (Option EntryId)) (x y : EntryId) : Prop :=
  links[x.index]? = some (some y)

/-- Every link on a climb is one less to go. -/
theorem Climb.rest (h : Climb links x last n) (hlink : Link links x y) :
    ∃ m < n, Climb links y last m := by
  cases h with
  | top hnone =>
    rw [Link, hnone] at hlink
    cases hlink
  | @up _ next _ m hnext rest =>
    rw [Link, hnext] at hlink
    obtain rfl : next = y := by simpa using hlink
    exact ⟨m, Nat.lt_succ_self m, rest⟩

theorem Climb.rest_of_transGen (hlinks : Relation.TransGen (Link links) x y)
    (h : Climb links x last n) : ∃ m < n, Climb links y last m := by
  induction hlinks with
  | single hlink => exact h.rest hlink
  | tail _ hlink ih =>
    obtain ⟨m, hm, hclimb⟩ := ih
    obtain ⟨k, hk, hclimb⟩ := hclimb.rest hlink
    exact ⟨k, Nat.lt_trans hk hm, hclimb⟩

/-- Once around a cycle there would be fewer links to go from the same entry. -/
theorem Climb.not_cycle (h : Climb links x last n) : ¬Relation.TransGen (Link links) x x := by
  intro hcycle
  induction n using Nat.strongRecOn with
  | ind n ih =>
    obtain ⟨m, hm, hclimb⟩ := h.rest_of_transGen hcycle
    exact ih m hm hclimb

/-- Links along which every climb ends have no cycle. -/
theorem Linked.acyclic (h : Linked links lead) (x : EntryId) :
    ¬Relation.TransGen (Link links) x x := by
  intro hcycle
  obtain ⟨y, hlink, -⟩ := Relation.TransGen.head'_iff.mp hcycle
  have hx : x.index < links.size := (Array.getElem?_eq_some_iff.mp hlink).1
  obtain ⟨n, hclimb, -⟩ := h.climbs x hx
  exact hclimb.not_cycle hcycle

/-! ## Operations on cells -/

/-- Does something to the entries. -/
def Arena.perform (a : Arena) : EntryOp → Guarded Arena
  | .add memory value => return { a with cells := a.cells.push ⟨memory, value, none⟩ }
  | .fold source target => a.fold source target
  | .narrow id value => a.narrow id value

/-- The arena that operations lead to from one without cells. -/
def performAll (ops : List EntryOp) : Guarded Arena := ops.foldlM Arena.perform {}

variable {a : Arena} {l : Ledger} {op : EntryOp} {ops : List EntryOp}

/-- The empty arena stands for the empty ledger. -/
theorem stands_start : ({} : Arena).Stands {} := by
  refine ⟨id, ⟨fun x hx => ?_, fun _ _ => rfl⟩, rfl⟩
  rw [size_linksOf] at hx
  exact absurd hx (Nat.not_lt_zero _)

/-- What is done to the ledger can be done to the arena, if it names entries that are there. -/
theorem Arena.Stands.perform (h : a.Stands l) (hop : ∀ id ∈ op.names, id.index < l.entries.size) :
    ∃ a', a.perform op = .ok a' ∧ a'.Stands (l.perform op) := by
  rw [h.size_entries] at hop
  cases op with
  | add memory value => exact ⟨_, rfl, h.push memory value⟩
  | fold source target =>
    obtain ⟨cells, hcells, -, -, hstands⟩ :=
      h.fold (hop source (by simp [EntryOp.names])) (hop target (by simp [EntryOp.names]))
    refine ⟨{ a with cells }, ?_, hstands⟩
    rw [Arena.perform, Arena.fold, hcells]
    rfl
  | narrow id value =>
    obtain ⟨cells, hcells, -, -, hstands⟩ := h.change (hop id (by simp [EntryOp.names]))
      (f := fun c => { c with value := c.value.meet value })
      (g := fun e => { e with value := e.value.meet value }) (fun _ => rfl) fun _ _ => rfl
    refine ⟨{ a with cells }, ?_, hstands⟩
    rw [Arena.perform, Arena.narrow, hcells]
    rfl

/-- Operations in range succeed on the arena, and it still stands for the ledger afterwards. -/
theorem Arena.Stands.performs (h : a.Stands l) (hops : EntryOp.InRange l.entries.size ops) :
    ∃ a', ops.foldlM Arena.perform a = .ok a' ∧ a'.Stands (ops.foldl Ledger.perform l) := by
  induction ops generalizing a l with
  | nil => exact ⟨a, rfl, h⟩
  | cons op ops ih =>
    obtain ⟨hop, hrest⟩ := hops
    obtain ⟨a', ha', hstands⟩ := h.perform hop
    rw [← Ledger.size_perform] at hrest
    obtain ⟨a'', ha'', hstands⟩ := ih hstands hrest
    refine ⟨a'', ?_, hstands⟩
    rw [List.foldlM_cons, ha', ok_bind]
    exact ha''

open Classical in
/-- Entries are added, folded and narrowed in any order, each operation naming entries that were
added before it. Then no operation fails and links have no cycle. Every entry resolves to one
without link, two entries to the same one just if folds connect them, and what it says is the meet
of all values that connected entries began with or were narrowed by. The ledger has the same leaders
and values. -/
theorem unions_sound (ops : List EntryOp) (hops : EntryOp.InRange 0 ops) :
    ∃ a, performAll ops = .ok a
      ∧ a.cells.size = ops.foldl EntryOp.extent 0
      ∧ (∀ x, ¬Relation.TransGen (Link (linksOf a.cells)) x x)
      ∧ (∀ x, x.index < a.cells.size → ∃ root c,
          resolve a.cells x = .ok root ∧ a.cells[root.index]? = some c ∧ c.forward = none
            ∧ c.value = .meetOver (EntryOp.observations 0 ops)
                (fun p => decide (Connected ops p.1 x)) Prod.snd
            ∧ (Ledger.performAll ops).leader x = root
            ∧ (Ledger.performAll ops).value x = c.value)
      ∧ ∀ x y, x.index < a.cells.size → y.index < a.cells.size →
          (resolve a.cells x = resolve a.cells y ↔ Connected ops x y) := by
  have hjoined := Ledger.joined_performAll hops
  obtain ⟨a, ha, hstands⟩ := stands_start.performs hops
  have hresolve {x : EntryId} (hx : x.index < a.cells.size) :
      resolve a.cells x = .ok ((Ledger.performAll ops).leader x) := hstands.resolve hx
  refine ⟨a, ha, ?_, ?_, fun x hx => ?_, fun x y hx hy => ?_⟩
  · rw [← hstands.size_entries]
    exact Ledger.size_performs {} ops
  · obtain ⟨lead, hlinked, -⟩ := hstands
    exact hlinked.acyclic
  · obtain ⟨c, hc, hforward, hvalue, -⟩ := hstands.head hx
    refine ⟨_, c, hresolve hx, hc, hforward, ?_, rfl, hvalue⟩
    -- To have one leader is to be connected.
    have hmeet := hjoined.value x (hstands.size_entries ▸ hx)
    rw [← hvalue]
    refine hmeet.trans (Trait.meetOver_congr (fun p _ => ?_) fun _ _ _ => rfl)
    exact decide_eq_decide.mpr (hjoined.leader_iff p.1 x)
  · rw [hresolve hx, hresolve hy, ← hjoined.leader_iff]
    exact ⟨Except.ok.inj, congrArg _⟩

/-! Entry 0 is folded into 1, which is narrowed by its old number and folded into 2. The last fold
is within the group, and entry 3 stays alone. -/

def chainedFolds : List EntryOp := [
  .add ⟨0⟩ .privateOnly, .add ⟨1⟩ .lastPrivate, .fold ⟨0⟩ ⟨1⟩, .narrow ⟨0⟩ .shareable,
  .add ⟨2⟩ .readonly, .fold ⟨1⟩ ⟨2⟩, .fold ⟨2⟩ ⟨0⟩, .add ⟨3⟩ .noAccess]

theorem unions_sound_chainedFolds : EntryOp.InRange 0 chainedFolds
    ∧ ∃ a, performAll chainedFolds = .ok a
      ∧ linksOf a.cells = #[some ⟨1⟩, some ⟨2⟩, none, none]
      ∧ (∀ x, ¬Relation.TransGen (Link (linksOf a.cells)) x x)
      ∧ resolve a.cells ⟨0⟩ = .ok ⟨2⟩
      ∧ Connected chainedFolds ⟨0⟩ ⟨2⟩ ∧ ¬Connected chainedFolds ⟨0⟩ ⟨3⟩
      ∧ (Ledger.performAll chainedFolds).value ⟨0⟩
        = ((Trait.privateOnly.meet .lastPrivate).meet .shareable).meet .readonly := by
  have hops : EntryOp.InRange 0 chainedFolds := by decide
  obtain ⟨a, ha, hsize, hacyclic, hroots, hsame⟩ := unions_sound chainedFolds hops
  have hlinks : (performAll chainedFolds).toOption.map (fun a => linksOf a.cells)
      = some #[some ⟨1⟩, some ⟨2⟩, none, none] := by decide +kernel
  rw [ha] at hlinks
  have hcells : a.cells.size = 4 := hsize.trans (by decide)
  have hroot {i j : Nat} (hi : i < 4)
      (hleader : (Ledger.performAll chainedFolds).leader ⟨i⟩ = ⟨j⟩) :
      resolve a.cells ⟨i⟩ = .ok ⟨j⟩ := by
    obtain ⟨root, c, hresolve, -, -, -, heq, -⟩ := hroots ⟨i⟩ (by rw [hcells]; exact hi)
    rw [hresolve, ← heq, hleader]
  have hzero : resolve a.cells ⟨0⟩ = .ok ⟨2⟩ := hroot (by decide) (by decide +kernel)
  have htwo : resolve a.cells ⟨2⟩ = .ok ⟨2⟩ := hroot (by decide) (by decide +kernel)
  have hthree : resolve a.cells ⟨3⟩ = .ok ⟨3⟩ := hroot (by decide) (by decide +kernel)
  have hin {i : Nat} (hi : i < 4) : (⟨i⟩ : EntryId).index < a.cells.size := by rwa [hcells]
  refine ⟨hops, a, ha, Option.some.inj hlinks, hacyclic, hzero, ?_, ?_, by decide +kernel⟩
  · exact (hsame _ _ (hin (by decide)) (hin (by decide))).mp (hzero.trans htwo.symm)
  · intro hconnected
    have heq := (hsame _ _ (hin (by decide)) (hin (by decide))).mpr hconnected
    rw [hzero, hthree] at heq
    cases heq

end Privatization.Guarded
