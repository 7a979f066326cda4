import Privatization.Proofs.Alias.Lift
import Privatization.Proofs.Ledger.Fresh
import Privatization.Proofs.Propagation.Folding
import Privatization.Proofs.Propagation.Storing

/-!
# What is reported, in closed form

What the propagation reports is determined by the ledger the resolvers left and by the tree, without
following any entry. At a node, everything accessed at or below it is lifted there; the memories
listed are the outermost of the lifts (`heads`), and each stands for what was lifted to it or to
memory inside it. The verdict on it is the meet of the resolvers' traits of what it stands for
(`evidence`), narrowed by a copy from before the loop if one of those was found to need it on the
way (`copies`, `verdict`).

The groups a node is left with once duplicates are folded are exactly its heads
(`Gathered.mem_heads_iff`), and they carry the evidence (`Gathered.value_eq`).
-/

namespace Privatization.Scope

variable {s : Scope} {l lg : Ledger} {n c d : AliasNodeId} {em e m m' : EstimateId} {id : EntryId}
  {ids : List EntryId} {said : EstimateId → Trait}

/-! ## The closed form -/

/-- Whether memory lives at or below a node. -/
def reaches (s : Scope) (n : AliasNodeId) (em : EstimateId) : Bool :=
  s.tree.isNodeAncestor n (s.tree.home em)

/-- Where the accessed memory at or below `n` is lifted to. -/
def lifted (s : Scope) (l : Ledger) (n : AliasNodeId) : List EstimateId :=
  (l.explicit.keys.filter (s.reaches n)).map (s.tree.liftTo n)

/-- The outermost of the lifts to a node. -/
def heads (s : Scope) (l : Ledger) (n : AliasNodeId) : List EstimateId :=
  (s.lifted l n).filter fun m =>
    (s.lifted l n).all fun m' => decide (s.tree.isEstimateAncestor m' m = true → m' = m)

/-- Whether `m`, listed at `n`, stands for `em`. -/
def standsFor (s : Scope) (n : AliasNodeId) (m em : EstimateId) : Bool :=
  s.reaches n em && s.tree.isEstimateAncestor m (s.tree.liftTo n em)

/-- What the resolvers found for everything `m` stands for at `n`. -/
def evidence (s : Scope) (l : Ledger) (n : AliasNodeId) (m : EstimateId) : Trait :=
  .meetOver l.explicit.keys (s.standsFor n m) l.traitOf

/-- Whether the evidence for a memory listed at a node calls for a copy from before the loop. -/
def callsForCopy (s : Scope) (l : Ledger) (n : AliasNodeId) (m : EstimateId) : Bool :=
  s.needsCopyIn m (s.evidence l n m).categories

/-- Whether what stands for `em` at `d` calls for a copy. -/
def copiedAt (s : Scope) (l : Ledger) (d : AliasNodeId) (em : EstimateId) : Bool :=
  (s.heads l d).any fun m => s.standsFor d m em && s.callsForCopy l d m

/-- Whether what stands for `em` calls for a copy somewhere between its own node and `n`. -/
def copied (s : Scope) (l : Ledger) (n : AliasNodeId) (em : EstimateId) : Bool :=
  (s.tree.nodePath (s.tree.home em) n).any fun d => s.copiedAt l d em

/-- Whether what stands for `em` calls for a copy below `n`. -/
def copiedBelow (s : Scope) (l : Ledger) (n : AliasNodeId) (em : EstimateId) : Bool :=
  (s.tree.nodeChildren n).any fun c => s.reaches c em && s.copied l c em

/-- Whether `m`, listed at `n`, is copied from before the loop. -/
def copies (s : Scope) (l : Ledger) (n : AliasNodeId) (m : EstimateId) : Bool :=
  l.explicit.keys.any fun em => s.standsFor n m em && s.copied l n em

/-- The trait a memory listed at `n` is reported under. -/
def verdict (s : Scope) (l : Ledger) (n : AliasNodeId) (m : EstimateId) : Trait :=
  (s.evidence l n m).meet (.copyIn (s.copies l n m))

/-- What is said about `em` once `n` is finished. -/
def heard (s : Scope) (l : Ledger) (n : AliasNodeId) (em : EstimateId) : Trait :=
  (l.traitOf em).meet (.copyIn (s.copied l n em))

/-! ## Lifts and heads -/

theorem mem_lifted : m ∈ s.lifted l n ↔
    ∃ em ∈ l.explicit.keys, s.reaches n em = true ∧ s.tree.liftTo n em = m := by
  unfold lifted
  rw [List.mem_map]
  constructor
  · rintro ⟨em, hem, hm⟩
    obtain ⟨hkey, hreach⟩ := List.mem_filter.mp hem
    exact ⟨em, hkey, hreach, hm⟩
  · rintro ⟨em, hkey, hreach, hm⟩
    exact ⟨em, List.mem_filter.mpr ⟨hkey, hreach⟩, hm⟩

theorem mem_heads : m ∈ s.heads l n ↔ m ∈ s.lifted l n ∧
    ∀ m' ∈ s.lifted l n, s.tree.isEstimateAncestor m' m = true → m' = m := by
  unfold heads
  rw [List.mem_filter, List.all_eq_true]
  exact and_congr_right fun _ => forall_congr' fun m' => forall_congr' fun _ => decide_eq_true_iff

theorem standsFor_iff : s.standsFor n m em = true ↔
    s.reaches n em = true ∧ s.tree.isEstimateAncestor m (s.tree.liftTo n em) = true := by
  unfold standsFor
  rw [Bool.and_eq_true]

/-- No head lies inside another. -/
theorem heads_unique_around (hm : m ∈ s.heads l n) (hm' : m' ∈ s.heads l n)
    (h : s.tree.isEstimateAncestor m e = true) (h' : s.tree.isEstimateAncestor m' e = true) :
    m = m' := by
  rw [mem_heads] at hm hm'
  rcases AliasTree.isEstimateAncestor_chain h h' with hmm | hmm
  · exact hm'.2 m hm.1 hmm
  · exact (hm.2 m' hm'.1 hmm).symm

/-- At a node, memory is stood for by one head only. -/
theorem heads_unique (hm : m ∈ s.heads l n) (hm' : m' ∈ s.heads l n)
    (h : s.standsFor n m em = true) (h' : s.standsFor n m' em = true) : m = m' := by
  rw [standsFor_iff] at h h'
  exact heads_unique_around hm hm' h.2 h'.2

/-- Around every lift lies a head. -/
theorem exists_head_around (h : m ∈ s.lifted l n) :
    ∃ m' ∈ s.heads l n, s.tree.isEstimateAncestor m' m = true := by
  -- Going outwards gives smaller numbers, so an outermost lift is reached.
  generalize hi : m.index = i
  induction i using Nat.strongRecOn generalizing m with
  | ind i ih =>
    by_cases hmax : ∀ m' ∈ s.lifted l n, s.tree.isEstimateAncestor m' m = true → m' = m
    · exact ⟨m, mem_heads.mpr ⟨h, hmax⟩, AliasTree.isEstimateAncestor_refl m⟩
    · simp only [Classical.not_forall] at hmax
      obtain ⟨m', hm', hanc, hne⟩ := hmax
      have hle := AliasTree.estimate_index_le_of_ancestor hanc
      have hindex : m'.index ≠ m.index := fun hi => hne (congrArg EstimateId.mk hi)
      obtain ⟨m'', hm'', hanc'⟩ := ih m'.index (by omega) hm' rfl
      exact ⟨m'', hm'', AliasTree.isEstimateAncestor_trans hanc' hanc⟩

/-- A head stands for the accessed memory that it lies around. -/
theorem standsFor_iff_around (hm : m ∈ s.heads l n) (hem : em ∈ l.explicit.keys)
    (hreach : s.reaches n em = true) :
    s.standsFor n m em = true ↔ s.tree.isEstimateAncestor m em = true := by
  have hlift := AliasTree.liftTo_ancestor (t := s.tree) n em
  rw [standsFor_iff]
  constructor
  · rintro ⟨-, hanc⟩
    exact AliasTree.isEstimateAncestor_trans hanc hlift
  · intro hanc
    -- Some head lies around what the memory was lifted to, and no other lies around the memory.
    obtain ⟨m', hm', hanc'⟩ := exists_head_around (mem_lifted.mpr ⟨em, hem, hreach, rfl⟩)
    obtain rfl := heads_unique_around hm hm' hanc (AliasTree.isEstimateAncestor_trans hanc' hlift)
    exact ⟨hreach, hanc'⟩

/-- A head stands for what was lifted to it. -/
theorem exists_standsFor_of_mem_heads (h : m ∈ s.heads l n) :
    ∃ em ∈ l.explicit.keys, s.standsFor n m em = true := by
  obtain ⟨em, hkey, hreach, hlift⟩ := mem_lifted.mp (mem_heads.mp h).1
  exact ⟨em, hkey, standsFor_iff.mpr ⟨hreach, hlift ▸ AliasTree.isEstimateAncestor_refl _⟩⟩

/-- What one head stands for at a node is stood for by one head at every node around. -/
theorem standsFor_above (w : s.tree.WellFormed) (hd : s.tree.isNodeAncestor n d = true)
    (hm' : m' ∈ s.heads l d) (hm : m ∈ s.heads l n) (he : s.standsFor d m' e = true)
    (hem : s.standsFor d m' em = true) (h : s.standsFor n m e = true) :
    s.standsFor n m em = true := by
  rw [standsFor_iff] at he hem h ⊢
  obtain ⟨e₀, hkey, hreach₀, rfl⟩ := mem_lifted.mp (mem_heads.mp hm').1
  have hreach {x : EstimateId} (hx : s.reaches d x = true) : s.reaches n x = true :=
    AliasTree.isNodeAncestor_trans hd hx
  -- The head around what was lifted to the lower one is the one that stands for `e`.
  obtain ⟨m₀, hm₀, hanc⟩ := exists_head_around (mem_lifted.mpr ⟨e₀, hkey, hreach hreach₀, rfl⟩)
  have hinside := w.liftTo_mono hd hreach₀ he.1 he.2
  obtain rfl := heads_unique_around hm hm₀ h.2 (AliasTree.isEstimateAncestor_trans hanc hinside)
  have hother := w.liftTo_mono hd hreach₀ hem.1 hem.2
  exact ⟨hreach hem.1, AliasTree.isEstimateAncestor_trans hanc hother⟩

/-- What a memory stands for was met into the verdict on it. -/
theorem traitOf_meet_verdict (hem : em ∈ l.explicit.keys) (h : s.standsFor n m em = true) :
    (l.traitOf em).meet (s.verdict l n m) = s.verdict l n m := by
  have hevidence : (l.traitOf em).meet (s.evidence l n m) = s.evidence l n m :=
    Trait.meet_meetOver_of_mem hem h
  unfold verdict
  rw [← Trait.meet_assoc, hevidence]

/-! ## Copies along the way -/

/-- Nothing is copied below the node the memory lives in. -/
theorem copiedBelow_of_home (h : s.tree.home em = n) : s.copiedBelow l n em = false := by
  unfold copiedBelow
  rw [List.any_eq_false]
  intro c hc
  unfold reaches
  rw [h, AliasTree.not_isNodeAncestor_of_parent (AliasTree.mem_nodeChildren.mp hc)]
  exact Bool.false_ne_true

/-- Memory below a child is copied below the node if it is copied up to the child. -/
theorem copiedBelow_of_child (hc : c ∈ s.tree.nodeChildren n) (h : s.reaches c em = true) :
    s.copiedBelow l n em = s.copied l c em := by
  unfold copiedBelow
  rw [Bool.eq_iff_iff, List.any_eq_true]
  constructor
  · rintro ⟨d, hd, hcopied⟩
    rw [Bool.and_eq_true] at hcopied
    -- Only one child lies around the node of the memory.
    rw [AliasTree.eq_of_sibling_ancestors (AliasTree.mem_nodeChildren.mp hc)
      (AliasTree.mem_nodeChildren.mp hd) h hcopied.1]
    exact hcopied.2
  · intro hcopied
    exact ⟨c, hc, by rw [h, hcopied]; rfl⟩

/-- Memory is copied up to a node if it is copied below it or at it. -/
theorem copied_eq (h : s.reaches n em = true) :
    s.copied l n em = (s.copiedBelow l n em || s.copiedAt l n em) := by
  by_cases hn : n = s.tree.home em
  · rw [copiedBelow_of_home hn.symm]
    unfold copied
    rw [← hn, AliasTree.nodePath_self]
    exact Bool.or_false _
  · obtain ⟨c, hc, hce⟩ := AliasTree.exists_child_of_ancestor h hn
    rw [copiedBelow_of_child (AliasTree.mem_nodeChildren.mpr hc) hce]
    unfold copied
    rw [AliasTree.nodePath_child hc hce, List.any_append]
    exact congrArg _ (Bool.or_false _)

/-- Whatever a head stands for is copied there exactly if the head calls for it. -/
theorem copiedAt_eq (hm : m ∈ s.heads l n) (h : s.standsFor n m em = true) :
    s.copiedAt l n em = s.callsForCopy l n m := by
  unfold copiedAt
  rw [Bool.eq_iff_iff, List.any_eq_true]
  constructor
  · rintro ⟨m', hm', hcalls⟩
    rw [Bool.and_eq_true] at hcalls
    rw [heads_unique hm hm' h hcalls.1]
    exact hcalls.2
  · intro hcalls
    exact ⟨m, hm, by rw [h, hcalls]; rfl⟩

/-- A head is copied if some of what it stands for was copied below the node, or if it calls for a
copy itself. -/
theorem copies_eq (hm : m ∈ s.heads l n) : s.copies l n m
    = ((l.explicit.keys.any fun em => s.standsFor n m em && s.copiedBelow l n em)
      || s.callsForCopy l n m) := by
  obtain ⟨e₀, hkey, hstands⟩ := exists_standsFor_of_mem_heads hm
  -- Everything the memory stands for is copied at the node exactly if the memory is.
  have heach (em : EstimateId) : (s.standsFor n m em && s.copied l n em)
      = ((s.standsFor n m em && s.copiedBelow l n em)
        || (s.standsFor n m em && s.callsForCopy l n m)) := by
    cases hs : s.standsFor n m em with
    | false => rfl
    | true => rw [copied_eq (standsFor_iff.mp hs).1, copiedAt_eq hm hs]; rfl
  unfold copies
  rw [Bool.eq_iff_iff, Bool.or_eq_true, List.any_eq_true, List.any_eq_true]
  constructor
  · rintro ⟨em, hem, h⟩
    rw [heach, Bool.or_eq_true] at h
    rcases h with h | h
    · exact .inl ⟨em, hem, h⟩
    · rw [Bool.and_eq_true] at h
      exact .inr h.2
  · rintro (⟨em, hem, h⟩ | h)
    · exact ⟨em, hem, by rw [heach, h]; rfl⟩
    · exact ⟨e₀, hkey, by rw [heach, hstands, h]; exact Bool.or_true _⟩

/-- Evidence that was already copied does not call for a copy once more. -/
theorem needsCopyIn_of_copied (v : Trait) :
    s.needsCopyIn m (v.meet (.copyIn true)).categories = false := by
  unfold needsCopyIn
  cases hlast : FlagSet.meets (v.meet (.copyIn true)).categories
      {.lastPrivate, .secondToLastPrivate} with
  | false => rw [Bool.and_false, Bool.false_and]
  | true =>
    have hfirst : (v.meet (.copyIn true)).categories.has .firstPrivate = true :=
      Trait.has_firstPrivate_of_readonly hlast
    rw [hfirst, Bool.not_true, Bool.false_and, Bool.false_and]

/-- A copy made for evidence that may have been copied before comes to the copy the evidence alone
calls for, beside the earlier one. -/
theorem meet_copyIn_needsCopyIn (v : Trait) (before : Bool) :
    (v.meet (.copyIn before)).meet
        (.copyIn (s.needsCopyIn m (v.meet (.copyIn before)).categories))
      = v.meet (.copyIn (before || s.needsCopyIn m v.categories)) := by
  cases before with
  | false =>
    show ((v.meet Trait.noAccess).meet
        (.copyIn (s.needsCopyIn m (v.meet Trait.noAccess).categories)))
      = _
    rw [Trait.meet_noAccess, Bool.false_or]
  | true =>
    rw [needsCopyIn_of_copied, Bool.true_or]
    exact Trait.meet_noAccess _

/-! ## The groups of a node -/

/-- The groups `ids` of the ledger `lg` gather what reaches `n`, lifted to `n`, and stand apart.
What was said about their members comes from the resolvers and from copies made below `n`. -/
structure Gathered (s : Scope) (l : Ledger) (n : AliasNodeId) (lg : Ledger) (ids : List EntryId)
    (place : EstimateId → EstimateId) (said : EstimateId → Trait) : Prop where
  explicit : lg.explicit = l.explicit
  accounts : lg.Accounts s.tree place said
  gathers : lg.Gathers ids fun em => s.reaches n em = true
  apart : ids.Pairwise (s.Apart lg)
  placed : ∀ em ∈ l.explicit.keys, s.reaches n em = true → place em = s.tree.liftTo n em
  told : ∀ em ∈ l.explicit.keys, s.reaches n em = true →
    said em = (l.traitOf em).meet (.copyIn (s.copiedBelow l n em))

namespace Gathered

variable {place : EstimateId → EstimateId}

/-- Two groups of which one stands at memory around the other's are the same. -/
theorem eq_of_ancestor (g : Gathered s l n lg ids place said) {i j : EntryId} (hi : i ∈ ids)
    (hj : j ∈ ids) (hm : lg.memory? i = some m) (hm' : lg.memory? j = some m')
    (h : s.tree.isEstimateAncestor m m' = true) : i = j := by
  by_cases hne : i = j
  · exact hne
  · let R (i j : EntryId) : Prop := i ≠ j → s.Apart lg i j
    have hforth : ids.Pairwise R := by
      refine g.apart.imp ?_
      exact fun h _ => h
    have hback : ids.Pairwise (flip R) := by
      refine g.apart.imp ?_
      exact fun h _ => Scope.Apart.symm h
    have hapart : R i j := hforth.forall_of_forall_of_flip (fun i _ h => absurd rfl h) hback hi hj
    rw [(hapart hne m m' hm hm').1] at h
    cases h

/-- A group speaks for what its memory stands for. -/
theorem member_eq (g : Gathered s l n lg ids place said) (hid : id ∈ ids)
    (hm : lg.memory? id = some m) (hem : em ∈ l.explicit.keys) :
    lg.member id em = s.standsFor n m em := by
  rw [Bool.eq_iff_iff, Ledger.member_iff, standsFor_iff]
  constructor
  · intro h
    have hreach := (g.gathers.holds em id h).mp hid
    obtain ⟨e₀, -, hm₀, hanc⟩ := g.accounts.stands em id h
    rw [Option.some.inj (hm₀.symm.trans hm), g.placed em hem hreach] at hanc
    exact ⟨hreach, hanc⟩
  · rintro ⟨hreach, hanc⟩
    rw [← g.explicit] at hem
    obtain ⟨j, hj⟩ := Ledger.mem_explicit_keys.mp hem
    have hjids := (g.gathers.holds em j hj).mpr hreach
    obtain ⟨e₀, -, hm₀, hanc₀⟩ := g.accounts.stands em j hj
    rw [g.placed em (g.explicit ▸ hem) hreach] at hanc₀
    rcases AliasTree.isEstimateAncestor_chain hanc hanc₀ with hmm | hmm
    · rw [g.eq_of_ancestor hid hjids hm hm₀ hmm]
      exact hj
    · rw [← g.eq_of_ancestor hjids hid hm₀ hm hmm]
      exact hj

/-- A group speaks for something. -/
theorem exists_standsFor (g : Gathered s l n lg ids place said) (hid : id ∈ ids)
    (hm : lg.memory? id = some m) :
    ∃ em ∈ l.explicit.keys, s.reaches n em = true ∧ s.tree.liftTo n em = m := by
  obtain ⟨em, hem, hreach⟩ := g.gathers.holds_of_mem hid
  obtain ⟨e₀, he₀, hm₀, -⟩ := g.accounts.stands em id hem
  have hkey : e₀ ∈ l.explicit.keys := g.explicit ▸ Ledger.mem_explicit_keys.mpr ⟨id, he₀⟩
  have hreach₀ := (g.gathers.holds e₀ id he₀).mp hid
  refine ⟨e₀, hkey, hreach₀, ?_⟩
  rw [← g.placed e₀ hkey hreach₀]
  exact Option.some.inj (hm₀.symm.trans hm)

/-- The groups stand at the heads of the node. -/
theorem mem_heads_iff (g : Gathered s l n lg ids place said) :
    m ∈ s.heads l n ↔ ∃ id ∈ ids, lg.memory? id = some m := by
  have hlifted {j : EntryId} {m : EstimateId} (hj : j ∈ ids) (hm : lg.memory? j = some m) :
      m ∈ s.lifted l n :=
    mem_lifted.mpr (g.exists_standsFor hj hm)
  have hgroup {m : EstimateId} (hm : m ∈ s.lifted l n) :
      ∃ j ∈ ids, ∃ m', lg.memory? j = some m' ∧ s.tree.isEstimateAncestor m' m = true := by
    obtain ⟨em, hkey, hreach, rfl⟩ := mem_lifted.mp hm
    obtain ⟨j, hj⟩ := Ledger.mem_explicit_keys.mp (g.explicit ▸ hkey)
    obtain ⟨e₀, -, hm₀, hanc⟩ := g.accounts.stands em j hj
    rw [g.placed em hkey hreach] at hanc
    exact ⟨j, (g.gathers.holds em j hj).mpr hreach, place e₀, hm₀, hanc⟩
  constructor
  · intro hm
    obtain ⟨hm, hmax⟩ := mem_heads.mp hm
    obtain ⟨j, hj, m', hm', hanc⟩ := hgroup hm
    exact ⟨j, hj, hmax m' (hlifted hj hm') hanc ▸ hm'⟩
  · rintro ⟨id, hid, hm⟩
    refine mem_heads.mpr ⟨hlifted hid hm, fun m' hm' hanc => ?_⟩
    obtain ⟨j, hj, m'', hm'', hanc'⟩ := hgroup hm'
    have hji := g.eq_of_ancestor hj hid hm'' hm (AliasTree.isEstimateAncestor_trans hanc' hanc)
    obtain rfl : m'' = m := Option.some.inj ((hji ▸ hm'').symm.trans hm)
    exact AliasTree.isEstimateAncestor_antisymm hanc hanc'

/-- No memory is listed twice. -/
theorem nodup_memories (g : Gathered s l n lg ids place said) : (ids.map lg.memory?).Nodup := by
  refine List.pairwise_map.mpr (g.gathers.nodup.imp_of_mem fun {i j} hi hj hne heq => hne ?_)
  obtain ⟨e, he, -⟩ := g.gathers.holds_of_mem hi
  obtain ⟨m, hm⟩ := (g.accounts.grouped.leads he).exists_memory
  exact g.eq_of_ancestor hi hj hm (heq.symm.trans hm) (AliasTree.isEstimateAncestor_refl m)

/-- What a group carries before it is stored: the evidence, with a copy if some of it was copied
below the node. -/
theorem value_eq (g : Gathered s l n lg ids place said) (hid : id ∈ ids)
    (hm : lg.memory? id = some m) :
    lg.value id = (s.evidence l n m).meet
      (.copyIn (l.explicit.keys.any fun em => s.standsFor n m em && s.copiedBelow l n em)) := by
  obtain ⟨em, hem, -⟩ := g.gathers.holds_of_mem hid
  rw [g.accounts.heard em id hem, g.explicit, evidence, ← Trait.meetOver_copyIn]
  refine Trait.meetOver_congr (fun k hk => g.member_eq hid hm hk) fun k hk hstands => ?_
  exact g.told k hk (standsFor_iff.mp hstands).1

/-- What a group carries once it is stored is the verdict on its memory. -/
theorem stored_value_eq (g : Gathered s l n lg ids place said) (hid : id ∈ ids)
    (hm : lg.memory? id = some m) :
    (lg.value id).meet (.copyIn (s.wants lg id)) = s.verdict l n m := by
  have hwants : s.wants lg id = s.needsCopyIn m (lg.value id).categories := by
    unfold wants
    rw [hm]
    rfl
  rw [hwants, g.value_eq hid hm, meet_copyIn_needsCopyIn, verdict,
    copies_eq (g.mem_heads_iff.mpr ⟨id, hid, hm⟩)]
  rfl

/-- What is said at this node about the members of a group comes to the verdict on its memory. -/
theorem meetOver_heard (g : Gathered s l n lg ids place said) (hid : id ∈ ids)
    (hm : lg.memory? id = some m) :
    Trait.meetOver l.explicit.keys (lg.member id)
        (fun k => if s.reaches n k then s.heard l n k else said k)
      = s.verdict l n m := by
  rw [verdict, evidence, copies, ← Trait.meetOver_copyIn]
  refine Trait.meetOver_congr (fun k hk => g.member_eq hid hm hk) fun k _ hk => ?_
  rw [if_pos (standsFor_iff.mp hk).1, Scope.heard]

/-- What was said before, with the copy made when the group is stored, comes to the same verdict. -/
theorem meetOver_stored (g : Gathered s l n lg ids place said) (hid : id ∈ ids)
    (hm : lg.memory? id = some m) :
    Trait.meetOver l.explicit.keys (lg.member id)
        (fun k => (said k).meet (.copyIn (ids.any fun j => lg.member j k && s.wants lg j)))
      = s.verdict l n m := by
  obtain ⟨em, hem, -⟩ := g.gathers.holds_of_mem hid
  -- A member of the group is a member of no other, so it is copied exactly if the group wants it.
  have hwants (k : EstimateId) (hk : lg.member id k = true) :
      (ids.any fun j => lg.member j k && s.wants lg j) = s.wants lg id := by
    rw [Bool.eq_iff_iff, List.any_eq_true]
    constructor
    · rintro ⟨j, -, hj⟩
      rw [Bool.and_eq_true, Ledger.member_iff, Ledger.member_iff.mp hk] at hj
      rw [Option.some.inj hj.1]
      exact hj.2
    · intro hw
      exact ⟨id, hid, by rw [hk, hw]; rfl⟩
  rw [← g.stored_value_eq hid hm, g.accounts.heard em id hem, g.explicit,
    ← Trait.meetOver_meet (g.explicit ▸ Ledger.mem_explicit_keys.mpr ⟨id, hem⟩)
      (Ledger.member_iff.mpr hem)]
  exact Trait.meetOver_congr (fun _ _ => rfl) fun k _ hk => by rw [hwants k hk]

/-- Once the groups are stored, the account holds what is said about memory at this node. -/
theorem accounts_stored {unknowns : List UnknownEntryId} {traits : TraitMap}
    {r : Ledger × TraitMap} (g : Gathered s l n lg ids place said)
    (st : Stored s n lg ids unknowns traits place said r) :
    r.1.Accounts s.tree place fun em => if s.reaches n em then s.heard l n em else said em where
  grouped := st.accounts.grouped
  stands := st.accounts.stands
  heard em id h := by
    have hkeys : r.1.explicit.keys = l.explicit.keys := by
      rw [st.refines.within.explicit, g.explicit]
    -- Storing results changes no group, only what is said of it.
    have hmember (j : EntryId) (k : EstimateId) : r.1.member j k = lg.member j k := by
      unfold Ledger.member
      rw [st.refines.within.explicitEntry?_eq]
    have hgroup : lg.explicitEntry? em = some id :=
      (st.refines.within.explicitEntry?_eq em).symm.trans h
    rw [st.accounts.heard em id h, funext (hmember id), hkeys]
    by_cases hid : id ∈ ids
    · obtain ⟨m, hm⟩ := (g.accounts.grouped.leads hgroup).exists_memory
      rw [g.meetOver_stored hid hm, g.meetOver_heard hid hm]
    · -- Nothing was stored for the group, and nothing it speaks for reaches the node.
      refine Trait.meetOver_congr (fun _ _ => rfl) fun k _ hk => ?_
      have hk := Ledger.member_iff.mp hk
      have hreach : ¬s.reaches n k = true :=
        fun hreach => hid ((g.gathers.holds k id hk).mpr hreach)
      have hnone : (ids.any fun j => lg.member j k && s.wants lg j) = false := by
        rw [List.any_eq_false]
        intro j hj hjk
        rw [Bool.and_eq_true, Ledger.member_iff, hk] at hjk
        exact hid (Option.some.inj hjk.1 ▸ hj)
      rw [if_neg hreach, hnone]
      exact Trait.meet_noAccess _

end Gathered

end Privatization.Scope
