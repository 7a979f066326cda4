import Privatization.Proofs.Facts.Within

/-!
# Texts put together

Two texts that can be read can be read with a line end between them, and give the statements of the
one and then those of the other, further down (`parse_append`). Each is read inside the whole as it is
read alone: whatever stands behind a statement ends its line (`atLineEnd_of_statements`), and from the
end of the first text reading goes on at the beginning of the second.
-/

namespace Privatization.Facts

namespace Cursor

variable {c : Cursor} {w : Surroundings} {n m : Nat}

/-- Behind what is skipped nothing more is to be skipped. -/
theorem stops_skip (c : Cursor) : Stops isSkipped c.skip.rest := by
  obtain ⟨rest, hrest, hblank⟩ := c.exists_rest isBlank
  have hahead : (c.advance (c.run isBlank).length).rest = rest := rest_advance_length hrest
  unfold skip
  dsimp only
  generalize c.advance (c.run isBlank).length = d at *
  subst hahead
  split
  next =>
    -- A comment runs to the end of its line.
    obtain ⟨rest, hrest, hend⟩ := d.exists_rest (!isLineEnd ·)
    rw [rest_advance_length hrest]
    exact hend.of_lineEnd (by decide) (by decide)
  next hhash =>
    intro ch hch
    obtain ⟨cs, hcs⟩ := List.head?_eq_some_iff.mp hch
    have hne : ch ≠ '#' := fun heq => hhash cs (heq ▸ hcs)
    simp [isSkipped, hblank ch hch, hne]

theorem skip_skip (c : Cursor) : c.skip.skip = c.skip := skip_of_stops c.stops_skip

/-- A line without statement is passed together with its end. -/
theorem skipLines_of_end {ch : Char} {cs : List Char} (h : c.skip.rest = ch :: cs)
    (hend : isLineEnd ch = true) (n : Nat) :
    c.skipLines (n + 1) = (c.skip.advance 1).skipLines n := by
  rw [skipLines, h]
  exact if_pos hend

/-- A line with a statement is where passing lines stops. -/
theorem skipLines_of_stop (h : Stops isLineEnd c.skip.rest) (n : Nat) :
    c.skipLines (n + 1) = c.skip := by
  rw [skipLines]
  split
  next ch cs hcs =>
    rw [hcs, stops_cons] at h
    rw [h]
    rfl
  next => rfl

/-- Induction along the lines that are skipped: `c` stands at the last of them or at one before. -/
theorem skipLines_cases (c : Cursor) :
    Stops isLineEnd c.skip.rest ∨ ∃ ch cs, c.skip.rest = ch :: cs ∧ isLineEnd ch = true := by
  cases h : c.skip.rest with
  | nil => exact .inl stops_nil
  | cons ch cs =>
    cases hend : isLineEnd ch with
    | false => exact .inl (stops_cons.mpr hend)
    | true => exact .inr ⟨ch, cs, rfl, hend⟩

/-- A bound beyond the characters ahead is never met. -/
theorem skipLines_stable (h : c.rest.length < n) (hle : n ≤ m) : c.skipLines m = c.skipLines n := by
  induction n generalizing c m with
  | zero => exact absurd h (Nat.not_lt_zero _)
  | succ n ih =>
    obtain ⟨m, rfl⟩ := Nat.exists_eq_add_of_le' (Nat.le_trans n.succ_pos hle)
    rcases c.skipLines_cases with hstop | ⟨ch, cs, hcs, hend⟩
    · rw [skipLines_of_stop hstop, skipLines_of_stop hstop]
    · rw [skipLines_of_end hcs hend, skipLines_of_end hcs hend]
      refine ih ?_ (Nat.le_of_succ_le_succ hle)
      have hle := c.reaches_skip.length_le
      have hpos : 0 < c.skip.rest.length := by simp [hcs]
      rw [rest_advance, List.length_drop]
      omega

theorem advance_skip_within {ch : Char} {cs : List Char} (h : c.skip.rest = ch :: cs) :
    (c.within w).skip.advance 1 = (c.skip.advance 1).within w := by
  rw [skip_within, advance_within (by simp [h])]

theorem skip_rest_within {ch : Char} {cs : List Char} (h : c.skip.rest = ch :: cs) :
    (c.within w).skip.rest = ch :: (cs ++ w.after) := by
  rw [skip_within, rest_within, h]
  rfl

/-- Lines are skipped in the larger text as far as in the text itself, if something follows them. -/
theorem skipLines_within {ch : Char} {cs : List Char} (h : (c.skipLines n).rest = ch :: cs)
    (hch : Grammar.isBetween ch = false) (hle : n ≤ m) :
    (c.within w).skipLines m = (c.skipLines n).within w := by
  induction n generalizing c m with
  | zero =>
    refine Grammar.skipLines_of_stops (c := c.within w) ?_ m
    have hrest : c.rest = ch :: cs := h
    rw [rest_within, hrest]
    exact stops_cons.mpr hch
  | succ n ih =>
    obtain ⟨m, rfl⟩ := Nat.exists_eq_add_of_le' (Nat.le_trans n.succ_pos hle)
    rcases c.skipLines_cases with hstop | ⟨x, xs, hxs, hend⟩
    · rw [skipLines_of_stop hstop] at h ⊢
      rw [skipLines_of_stop, skip_within]
      rw [skip_rest_within h]
      rw [h] at hstop
      exact stops_cons.mpr (stops_cons.mp hstop)
    · rw [skipLines_of_end hxs hend] at h ⊢
      rw [skipLines_of_end (skip_rest_within hxs) hend, advance_skip_within hxs]
      exact ih h (Nat.le_of_succ_le_succ hle)

/-- Where only lines to be skipped are left of the text, skipping goes on behind it. -/
theorem skipLines_through (h : (c.skipLines n).rest = []) (hm : (c.within w).rest.length < m) :
    (c.within w).skipLines m = ((c.skipLines n).within w).skipLines m := by
  induction n generalizing c m with
  | zero => rfl
  | succ n ih =>
    obtain ⟨m, rfl⟩ := Nat.exists_eq_add_of_le' (Nat.zero_lt_of_lt hm)
    rcases c.skipLines_cases with hstop | ⟨ch, cs, hcs, hend⟩
    · -- `c` stands in the last line, and blanks are skipped but once.
      rw [skipLines_of_stop hstop]
      have hskip : (c.skip.within w).skip = (c.within w).skip := by
        rw [skip_within, skip_within, skip_skip]
      unfold skipLines
      rw [hskip]
    · rw [skipLines_of_end hcs hend] at h ⊢
      have hlength : ((c.skip.advance 1).within w).rest.length < m := by
        have hle := c.reaches_skip.length_le
        have hpos : 0 < c.skip.rest.length := by simp [hcs]
        simp only [rest_within, rest_advance, List.length_append, List.length_drop] at hm ⊢
        omega
      have hfurther : (((c.skip.advance 1).skipLines n).within w).rest.length < m := by
        have hle := ((c.skip.advance 1).reaches_skipLines n).length_le
        simp only [rest_within, List.length_append] at hlength ⊢
        omega
      rw [skipLines_of_end (skip_rest_within hcs) hend, advance_skip_within hcs, ih h hlength,
        skipLines_stable hfurther (Nat.le_succ m)]

/-- The end of a text stands behind all its characters and all its lines. -/
theorem eq_of_reaches_end {cs : List Char} (h : (start cs).Reaches c) (hend : c.rest = []) :
    c = ⟨cs.length, 1 + cs.count '\n', []⟩ := by
  have hposition := h.position_add
  have hline := h.line_add
  obtain ⟨position, line, rest⟩ := c
  subst hend
  simp_all [start]

end Cursor

namespace Grammar

variable {c c' : Cursor} {w : Surroundings} {n m : Nat}

/-- Where a name stands, an item is found. -/
theorem item_ne_none (hn : 0 < n) (h : c.run isNameChar ≠ []) : (item n c).found ≠ none := by
  obtain ⟨n, rfl⟩ := Nat.exists_eq_add_one_of_ne_zero (Nat.ne_of_gt hn)
  have hname : (name c).found ≠ none := by
    unfold name run1
    split
    next heq => exact absurd heq h
    next => exact Option.some_ne_none _
  intro hnone
  rw [item, datum] at hnone
  simp only [single, Attempt.found_orElse, Attempt.found_map, Option.or_eq_none_iff,
    Option.map_eq_none_iff] at hnone
  exact hname hnone.2.2.2.2.2.2

/-- A statement begins with the first letter of its keyword. -/
theorem exists_letter_of_statement {x : Except FactsError Statement}
    (h : (statement n c).found = some (x, c')) : ∃ ch cs, c.rest = ch :: cs ∧ ch.isAlpha = true := by
  unfold statement at h
  simp only [Attempt.found_named, Attempt.found_andThen, Option.bind_eq_some_iff, Prod.exists] at h
  obtain ⟨keyword, c₁, hkeyword, -⟩ := h
  obtain ⟨hne, hrun, -⟩ := run1_eq_some hkeyword
  obtain ⟨ch, cs, rfl⟩ := List.exists_cons_of_ne_nil hne
  obtain ⟨rest, hrest, -⟩ := c.exists_rest Char.isAlpha
  rw [← hrun] at hrest
  exact ⟨ch, cs ++ rest, hrest, Cursor.mem_run (hrun ▸ List.mem_cons_self)⟩

/-- What begins with a letter would be one more item, so no statement begins where items end. -/
theorem atLineEnd_of_statements {k : Nat} {p : List (Except FactsError Statement) × Cursor}
    (hended : (item n c.skip).found = none) (hn : 0 < n) (h : (statements n k c).found = some p) :
    c.AtLineEnd := by
  obtain ⟨n, rfl⟩ := Nat.exists_eq_add_one_of_ne_zero (Nat.ne_of_gt hn)
  cases k with
  | zero => cases h
  | succ k =>
    rcases c.skipLines_cases with hstop | ⟨ch, cs, hcs, hend⟩
    · rw [statements] at h
      dsimp only at h
      rw [Cursor.skipLines_of_stop hstop] at h
      split at h
      next x c₁ hfirst =>
        obtain ⟨ch, cs, hcs, hch⟩ := exists_letter_of_statement hfirst
        have hname : isNameChar ch = true := by simp [isNameChar, Char.isAlphanum, hch]
        -- Another statement on the same line would begin with a letter, and so have been an item.
        refine absurd hended (item_ne_none n.succ_pos ?_)
        rw [Cursor.run, hcs, List.takeWhile_cons_of_pos hname]
        exact List.cons_ne_nil _ _
      next =>
        split at h
        next hempty =>
          unfold Cursor.AtLineEnd
          rw [List.isEmpty_iff.mp hempty]
          exact stops_nil
        next => cases h
    · unfold Cursor.AtLineEnd
      rw [hcs]
      exact stops_cons.mpr (by rw [hend]; rfl)

/-- Behind a statement no further item is found. -/
theorem items_ended_of_statement {x : Except FactsError Statement} (hn : c.rest.length < n)
    (h : (statement n c).found = some (x, c')) : (item n c'.skip).found = none := by
  unfold statement at h
  simp only [Attempt.found_named, Attempt.found_andThen, Attempt.found_map, Option.bind_eq_some_iff,
    Option.map_eq_some_iff, Prod.exists, Prod.mk.injEq] at h
  obtain ⟨keyword, c₁, hkeyword, is, c₂, his, -, rfl⟩ := h
  exact items_ended his (Nat.lt_of_le_of_lt (run1_passes hkeyword).1.length_le hn)

/-- Statements begin where the lines to be skipped end. -/
theorem statements_congr {d : Cursor} (h : c.skipLines n = d.skipLines n) (k : Nat) :
    statements n (k + 1) c = statements n (k + 1) d := by
  rw [statements, statements, h]

/-- The statements of a text are read inside the larger one, and reading goes on behind the text. -/
theorem statements_kept {k : Nat} {ss : List Statement}
    (h : (statements n k c).found = some (ss.map .ok, c')) (hn : c.rest.length < n)
    (hm : (c.within w).rest.length < m) (hle : n ≤ m) (j : Nat) :
    (statements m (ss.length + (j + 1)) (c.within w)).found
      = (statements m (j + 1) (c'.within w)).found.map fun p =>
          ((ss.map fun s => .ok (s.below (w.before.count '\n'))) ++ p.1, p.2) := by
  induction k generalizing c ss with
  | zero => cases h
  | succ k ih =>
    rw [statements] at h
    dsimp only at h
    split at h
    next x c₁ hfirst =>
      obtain ⟨⟨xs, c₂⟩, hothers, heq⟩ := Option.map_eq_some_iff.mp h
      obtain ⟨hxs, rfl⟩ := Prod.mk.inj heq
      obtain ⟨s, ss, rfl, rfl, rfl⟩ := List.map_eq_cons_iff.mp hxs.symm
      have hpasses := statement_passes hfirst
      have hshorter : c₁.rest.length < n :=
        Nat.lt_of_le_of_lt ((c.reaches_skipLines n).trans hpasses.1).length_le hn
      -- The first statement is read alike only if what follows it does: its last item has ended,
      -- and nothing but a comment stands before the line end.
      have hended : (item n c₁.skip).found = none :=
        items_ended_of_statement
          (Nat.lt_of_le_of_lt (c.reaches_skipLines n).length_le hn) hfirst
      have hline := atLineEnd_of_statements hended (Nat.zero_lt_of_lt hn) hothers
      obtain ⟨ch, cs, hcs, hch⟩ := exists_letter_of_statement hfirst
      have hstart := Cursor.skipLines_within (w := w) hcs (isBetween_of_isAlpha hch) hle
      have hkept := statement_kept (w := w) hle hfirst hline
      have hroom : (c₁.within w).rest.length < m := by
        have hlength := ((c.reaches_skipLines n).trans hpasses.1).length_le
        simp only [Cursor.rest_within, List.length_append] at hm ⊢
        omega
      have hrest := ih hothers hshorter hroom
      have hlength : (s :: ss).length + (j + 1) = (ss.length + (j + 1)) + 1 := by
        rw [List.length_cons]
        omega
      rw [hlength, statements]
      dsimp only
      rw [hstart, hkept]
      dsimp only
      rw [hrest, Option.map_map]
      rfl
    next =>
      split at h
      next hempty =>
        obtain ⟨hss, rfl⟩ := Prod.mk.inj (Option.some.inj h)
        obtain rfl := List.map_eq_nil_iff.mp hss.symm
        -- At the end of the text only lines without statements were left, and the cursor runs
        -- through them into the text that follows.
        have hend := List.isEmpty_iff.mp hempty
        have hthrough := Cursor.skipLines_through (w := w) hend hm
        rw [List.length_nil, Nat.zero_add, statements_congr hthrough]
        exact Option.map_id'.symm
      next => cases h

/-- The line end between two texts is skipped with the lines in front of the second. -/
theorem statements_feed {rest : List Char} (h : c.rest = '\n' :: rest) (hn : c.rest.length < n) (k : Nat) :
    statements n (k + 1) c = statements n (k + 1) (c.advance 1) := by
  obtain ⟨n, rfl⟩ := Nat.exists_eq_add_one_of_ne_zero (Nat.ne_of_gt (Nat.zero_lt_of_lt hn))
  have hskip : c.skip = c := Cursor.skip_of_stops (h ▸ stops_cons.mpr (by decide))
  have hshorter : (c.advance 1).rest.length < n := by
    rw [h, List.length_cons] at hn
    rw [Cursor.rest_advance, h]
    exact Nat.lt_of_succ_lt_succ hn
  refine statements_congr ?_ k
  rw [Cursor.skipLines_of_end (c := c) (by rw [hskip, h]) (by decide), hskip,
    Cursor.skipLines_stable hshorter (Nat.le_succ n)]

/-- At the end of the text no statement is left. -/
theorem statements_of_end (h : c.rest = []) (k : Nat) :
    (statements n (k + 1) c).found = some ([], c) := by
  have hstay := skipLines_of_stops (h ▸ stops_nil) n
  have hnone : (statement n c).found = none := by
    have hkeyword : (run1 Char.isAlpha c).found = none := run1_none (h ▸ stops_nil)
    simp [statement, hkeyword]
  rw [statements]
  dsimp only
  rw [hstay, hnone]
  simp [h]

end Grammar

/-- A text that can be read is read as statements up to its end. -/
theorem parse_eq_ok_iff {text : String} {ss : List Statement} :
    parse text = .ok ss ↔ ∃ c', (Grammar.statements (text.toList.length + 1) (text.toList.length + 1)
      (.start text.toList)).found = some (ss.map .ok, c') := by
  unfold parse
  dsimp only
  constructor
  · intro h
    split at h
    next xs c' hfound =>
      obtain rfl := eq_map_ok_of_mapM h
      exact ⟨c', hfound⟩
    next => cases h
  · rintro ⟨c', hfound⟩
    rw [hfound]
    exact mapM_map_eq_ok fun _ _ => rfl

/-! ## Two texts -/

/-- A second text stands behind, with a line feed between them. -/
def Surroundings.followedBy (text : List Char) : Surroundings := ⟨[], '\n' :: text, .inr ⟨text, rfl⟩⟩

/-- A first text stands in front, with a line feed between them. -/
def Surroundings.behind (text : List Char) : Surroundings := ⟨text ++ ['\n'], [], .inl rfl⟩

/-- Behind the end of the first text, and the line feed there, the second begins. -/
theorem Cursor.advance_within_followedBy {c : Cursor} {cs : List Char} (h : (start cs).Reaches c)
    (hend : c.rest = []) (rest : List Char) :
    (c.within (.followedBy rest)).advance 1 = (start rest).within (.behind cs) := by
  have hposition : 0 + cs.length + 1 = (cs ++ ['\n']).length + 0 := by
    rw [List.length_append, Nat.zero_add]
    rfl
  have hline : 0 + (1 + cs.count '\n') + 1 = (cs ++ ['\n']).count '\n' + 1 := by
    rw [List.count_append, Nat.zero_add, Nat.add_comm 1]
    rfl
  rw [eq_of_reaches_end h hend]
  exact congr (congr (congrArg Cursor.mk hposition) hline) (List.append_nil rest).symm

/-- Two texts that can be read can be read with a line feed between them. The statements of
the first are those it has alone, and those of the second stand further down by the lines of
the first. -/
theorem parse_append {a b : String} {ss ts : List Statement} (ha : parse a = .ok ss)
    (hb : parse b = .ok ts) :
    parse (a ++ "\n" ++ b) = .ok (ss ++ ts.map (·.below (1 + a.toList.count '\n'))) := by
  obtain ⟨a', hfirst⟩ := parse_eq_ok_iff.mp ha
  obtain ⟨b', hsecond⟩ := parse_eq_ok_iff.mp hb
  obtain ⟨hreaches, hend, hcount⟩ := Grammar.statements_reaches hfirst
  obtain ⟨-, hend', hcount'⟩ := Grammar.statements_reaches hsecond
  rw [List.length_map] at hcount hcount'
  have htext : (a ++ "\n" ++ b).toList = a.toList ++ '\n' :: b.toList := by
    simp only [String.toList_append, List.append_assoc]
    rfl
  have hstart : (Cursor.start a.toList).within (.followedBy b.toList)
      = .start (a.toList ++ '\n' :: b.toList) := rfl
  have hfeed : (a'.within (.followedBy b.toList)).rest = '\n' :: b.toList := by
    rw [Cursor.rest_within, hend]
    rfl
  rw [parse_eq_ok_iff, htext, ← hstart]
  generalize hn : (a.toList ++ '\n' :: b.toList).length + 1 = n
  rw [List.length_append, List.length_cons] at hn
  -- Room for the statements of both texts, and one round more at the end.
  obtain ⟨k, hk⟩ : ∃ k, n = ss.length + (ts.length + (k + 1)) :=
    ⟨n - ss.length - ts.length - 1, by omega⟩
  have hwhole : ((Cursor.start a.toList).within (.followedBy b.toList)).rest.length < n := by
    rw [hstart, Cursor.rest_start, List.length_append, List.length_cons]
    omega
  have hpart : ((Cursor.start b.toList).within (.behind a.toList)).rest.length < n := by
    show (b.toList ++ []).length < n
    rw [List.append_nil]
    omega
  have hone := Grammar.statements_kept hfirst (Nat.lt_succ_self _) hwhole (by omega) (ts.length + k)
  have htwo := Grammar.statements_kept hsecond (Nat.lt_succ_self _) hpart (by omega) k
  have hmiddle : Grammar.statements n (ts.length + (k + 1)) (a'.within (.followedBy b.toList))
      = Grammar.statements n (ts.length + (k + 1)) ((Cursor.start b.toList).within (.behind a.toList)) := by
    rw [← Cursor.advance_within_followedBy hreaches hend]
    exact Grammar.statements_feed hfeed (by rw [hfeed, List.length_cons]; omega) (ts.length + k)
  have hlast : (b'.within (.behind a.toList)).rest = [] := by
    rw [Cursor.rest_within, hend']
    rfl
  rw [Nat.add_assoc, ← hk, hmiddle, htwo, Grammar.statements_of_end hlast] at hone
  refine ⟨b'.within (.behind a.toList), hone.trans ?_⟩
  have hshift : (Surroundings.behind a.toList).before.count '\n' = 1 + a.toList.count '\n' := by
    rw [Surroundings.behind, List.count_append, Nat.add_comm]
    rfl
  have hsame : (Surroundings.followedBy b.toList).before.count '\n' = 0 := rfl
  simp [hshift, hsame]

/-- The first text ends in a comment with a quote and a carriage return, the second begins with a
comment and holds a quoted line feed. -/
theorem parse_append_comments :
    parse "inst a=1 # \"\r" = .ok [⟨"inst", 1, [], [("a", .number 1)]⟩]
      ∧ parse "#\nlive [x, \"\n\"]" = .ok [⟨"live", 2, [.list [.name "x", .text "\n"]], []⟩]
      ∧ parse ("inst a=1 # \"\r" ++ "\n" ++ "#\nlive [x, \"\n\"]")
        = .ok [⟨"inst", 1, [], [("a", .number 1)]⟩,
          ⟨"live", 3, [.list [.name "x", .text "\n"]], []⟩] := by
  have ha : parse "inst a=1 # \"\r" = .ok [⟨"inst", 1, [], [("a", .number 1)]⟩] := rfl
  have hb : parse "#\nlive [x, \"\n\"]"
      = .ok [⟨"live", 2, [.list [.name "x", .text "\n"]], []⟩] := rfl
  exact ⟨ha, hb, parse_append ha hb⟩

end Privatization.Facts
