import Privatization.Proofs.Facts.Values

/-!
# Statements written and read

Well-formed statements, each written on a line of its own, are read again as they were, with the
lines they stand on, and only such statements are read (`parse_lines`). A positional value is no key
of an attribute: what stands behind it is another item or the end of the line.
-/

namespace Privatization.Facts

variable {c : Cursor} {rest : List Char}

namespace Grammar

/-! ## Items -/

/-- An attribute with its key, or a positional value, as it is written. -/
def itemText : Option String × Datum → List Char
  | (none, d) => d.render.toList
  | (some key, d) => key.toList ++ '=' :: d.render.toList

/-- Items as they are written behind a keyword. -/
def itemsText (is : List (Option String × Datum)) : List Char := is.flatMap fun i => ' ' :: itemText i

/-- What is read of an item. -/
def itemRead (i : Option String × Datum) : Item := (i.1, .ok i.2)

/-- The end of a line. -/
def EndsLine (rest : List Char) : Prop := rest = [] ∨ ∃ rest', rest = '\n' :: rest'

/-- What may stand behind an item: another item or the end of the line. -/
def Follows (rest : List Char) : Prop :=
  EndsLine rest ∨ ∃ ch cs, rest = ' ' :: ch :: cs ∧ startsValue ch = true

/-- What may stand behind an item ends a value. -/
theorem Follows.ends (h : Follows rest) : Ends rest := by
  rcases h with (rfl | ⟨rest', rfl⟩) | ⟨ch, cs, rfl, -⟩
  · exact stops_nil
  · exact stops_cons.mpr (by decide)
  · exact stops_cons.mpr (by decide)

/-- Behind an item no equals sign follows, blanks skipped. -/
theorem Follows.not_equals (h : Follows c.rest) : Stops (· == '=') c.skip.rest := by
  rcases h with (h | ⟨rest', h⟩) | ⟨ch, cs, h, hch⟩
  · rw [Cursor.skip_of_stops (by simp [h]), h]
    exact stops_nil
  · rw [Cursor.skip_of_stops (by rw [h]; exact stops_cons.mpr (by decide)), h]
    exact stops_cons.mpr (by decide)
  · rw [Cursor.skip_blank h (stops_cons.mpr (isSkipped_of_startsValue hch)), Cursor.rest_advance, h]
    refine stops_cons.mpr (beq_eq_false_iff_ne.mpr ?_)
    rintro rfl
    exact absurd hch (by decide)

/-- The key and the equals sign of an attribute are not there. -/
theorem key_none {n : Nat} (h : c.run isNameChar ≠ [] →
    Stops (· == '=') (c.advance (c.run isNameChar).length).skip.rest) :
    ((name c).andThen fun key c => (char '=' c.skip).andThen fun _ c =>
      (datum n c.skip).map fun d => (some key, d)).found = none := by
  simp only [Attempt.found_andThen, Option.bind_eq_none_iff, Prod.forall]
  intro key c₁ hname _ c₂ hequals
  obtain ⟨hkey, hrun, rfl⟩ := name_eq_some hname
  have hnone : (char '=' (c.advance key.toList.length).skip).found = none := by
    rw [hrun]
    exact char_none (h (hrun ▸ hkey.ne_nil))
  rw [hnone] at hequals
  cases hequals

/-- Behind the name characters of a value there is no equals sign. -/
theorem not_key {d : Datum} (hd : d.WellFormed) (h : c.rest = d.render.toList ++ rest)
    (hfollows : Follows rest) (hne : c.run isNameChar ≠ []) :
    Stops (· == '=') (c.advance (c.run isNameChar).length).skip.rest := by
  have hall {cs : List Char} (hall : ∀ ch ∈ cs, isNameChar ch = true) (h : c.rest = cs ++ rest) :
      Stops (· == '=') (c.advance (c.run isNameChar).length).skip.rest := by
    rw [Cursor.run_eq h hall (hfollows.ends.stops (by decide))]
    refine Follows.not_equals ?_
    rwa [Cursor.rest_advance_length h]
  have hnone (ch : Char) {cs : List Char} (hch : isNameChar ch = false) (h : c.rest = ch :: cs) :
      Stops (· == '=') (c.advance (c.run isNameChar).length).skip.rest :=
    absurd (Cursor.run_of_stops (h ▸ stops_cons.mpr hch)) hne
  -- A name or number is the whole run and ends where the item ends; a location has its colon there;
  -- the other values begin with no name character.
  cases hd with
  | name hs hnumeral => exact hall hs.all h
  | @number n hlower hupper => exact hall (isNumeral_toString n).isNameChar h
  | @text s hquote =>
    exact hnone '"' (by decide) (by rw [h, Datum.render]; simp; rfl)
  | @location base size hbase hsize =>
    have h : c.rest = base.toList ++ ':' :: ((showSize size).toList ++ rest) := by
      simp [h, Datum.render]
    have hcolon := Cursor.rest_advance_length h
    rw [Cursor.run_eq h hbase.all (stops_cons.mpr (by decide)),
      Cursor.skip_of_stops (hcolon ▸ stops_cons.mpr (by decide)), hcolon]
    exact stops_cons.mpr (by decide)
  | @list ds hds =>
    exact hnone '[' (by decide) (by rw [h, Datum.render]; simp; rfl)
  | unknown => exact hnone '?' (by decide) h

/-- A positional value is read back. -/
theorem positional_found {n : Nat} {d : Datum} (hd : d.WellFormed)
    (hlt : d.render.toList.length < n) (h : c.rest = d.render.toList ++ rest)
    (hfollows : Follows rest) :
    (item n c).found = some ((none, .ok d), c.advance d.render.toList.length) := by
  unfold item
  simp only [Attempt.found_orElse, Attempt.found_named, key_none (not_key hd h hfollows),
    Attempt.found_map, datum_found hd hlt h hfollows.ends]
  rfl

/-- An attribute is read back, its key and its value. -/
theorem attribute_found {n : Nat} {key : String} {d : Datum} (hkey : IsName key) (hd : d.WellFormed)
    (hlt : d.render.toList.length < n) (h : c.rest = key.toList ++ '=' :: (d.render.toList ++ rest))
    (hends : Ends rest) : (item n c).found
      = some ((some key, .ok d), c.advance (key.toList.length + 1 + d.render.toList.length)) := by
  have hequals := Cursor.rest_advance_length h
  have hskip : (c.advance key.toList.length).skip = c.advance key.toList.length :=
    Cursor.skip_of_stops (hequals ▸ stops_cons.mpr (by decide))
  have hvalue : ((c.advance key.toList.length).advance 1).rest = d.render.toList ++ rest := by
    rw [Cursor.rest_advance, hequals]
    rfl
  have hskip' := Cursor.skip_of_stops (hvalue ▸ stops_render hd _ fun ch => isSkipped_of_startsValue)
  unfold item
  simp only [Attempt.found_orElse, Attempt.found_named, Attempt.found_andThen, Attempt.found_map,
    name_found hkey h (stops_cons.mpr (by decide)), Option.bind_some, hskip, char_found hequals,
    hskip', datum_found hd hlt hvalue hends, Option.map_some]
  simp only [Cursor.advance_advance]
  rfl

/-- An item begins with a character that may begin a value. -/
theorem exists_itemText {i : Option String × Datum} (hkey : ∀ k ∈ i.1, IsName k)
    (hvalue : i.2.WellFormed) : ∃ ch cs, itemText i = ch :: cs ∧ startsValue ch = true := by
  obtain ⟨_ | key, d⟩ := i
  · exact exists_render hvalue
  · obtain ⟨hne, hall⟩ := hkey key rfl
    obtain ⟨ch, cs, hcs⟩ := List.exists_cons_of_ne_nil hne
    refine ⟨ch, cs ++ '=' :: d.render.toList, by simp [itemText, hcs], ?_⟩
    have hch : isNameChar ch = true := hall ch (by simp [hcs])
    simp [startsValue, hch]

/-- An item is read back. -/
theorem item_found {n : Nat} {i : Option String × Datum} (hkey : ∀ k ∈ i.1, IsName k)
    (hvalue : i.2.WellFormed) (hlt : (itemText i).length < n) (h : c.rest = itemText i ++ rest)
    (hfollows : Follows rest) :
    (item n c).found = some (itemRead i, c.advance (itemText i).length) := by
  obtain ⟨_ | key, d⟩ := i
  · exact positional_found hvalue hlt h hfollows
  · have hlength : (itemText (some key, d)).length = key.toList.length + 1 + d.render.toList.length := by
      simp only [itemText, List.length_append, List.length_cons]
      omega
    rw [hlength]
    have hd : d.render.toList.length < n := by omega
    refine attribute_found (hkey key rfl) hvalue hd ?_ hfollows.ends
    simp [h, itemText]

/-- No item is found where no value can begin. -/
theorem item_none {n : Nat} (h : Stops startsValue c.rest) : (item n c).found = none := by
  have hname : Stops isNameChar c.rest := h.imp fun ch hch => by simp [startsValue, hch]
  simp [item, name_none hname, datum_none h]

/-- Behind an item stands the next one or the end of the line. -/
theorem follows_itemsText {is : List (Option String × Datum)}
    (his : ∀ i ∈ is, (∀ k ∈ i.1, IsName k) ∧ i.2.WellFormed) (hends : EndsLine rest) :
    Follows (itemsText is ++ rest) := by
  cases is with
  | nil => exact .inl hends
  | cons i is =>
    obtain ⟨hkey, hvalue⟩ := his i List.mem_cons_self
    obtain ⟨ch, cs, hcs, hch⟩ := exists_itemText hkey hvalue
    exact .inr ⟨ch, cs ++ (itemsText is ++ rest), by simp [itemsText, hcs], hch⟩

/-- Items are read back up to the end of the line. -/
theorem items_found {n k : Nat} {is : List (Option String × Datum)}
    (his : ∀ i ∈ is, (∀ k ∈ i.1, IsName k) ∧ i.2.WellFormed) (hlt : (itemsText is).length < n)
    (hk : (itemsText is).length < k) (h : c.rest = itemsText is ++ rest) (hends : EndsLine rest) :
    (items n k c).found = some (is.map itemRead, c.advance (itemsText is).length) := by
  induction is generalizing c k with
  | nil =>
    obtain ⟨k, rfl⟩ := Nat.exists_eq_add_one_of_ne_zero (Nat.ne_of_gt (Nat.zero_lt_of_lt hk))
    have hrest : Stops Cursor.isSkipped c.rest ∧ Stops startsValue c.rest := by
      rcases hends with rfl | ⟨rest', rfl⟩
      · simp [h, itemsText]
      · rw [h]
        exact ⟨stops_cons.mpr (by decide), stops_cons.mpr (by decide)⟩
    rw [items]
    simp [Cursor.skip_of_stops hrest.1, item_none hrest.2, itemsText]
  | cons i is ih =>
    obtain ⟨k, rfl⟩ := Nat.exists_eq_add_one_of_ne_zero (Nat.ne_of_gt (Nat.zero_lt_of_lt hk))
    obtain ⟨⟨hkey, hvalue⟩, his⟩ := List.forall_mem_cons.mp his
    have htext : itemsText (i :: is) = ' ' :: (itemText i ++ itemsText is) := by simp [itemsText]
    have hlength : (itemsText (i :: is)).length = 1 + (itemText i).length + (itemsText is).length := by
      simp only [htext, List.length_cons, List.length_append]
      omega
    have h : c.rest = ' ' :: (itemText i ++ (itemsText is ++ rest)) := by simp [h, htext]
    have hahead : (c.advance 1).rest = itemText i ++ (itemsText is ++ rest) := by simp [h]
    -- A single blank is skipped, since the item begins with no skipped character.
    have hskip : c.skip = c.advance 1 := by
      obtain ⟨ch, cs, hcs, hch⟩ := exists_itemText hkey hvalue
      refine Cursor.skip_blank h ?_
      rw [hcs]
      exact stops_cons.mpr (isSkipped_of_startsValue hch)
    have hfirst := item_found hkey hvalue (n := n) (by omega) hahead (follows_itemsText his hends)
    have hothers := ih his (by omega) (k := k) (by omega) (Cursor.rest_advance_length hahead)
    rw [items]
    simp only [hskip, hfirst, hothers, Option.map_some, List.map_cons, hlength]
    simp only [Cursor.advance_advance]

end Grammar

/-! ## Statements -/

namespace Statement

variable (s : Statement)

/-- The positional values and the attributes of a statement. -/
def items : List (Option String × Datum) :=
  s.positional.map (none, ·) ++ s.attrs.map fun (key, d) => (some key, d)

/-- A statement is written as its keyword and its items. -/
theorem toList_render : s.render.toList = s.keyword.toList ++ Grammar.itemsText s.items := by
  have hblanks (cs : List Char) (css : List (List Char)) :
      [' '].intercalate (cs :: css) = cs ++ css.flatMap (' ' :: ·) := by
    induction css generalizing cs with
    | nil => simp
    | cons cs' css ih => simp [List.intercalate_cons_cons, ih]
  have hattr (p : String × Datum) :
      (p.1 ++ "=" ++ p.2.render).toList = Grammar.itemText (some p.1, p.2) := by
    simp [Grammar.itemText]
  unfold render items
  rw [String.toList_intercalate, List.cons_append, List.map_cons]
  refine (hblanks _ _).trans ?_
  simp only [Grammar.itemsText, List.map_append, List.map_map, List.flatMap_append,
    List.flatMap_map, Function.comp_apply, hattr]
  rfl

/-- The items of a well-formed statement have well-formed values and names for keys. -/
theorem WellFormed.items {s : Statement} (h : s.WellFormed) :
    ∀ i ∈ s.items, (∀ k ∈ i.1, IsName k) ∧ i.2.WellFormed := by
  intro i hi
  rcases List.mem_append.mp hi with hi | hi
  · obtain ⟨d, hd, rfl⟩ := List.mem_map.mp hi
    exact ⟨fun _ hk => (nomatch hk), h.positional d hd⟩
  · obtain ⟨p, hp, rfl⟩ := List.mem_map.mp hi
    refine ⟨?_, h.values p hp⟩
    rintro _ ⟨⟩
    exact h.keys p hp

/-- The items without key are the positional values. -/
theorem items_positional :
    (s.items.filterMap fun (key, d) => if key.isNone then some d else none) = s.positional := by
  have hattrs : s.attrs.filterMap (fun _ => (none : Option Datum)) = [] :=
    List.filterMap_eq_nil_iff.mpr fun _ _ => rfl
  unfold items
  rw [List.filterMap_append, List.filterMap_map, List.filterMap_map]
  show s.positional.filterMap some ++ s.attrs.filterMap (fun _ => none) = _
  rw [List.filterMap_some, hattrs, List.append_nil]

/-- The items with a key are the attributes. -/
theorem items_attrs :
    (s.items.filterMap fun (key, d) => key.map fun key => (key, d)) = s.attrs := by
  have hpositional : s.positional.filterMap (fun _ => (none : Option (String × Datum))) = [] :=
    List.filterMap_eq_nil_iff.mpr fun _ _ => rfl
  unfold items
  rw [List.filterMap_append, List.filterMap_map, List.filterMap_map]
  show s.positional.filterMap (fun _ => none) ++ s.attrs.filterMap some = _
  rw [List.filterMap_some, hpositional, List.nil_append]

/-- Reading its keyword and its items gives the statement. -/
theorem statementOf_items (line : Nat) :
    Grammar.statementOf line s.keyword (s.items.map Grammar.itemRead) = .ok { s with line } := by
  have hvalues : (s.items.map Grammar.itemRead).mapM Grammar.Item.value = .ok s.items :=
    mapM_map_eq_ok fun _ _ => rfl
  unfold Grammar.statementOf
  rw [hvalues]
  show Except.ok { s with line, positional := _, attrs := _ } = _
  rw [items_positional, items_attrs]

end Statement

namespace Grammar

/-- A statement is read back up to the end of its line. -/
theorem statement_found {n : Nat} {s : Statement} (hs : s.WellFormed)
    (hlt : s.render.toList.length < n) (h : c.rest = s.render.toList ++ rest)
    (hends : EndsLine rest) :
    (statement n c).found = some (.ok { s with line := c.line },
      c.advance s.render.toList.length) := by
  have hlength : s.render.toList.length = s.keyword.toList.length + (itemsText s.items).length := by
    rw [s.toList_render, List.length_append]
  have h : c.rest = s.keyword.toList ++ (itemsText s.items ++ rest) := by
    rw [h, s.toList_render, List.append_assoc]
  have hkeyword : (run1 Char.isAlpha c).found
      = some (s.keyword.toList, c.advance s.keyword.toList.length) := by
    refine run1_found h hs.keyword_ne hs.keyword ?_
    -- Behind the keyword stands the end of the line or the blank before an item.
    rcases follows_itemsText hs.items hends with (hrest | ⟨rest', hrest⟩) | ⟨ch, cs, hrest, -⟩
    · rw [hrest]
      exact stops_nil
    · rw [hrest]
      exact stops_cons.mpr (by decide)
    · rw [hrest]
      exact stops_cons.mpr (by decide)
  have hitems := items_found hs.items (n := n) (k := n) (by omega) (by omega)
    (Cursor.rest_advance_length h) hends
  unfold statement
  simp only [Attempt.found_named, Attempt.found_andThen, Attempt.found_map, hkeyword, hitems,
    Option.bind_some, Option.map_some, String.ofList_toList, s.statementOf_items]
  simp only [Cursor.advance_advance, hlength]

/-! ## Lines -/

/-- Statements on lines of their own. A line feed stands between two of them, and may stand behind
the last. -/
def Lines : List Statement → List Char → Prop
  | [], cs => cs = []
  | s :: ss, cs => (∃ rest, cs = s.render.toList ++ '\n' :: rest ∧ Lines ss rest)
    ∨ (ss = [] ∧ cs = s.render.toList)

/-- Statements with the lines they stand on, the first on a given line. -/
def placed : Nat → List Statement → List Statement
  | _, [] => []
  | line, s :: ss =>
    { s with line } :: placed (line + s.render.toList.count '\n' + 1) ss

/-- Nothing but a letter begins the written statements. -/
theorem stops_lines {ss : List Statement} {cs : List Char} (hss : ∀ s ∈ ss, s.WellFormed)
    (h : Lines ss cs) {p : Char → Bool} (hp : ∀ ch, ch.isAlpha = true → p ch = false) : Stops p cs := by
  cases ss with
  | nil =>
    rw [show cs = [] from h]
    exact stops_nil
  | cons s ss =>
    have hs := hss s List.mem_cons_self
    rcases h with ⟨rest, rfl, -⟩ | ⟨-, rfl⟩
    · rw [s.toList_render, List.append_assoc]
      exact stops_append hs.keyword_ne hs.keyword hp
    · rw [s.toList_render]
      exact stops_append hs.keyword_ne hs.keyword hp

/-- Characters between statements, or that begin something that stands there. -/
def isBetween (ch : Char) : Bool := Cursor.isSkipped ch || Cursor.isLineEnd ch

/-- A keyword does not begin between statements. -/
theorem isBetween_of_isAlpha {ch : Char} (h : ch.isAlpha = true) : isBetween ch = false := by
  have hne {x : Char} (hx : x.isAlpha = false) : ch ≠ x := by
    rintro rfl
    exact absurd h (by simp [hx])
  have hskipped : Cursor.isSkipped ch = false := by
    refine isSkipped_of_startsValue ?_
    simp [startsValue, isNameChar, Char.isAlphanum, h]
  have hfeed : ch ≠ '\n' := hne (by decide)
  have hreturn : ch ≠ '\r' := hne (by decide)
  simp [isBetween, hskipped, Cursor.isLineEnd, hfeed, hreturn]

/-- Where a statement begins, no line is skipped. -/
theorem skipLines_of_stops (h : Stops isBetween c.rest) (n : Nat) : c.skipLines n = c := by
  have hskip : c.skip = c := Cursor.skip_of_stops (h.imp fun ch hch => by simp [isBetween, hch])
  cases n with
  | zero => rfl
  | succ n =>
    unfold Cursor.skipLines
    rw [hskip]
    dsimp only
    split
    next ch cs hcs =>
      rw [hcs, stops_cons, isBetween, Bool.or_eq_false_iff] at h
      rw [h.2]
      rfl
    next => rfl

/-- A single line feed in front of a statement is skipped. -/
theorem skipLines_feed (h : c.rest = '\n' :: rest) (hrest : Stops isBetween rest) {n : Nat}
    (hn : 0 < n) : c.skipLines n = c.advance 1 := by
  obtain ⟨n, rfl⟩ := Nat.exists_eq_add_one_of_ne_zero (Nat.ne_of_gt hn)
  have hskip : c.skip = c := Cursor.skip_of_stops (h ▸ stops_cons.mpr (by decide))
  unfold Cursor.skipLines
  rw [hskip]
  dsimp only
  rw [h]
  exact skipLines_of_stops (by simpa [h] using hrest) n

/-- The line that begins behind a line feed. -/
theorem line_next {cs : List Char} (h : c.rest = cs ++ '\n' :: rest) :
    ((c.advance cs.length).advance 1).line = c.line + cs.count '\n' + 1 := by
  show c.line + (c.rest.take _).count '\n' + ((c.advance _).rest.take 1).count '\n' = _
  rw [Cursor.rest_advance_length h, h, List.take_left]
  rfl

/-- Statements are read back from where the first of them stands. -/
theorem statements_found {n k : Nat} {ss : List Statement} {cs : List Char}
    (hss : ∀ s ∈ ss, s.WellFormed) (hlines : Lines ss cs) (hn : cs.length < n) (hk : cs.length < k)
    {c₀ : Cursor} (hskip : c.skipLines n = c₀) (h : c₀.rest = cs) :
    ∃ c', (statements n k c).found = some ((placed c₀.line ss).map .ok, c') := by
  induction ss generalizing c c₀ k cs with
  | nil =>
    obtain ⟨k, rfl⟩ := Nat.exists_eq_add_one_of_ne_zero (Nat.ne_of_gt (Nat.zero_lt_of_lt hk))
    obtain rfl : cs = [] := hlines
    have hnone : (statement n c₀).found = none := by
      have hkeyword : (run1 Char.isAlpha c₀).found = none := run1_none (by simp [h])
      simp [statement, hkeyword]
    rw [statements]
    dsimp only
    rw [hskip, hnone]
    exact ⟨c₀, by simp [h, placed]⟩
  | cons s ss ih =>
    obtain ⟨k, rfl⟩ := Nat.exists_eq_add_one_of_ne_zero (Nat.ne_of_gt (Nat.zero_lt_of_lt hk))
    obtain ⟨hs, hss⟩ := List.forall_mem_cons.mp hss
    rw [statements]
    dsimp only
    rw [hskip]
    rcases hlines with ⟨rest, rfl, hlines⟩ | ⟨rfl, rfl⟩
    · simp only [List.length_append, List.length_cons] at hn hk
      have hfirst := statement_found hs (n := n) (by omega) h (.inr ⟨rest, rfl⟩)
      have hfeed := Cursor.rest_advance_length h
      have hbetween : Stops isBetween rest :=
        stops_lines hss hlines fun ch => isBetween_of_isAlpha
      obtain ⟨c', hothers⟩ := ih hss hlines (by omega) (k := k) (by omega)
        (skipLines_feed hfeed hbetween (by omega)) (by rw [Cursor.rest_advance, hfeed]; rfl)
      refine ⟨c', ?_⟩
      rw [hfirst]
      dsimp only
      rw [hothers]
      rw [line_next h]
      rfl
    · have h : c₀.rest = s.render.toList ++ [] := by rw [h, List.append_nil]
      have hfirst := statement_found hs hn h (.inl rfl)
      have hend := Cursor.rest_advance_length h
      -- Without a line feed at the end, nothing is left behind the last statement.
      have hstay := skipLines_of_stops (hend ▸ stops_nil) n
      have hpos : 0 < s.render.toList.length := by
        rw [s.toList_render, List.length_append]
        have hkeyword := List.length_pos_iff.mpr hs.keyword_ne
        omega
      obtain ⟨c', hothers⟩ := ih hss (rfl : Lines [] []) (Nat.zero_lt_of_lt hn)
        (k := k) (Nat.lt_of_lt_of_le hpos (Nat.le_of_lt_succ hk)) hstay hend
      refine ⟨c', ?_⟩
      rw [hfirst]
      dsimp only
      rw [hothers]
      rfl

end Grammar

/-- Statements, each written on a line of its own. -/
def lines (ss : List Statement) : String := String.join (ss.map fun s => s.render ++ "\n")

/-- The first statement with its line feed stands in front of the others. -/
theorem toList_lines_cons (s : Statement) (ss : List Statement) :
    (lines (s :: ss)).toList = s.render.toList ++ '\n' :: (lines ss).toList := by
  simp [lines, String.toList_join]

/-- The last line feed may be left out. -/
theorem linesOf {ss : List Statement} {cs : List Char}
    (h : cs = (lines ss).toList ∨ cs ++ ['\n'] = (lines ss).toList) : Grammar.Lines ss cs := by
  induction ss generalizing cs with
  | nil =>
    rcases h with rfl | h
    · rfl
    · exact absurd h (by simp [lines])
  | cons s ss ih =>
    rw [toList_lines_cons] at h
    rcases h with rfl | h
    · exact .inl ⟨_, rfl, ih (.inl rfl)⟩
    · cases ss with
      | nil =>
        right
        refine ⟨rfl, ?_⟩
        simpa [lines] using h
      | cons t ss =>
        -- The line feed that is left out is the last one, so it is split off behind all statements.
        have hne : (lines (t :: ss)).toList ≠ [] := by simp [toList_lines_cons]
        rw [← List.dropLast_concat_getLast hne, ← List.cons_append, ← List.append_assoc] at h
        obtain ⟨hcs, hlast⟩ := List.append_inj' h rfl
        refine .inl ⟨_, hcs, ih (.inr ?_)⟩
        rw [hlast, List.dropLast_concat_getLast hne]

/-- A statement stands behind the line feeds of all statements before it. -/
theorem placed_eq_mapIdx (line : Nat) (ss : List Statement) :
    Grammar.placed line ss = ss.mapIdx fun i s =>
      { s with line := line + (lines (ss.take i)).toList.count '\n' } := by
  induction ss generalizing line with
  | nil => rfl
  | cons s ss ih =>
    rw [Grammar.placed, ih, List.mapIdx_cons]
    refine List.cons_eq_cons.mpr ⟨rfl, ?_⟩
    refine congrArg (List.mapIdx · ss) (funext fun i => funext fun t => ?_)
    have hcount : line + s.render.toList.count '\n' + 1 + (lines (ss.take i)).toList.count '\n'
        = line + (lines ((s :: ss).take (i + 1))).toList.count '\n' := by
      rw [List.take_succ_cons, toList_lines_cons, List.count_append, List.count_cons_self]
      omega
    rw [hcount]

/-- Well-formed statements, each written on a line of its own, are read again as they were, each
with its line: one more than the line feeds before it. What is read of any text is well formed. -/
theorem parse_lines :
    (∀ ss text, (∀ s ∈ ss, s.WellFormed) → text = lines ss ∨ text ++ "\n" = lines ss →
      parse text = .ok (ss.mapIdx fun i s =>
        { s with line := 1 + (lines (ss.take i)).toList.count '\n' }))
    ∧ ∀ text ss, parse text = .ok ss → ∀ s ∈ ss, s.WellFormed := by
  refine ⟨fun ss text hss htext => ?_, fun text ss h => wellFormed_of_parse h⟩
  have hlines : Grammar.Lines ss text.toList := by
    refine linesOf (htext.imp (congrArg String.toList) fun h => ?_)
    rw [← h, String.toList_append]
    rfl
  have hstart := Grammar.skipLines_of_stops (c := .start text.toList)
    (Grammar.stops_lines hss hlines fun ch => Grammar.isBetween_of_isAlpha) (text.toList.length + 1)
  obtain ⟨c', hfound⟩ := Grammar.statements_found hss hlines (Nat.lt_succ_self _)
    (Nat.lt_succ_self _) hstart rfl
  unfold parse
  dsimp only
  rw [hfound]
  dsimp only
  rw [← placed_eq_mapIdx]
  exact mapM_map_eq_ok fun _ _ => rfl

/-! Two statements, the first over two lines, and no line feed at the end. -/

/-- The two statements as they are read. -/
def twoStatements : List Statement := [
  ⟨"inst", 1, [.name "-", .number (-5), .list [.location "p" (some 4), .list [], .text "a # b\n"]],
    [("7", .unknown)]⟩,
  ⟨"live", 3, [.location "5" none], []⟩]

/-- Two well-formed statements are read back, one of them over a line feed in quotes. -/
theorem parse_lines_twoStatements :
    parse "inst - -5 [p:4, [], \"a # b\n\"] 7=?\nlive 5:?" = .ok twoStatements
      ∧ ∀ s ∈ twoStatements, s.WellFormed := by
  have hminus : ¬ IsNumeral ['-'] := by
    rintro ⟨ds, hne, hds, rfl | h⟩
    · exact absurd (hds '-' List.mem_cons_self) (by decide)
    · exact hne (List.cons.inj h).2.symm
  have hname {s : String} (hne : s.toList ≠ []) (h : s.toList.all isNameChar = true) : IsName s :=
    ⟨hne, List.all_eq_true.mp h⟩
  have hlist : (Datum.list [.location "p" (some 4), .list [], .text "a # b\n"]).WellFormed := by
    refine .list (List.forall_mem_cons.mpr ⟨?_, List.forall_mem_cons.mpr ⟨?_, ?_⟩⟩)
    · refine .location (hname (by decide) rfl) ?_
      rintro _ ⟨⟩
      decide
    · exact .list fun _ h => (nomatch h)
    · exact List.forall_mem_singleton.mpr (.text (by decide))
  have hinst : twoStatements[0].WellFormed := by
    refine ⟨by decide, List.all_eq_true.mp rfl, ?_, ?_, ?_⟩
    · refine List.forall_mem_cons.mpr ⟨.name (hname (by decide) rfl) hminus, ?_⟩
      refine List.forall_mem_cons.mpr ⟨.number (by decide) (by decide), ?_⟩
      exact List.forall_mem_singleton.mpr hlist
    · exact List.forall_mem_singleton.mpr (hname (by decide) rfl)
    · exact List.forall_mem_singleton.mpr .unknown
  have hlive : twoStatements[1].WellFormed := by
    refine ⟨by decide, List.all_eq_true.mp rfl, ?_, fun _ h => (nomatch h), fun _ h => (nomatch h)⟩
    refine List.forall_mem_singleton.mpr (.location (hname (by decide) rfl) ?_)
    exact fun _ h => (nomatch h)
  have hboth : ∀ s ∈ twoStatements, s.WellFormed :=
    List.forall_mem_cons.mpr ⟨hinst, List.forall_mem_singleton.mpr hlive⟩
  have hparse : parse "inst - -5 [p:4, [], \"a # b\n\"] 7=?\nlive 5:?" = .ok twoStatements :=
    parse_lines.1 twoStatements _ hboth (.inr (by decide +kernel))
  exact ⟨hparse, parse_lines.2 _ twoStatements hparse⟩

end Privatization.Facts
