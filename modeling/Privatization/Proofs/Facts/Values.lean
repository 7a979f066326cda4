import Privatization.Proofs.Facts.WellFormed

/-!
# Values written and read

A well-formed value is read back wherever a character stands behind it that can end a value, so that
neither a longer name nor a location is taken for it (`datum_found`).
-/

namespace Privatization

/-! ## Numerals -/

namespace Decimal

/-- A natural number is written by its digits. -/
theorem toList_toString_ofNat (m : Nat) : (toString (Int.ofNat m)).toList = Nat.toDigits 10 m :=
  Nat.toList_repr

/-- A negative number is written behind a minus. -/
theorem toList_toString_negSucc (m : Nat) :
    (toString (Int.negSucc m)).toList = '-' :: Nat.toDigits 10 (m + 1) := by
  show ("-" ++ (m + 1).repr).toList = _
  rw [String.toList_append, Nat.toList_repr]
  rfl

/-- A number that fits 64 bits with sign is read back from what is written. -/
theorem signed64?_toString {n : Int} (hlower : -(limit63 : Int) ≤ n) (hupper : n < limit63) :
    signed64? (toString n).toList = some n := by
  cases n with
  | ofNat m =>
    rw [toList_toString_ofNat]
    unfold signed64?
    split
    next ds hds =>
      -- A digit is no minus.
      have hminus : '-' ∈ Nat.toDigits 10 m := by simp [hds]
      exact absurd (isDigit_of_mem_toDigits hminus) (by decide)
    next =>
      have hlt : m < limit63 := Int.ofNat_lt.mp hupper
      simp [below?_toDigits hlt]
  | negSucc m =>
    rw [toList_toString_negSucc]
    have hlt : m + 1 < limit63 + 1 := by omega
    simp [signed64?, below?_toDigits hlt]
    omega

end Decimal

namespace Facts

/-- Written numbers are numerals. -/
theorem isNumeral_toString (n : Int) : IsNumeral (toString n).toList := by
  cases n with
  | ofNat m =>
    refine ⟨Nat.toDigits 10 m, Nat.toDigits_ne_nil, fun ch => Decimal.isDigit_of_mem_toDigits, ?_⟩
    exact .inl (Decimal.toList_toString_ofNat m)
  | negSucc m =>
    refine ⟨Nat.toDigits 10 (m + 1), Nat.toDigits_ne_nil,
      fun ch => Decimal.isDigit_of_mem_toDigits, ?_⟩
    exact .inr (Decimal.toList_toString_negSucc m)

/-! ## What may stand around a value -/

/-- A name character is none of the other characters. -/
theorem beq_false_of_isNameChar {ch x : Char} (h : isNameChar ch = true) (hx : isNameChar x = false) :
    (ch == x) = false := by
  rw [beq_eq_false_iff_ne]
  rintro rfl
  exact absurd h (by simp [hx])

/-- Characters that a value begins with. -/
def startsValue (ch : Char) : Bool := isNameChar ch || ch == '"' || ch == '[' || ch == '?'

/-- Characters that end a value in front of them. -/
def endsValue (ch : Char) : Bool := ch == ' ' || ch == '\n' || ch == ',' || ch == ']'

/-- A value that stands here has ended. -/
def Ends (rest : List Char) : Prop := Stops (fun ch => !endsValue ch) rest

/-- Where a value ends, every class of characters stops that holds none of the four. -/
theorem Ends.stops {rest : List Char} {p : Char → Bool} (h : Ends rest)
    (hp : p ' ' = false ∧ p '\n' = false ∧ p ',' = false ∧ p ']' = false) : Stops p rest := by
  refine h.imp fun ch hch => ?_
  cases hends : endsValue ch with
  | false => rfl
  | true =>
    obtain ⟨hblank, hline, hcomma, hbracket⟩ := hp
    have hcases : ((ch = ' ' ∨ ch = '\n') ∨ ch = ',') ∨ ch = ']' := by
      simpa [endsValue] using hends
    rcases hcases with ((rfl | rfl) | rfl) | rfl
    · exact absurd hch (by simp [hblank])
    · exact absurd hch (by simp [hline])
    · exact absurd hch (by simp [hcomma])
    · exact absurd hch (by simp [hbracket])

/-- What begins a value is not skipped. -/
theorem isSkipped_of_startsValue {ch : Char} (h : startsValue ch = true) :
    Cursor.isSkipped ch = false := by
  have hne {x : Char} (hx : startsValue x = false) : ch ≠ x := by
    rintro rfl
    exact absurd h (by simp [hx])
  have hblank : ch ≠ ' ' := hne (by decide)
  have htab : ch ≠ '\t' := hne (by decide)
  have hhash : ch ≠ '#' := hne (by decide)
  simp [Cursor.isSkipped, Cursor.isBlank, hblank, htab, hhash]

namespace Grammar

variable {c : Cursor} {s base : String} {cs rest : List Char}

/-! ## Values that are no lists -/

/-- A name is read back in front of what is no name character. -/
theorem name_found (hs : IsName s) (h : c.rest = s.toList ++ rest) (hstop : Stops isNameChar rest) :
    (name c).found = some (s, c.advance s.toList.length) := by
  simp [name, run1_found h hs.ne_nil hs.all hstop]

/-- No name is found where no name character stands. -/
theorem name_none (h : Stops isNameChar c.rest) : (name c).found = none := by
  simp [name, run1_none h]

/-- A text is read back between its quotes. -/
theorem text_found (h : c.rest = '"' :: (cs ++ '"' :: rest)) (hquote : '"' ∉ cs) :
    (text c).found = some (.ok (.text (String.ofList cs)), c.advance (cs.length + 2)) := by
  have hahead : (c.advance 1).rest = cs ++ '"' :: rest := by simp [h]
  -- The text holds no quote, so its run ends at the closing one.
  have hrun : (c.advance 1).run (· ≠ '"') = cs :=
    Cursor.run_eq hahead (fun ch hch => by
      have hne : ch ≠ '"' := fun heq => hquote (heq ▸ hch)
      simpa using hne) (by simp)
  have hend := char_found (Cursor.rest_advance_length hahead)
  unfold text
  simp only [Attempt.found_named, Attempt.found_andThen, Attempt.found_map, char_found h, hrun,
    Option.bind_some, hend, Option.map_some]
  have hlength : 1 + cs.length + 1 = cs.length + 2 := by omega
  simp only [Cursor.advance_advance, hlength]

/-- No text is found where no quote stands. -/
theorem text_none (h : Stops (· == '"') c.rest) : (text c).found = none := by
  simp [text, char_none h]

/-- A size is read back, be it a number or a question mark. -/
theorem extent_found {size : Option Nat} (hsize : ∀ n ∈ size, n < Decimal.limit64)
    (h : c.rest = (showSize size).toList ++ rest) (hstop : Stops Char.isDigit rest) :
    (extent c).found = some (.ok size, c.advance (showSize size).toList.length) := by
  cases size with
  | none =>
    have hdigit : Stops Char.isDigit c.rest := by
      rw [h]
      exact stops_cons.mpr (by decide)
    have hmark : (char '?' c).found = some ((), c.advance 1) := char_found h
    simp [extent, run1_none hdigit, hmark]
    rfl
  | some n =>
    have hdigits : (showSize (some n)).toList = Nat.toDigits 10 n := Nat.toList_repr
    rw [hdigits] at h ⊢
    have hrun : (run1 Char.isDigit c).found
        = some (Nat.toDigits 10 n, c.advance (Nat.toDigits 10 n).length) :=
      run1_found h Nat.toDigits_ne_nil
        (fun ch => Decimal.isDigit_of_mem_toDigits) hstop
    simp [extent, hrun, Decimal.word64?_toDigits (hsize n rfl)]

/-- A location is read back: its name, a colon and its size. -/
theorem location_found {size : Option Nat} (hbase : IsName base)
    (hsize : ∀ n ∈ size, n < Decimal.limit64)
    (h : c.rest = base.toList ++ ':' :: ((showSize size).toList ++ rest))
    (hstop : Stops Char.isDigit rest) :
    (location c).found = some (.ok (.location base size),
      c.advance (base.toList.length + 1 + (showSize size).toList.length)) := by
  have hcolon := Cursor.rest_advance_length h
  have hextent : ((c.advance base.toList.length).advance 1).rest = (showSize size).toList ++ rest := by
    rw [Cursor.rest_advance, hcolon]
    rfl
  unfold location
  simp only [Attempt.found_named, Attempt.found_andThen, Attempt.found_map,
    name_found hbase h (stops_cons.mpr (by decide)), char_found hcolon,
    extent_found hsize hextent hstop, Option.bind_some, Option.map_some]
  simp only [Cursor.advance_advance]
  rfl

/-- There is no location where no colon stands behind a name. -/
theorem location_none (h : ∀ rest, c.run isNameChar ≠ [] → c.rest = c.run isNameChar ++ rest →
    Stops (· == ':') rest) : (location c).found = none := by
  unfold location
  simp only [Attempt.found_named, Attempt.found_andThen, Option.bind_eq_none_iff, Prod.forall]
  intro base c₁ hname _ c₂ hcolon
  obtain ⟨hbase, hrun, rfl⟩ := name_eq_some hname
  obtain ⟨rest, hrest, -⟩ := c.exists_rest isNameChar
  have hnone : (char ':' (c.advance base.toList.length)).found = none := by
    refine char_none ?_
    rw [hrun, Cursor.rest_advance_length hrest]
    exact h rest (hrun ▸ hbase.ne_nil) hrest
  rw [hnone] at hcolon
  cases hcolon

/-- A value that is no list is read back where it ends. -/
theorem single_found {d : Datum} (hd : d.WellFormed) (hlist : ∀ ds, d ≠ .list ds)
    (h : c.rest = d.render.toList ++ rest) (hends : Ends rest) :
    (single c).found = some (.ok d, c.advance d.render.toList.length) := by
  have hname : Stops isNameChar rest := hends.stops (by decide)
  have hcolon : Stops (· == ':') rest := hends.stops (by decide)
  -- Of a run of name characters, what is no text and no location is a number or a name.
  have hrun {cs : List Char} (hne : cs ≠ []) (hall : ∀ ch ∈ cs, isNameChar ch = true)
      (h : c.rest = cs ++ rest) :
      c.run isNameChar = cs ∧ (text c).found = none ∧ (location c).found = none := by
    have hrun : c.run isNameChar = cs := Cursor.run_eq h hall hname
    refine ⟨hrun, text_none ?_, location_none fun rest' _ hrest' => ?_⟩
    · rw [h]
      exact stops_append hne hall fun ch hch => beq_false_of_isNameChar hch (by decide)
    · rw [hrun, h] at hrest'
      rwa [← List.append_cancel_left hrest']
  unfold single
  simp only [Attempt.found_orElse, Attempt.found_map, Attempt.found_named]
  cases hd with
  | @name s hs hnumeral =>
    have h : c.rest = s.toList ++ rest := h
    obtain ⟨hahead, htext, hlocation⟩ := hrun hs.ne_nil hs.all h
    have hnumber : (number c).found = none := number_none (by rwa [hahead])
    have hmark : (char '?' c).found = none := by
      refine char_none ?_
      rw [h]
      exact stops_append hs.ne_nil hs.all fun ch hch => beq_false_of_isNameChar hch (by decide)
    rw [htext, hlocation, hnumber, hmark, name_found hs h hname]
    rfl
  | @number n hlower hupper =>
    have h : c.rest = (toString n).toList ++ rest := h
    have hnumeral := isNumeral_toString n
    obtain ⟨hahead, htext, hlocation⟩ := hrun hnumeral.ne_nil hnumeral.isNameChar h
    obtain ⟨r, hnumber, hr⟩ := number_found (c := c) (by rwa [hahead])
    rw [htext, hlocation, hnumber, hr n (by rw [hahead, Decimal.signed64?_toString hlower hupper]),
      hahead]
    rfl
  | @text s hquote =>
    have hrender : (Datum.text s).render.toList = '"' :: (s.toList ++ ['"']) := by
      simp [Datum.render]
    have h : c.rest = '"' :: (s.toList ++ '"' :: rest) := by
      rw [h, hrender]
      simp
    rw [text_found h hquote, String.ofList_toList, hrender]
    simp
  | @location base size hbase hsize =>
    have hrender : (Datum.location base size).render.toList
        = base.toList ++ ':' :: (showSize size).toList := by
      simp [Datum.render]
    have h : c.rest = base.toList ++ ':' :: ((showSize size).toList ++ rest) := by
      rw [h, hrender]
      simp
    have htext : (text c).found = none := by
      refine text_none ?_
      rw [h]
      exact stops_append hbase.ne_nil hbase.all fun ch hch => beq_false_of_isNameChar hch (by decide)
    have hlength : base.toList.length + 1 + (showSize size).toList.length
        = (Datum.location base size).render.toList.length := by
      rw [hrender, List.length_append, List.length_cons]
      omega
    rw [htext, location_found hbase hsize h (hends.stops (by decide)), hlength]
    rfl
  | list hds => exact absurd rfl (hlist _)
  | unknown =>
    have h : c.rest = '?' :: rest := h
    have hahead : c.run isNameChar = [] :=
      Cursor.run_of_stops (by rw [h]; exact stops_cons.mpr (by decide))
    have htext : (text c).found = none := text_none (by rw [h]; exact stops_cons.mpr (by decide))
    have hlocation : (location c).found = none := location_none fun _ hne => absurd hahead hne
    have hnumber : (number c).found = none := by
      refine number_none fun hnumeral => hnumeral.ne_nil hahead
    rw [htext, hlocation, hnumber, char_found h]
    rfl

/-- No value other than a list is found where no value begins. -/
theorem single_none (h : Stops startsValue c.rest) : (single c).found = none := by
  have hname : Stops isNameChar c.rest := h.imp fun ch hch => by simp [startsValue, hch]
  have hahead : c.run isNameChar = [] := Cursor.run_of_stops hname
  have htext : (text c).found = none := text_none (h.imp fun ch hch => by simp_all [startsValue])
  have hlocation : (location c).found = none := location_none fun _ hne => absurd hahead hne
  have hnumber : (number c).found = none := number_none fun hnumeral => hnumeral.ne_nil hahead
  have hmark : (char '?' c).found = none := char_none (h.imp fun ch hch => by simp_all [startsValue])
  simp [single, htext, hlocation, hnumber, hmark, name_none hname]

/-! ## Lists -/

/-- What is written for a value begins with a character that begins values. -/
theorem exists_render {d : Datum} (hd : d.WellFormed) :
    ∃ ch cs, d.render.toList = ch :: cs ∧ startsValue ch = true := by
  have hrun {cs : List Char} (hne : cs ≠ []) (hall : ∀ ch ∈ cs, isNameChar ch = true)
      (cs' : List Char) : ∃ ch cs'', cs ++ cs' = ch :: cs'' ∧ startsValue ch = true := by
    obtain ⟨ch, cs₁, rfl⟩ := List.exists_cons_of_ne_nil hne
    exact ⟨ch, cs₁ ++ cs', rfl, by simp [startsValue, hall]⟩
  cases hd with
  | name hs hnumeral => simpa [Datum.render] using hrun hs.ne_nil hs.all []
  | @number n hlower hupper =>
    have hnumeral := isNumeral_toString n
    simpa [Datum.render] using hrun hnumeral.ne_nil hnumeral.isNameChar []
  | @text s hquote => exact ⟨'"', s.toList ++ ['"'], by simp [Datum.render], by decide⟩
  | location hbase hsize => simpa [Datum.render] using hrun hbase.ne_nil hbase.all _
  | @list ds hds =>
    exact ⟨'[', (Datum.renderItems ds).toList ++ [']'], by simp [Datum.render], by decide⟩
  | unknown => exact ⟨'?', [], rfl, by decide⟩

/-- A written datum stops whatever holds none of the characters it may begin with. -/
theorem stops_render {d : Datum} (hd : d.WellFormed) (rest : List Char) {p : Char → Bool}
    (hp : ∀ ch, startsValue ch = true → p ch = false) : Stops p (d.render.toList ++ rest) := by
  obtain ⟨ch, cs, hrender, hch⟩ := exists_render hd
  rw [hrender]
  exact stops_cons.mpr (hp ch hch)

/-- The further items of a list, as they are written. -/
def moreText (ds : List Datum) : List Char := ds.flatMap fun d => ',' :: ' ' :: d.render.toList

/-- The items of a list are written with a comma and a blank in front of all but the first. -/
theorem toList_renderItems (d : Datum) (ds : List Datum) :
    (Datum.renderItems (d :: ds)).toList = d.render.toList ++ moreText ds := by
  induction ds generalizing d with
  | nil => simp [Datum.renderItems, moreText]
  | cons e ds ih => simp [Datum.renderItems, ih, moreText]

/-- Where no bracket stands, a value is no list. -/
theorem datum_succ_of_single {n : Nat} (h : Stops (· == '[') c.rest) :
    (datum (n + 1) c).found = (single c).found := by
  rw [datum]
  simp [char_none h]

/-- No value is found where none begins, however deep it may be nested. -/
theorem datum_none (h : Stops startsValue c.rest) (n : Nat) : (datum n c).found = none := by
  cases n with
  | zero =>
    rw [datum]
    rfl
  | succ n =>
    rw [datum_succ_of_single (h.imp fun ch hch => by simp_all [startsValue]), single_none h]

/-- Only lists begin with a bracket. -/
theorem stops_bracket {d : Datum} (hd : d.WellFormed) (hlist : ∀ ds, d ≠ .list ds)
    (rest : List Char) : Stops (· == '[') (d.render.toList ++ rest) := by
  have hbracket (ch : Char) (hch : isNameChar ch = true) : (ch == '[') = false :=
    beq_false_of_isNameChar hch (by decide)
  cases hd with
  | name hs hnumeral => exact stops_append hs.ne_nil hs.all hbracket
  | @number n hlower hupper =>
    have hnumeral := isNumeral_toString n
    exact stops_append hnumeral.ne_nil hnumeral.isNameChar hbracket
  | text hquote =>
    simp only [Datum.render, String.toList_append, List.append_assoc]
    exact stops_cons.mpr (by decide)
  | location hbase hsize =>
    simp only [Datum.render, String.toList_append, List.append_assoc]
    exact stops_append hbase.ne_nil hbase.all hbracket
  | list hds => exact absurd rfl (hlist _)
  | unknown => exact stops_cons.mpr (by decide)

/-- Further items, or the closing bracket, end the item in front of them. -/
theorem ends_moreText (ds : List Datum) (rest : List Char) : Ends (moreText ds ++ ']' :: rest) := by
  cases ds with
  | nil => exact stops_cons.mpr (by decide)
  | cons d ds => exact stops_cons.mpr (by decide)

/-- The empty list is read back. -/
theorem nil_found {n : Nat} (h : c.rest = '[' :: ']' :: rest) :
    (datum (n + 1) c).found = some (.ok (.list []), c.advance 2) := by
  have hahead : (c.advance 1).rest = ']' :: rest := by simp [h]
  have hskip : (c.advance 1).skip = c.advance 1 :=
    Cursor.skip_of_stops (by rw [hahead]; exact stops_cons.mpr (by decide))
  -- What stands behind the opening bracket begins no value, so no item is tried.
  have hfirst : (datum n (c.advance 1)).found = none :=
    datum_none (by rw [hahead]; exact stops_cons.mpr (by decide)) n
  rw [datum]
  simp only [Attempt.found_orElse, Attempt.found_named, Attempt.found_andThen, Attempt.found_map,
    char_found h, Option.bind_some, hskip, hfirst, char_found hahead, Option.map_some,
    Cursor.advance_advance]
  rfl

/-- A list is read back if its first item and its further items are. -/
theorem cons_found {n : Nat} {d : Datum} {ds : List Datum} (hd : d.WellFormed)
    (h : c.rest = '[' :: (d.render.toList ++ (moreText ds ++ ']' :: rest)))
    (hfirst : (datum n (c.advance 1)).found
      = some (.ok d, (c.advance 1).advance d.render.toList.length))
    (hmore : (more n ((c.advance 1).advance d.render.toList.length)).found
      = some (ds.map .ok,
        ((c.advance 1).advance d.render.toList.length).advance (moreText ds).length)) :
    (datum (n + 1) c).found = some (.ok (.list (d :: ds)),
      c.advance (1 + d.render.toList.length + (moreText ds).length + 1)) := by
  have hahead : (c.advance 1).rest = d.render.toList ++ (moreText ds ++ ']' :: rest) := by
    simp [h]
  have hskip : (c.advance 1).skip = c.advance 1 :=
    Cursor.skip_of_stops (hahead ▸ stops_render hd _ fun ch => isSkipped_of_startsValue)
  have hbracket := Cursor.rest_advance_length (Cursor.rest_advance_length hahead)
  have hend := Cursor.skip_of_stops (hbracket ▸ stops_cons.mpr (by decide))
  have hmap : (Except.ok d :: ds.map Except.ok : List Reading).mapM id = .ok (d :: ds) :=
    mapM_map_eq_ok (g := Except.ok) fun e (_ : e ∈ d :: ds) => rfl
  rw [datum]
  simp only [Attempt.found_orElse, Attempt.found_named, Attempt.found_andThen, Attempt.found_map,
    char_found h, Option.bind_some, hskip, hfirst, hmore, Option.map_some, hend,
    char_found hbracket, hmap]
  simp only [Cursor.advance_advance]
  rfl

/-- At the closing bracket, no further item is found. -/
theorem more_nil_found {n : Nat} (h : c.rest = ']' :: rest) :
    (more n c).found = some ([], c) := by
  have hskip : c.skip = c := Cursor.skip_of_stops (by rw [h]; exact stops_cons.mpr (by decide))
  have hcomma : (char ',' c).found = none := char_none (by rw [h]; exact stops_cons.mpr (by decide))
  cases n with
  | zero =>
    rw [more]
    rfl
  | succ n =>
    rw [more]
    simp [hskip, hcomma]

/-- Further items are read back if the next one is and those behind it are. -/
theorem more_cons_found {n : Nat} {d : Datum} {ds : List Datum} (hd : d.WellFormed)
    (h : c.rest = ',' :: ' ' :: (d.render.toList ++ rest))
    (hfirst : (datum n (c.advance 2)).found
      = some (.ok d, (c.advance 2).advance d.render.toList.length))
    (hmore : (more n ((c.advance 2).advance d.render.toList.length)).found
      = some (ds.map .ok,
        ((c.advance 2).advance d.render.toList.length).advance (moreText ds).length)) :
    (more (n + 1) c).found = some ((d :: ds).map .ok,
      c.advance (2 + d.render.toList.length + (moreText ds).length)) := by
  have hskip : c.skip = c := Cursor.skip_of_stops (by rw [h]; exact stops_cons.mpr (by decide))
  have hahead : (c.advance 1).rest = ' ' :: (d.render.toList ++ rest) := by simp [h]
  have hblank : (c.advance 1).skip = c.advance 2 := by
    rw [Cursor.skip_blank hahead (stops_render hd _ fun ch => isSkipped_of_startsValue),
      Cursor.advance_advance]
  rw [more]
  simp only [hskip, Attempt.found_andThen, char_found h, Option.bind_some, hblank, hfirst, hmore,
    Option.map_some]
  simp only [Cursor.advance_advance]
  rfl

/-- Induction on the nesting, for a value together with the further items of a list. What is written
is longer than the values in it are nested. -/
theorem datum_more_found (n : Nat) :
    (∀ d c rest, d.WellFormed → d.render.toList.length < n → c.rest = d.render.toList ++ rest →
      Ends rest → (datum n c).found = some (.ok d, c.advance d.render.toList.length))
    ∧ ∀ ds c rest, (∀ d ∈ ds, d.WellFormed) → (moreText ds).length < n →
      c.rest = moreText ds ++ ']' :: rest →
      (more n c).found = some (ds.map .ok, c.advance (moreText ds).length) := by
  induction n with
  | zero =>
    constructor
    · exact fun _ _ _ _ h => absurd h (Nat.not_lt_zero _)
    · exact fun _ _ _ _ h => absurd h (Nat.not_lt_zero _)
  | succ n ih =>
    obtain ⟨hdatum, hmore⟩ := ih
    constructor
    · intro d c rest hd hlt h hends
      -- Lists are read item by item; other values are read as they are.
      by_cases hlist : ∃ ds, d = .list ds
      · obtain ⟨ds, rfl⟩ := hlist
        cases hd with
        | list hds =>
          cases ds with
          | nil => exact nil_found h
          | cons d ds =>
            obtain ⟨hd, hds⟩ := List.forall_mem_cons.mp hds
            have hrender : (Datum.list (d :: ds)).render.toList
                = '[' :: (d.render.toList ++ (moreText ds ++ [']'])) := by
              simp [Datum.render, toList_renderItems]
            have hlength : (Datum.list (d :: ds)).render.toList.length
                = 1 + d.render.toList.length + (moreText ds).length + 1 := by
              simp only [hrender, List.length_cons, List.length_append, List.length_nil]
              omega
            have h : c.rest = '[' :: (d.render.toList ++ (moreText ds ++ ']' :: rest)) := by
              simp [h, hrender]
            have hahead : (c.advance 1).rest = d.render.toList ++ (moreText ds ++ ']' :: rest) := by
              simp [h]
            have hfirst := hdatum d _ _ hd (by omega) hahead (ends_moreText ds rest)
            have hothers := hmore ds _ rest hds (by omega) (Cursor.rest_advance_length hahead)
            rw [hlength]
            exact cons_found hd h hfirst hothers
      · have hsingle : ∀ ds, d ≠ .list ds := fun ds heq => hlist ⟨ds, heq⟩
        rw [datum_succ_of_single (h ▸ stops_bracket hd hsingle rest)]
        exact single_found hd hsingle h hends
    · intro ds c rest hds hlt h
      cases ds with
      | nil =>
        simpa [moreText] using more_nil_found h
      | cons d ds =>
        obtain ⟨hd, hds⟩ := List.forall_mem_cons.mp hds
        have hmoreText : moreText (d :: ds) = ',' :: ' ' :: (d.render.toList ++ moreText ds) := by
          simp [moreText]
        have hlength : (moreText (d :: ds)).length
            = 2 + d.render.toList.length + (moreText ds).length := by
          simp only [hmoreText, List.length_cons, List.length_append]
          omega
        have h : c.rest = ',' :: ' ' :: (d.render.toList ++ (moreText ds ++ ']' :: rest)) := by
          simp [h, hmoreText]
        have hahead : (c.advance 2).rest = d.render.toList ++ (moreText ds ++ ']' :: rest) := by
          simp [h]
        have hfirst := hdatum d _ _ hd (by omega) hahead (ends_moreText ds rest)
        have hothers := hmore ds _ rest hds (by omega) (Cursor.rest_advance_length hahead)
        rw [hlength]
        exact more_cons_found hd h hfirst hothers

/-- A well-formed value is read back where it ends, if the bound on nesting exceeds its length. -/
theorem datum_found {n : Nat} {d : Datum} (hd : d.WellFormed) (hlt : d.render.toList.length < n)
    (h : c.rest = d.render.toList ++ rest) (hends : Ends rest) :
    (datum n c).found = some (.ok d, c.advance d.render.toList.length) :=
  (datum_more_found n).1 d c rest hd hlt h hends

end Grammar

end Facts

end Privatization
