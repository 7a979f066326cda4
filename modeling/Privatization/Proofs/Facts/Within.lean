import Privatization.Proofs.Facts.Progress
import Privatization.Proofs.Facts.RoundTrip

/-!
# A text inside a larger one

A text keeps its meaning inside a larger text in which it ends its line. Characters, runs, names and
numbers are found in the one exactly where they are found in the other (`number_within`). A quote
that is opened and never closed may be closed in the larger text, so for what can hold quotes only
one direction holds: what is found in the text is found inside the larger one, with any greater
bound on nesting and number (`item_kept`, `items_kept`), provided that reading the text does not stop
short of the end of the line.
-/

namespace Privatization.Facts

/-- What stands around a text in a larger one, in which the text ends its line. -/
structure Surroundings where
  before : List Char
  after : List Char
  endsLine : Grammar.EndsLine after

/-- The statement, `lines` lines further down. -/
def Statement.below (lines : Nat) (s : Statement) : Statement := { s with line := lines + s.line }

@[simp] theorem Statement.below_zero (s : Statement) : s.below 0 = s := by
  simp [below]

section Stops

variable {p : Char → Bool} {cs rest : List Char}

/-- Text stops a class if it does by itself and what follows does, which counts where
it is empty. -/
theorem Stops.append (h : Stops p cs) (hrest : Stops p rest) : Stops p (cs ++ rest) := by
  cases cs with
  | nil => exact hrest
  | cons ch cs => exact stops_cons.mpr (stops_cons.mp h)

/-- Nothing but a line end begins what stands at the end of a line. -/
theorem Stops.of_lineEnd (h : Stops (!Cursor.isLineEnd ·) cs) (hfeed : p '\n' = false)
    (hreturn : p '\r' = false) : Stops p cs := by
  refine h.imp fun ch hch => ?_
  rw [Bool.not_eq_true', ← Bool.not_eq_true]
  intro hend
  have hcases : ch = '\n' ∨ ch = '\r' := by simpa [Cursor.isLineEnd] using hend
  rcases hcases with rfl | rfl
  · exact absurd hch (by simp [hfeed])
  · exact absurd hch (by simp [hreturn])

/-- What stands behind the text stops every class without line feed. -/
theorem Surroundings.stops (w : Surroundings) (hp : p '\n' = false) : Stops p w.after := by
  rcases w.endsLine with h | ⟨rest, h⟩
  · rw [h]
    exact stops_nil
  · rw [h]
    exact stops_cons.mpr hp

end Stops

namespace Cursor

variable {c d : Cursor} {p : Char → Bool} {w : Surroundings}

/-- The place of a cursor in the larger text. -/
def within (w : Surroundings) (c : Cursor) : Cursor :=
  ⟨w.before.length + c.position, w.before.count '\n' + c.line, c.rest ++ w.after⟩

@[simp] theorem rest_within : (c.within w).rest = c.rest ++ w.after := rfl

@[simp] theorem line_within : (c.within w).line = w.before.count '\n' + c.line := rfl

/-- Nothing but blanks and a comment stands between the cursor and the end of its line. -/
def AtLineEnd (c : Cursor) : Prop := Stops (!isLineEnd ·) c.skip.rest

/-- Going on inside the text is the same in the larger one. -/
theorem advance_within {n : Nat} (h : n ≤ c.rest.length) :
    (c.within w).advance n = (c.advance n).within w := by
  simp only [advance, within, List.take_append_of_le_length h, List.drop_append_of_le_length h,
    Nat.add_assoc]

/-- A run that cannot hold a line feed ends where it ended. -/
theorem run_within (hp : p '\n' = false) : (c.within w).run p = c.run p := by
  obtain ⟨rest, hrest, hstop⟩ := c.exists_rest p
  have hwithin : (c.within w).rest = c.run p ++ (rest ++ w.after) := by
    rw [rest_within, ← List.append_assoc, ← hrest]
  exact run_eq hwithin (fun ch => mem_run) (hstop.append (w.stops hp))

/-- The cursor behind a run is the same place in the larger text. -/
theorem advance_run_within (hp : p '\n' = false) :
    (c.within w).advance ((c.within w).run p).length = (c.advance (c.run p).length).within w := by
  rw [run_within hp, advance_within (c.length_run_le p)]

/-- Blanks and a comment are skipped alike: neither goes past the end of the line. -/
theorem skip_within : (c.within w).skip = c.skip.within w := by
  have hblanks := advance_run_within (c := c) (w := w) (p := isBlank) (by decide)
  have hcomment (d : Cursor) := advance_run_within (c := d) (w := w) (p := (!isLineEnd ·)) (by decide)
  unfold skip
  dsimp only
  rw [hblanks]
  -- Behind the blanks, all turns on whether a comment begins.
  generalize c.advance (c.run isBlank).length = d
  cases hd : d.rest with
  | nil =>
    -- No comment begins with what stands behind the text.
    have hafter : Stops (· == '#') w.after := w.stops (by decide)
    have hrest : (d.within w).rest = w.after := by rw [rest_within, hd, List.nil_append]
    split
    next hhash =>
      rw [hrest] at hhash
      simp [hhash] at hafter
    next => rfl
  | cons ch cs =>
    have hrest : (d.within w).rest = ch :: (cs ++ w.after) := by rw [rest_within, hd]; rfl
    rw [hrest]
    by_cases hch : ch = '#'
    · subst hch
      exact hcomment d
    · split
      next heq => exact absurd (List.cons.inj heq).1 hch
      next =>
        split
        next heq => exact absurd (List.cons.inj heq).1 hch
        next => rfl

end Cursor

namespace Attempt

variable {α β : Type} {x y : Attempt α} {x' y' : Unit → Attempt α} {w : Surroundings}

/-- What is found, at the same place in the larger text. -/
def within (w : Surroundings) (x : Attempt α) : Option (α × Cursor) :=
  x.found.map fun p => (p.1, p.2.within w)

/-- Mapping what is found alike keeps it alike. -/
theorem within_map {f : α → β} (h : y.found = x.within w) : (y.map f).found = (x.map f).within w := by
  simp [within, h, Function.comp_def]

theorem within_named {c d : Cursor} (h : y.found = x.within w) :
    (y.named c).found = (x.named d).within w := by
  simp [within, h]

/-- A sequence finds alike what its parts find alike. -/
theorem within_andThen {f : α → Cursor → Attempt β} (h : y.found = x.within w)
    (hf : ∀ a c, (f a (c.within w)).found = (f a c).within w) :
    (y.andThen f).found = (x.andThen f).within w := by
  unfold within
  rw [found_andThen, found_andThen, h, within, Option.bind_map, Option.map_bind]
  exact congrArg x.found.bind (funext fun p => hf p.1 p.2)

/-- A choice finds alike what both alternatives find alike. -/
theorem within_orElse (h : y.found = x.within w) (h' : (y' ()).found = (x' ()).within w) :
    (y.orElse y').found = (x.orElse x').within w := by
  rw [within, found_orElse, found_orElse, h, h']
  cases hx : x.found <;> simp [within, hx]

/-- What `x` finds, `y` finds at the same place in the larger text. -/
def Kept (w : Surroundings) (x y : Attempt α) : Prop :=
  ∀ a c, x.found = some (a, c) → y.found = some (a, c.within w)

/-- What is found alike is kept. -/
theorem Kept.of_within (h : y.found = x.within w) : Kept w x y := by
  intro a c hx
  rw [h, within, hx]
  rfl

/-- Mapping keeps what is found. -/
theorem Kept.map {f : α → β} (h : Kept w x y) : Kept w (x.map f) (y.map f) := by
  intro b c hx
  rw [found_map, Option.map_eq_some_iff] at hx
  obtain ⟨⟨a, c'⟩, ha, heq⟩ := hx
  cases heq
  rw [found_map, h a c' ha]
  rfl

theorem Kept.named {c d : Cursor} (h : Kept w x y) : Kept w (x.named c) (y.named d) := by
  intro a c' hx
  rw [found_named] at hx ⊢
  exact h a c' hx

/-- A sequence keeps what its parts keep. -/
theorem Kept.andThen {f g : α → Cursor → Attempt β} (h : Kept w x y)
    (hf : ∀ a c, Kept w (f a c) (g a (c.within w))) : Kept w (x.andThen f) (y.andThen g) := by
  intro b c hx
  rw [found_andThen, Option.bind_eq_some_iff] at hx
  obtain ⟨⟨a, c'⟩, ha, hb⟩ := hx
  rw [found_andThen, h a c' ha]
  exact hf a c' b c hb

/-- A second alternative is kept if the first is not found in the larger text either. -/
theorem Kept.orElse (h : Kept w x y) (h' : Kept w (x' ()) (y' ()))
    (hnone : ∀ p, (x' ()).found = some p → x.found = none → y.found = none) :
    Kept w (x.orElse x') (y.orElse y') := by
  intro a c hx
  rw [found_orElse, Option.or_eq_some_iff] at hx
  rw [found_orElse]
  rcases hx with hx | ⟨hx, hx'⟩
  · rw [h a c hx]
    rfl
  · rw [hnone (a, c) hx' hx, h' a c hx']
    rfl

end Attempt

namespace Grammar

open Attempt (Kept)

variable {c c' : Cursor} {w : Surroundings} {r : Reading}

/-! ## What is found in both texts alike -/

/-- A character other than a line feed is found alike. -/
theorem char_within {ch : Char} (hch : ch ≠ '\n') :
    (char ch (c.within w)).found = (char ch c).within w := by
  cases hc : c.rest with
  | nil =>
    -- At the end of the text, the larger one goes on with a line feed or not at all.
    have hafter : Stops (· == ch) w.after := w.stops (by simpa using Ne.symm hch)
    rw [char_none (by rwa [Cursor.rest_within, hc]), Attempt.within, char_none (by simp [hc])]
    rfl
  | cons x cs =>
    have hadvance : (c.within w).advance 1 = (c.advance 1).within w :=
      Cursor.advance_within (by simp [hc])
    unfold char
    rw [Cursor.rest_within, hc, List.cons_append]
    by_cases hx : x = ch
    · simp [hx, Attempt.within, hadvance]
    · simp [hx, Attempt.within]

/-- A run without line feeds is found alike. -/
theorem run1_within {p : Char → Bool} (hp : p '\n' = false) :
    (run1 p (c.within w)).found = (run1 p c).within w := by
  have hadvance := Cursor.advance_run_within (c := c) (w := w) hp
  rw [Cursor.run_within hp] at hadvance
  unfold run1
  rw [Cursor.run_within hp]
  generalize c.run p = cs at *
  cases cs with
  | nil => rfl
  | cons ch cs =>
    exact congrArg (fun d => some (ch :: cs, d)) hadvance

theorem name_within : (name (c.within w)).found = (name c).within w :=
  Attempt.within_map (Attempt.within_named (run1_within (by decide)))

theorem extent_within : (extent (c.within w)).found = (extent c).within w :=
  Attempt.within_named (Attempt.within_orElse (Attempt.within_map (run1_within (by decide)))
    (Attempt.within_map (char_within (by decide))))

/-- A location is found alike. -/
theorem location_within : (location (c.within w)).found = (location c).within w := by
  refine Attempt.within_named (Attempt.within_andThen name_within fun base c₁ => ?_)
  refine Attempt.within_andThen (char_within (by decide)) fun _ c₂ => ?_
  exact Attempt.within_map extent_within

/-- A number is found alike, its sign included. -/
theorem number_within : (number (c.within w)).found = (number c).within w := by
  -- The sign is looked for in one character, which may be the line feed behind the text.
  have hsign : ((c.within w).rest.take 1).filter (· = '-') = (c.rest.take 1).filter (· = '-') := by
    cases hc : c.rest with
    | nil =>
      rcases w.endsLine with h | ⟨rest, h⟩
      · simp [hc, h]
      · simp [hc, h]
    | cons ch cs => simp [hc]
  have hle : ((c.rest.take 1).filter (· = '-')).length ≤ c.rest.length :=
    Nat.le_trans (List.length_filter_le _ _) (List.length_take_le' 1 c.rest)
  unfold number
  rw [hsign]
  refine Attempt.within_named (Attempt.within_andThen ?_ fun ds c₁ => ?_)
  · rw [Cursor.advance_within hle]
    exact run1_within (by decide)
  · rw [Cursor.run_within (by decide)]
    cases c₁.run isNameChar with
    | nil => rfl
    | cons ch cs => rfl

/-! ## Values -/

/-- A text that is found stands between two quotes. -/
theorem text_eq_some (h : (text c).found = some (r, c')) :
    ∃ cs rest, c.rest = '"' :: (cs ++ '"' :: rest) ∧ '"' ∉ cs := by
  unfold text at h
  simp only [Attempt.found_named, Attempt.found_andThen, Attempt.found_map, Option.bind_eq_some_iff,
    Option.map_eq_some_iff, Prod.exists] at h
  obtain ⟨_, c₁, hopen, _, _, hclose, -⟩ := h
  obtain ⟨rest, hrest, rfl⟩ := char_eq_some hopen
  obtain ⟨rest', hrest', -⟩ := char_eq_some hclose
  obtain ⟨rest'', hsplit, -⟩ := (c.advance 1).exists_rest (· ≠ '"')
  rw [Cursor.rest_advance_length hsplit] at hrest'
  rw [hrest', Cursor.rest_advance, hrest] at hsplit
  refine ⟨_, rest', hrest.trans (congrArg _ hsplit), fun hquote => ?_⟩
  simpa using Cursor.mem_run hquote

/-- A quoted text is kept. -/
theorem text_kept : Kept w (text c) (text (c.within w)) := by
  intro r c' h
  obtain ⟨cs, rest, hrest, hquote⟩ := text_eq_some h
  have hrest' : (c.within w).rest = '"' :: (cs ++ '"' :: (rest ++ w.after)) := by simp [hrest]
  rw [text_found hrest hquote] at h
  cases h
  rw [text_found hrest' hquote, Cursor.advance_within]
  simp [hrest]

/-- No name, number or location is found where no name character stands. -/
theorem word_none (h : Stops isNameChar c.rest) :
    (location c).found = none ∧ (number c).found = none ∧ (name c).found = none := by
  have hrun : c.run isNameChar = [] := Cursor.run_of_stops h
  exact ⟨location_none fun _ hne => absurd hrun hne,
    number_none fun hnumeral => hnumeral.ne_nil hrun, name_none h⟩

/-- Text that does not begin with a character stops it. -/
theorem stops_of_head_ne {ch : Char} {cs : List Char} (h : ∀ cs', cs ≠ ch :: cs') :
    Stops (· == ch) cs := by
  cases cs with
  | nil => exact stops_nil
  | cons x cs =>
    refine stops_cons.mpr (beq_eq_false_iff_ne.mpr ?_)
    rintro rfl
    exact h cs rfl

/-- A value other than a list is kept. -/
theorem single_kept : Kept w (single c) (single (c.within w)) := by
  unfold single
  refine text_kept.orElse (.of_within ?_) fun p hp _ => ?_
  · refine Attempt.within_orElse location_within (Attempt.within_orElse number_within ?_)
    refine Attempt.within_orElse ?_ (Attempt.within_map name_within)
    exact Attempt.within_map (Attempt.within_named (char_within (by decide)))
  · -- What is no text does not begin with a quote.
    have hquote : Stops (· == '"') c.rest := by
      refine stops_of_head_ne fun cs hcs => ?_
      obtain ⟨hlocation, hnumber, hname⟩ := word_none (c := c) (by rw [hcs]; exact stops_cons.mpr rfl)
      have hmark : (char '?' c).found = none := char_none (by rw [hcs]; exact stops_cons.mpr rfl)
      simp [hlocation, hnumber, hname, hmark] at hp
    exact text_none (hquote.append (w.stops (by decide)))

/-- A value other than a list does not begin with a bracket. -/
theorem stops_bracket_of_single {p : Reading × Cursor} (h : (single c).found = some p) :
    Stops (· == '[') c.rest := by
  refine stops_of_head_ne fun cs hcs => ?_
  obtain ⟨hlocation, hnumber, hname⟩ := word_none (c := c) (by rw [hcs]; exact stops_cons.mpr rfl)
  have htext : (text c).found = none := text_none (by rw [hcs]; exact stops_cons.mpr rfl)
  have hmark : (char '?' c).found = none := char_none (by rw [hcs]; exact stops_cons.mpr rfl)
  simp [single, htext, hlocation, hnumber, hname, hmark] at h

/-- Nothing more is found in front of the closing bracket of a list. -/
theorem more_at_bracket {rest : List Char} (h : c.skip.rest = ']' :: rest) (n : Nat) :
    (more n (c.within w)).found = some ([], c.within w) := by
  cases n with
  | zero =>
    rw [more]
    rfl
  | succ n =>
    have hcomma : (char ',' (c.within w).skip).found = none := by
      rw [Cursor.skip_within]
      exact char_none (by rw [Cursor.rest_within, h]; exact stops_cons.mpr rfl)
    rw [more]
    simp [hcomma]

/-- The further items of a list are kept if its closing bracket follows them. -/
def MoreKept (w : Surroundings) (n m : Nat) : Prop :=
  ∀ c rs c' rest, (more n c).found = some (rs, c') → c'.skip.rest = ']' :: rest →
    (more m (c.within w)).found = some (rs, c'.within w)

/-- A value is kept if one nested less deeply is, and the further items of a list are. -/
theorem datum_succ_kept {n m : Nat} (hdatum : ∀ c, Kept w (datum n c) (datum m (c.within w)))
    (hmore : MoreKept w n m) (c : Cursor) : Kept w (datum (n + 1) c) (datum (m + 1) (c.within w)) := by
  rw [datum, datum]
  refine Kept.orElse (.named (.andThen (.of_within (char_within (by decide))) fun _ c₁ => ?_))
    single_kept fun p hp _ => ?_
  · -- A list: its closing bracket was found, so it is found in the larger text and ends the items
    -- there too.
    intro r c' h
    simp only [Attempt.found_andThen, Attempt.found_map, Option.bind_eq_some_iff,
      Option.map_eq_some_iff, Prod.exists, Prod.mk.injEq] at h
    obtain ⟨rs, c₂, hitems, _, c₃, hclose, rfl, rfl⟩ := h
    obtain ⟨rest, hrest, -⟩ := char_eq_some hclose
    have hclose' := Kept.of_within (w := w) (char_within (by decide)) _ _ hclose
    have hfinish (x : Attempt (List Reading)) (hx : x.found = some (rs, c₂.within w)) :
        (x.andThen fun ds c =>
          (char ']' c.skip).map fun _ => (ds.mapM id).map Datum.list).found
          = some ((rs.mapM id).map Datum.list, c₃.within w) := by
      simp [hx, Cursor.skip_within, hclose']
    refine hfinish _ ?_
    split at hitems
    next =>
      cases hitems
      have hnone : (datum m (c₁.within w).skip).found = none := by
        rw [Cursor.skip_within]
        exact datum_none (by rw [Cursor.rest_within, hrest]; exact stops_cons.mpr rfl) m
      rw [hnone]
    next d c₄ hfirst =>
      obtain ⟨⟨ds, c₅⟩, hothers, heq⟩ := Option.map_eq_some_iff.mp hitems
      cases heq
      rw [Cursor.skip_within, hdatum _ d c₄ hfirst]
      dsimp only
      rw [hmore _ _ _ _ hothers hrest]
      rfl
  · -- What is no list does not begin with a bracket.
    have hbracket := (stops_bracket_of_single hp).append (w.stops (p := (· == '[')) (by decide))
    simp [char_none (c := c.within w) hbracket]

/-- The further items of a list are kept if the next one and those behind it are. -/
theorem more_succ_kept {n m : Nat} (hdatum : ∀ c, Kept w (datum n c) (datum m (c.within w)))
    (hmore : MoreKept w n m) : MoreKept w (n + 1) (m + 1) := by
  intro c rs c' rest h hclose
  rw [more] at h
  dsimp only at h
  split at h
  next =>
    cases h
    exact more_at_bracket hclose (m + 1)
  next d c₁ hnext =>
    obtain ⟨⟨ds, c₂⟩, hothers, heq⟩ := Option.map_eq_some_iff.mp h
    cases heq
    have hkept : Kept w ((char ',' c.skip).andThen fun _ c => datum n c.skip)
        ((char ',' (c.within w).skip).andThen fun _ c => datum m c.skip) := by
      rw [Cursor.skip_within]
      refine .andThen (.of_within (char_within (by decide))) fun _ c₃ => ?_
      rw [Cursor.skip_within]
      exact hdatum _
    rw [more]
    dsimp only
    rw [hkept _ _ hnext]
    dsimp only
    rw [hmore _ _ _ _ hothers hclose]
    rfl

/-- Induction on the nesting, for a value together with the further items of a list. Where the items
end because their number is bounded, a closing bracket still has to follow, so a greater bound finds
no more of them. -/
theorem datum_more_kept {n m : Nat} (hle : n ≤ m) :
    (∀ c, Kept w (datum n c) (datum m (c.within w))) ∧ MoreKept w n m := by
  induction n generalizing m with
  | zero =>
    constructor
    · intro c r c' h
      rw [datum] at h
      cases h
    · intro c rs c' rest h hclose
      rw [more] at h
      cases h
      exact more_at_bracket hclose m
  | succ n ih =>
    obtain ⟨m, rfl⟩ := Nat.exists_eq_add_of_le' (Nat.le_trans n.succ_pos hle)
    obtain ⟨hdatum, hmore⟩ := ih (Nat.le_of_succ_le_succ hle)
    exact ⟨datum_succ_kept hdatum hmore, more_succ_kept hdatum hmore⟩

/-- A value is kept, also under a greater bound on nesting. -/
theorem datum_kept {n m : Nat} (hle : n ≤ m) : Kept w (datum n c) (datum m (c.within w)) :=
  (datum_more_kept hle).1 c

/-! ## Items -/

/-- Of what begins with a name and an equals sign behind it, only the name is read as a value. -/
theorem datum_before_equals {n : Nat} (hne : c.run isNameChar ≠ [])
    (hequals : ¬ Stops (· == '=') (c.advance (c.run isNameChar).length).skip.rest)
    (h : (datum n c).found = some (r, c')) : c' = c.advance (c.run isNameChar).length := by
  obtain ⟨rest, hsplit, -⟩ := c.exists_rest isNameChar
  have hahead : (c.advance (c.run isNameChar).length).rest = rest := Cursor.rest_advance_length hsplit
  have hstops {x : Char} (hx : isNameChar x = false) : Stops (· == x) c.rest := by
    rw [hsplit]
    exact stops_append hne (fun ch => Cursor.mem_run) fun ch hch => beq_false_of_isNameChar hch hx
  have hcolon : Stops (· == ':') rest := by
    refine stops_of_head_ne fun cs hcs => hequals ?_
    rw [Cursor.skip_of_stops (by rw [hahead, hcs]; exact stops_cons.mpr rfl), hahead, hcs]
    exact stops_cons.mpr rfl
  -- A location would need a colon where the equals sign is.
  have hlocation : (location c).found = none := by
    refine location_none fun rest' _ hsplit' => ?_
    rwa [← List.append_cancel_left (hsplit.symm.trans hsplit')]
  have htext : (text c).found = none := text_none (hstops (by decide))
  have hmark : (char '?' c).found = none := char_none (hstops (by decide))
  cases n with
  | zero =>
    rw [datum] at h
    cases h
  | succ n =>
    rw [datum_succ_of_single (hstops (by decide))] at h
    simp only [single, Attempt.found_orElse, Attempt.found_map, Attempt.found_named, htext,
      hlocation, hmark, Option.none_or, Option.map_none, Option.or_eq_some_iff,
      Option.map_eq_some_iff, Prod.exists, Prod.mk.injEq] at h
    rcases h with hnumber | ⟨-, s, c₁, hname, -, rfl⟩
    · by_cases hnumeral : IsNumeral (c.run isNameChar)
      · obtain ⟨r', hfound, -⟩ := number_found hnumeral
        rw [hfound] at hnumber
        cases hnumber
        rfl
      · rw [number_none hnumeral] at hnumber
        cases hnumber
    · obtain ⟨-, hrun, rfl⟩ := name_eq_some hname
      rw [hrun]

/-- An item is kept unless an equals sign stands behind it: a value that could not be read there may
be found in the larger text. -/
theorem item_kept {n m : Nat} {i : Item} (hle : n ≤ m) (h : (item n c).found = some (i, c'))
    (hnext : Stops (· == '=') c'.skip.rest) :
    (item m (c.within w)).found = some (i, c'.within w) := by
  -- An item with a key is read alike whatever follows, since its equals sign is part of it.
  have hattr : Kept w
      ((name c).andThen fun key c => (char '=' c.skip).andThen fun _ c =>
        (datum n c.skip).map fun d => (some key, d))
      ((name (c.within w)).andThen fun key c => (char '=' c.skip).andThen fun _ c =>
        (datum m c.skip).map fun d => (some key, d)) := by
    refine .andThen (.of_within name_within) fun key c₁ => ?_
    rw [Cursor.skip_within]
    refine .andThen (.of_within (char_within (by decide))) fun _ c₂ => ?_
    rw [Cursor.skip_within]
    exact (datum_kept hle).map
  unfold item at h ⊢
  rw [Attempt.found_orElse, Attempt.found_named, Option.or_eq_some_iff] at h
  rw [Attempt.found_orElse, Attempt.found_named]
  rcases h with h | ⟨hnone, h⟩
  · rw [hattr _ _ h]
    rfl
  · -- A value without key: in the larger text, too, no equals sign stands behind its name.
    rw [(datum_kept hle).map _ _ h, key_none, Option.none_or]
    intro hne
    rw [Cursor.run_within (by decide)] at hne
    rw [Cursor.advance_run_within (by decide), Cursor.skip_within, Cursor.rest_within]
    refine Stops.append (Classical.byContradiction fun hequals => ?_) (w.stops (by decide))
    simp only [Attempt.found_map, Option.map_eq_some_iff, Prod.exists, Prod.mk.injEq] at h
    obtain ⟨r, c₁, hvalue, -, rfl⟩ := h
    rw [datum_before_equals hne hequals hvalue] at hnext
    exact hequals hnext

/-- Where items end at the end of their line, no equals sign stands in front of them. -/
theorem stops_equals_of_items {n k : Nat} {is : List Item}
    (h : (items n k c).found = some (is, c')) (hend : c'.AtLineEnd) :
    Stops (· == '=') c.skip.rest := by
  cases k with
  | zero =>
    cases h
    exact hend.of_lineEnd rfl rfl
  | succ k =>
    rw [items] at h
    dsimp only at h
    split at h
    next =>
      cases h
      exact hend.of_lineEnd rfl rfl
    next i c₁ hfirst =>
      refine stops_of_head_ne fun cs hcs => ?_
      rw [item_none (hcs ▸ stops_cons.mpr rfl)] at hfirst
      cases hfirst

/-- No item is found at the end of a line. -/
theorem items_at_lineEnd (h : c.AtLineEnd) (n k : Nat) :
    (items n k (c.within w)).found = some ([], c.within w) := by
  cases k with
  | zero => rfl
  | succ k =>
    have hnone : (item n (c.within w).skip).found = none := by
      rw [Cursor.skip_within]
      exact item_none ((h.of_lineEnd (by decide) (by decide)).append (w.stops (by decide)))
    rw [items]
    simp [hnone]

/-- The items of a line are kept. -/
theorem items_kept {n m k j : Nat} {is : List Item} (hn : n ≤ m) (hk : k ≤ j)
    (h : (items n k c).found = some (is, c')) (hend : c'.AtLineEnd) :
    (items m j (c.within w)).found = some (is, c'.within w) := by
  induction k generalizing c is j with
  | zero =>
    cases h
    exact items_at_lineEnd hend m j
  | succ k ih =>
    rw [items] at h
    dsimp only at h
    split at h
    next =>
      cases h
      exact items_at_lineEnd hend m j
    next i c₁ hfirst =>
      -- The first item is kept because what follows it is another item or the end of the line.
      obtain ⟨⟨is, c₂⟩, hothers, heq⟩ := Option.map_eq_some_iff.mp h
      cases heq
      obtain ⟨j, rfl⟩ := Nat.exists_eq_add_of_le' (Nat.le_trans k.succ_pos hk)
      rw [items]
      dsimp only
      rw [Cursor.skip_within, item_kept hn hfirst (stops_equals_of_items hothers hend)]
      dsimp only
      rw [ih (Nat.le_of_succ_le_succ hk) hothers]
      rfl

/-! ## Statements -/

/-- A statement made of the same items further down is the same but for its line. -/
theorem statementOf_eq_ok {line : Nat} {keyword : String} {is : List Item} {s : Statement}
    (h : statementOf line keyword is = .ok s) (shift : Nat) :
    statementOf (shift + line) keyword is = .ok (s.below shift) := by
  unfold statementOf at h ⊢
  split at h
  next => cases h
  next ds hds =>
    cases h
    rfl

/-- A statement is kept if it is all that stands in its line. -/
theorem statement_kept {n m : Nat} {s : Statement} (hle : n ≤ m)
    (h : (statement n c).found = some (.ok s, c')) (hend : c'.AtLineEnd) :
    (statement m (c.within w)).found = some (.ok (s.below (w.before.count '\n')), c'.within w) := by
  unfold statement at h ⊢
  simp only [Attempt.found_named, Attempt.found_andThen, Attempt.found_map, Option.bind_eq_some_iff,
    Option.map_eq_some_iff, Prod.exists, Prod.mk.injEq] at h ⊢
  obtain ⟨keyword, c₁, hkeyword, is, c₂, his, hs, rfl⟩ := h
  have hkept := Kept.of_within (w := w) (run1_within (p := Char.isAlpha) (by decide)) _ _ hkeyword
  exact ⟨keyword, _, hkept, is, _, items_kept hle hle his hend, statementOf_eq_ok hs _, rfl⟩

end Grammar

end Privatization.Facts
