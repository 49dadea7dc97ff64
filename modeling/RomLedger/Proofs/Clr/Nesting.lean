import RomLedger.Proofs.Clr.Scanning

/-!
No text is complete with a parenthesis open. The statements keep no count of parentheses, but their state
holds one: the depth of the place that is read, and that of the unknown blocks around it. Each token changes
this depth as it changes a plain count of open parentheses, and a catalog is given only at depth zero.
-/
namespace RomLedger.Clr

def Kind.shift (n : Nat) : Kind → Nat
  | .openBrace => n + 1
  | .closeBrace => n - 1
  | _ => n

def level (n : Nat) (ts : List Token) : Nat := ts.foldl (fun n t => t.kind.shift n) n

def Place.depth : Place → Nat
  | .top => 0
  | .header | .game _ => 1
  | .rom _ _ => 2

def Mode.depth : Mode → Nat
  | .at_ p | .value _ p => p.depth
  | .opening p => p.depth - 1
  | .skipping d p => p.depth + d + 1

/-- The modes that come up: only blocks are opened, and hashes are read in roms. -/
def Mode.Proper : Mode → Prop
  | .opening p => p ≠ .top
  | .value (.hash _) p => ∃ g r, p = .rom g r
  | _ => True

variable {s s' : State} {c : Catalog} {p q : Place} {k : Keyword} {f : Field} {t : Token} {ts us : List Token}

theorem level_append (n : Nat) (ts us : List Token) : level n (ts ++ us) = level (level n ts) us :=
  List.foldl_append

theorem depth_close (c : Catalog) (p : Place) :
    (close c p).mode.Proper ∧ (close c p).mode.depth = p.depth - 1 := by
  cases p <;> exact ⟨trivial, rfl⟩

theorem proper_of_field? (known : p.field? k = some f) : (Mode.value f p).Proper := by
  cases f with
  | name | description | size => trivial
  | hash h =>
    cases p with
    | rom g r => exact ⟨g, r, rfl⟩
    | top | header | game g => cases k <;> cases known

theorem depth_of_block? (known : p.block? k = some q) : q ≠ .top ∧ q.depth - 1 = p.depth := by
  cases p <;> cases k <;> cases known <;> exact ⟨nofun, rfl⟩

theorem depth_stepAt (c : Catalog) (p : Place) (t : Token) :
    (stepAt c p t).mode.Proper ∧ (stepAt c p t).mode.depth = t.kind.shift p.depth := by
  unfold stepAt
  cases t.kind with
  | openBrace => exact ⟨trivial, rfl⟩
  | closeBrace => exact depth_close c p
  | keyword k =>
    dsimp only
    split
    · rename_i known
      exact ⟨proper_of_field? known, rfl⟩
    · rename_i known
      exact depth_of_block? known
    · exact ⟨trivial, rfl⟩
  | quoted | bare | ended | faulty => exact ⟨trivial, rfl⟩

theorem depth_setName (c : Catalog) (x : String) (p : Place) :
    (setName c x p).mode.Proper ∧ (setName c x p).mode.depth = p.depth := by
  cases p <;> exact ⟨trivial, rfl⟩

theorem depth_setDescription (c : Catalog) (x : String) (p : Place) :
    (setDescription c x p).mode.Proper ∧ (setDescription c x p).mode.depth = p.depth := by
  cases p <;> exact ⟨trivial, rfl⟩

theorem depth_setSize (c : Catalog) (n : UInt64) (p : Place) :
    (setSize c n p).mode.Proper ∧ (setSize c n p).mode.depth = p.depth := by
  cases p <;> exact ⟨trivial, rfl⟩

theorem depth_setHash (c : Catalog) (h : HashField) (x : String) (g : Game) (r : Rom) :
    (setHash c h x (.rom g r)).mode.Proper ∧
      (setHash c h x (.rom g r)).mode.depth = (Place.rom g r).depth := by
  unfold setHash
  cases Coercion.hash h.digits x <;> exact ⟨trivial, rfl⟩

theorem depth_stepValue (proper : (Mode.value f p).Proper) (taken : stepValue c f p t = .ok s') :
    s'.mode.Proper ∧ s'.mode.depth = t.kind.shift p.depth := by
  cases f with
  | name =>
    cases kind : t.kind <;> simp only [stepValue, kind, reduceCtorEq] at taken
    all_goals
      obtain rfl := Except.ok.inj taken
      exact depth_setName c t.text p
  | description =>
    cases kind : t.kind <;> simp only [stepValue, kind, reduceCtorEq] at taken
    all_goals
      obtain rfl := Except.ok.inj taken
      exact depth_setDescription c t.text p
  | size =>
    cases kind : t.kind <;> simp only [stepValue, kind, reduceCtorEq] at taken
    all_goals
      split at taken
      · obtain rfl := Except.ok.inj taken
        exact depth_setSize c _ p
      · cases taken
  | hash h =>
    obtain ⟨g, r, rfl⟩ := proper
    cases kind : t.kind <;> simp only [stepValue, kind, reduceCtorEq] at taken
    all_goals
      obtain rfl := Except.ok.inj taken
      exact depth_setHash c h t.text g r

theorem depth_stepSkipping (c : Catalog) (d : Nat) (p : Place) (t : Token) :
    (stepSkipping c d p t).mode.Proper ∧
      (stepSkipping c d p t).mode.depth = t.kind.shift (p.depth + d + 1) := by
  unfold stepSkipping
  cases t.kind with
  | closeBrace => cases d <;> exact ⟨trivial, rfl⟩
  | openBrace | keyword k | quoted | bare | ended | faulty => exact ⟨trivial, rfl⟩

theorem depth_step (proper : s.mode.Proper) (taken : step s t = .ok s') :
    s'.mode.Proper ∧ s'.mode.depth = t.kind.shift s.mode.depth := by
  obtain ⟨c, mode⟩ := s
  cases mode with
  | at_ p =>
    obtain rfl := Except.ok.inj taken
    exact depth_stepAt c p t
  | opening p =>
    cases kind : t.kind <;> simp only [step, stepOpening, kind, reduceCtorEq] at taken
    obtain rfl := Except.ok.inj taken
    refine ⟨trivial, ?_⟩
    cases p with
    | top => exact absurd rfl proper
    | header | game g | rom g r => rfl
  | value f p => exact depth_stepValue proper taken
  | skipping d p =>
    obtain rfl := Except.ok.inj taken
    exact depth_stepSkipping c d p t

theorem depth_run (proper : s.mode.Proper) (through : run s ts = .ok s') :
    s'.mode.depth = level s.mode.depth ts := by
  induction ts generalizing s with
  | nil =>
    obtain rfl := Except.ok.inj through
    rfl
  | cons t ts ih =>
    obtain ⟨m, first, later⟩ := run_cons.mp through
    obtain ⟨proper', depth⟩ := depth_step proper first
    rw [ih proper' later, depth]
    rfl

theorem level_of_run (through : run .start ts = .ok ⟨c, .at_ .top⟩) : level 0 ts = 0 :=
  (depth_run (s := .start) trivial through).symm

theorem level_of_read {last : Token} (stop : last.kind.isLast = true) (complete : read ts last = .ok c) :
    level 0 ts = 0 :=
  level_of_run ((read_ended (kind_of_read stop complete)).mp complete)

namespace Lexer

def ending (n : Nat) (text : Bytes) : List Token :=
  if _proper : (cut text).1.kind.isLast = false then
    if n ≤ (cut text).2.length then (cut text).1 :: ending n (cut text).2 else []
  else []
termination_by text.length
decreasing_by exact length_cut _proper

variable {front back text mid more rest : Bytes} {n : Nat}

theorem scans_ending (n : Nat) (text : Bytes) :
    ∃ rest, Scans text (ending n text) rest ∧ (ending n text ≠ [] → n ≤ rest.length) ∧
      ((cut rest).1.kind.isLast = false → (cut rest).2.length < n) := by
  fun_induction ending n text with
  | case1 text proper within ih =>
    obtain ⟨rest, scans, enough, next⟩ := ih
    refine ⟨rest, .cons rfl proper scans, fun _ => ?_, next⟩
    cases later : ending n (cut text).2 with
    | nil =>
      rw [later] at scans
      cases scans
      exact within
    | cons t ts => exact enough (by rw [later]; exact List.cons_ne_nil t ts)
  | case2 text proper beyond => exact ⟨text, .nil, nofun, fun _ => Nat.lt_of_not_le beyond⟩
  | case3 text last => exact ⟨text, .nil, nofun, fun proper => absurd proper last⟩

/-- How many parentheses of a text are open where its front ends. -/
def levelAt (front back : Bytes) : Nat := level 0 (ending back.length (unmarked (front ++ back)))

theorem shift_spelt {k : Kind} (spelt : k.isSpelt = true) (n : Nat) : k.shift n = n := by
  cases k with
  | bare | keyword => rfl
  | openBrace | closeBrace | quoted | ended | faulty => cases spelt

theorem level_of_unfinished (lexes : Lexes mid ts)
    (next : (cut (mid ++ back)).1.kind.isLast = false → (cut (mid ++ back)).2.length < back.length) (n : Nat) :
    level n ts = n := by
  obtain ⟨gap, scans, blank⟩ := lexes
  cases scans with
  | nil => rfl
  | @cons _ more _ t ts here proper later =>
    by_cases word : t.kind.isSpelt = true ∧ more = []
    · obtain ⟨spelt, rfl⟩ := word
      cases ts with
      | nil => exact shift_spelt spelt n
      | cons v vs => exact absurd (later.length (List.cons_ne_nil v vs)) (Nat.not_lt_zero _)
    · have same : cut (mid ++ back) = (t, more ++ back) := by
        rw [← List.append_nil mid, ← List.append_nil more] at here
        exact cut_elsewhere here proper fun none spelt => absurd ⟨spelt, none⟩ word
      have ends := next (by rw [same]; exact proper)
      rw [same, List.length_append] at ends
      omega

theorem scans_front (some_ : ending back.length (unmarked (front ++ back)) ≠ []) :
    ∃ mid, Scans (unmarked front) (ending back.length (unmarked (front ++ back))) mid ∧
      ((cut (mid ++ back)).1.kind.isLast = false → (cut (mid ++ back)).2.length < back.length) := by
  obtain ⟨rest, scans, enough, next⟩ := scans_ending back.length (unmarked (front ++ back))
  generalize ending back.length (unmarked (front ++ back)) = ts at some_ scans enough
  have tail : rest <:+ front ++ back := scans.suffix.trans ⟨_, Reader.walk_parts markStep Bytes.mark (front ++ back)⟩
  obtain ⟨mid, rfl⟩ : back <:+ rest :=
    List.suffix_of_suffix_length_le (List.suffix_append front back) tail (enough some_)
  obtain ⟨u, whole⟩ := scans.suffix
  have shorter := scans.length some_
  rw [← List.append_assoc] at whole
  rw [← whole] at scans shorter
  -- some of the front is read, so that the mark is left behind whatever follows
  have solid : u ++ mid ≠ [] := by
    intro none
    rw [none, List.nil_append, List.length_append] at shorter
    omega
  have alone : Scans (u ++ mid ++ []) ts (mid ++ []) := scans.elsewhere nofun
  have marked := unmarked_elsewhere solid whole.symm []
  rw [List.append_nil] at marked
  rw [← marked, List.append_nil] at alone
  exact ⟨mid, alone, next⟩

theorem level_front (open_ : levelAt front back ≠ 0) (lexes : Lexes (unmarked front) us) :
    level 0 us = levelAt front back := by
  have some_ : ending back.length (unmarked (front ++ back)) ≠ [] := by
    intro none
    rw [levelAt, none] at open_
    exact open_ rfl
  obtain ⟨mid, scans, next⟩ := scans_front some_
  obtain ⟨vs, rfl, left⟩ := scans.split lexes
  rw [level_append, level_of_unfinished left next, levelAt]

end Lexer

/-- A catalog is read only from a text whose parentheses are closed where it ends. So a text is refused whose
tokens come to an end, or to a fault, with a parenthesis open; and so is the front of any text that is cut where
a parenthesis is open. -/
theorem parse_refuses_open (f : Feed) :
    (∀ c x, parse f = .ok (c, x) → level 0 (Lexer.ofReader (.ofFeed f)).tokens.1 = 0) ∧
      (level 0 (Lexer.ofReader (.ofFeed f)).tokens.1 ≠ 0 → ∃ e, parse f = .error e) ∧
      (f.failing = false → ∀ back, Lexer.levelAt f.rest back ≠ 0 → ∃ e, parse f = .error e) := by
  have closed : ∀ c x, parse f = .ok (c, x) → level 0 (Lexer.ofReader (.ofFeed f)).tokens.1 = 0 := by
    intro c x parsed
    obtain ⟨-, written, complete, -⟩ := parse_ok_iff.mp parsed
    exact level_of_read (Lexer.last_tokens _) complete
  have refused : (∀ c x, parse f ≠ .ok (c, x)) → ∃ e, parse f = .error e := by
    intro never
    cases outcome : parse f with
    | error e => exact ⟨e, rfl⟩
    | ok read => exact absurd outcome (never read.1 read.2)
  refine ⟨closed, ?_, ?_⟩
  · intro open_
    exact refused fun c x parsed => open_ (closed c x parsed)
  · intro calm back open_
    refine refused fun c x parsed => ?_
    obtain ⟨-, ts, written, lexes, through, -⟩ := (parse_iff calm).mp parsed
    rw [← Lexer.level_front open_ lexes] at open_
    exact open_ (level_of_run through)

theorem refuses_cut_name :
    (parse (.whole (Bytes.ofString "game(rom(name \"a)" ++ Bytes.ofString " b\"))"))).isOk = true ∧
      Lexer.levelAt (Bytes.ofString "game(rom(name \"a)") (Bytes.ofString " b\"))") = 2 ∧
      level 0 (Lexer.ofReader (.ofFeed (.whole (Bytes.ofString "game(rom(name \"a)")))).tokens.1 = 2 ∧
      ∃ e, parse (.whole (Bytes.ofString "game(rom(name \"a)")) = .error e := by
  have open_ : Lexer.levelAt (Bytes.ofString "game(rom(name \"a)") (Bytes.ofString " b\"))") = 2 := by
    decide +kernel
  have refused := (parse_refuses_open (.whole (Bytes.ofString "game(rom(name \"a)"))).2.2 rfl
    (Bytes.ofString " b\"))") (by rw [Feed.whole, open_]; exact Nat.succ_ne_zero 1)
  exact ⟨by decide +kernel, open_, by decide +kernel, refused⟩

end RomLedger.Clr
