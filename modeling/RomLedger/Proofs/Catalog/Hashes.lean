import RomLedger.Markup.Document
import RomLedger.Proofs.Catalog.Normal
import RomLedger.Proofs.Catalog.Records

/-!
What the text of a hash means, exactly. Outer white space aside, digits of base sixteen are read as the bytes
that denote the same number, in the canonical length or in the length of the digits if these are more; nothing
and a dash stand for no hash, and all else is refused.
-/
namespace RomLedger

/-- The number that bytes denote, the first of them counting most. -/
def Bytes.number (b : Bytes) : Nat := Nat.ofDigits 256 (b.reverse.map UInt8.toNat)

theorem Bytes.number_cons (d : UInt8) (b : Bytes) : number (d :: b) = number b + 256 ^ b.length * d.toNat := by
  rw [number, List.map_reverse, List.map_cons, Nat.ofDigits_reverse_cons, List.length_map, ← List.map_reverse]
  rfl

theorem Bytes.number_inj {b b' : Bytes} (long : b.length = b'.length) (same : number b = number b') : b = b' := by
  have small : ∀ (d : Bytes), ∀ n ∈ d.reverse.map UInt8.toNat, n < 256 := by
    intro d n member
    obtain ⟨x, -, rfl⟩ := List.mem_map.mp member
    exact x.toNat_lt
  have digits := Nat.ofDigits_inj_of_len_eq (by decide) (by simpa using long) (small b) (small b') same
  have inj : Function.Injective UInt8.toNat := fun x y alike => UInt8.toNat_inj.mp alike
  exact List.reverse_injective (List.map_injective_iff.mpr inj digits)

namespace Hex

/-- Whether a character is a digit of base sixteen, in either case. -/
def isDigit (c : Char) : Bool := c.isDigit || 'a' ≤ c.toLower && c.toLower ≤ 'f'

def value (c : Char) : Nat := if c.isDigit then c.toNat - '0'.toNat else 10 + (c.toLower.toNat - 'a'.toNat)

/-- The number that digits denote in base sixteen, the first of them counting most. -/
def number (cs : List Char) : Nat := Nat.ofDigits 16 (cs.map value).reverse

variable {c : Char} {cs : List Char} {ns : List Nat} {b out : Bytes}

theorem ascii_of_isDigit (digit : isDigit c = true) : c.toNat < 128 := by
  apply Text.toNat_of_isPlain
  grind [isDigit, Text.isPlain, Char.toLower, Char.isAlphanum, Char.isAlpha, Char.isUpper, Char.isLower, Char.le_def]

theorem nibble?_ofNat : ∀ n < 128, nibble? (UInt8.ofNat n) =
    if isDigit (Char.ofNat n) then some (value (Char.ofNat n)) else none := by
  decide +kernel

theorem nibble?_ascii (ascii : c.toNat < 128) :
    nibble? (UInt8.ofNat c.toNat) = if isDigit c then some (value c) else none := by
  have known := nibble?_ofNat c.toNat ascii
  rwa [Char.ofNat_toNat] at known

theorem lt_of_nibble? {d : UInt8} {v : Nat} (read : nibble? d = some v) : v < 16 := by
  have small : ∀ n < 256, ∀ v ∈ nibble? (UInt8.ofNat n), v < 16 := by decide +kernel
  have bound := small d.toNat d.toNat_lt v
  rw [UInt8.ofNat_toNat] at bound
  exact bound read

theorem nibble?_wide {d : UInt8} (wide : 128 ≤ d.toNat) : nibble? d = none := by
  have beyond : ∀ n < 256, 128 ≤ n → nibble? (UInt8.ofNat n) = none := by decide +kernel
  have unread := beyond d.toNat d.toNat_lt wide
  rwa [UInt8.ofNat_toNat] at unread

theorem map_nibble?_encode :
    (cs.flatMap String.utf8EncodeChar).map nibble? = ns.map some ↔
      (∀ c ∈ cs, isDigit c = true) ∧ ns = cs.map value := by
  induction cs generalizing ns with
  | nil => cases ns <;> simp
  | cons c cs ih =>
    rw [List.flatMap_cons, List.map_append, List.forall_mem_cons]
    by_cases ascii : c.toNat < 128
    · rw [Utf8.utf8EncodeChar_of_ascii ascii, List.map_singleton, nibble?_ascii ascii]
      cases digit : isDigit c with
      | false => cases ns <;> simp
      | true =>
        cases ns with
        | nil => simp
        | cons n ns =>
          simp only [↓reduceIte, List.map_cons, List.singleton_append, List.cons.injEq, Option.some.injEq, ih,
            true_and]
          exact ⟨fun ⟨same, digits, others⟩ => ⟨digits, same.symm, others⟩,
            fun ⟨digits, same, others⟩ => ⟨same.symm, digits, others⟩⟩
    · have other : isDigit c = false := Bool.eq_false_iff.mpr fun digit => ascii (ascii_of_isDigit digit)
      obtain ⟨d, more, encoded⟩ := List.exists_cons_of_ne_nil (String.utf8EncodeChar_ne_nil (c := c))
      have wide := Utf8.utf8EncodeChar_of_wide (Nat.le_of_not_lt ascii) (encoded ▸ List.mem_cons_self)
      rw [encoded, List.map_cons, List.cons_append, nibble?_wide wide]
      cases ns <;> simp [other]

theorem of_decodePairs {at_ : Nat} (read : decodePairs at_ b = .ok out) :
    ∃ ns : List Nat, b.map nibble? = ns.map some ∧ ns.length = 2 * out.length ∧
      Bytes.number out = Nat.ofDigits 16 ns.reverse := by
  fun_induction decodePairs at_ b generalizing out with
  | case1 =>
    obtain rfl := Except.ok.inj read
    exact ⟨[], rfl, rfl, rfl⟩
  | case2 => cases read
  | case3 at_ h l rest x y high low ih =>
    obtain ⟨more, others, rfl⟩ : ∃ more, decodePairs (at_ + 2) rest = .ok more ∧
        UInt8.ofNat (16 * x + y) :: more = out := by
      cases others : decodePairs (at_ + 2) rest with
      | ok more =>
        rw [others] at read
        exact ⟨more, rfl, Except.ok.inj read⟩
      | error e =>
        rw [others] at read
        cases read
    obtain ⟨ns, digits, long, same⟩ := ih others
    -- the byte holds both digits, so that its value is theirs
    have small : 16 * x + y < 256 := by
      have := lt_of_nibble? high
      have := lt_of_nibble? low
      omega
    refine ⟨x :: y :: ns, ?_, ?_, ?_⟩
    · simp only [List.map_cons, high, low, digits]
    · simp only [List.length_cons, long]
      omega
    · have value : (UInt8.ofNat (16 * x + y)).toNat = 16 * x + y := UInt8.toNat_ofNat_of_lt' small
      have square : 256 ^ more.length = 16 ^ (2 * more.length) := by rw [Nat.pow_mul]
      rw [Bytes.number_cons, value, same, Nat.ofDigits_reverse_cons, Nat.ofDigits_reverse_cons, List.length_cons,
        long, square]
      ring
  | case4 => cases read
  | case5 => cases read

theorem exists_decodePairs {at_ : Nat} (digits : b.map nibble? = ns.map some) (even : ns.length % 2 = 0) :
    ∃ out, decodePairs at_ b = .ok out := by
  fun_induction decodePairs at_ b generalizing ns with
  | case1 => exact ⟨[], rfl⟩
  | case2 =>
    obtain ⟨n, rest, rfl, -, digits⟩ := List.map_eq_cons_iff.mp digits.symm
    rw [List.map_nil, List.map_eq_nil_iff] at digits
    subst digits
    cases even
  | case3 at_ h l rest x y high low ih =>
    obtain ⟨n, ms, rfl, -, digits⟩ := List.map_eq_cons_iff.mp digits.symm
    obtain ⟨m, ms, rfl, -, digits⟩ := List.map_eq_cons_iff.mp digits
    rw [List.length_cons, List.length_cons] at even
    obtain ⟨out, read⟩ := ih digits.symm (by omega)
    exact ⟨_, congrArg (Except.map (UInt8.ofNat (16 * x + y) :: ·)) read⟩
  | case4 at_ h l rest high =>
    obtain ⟨n, ms, rfl, digit, -⟩ := List.map_eq_cons_iff.mp digits.symm
    rw [high] at digit
    cases digit
  | case5 at_ h l rest x low high =>
    obtain ⟨n, ms, rfl, -, digits⟩ := List.map_eq_cons_iff.mp digits.symm
    obtain ⟨m, ms, rfl, digit, -⟩ := List.map_eq_cons_iff.mp digits
    rw [low] at digit
    cases digit

theorem exists_decode (digits : b.map nibble? = ns.map some) (even : ns.length % 2 = 0) :
    ∃ out, decode b = .ok out := by
  have count := congrArg List.length digits
  rw [List.length_map, List.length_map] at count
  rw [decode, if_neg (by omega)]
  exact exists_decodePairs digits even

theorem of_decode (read : decode b = .ok out) :
    ∃ ns : List Nat, b.map nibble? = ns.map some ∧ ns.length = 2 * out.length ∧
      Bytes.number out = Nat.ofDigits 16 ns.reverse := by
  unfold decode at read
  split at read
  · cases read
  · exact of_decodePairs read

theorem decode_ok_iff :
    decode b = .ok out ↔ ∃ ns : List Nat, b.map nibble? = ns.map some ∧ ns.length = 2 * out.length ∧
      Bytes.number out = Nat.ofDigits 16 ns.reverse := by
  refine ⟨of_decode, ?_⟩
  rintro ⟨ns, digits, long, same⟩
  obtain ⟨out', read⟩ := exists_decode digits (by omega)
  obtain ⟨ns', digits', long', same'⟩ := of_decode read
  obtain rfl : ns = ns' := List.map_injective_iff.mpr (Option.some_injective Nat) (digits.symm.trans digits')
  rw [read, Bytes.number_inj (by omega) (same'.trans same.symm)]

theorem number_zeros (k : Nat) (cs : List Char) : number (List.replicate k '0' ++ cs) = number cs := by
  have zero : value '0' = 0 := rfl
  rw [number, List.map_append, List.map_replicate, zero, List.reverse_append, List.reverse_replicate,
    Nat.ofDigits_append_replicate_zero, number]

end Hex

namespace Coercion

variable {width : Nat} {s s' t : String} {b b' : Bytes}

/-- Texts of digits that have an even length behind the missing zeros. -/
structure IsHash (width : Nat) (t : String) : Prop where
  present : t ≠ ""
  digits : ∀ c ∈ t.toList, Hex.isDigit c = true
  paired : t.length ≤ width ∨ t.length % 2 = 0

/-- What the bytes are for such a text. -/
structure Denotes (width : Nat) (t : String) (b : Bytes) : Prop where
  long : 2 * b.length = max t.length width
  same : Bytes.number b = Hex.number t.toList

theorem padded_eq (width : Nat) (t : String) :
    padded width t = (List.replicate (width - t.length) '0' ++ t.toList).flatMap String.utf8EncodeChar := by
  have zero : String.utf8EncodeChar '0' = [48] := rfl
  rw [padded, List.flatMap_append, List.flatMap_replicate, zero, Bytes.ofString]
  simp

theorem length_padding (width : Nat) (t : String) :
    (List.replicate (width - t.length) '0' ++ t.toList).length = max t.length width := by
  rw [List.length_append, List.length_replicate, String.length_toList]
  omega

theorem isDigit_padding {k : Nat} {cs : List Char} :
    (∀ c ∈ List.replicate k '0' ++ cs, Hex.isDigit c = true) ↔ ∀ c ∈ cs, Hex.isDigit c = true := by
  constructor
  · intro digits c member
    exact digits c (List.mem_append_right _ member)
  · intro digits c member
    rcases List.mem_append.mp member with zero | member
    · rw [List.eq_of_mem_replicate zero]
      rfl
    · exact digits c member

theorem decode_padded_iff :
    Hex.decode (padded width t) = .ok b ↔ (∀ c ∈ t.toList, Hex.isDigit c = true) ∧ Denotes width t b := by
  rw [Hex.decode_ok_iff, padded_eq]
  constructor
  · rintro ⟨ns, read, count, number⟩
    obtain ⟨digits, rfl⟩ := Hex.map_nibble?_encode.mp read
    rw [List.length_map, length_padding] at count
    exact ⟨isDigit_padding.mp digits, count.symm, number.trans (Hex.number_zeros _ _)⟩
  · rintro ⟨digits, count, number⟩
    refine ⟨_, Hex.map_nibble?_encode.mpr ⟨isDigit_padding.mpr digits, rfl⟩, ?_,
      number.trans (Hex.number_zeros _ _).symm⟩
    rw [List.length_map, length_padding, count]

theorem exists_decode_padded (digits : ∀ c ∈ t.toList, Hex.isDigit c = true)
    (even : max t.length width % 2 = 0) : ∃ b, Hex.decode (padded width t) = .ok b := by
  have read := Hex.map_nibble?_encode.mpr ⟨isDigit_padding (k := width - t.length).mpr digits, rfl⟩
  rw [← padded_eq] at read
  apply Hex.exists_decode read
  rw [List.length_map, length_padding, even]

theorem hash_none_iff : hash width s = .ok none ↔ Text.trim s = "" ∨ Text.trim s = "-" := by
  unfold hash
  dsimp only
  split
  · rename_i absent
    exact iff_of_true rfl absent.symm
  · rename_i present
    split <;> exact iff_of_false nofun fun absent => present absent.symm

theorem ne_dash_of_isDigit (digits : ∀ c ∈ t.toList, Hex.isDigit c = true) : t ≠ "-" := by
  rintro rfl
  exact absurd (digits '-' List.mem_cons_self) (by decide)

theorem hash_some_iff :
    hash width s = .ok (some b) ↔ Text.trim s ≠ "" ∧ (∀ c ∈ (Text.trim s).toList, Hex.isDigit c = true) ∧
      Denotes width (Text.trim s) b := by
  rw [← decode_padded_iff]
  by_cases absent : Text.trim s = "" ∨ Text.trim s = "-"
  · rw [hash_none_iff.mpr absent]
    refine iff_of_false nofun ?_
    rintro ⟨present, read⟩
    rcases absent with none_ | dash
    · exact present none_
    · exact ne_dash_of_isDigit (decode_padded_iff.mp read).1 dash
  · obtain ⟨present, dash⟩ := not_or.mp absent
    rw [hash, if_neg fun either => absent either.symm, and_iff_right present]
    cases Hex.decode (padded width (Text.trim s)) <;> simp

theorem exists_hash_iff (even : width % 2 = 0) :
    (∃ b, hash width s = .ok (some b)) ↔ IsHash width (Text.trim s) := by
  constructor
  · rintro ⟨b, read⟩
    obtain ⟨present, digits, long, -⟩ := hash_some_iff.mp read
    exact ⟨present, digits, by omega⟩
  · rintro ⟨present, digits, paired⟩
    obtain ⟨b, read⟩ : ∃ b, Hex.decode (padded width (Text.trim s)) = .ok b :=
      exists_decode_padded digits (by omega)
    exact ⟨b, hash_some_iff.mpr ⟨present, decode_padded_iff.mp read⟩⟩

theorem value_of_hash {e : BadHex} (refused : hash width s = .error e) : e.value = Text.trim s := by
  unfold hash at refused
  dsimp only at refused
  split at refused
  · cases refused
  · split at refused
    · cases refused
    · obtain rfl := Except.error.inj refused
      rfl

theorem length_of_hash (read : hash width s = .ok (some b)) : width ≤ 2 * b.length := by
  rw [(hash_some_iff.mp read).2.2.long]
  exact Nat.le_max_right _ _

theorem hash_inj (read : hash width s = .ok (some b)) (read' : hash width s' = .ok (some b'))
    (short : (Text.trim s).length ≤ width) (short' : (Text.trim s').length ≤ width) :
    b = b' ↔ Hex.number (Text.trim s).toList = Hex.number (Text.trim s').toList := by
  obtain ⟨-, -, long, same⟩ := hash_some_iff.mp read
  obtain ⟨-, -, long', same'⟩ := hash_some_iff.mp read'
  rw [← same, ← same']
  exact ⟨congrArg Bytes.number, Bytes.number_inj (by omega)⟩

end Coercion

open Clr (HashField)

/-- No hash is shorter than canonical. -/
def Rom.Full (r : Rom) : Prop := ∀ h : HashField, ∀ b ∈ h.get r, h.digits ≤ 2 * b.length

def Game.Full (g : Game) : Prop := ∀ r ∈ g.allRoms, r.Full

def Catalog.Full (c : Catalog) : Prop := ∀ g ∈ c.allGames, g.Full

theorem Rom.full_blank : Rom.blank.Full := by
  intro h b member
  cases h <;> cases member

theorem Rom.Full.set {r : Rom} (full : r.Full) {h : HashField} {o : Option Bytes}
    (long : ∀ b ∈ o, h.digits ≤ 2 * b.length) : (h.set r o).Full := by
  intro h' b member
  by_cases same : h' = h
  · subst same
    refine long b ?_
    cases h' <;> exact member
  · refine full h' b ?_
    cases h <;> cases h' <;> first | exact member | exact absurd rfl same

theorem Rom.Full.normalize {r : Rom} (full : r.Full) : r.normalize.Full := by
  intro h b member
  rw [Clr.get_normalize] at member
  exact full h b member

theorem Game.full_blank : Game.blank.Full := nofun

theorem Game.Full.add {g : Game} {r : Rom} (full : g.Full) (rom : r.Full) :
    Game.Full { g with roms := g.roms ++ [r] } := by
  intro r' member
  have either : r' = r ∨ r' ∈ g.allRoms := by
    simp only [allRoms, List.mem_append, List.mem_singleton] at member ⊢
    tauto
  rcases either with rfl | member
  · exact rom
  · exact full r' member

theorem Game.Full.normalize {g : Game} (full : g.Full) : g.normalize.Full := by
  intro r member
  rw [allRoms_normalize] at member
  obtain ⟨r, known, rfl⟩ := List.mem_map.mp member
  exact (full r known).normalize

theorem Catalog.Full.add {c : Catalog} {g : Game} (full : c.Full) (game : g.Full) :
    Catalog.Full { c with games := c.games ++ [g] } := by
  intro g' member
  have either : g' = g ∨ g' ∈ c.allGames := by
    simp only [allGames, List.mem_append, List.mem_singleton] at member ⊢
    tauto
  rcases either with rfl | member
  · exact game
  · exact full g' member

theorem Catalog.Full.normalize {c : Catalog} (full : c.Full) : c.normalize.Full := by
  intro g member
  rw [allGames_normalize] at member
  obtain ⟨g, known, rfl⟩ := List.mem_map.mp member
  exact (full g known).normalize

namespace Clr

def Place.Full : Place → Prop
  | .top | .header => True
  | .game g => g.Full
  | .rom g r => g.Full ∧ r.Full

def Mode.place : Mode → Place
  | .at_ p | .opening p | .value _ p | .skipping _ p => p

structure State.Full (s : State) : Prop where
  catalog : s.catalog.Full
  place : s.mode.place.Full

variable {s s' : State} {c : Catalog} {p q : Place} {t : Token} {ts : List Token}

theorem full_close (full : c.Full) (place : p.Full) : (close c p).Full := by
  cases p with
  | top | header => exact ⟨full, trivial⟩
  | game g => exact ⟨full.add place, trivial⟩
  | rom g r => exact ⟨full, place.1.add place.2⟩

theorem full_of_block? {k : Keyword} (place : p.Full) (known : p.block? k = some q) : q.Full := by
  cases p with
  | top => cases k <;> cases known <;> first | trivial | exact Game.full_blank
  | game g =>
    cases k <;> cases known
    exact ⟨place, Rom.full_blank⟩
  | header | rom g r => cases k <;> cases known

theorem full_stepAt (full : c.Full) (place : p.Full) : (stepAt c p t).Full := by
  unfold stepAt
  split
  · exact ⟨full, place⟩
  · exact full_close full place
  · split
    · exact ⟨full, place⟩
    · rename_i known
      exact ⟨full, full_of_block? place known⟩
    · exact ⟨full, place⟩
  · exact ⟨full, place⟩

theorem full_setName (full : c.Full) (place : p.Full) (x : String) : (setName c x p).Full := by
  cases p <;> exact ⟨full, place⟩

theorem full_setDescription (full : c.Full) (place : p.Full) (x : String) : (setDescription c x p).Full := by
  cases p <;> exact ⟨full, place⟩

theorem full_setSize (full : c.Full) (place : p.Full) (n : UInt64) : (setSize c n p).Full := by
  cases p <;> exact ⟨full, place⟩

theorem full_setHash (full : c.Full) (place : p.Full) (h : HashField) (x : String) : (setHash c h x p).Full := by
  unfold setHash
  cases p with
  | rom g r =>
    cases read : Coercion.hash h.digits x with
    | ok o =>
      refine ⟨full, place.1, place.2.set ?_⟩
      rintro b ⟨⟩
      exact Coercion.length_of_hash read
    | error e => exact ⟨full, place.1⟩
  | top | header | game g => cases Coercion.hash h.digits x <;> exact ⟨full, place⟩

theorem full_stepValue {f : Field} (full : c.Full) (place : p.Full) (taken : stepValue c f p t = .ok s') :
    s'.Full := by
  cases f with
  | name =>
    cases kind : t.kind <;> simp only [stepValue, kind, reduceCtorEq] at taken
    all_goals
      obtain rfl := Except.ok.inj taken
      exact full_setName full place t.text
  | description =>
    cases kind : t.kind <;> simp only [stepValue, kind, reduceCtorEq] at taken
    all_goals
      obtain rfl := Except.ok.inj taken
      exact full_setDescription full place t.text
  | size =>
    cases kind : t.kind <;> simp only [stepValue, kind, reduceCtorEq] at taken
    all_goals
      split at taken
      · obtain rfl := Except.ok.inj taken
        exact full_setSize full place _
      · cases taken
  | hash h =>
    cases kind : t.kind <;> simp only [stepValue, kind, reduceCtorEq] at taken
    all_goals
      obtain rfl := Except.ok.inj taken
      exact full_setHash full place h t.text

theorem full_step (full : s.Full) (taken : step s t = .ok s') : s'.Full := by
  obtain ⟨c, mode⟩ := s
  obtain ⟨catalog, place⟩ := full
  cases mode with
  | at_ p =>
    obtain rfl := Except.ok.inj taken
    exact full_stepAt catalog place
  | opening p =>
    cases kind : t.kind <;> simp only [step, stepOpening, kind, reduceCtorEq] at taken
    obtain rfl := Except.ok.inj taken
    exact ⟨catalog, place⟩
  | value f p => exact full_stepValue catalog place taken
  | skipping d p =>
    obtain rfl := Except.ok.inj taken
    simp only [stepSkipping]
    split <;> exact ⟨catalog, place⟩

theorem full_run (full : s.Full) (through : run s ts = .ok s') : s'.Full := by
  induction ts generalizing s with
  | nil =>
    obtain rfl := Except.ok.inj through
    exact full
  | cons t ts ih =>
    obtain ⟨m, first, later⟩ := run_cons.mp through
    exact ih (full_step full first) later

theorem full_of_parse {f : Feed} {x : Bytes} (parsed : parse f = .ok (c, x)) : c.Full := by
  obtain ⟨-, written, complete, rfl⟩ := parse_ok_iff.mp parsed
  have ended := kind_of_read (Lexer.last_tokens _) complete
  have start : State.start.Full := ⟨nofun, trivial⟩
  exact (full_run start ((read_ended ended).mp complete)).catalog.normalize

end Clr

namespace Markup

theorem full_toRom (d : RomDraft) : d.toRom.Full := by
  intro h b member
  rw [Clr.get_toRom] at member
  unfold decodeHash at member
  split at member
  · cases member
  · rename_i x written
    cases read : Coercion.hash h.digits x with
    | ok o =>
      rw [read] at member
      obtain rfl := Option.mem_def.mp member
      exact Coercion.length_of_hash read
    | error e =>
      rw [read] at member
      cases member

theorem full_toGame (d : GameDraft) : d.toGame.Full := by
  intro r member
  simp only [Game.allRoms, GameDraft.toGame, ← List.map_append] at member
  obtain ⟨r, -, rfl⟩ := List.mem_map.mp member
  exact full_toRom r

theorem full_toCatalog (d : CatalogDraft) : d.toCatalog.Full := by
  intro g member
  simp only [Catalog.allGames, CatalogDraft.toCatalog, ← List.map_append] at member
  obtain ⟨g, -, rfl⟩ := List.mem_map.mp member
  exact full_toGame g

theorem full_of_parse {f : Feed} {c : Catalog} {x : Bytes} (parsed : parse f = .ok (c, x)) : c.Full := by
  unfold parse at parsed
  dsimp only at parsed
  split at parsed
  · cases parsed
  · split at parsed
    · cases parsed
    · obtain ⟨rfl, -⟩ := Prod.mk.inj (Except.ok.inj parsed)
      exact Catalog.Full.normalize (full_toCatalog _)

end Markup

namespace Coercion

variable {width : Nat}

/-- What the text of a hash is read as, if the canonical number of digits is even. The outer white space aside,
nothing and a dash are no hash, digits that can be paired are the bytes of the number that they denote, and any
other text is refused. So the hashes of catalogs are all of their canonical length or longer, and up to this
length texts differ as hashes exactly if they denote different numbers. -/
theorem hash_exact (even : width % 2 = 0) :
    (∀ s, (hash width s = .ok none ↔ Text.trim s = "" ∨ Text.trim s = "-") ∧
      ((∃ b, hash width s = .ok (some b)) ↔ IsHash width (Text.trim s)) ∧
      (∀ b, hash width s = .ok (some b) → Denotes width (Text.trim s) b) ∧
      (¬(Text.trim s = "" ∨ Text.trim s = "-") → ¬IsHash width (Text.trim s) →
        ∃ fault, hash width s = .error ⟨Text.trim s, fault⟩)) ∧
    (∀ s s' b b', hash width s = .ok (some b) → hash width s' = .ok (some b') → (Text.trim s).length ≤ width →
      (Text.trim s').length ≤ width →
      (b = b' ↔ Hex.number (Text.trim s).toList = Hex.number (Text.trim s').toList)) ∧
    ∀ f c x, Clr.parse f = .ok (c, x) ∨ Markup.parse f = .ok (c, x) → c.Full := by
  refine ⟨fun s => ⟨hash_none_iff, exists_hash_iff even, fun b read => (hash_some_iff.mp read).2.2, ?_⟩,
    fun s s' b b' => hash_inj, ?_⟩
  · intro present other
    cases read : hash width s with
    | ok o =>
      cases o with
      | none => exact absurd (hash_none_iff.mp read) present
      | some b => exact absurd ((exists_hash_iff even).mp ⟨b, read⟩) other
    | error e =>
      rw [← value_of_hash read]
      exact ⟨e.fault, rfl⟩
  · rintro f c x (parsed | parsed)
    · exact Clr.full_of_parse parsed
    · exact Markup.full_of_parse parsed

theorem hash_exact_crc :
    crcDigits % 2 = 0 ∧ hash crcDigits " 1A2b\n" = .ok (some [0, 0, 0x1a, 0x2b]) ∧
      Denotes crcDigits "1A2b" [0, 0, 0x1a, 0x2b] := by
  have read : hash crcDigits " 1A2b\n" = .ok (some [0, 0, 0x1a, 0x2b]) := by decide +kernel
  have trimmed : Text.trim " 1A2b\n" = "1A2b" := by decide +kernel
  have denotes := ((hash_exact (show crcDigits % 2 = 0 by decide)).1 " 1A2b\n").2.2.1 _ read
  rw [trimmed] at denotes
  exact ⟨by decide, read, denotes⟩

end Coercion
end RomLedger
