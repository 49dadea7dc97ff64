import RomLedger.Bytes.Utf8

/- Text reads back from its bytes, a character being cut off the front as a whole. ASCII text is one byte a
   character, and whatever the bytes, the last character that is read is an ASCII one only if the last byte
   is. -/
namespace RomLedger.Utf8

theorem utf8EncodeChar_of_ascii {c : Char} (ascii : c.toNat < 128) :
    String.utf8EncodeChar c = [UInt8.ofNat c.toNat] := by
  have small : c.toNat ≤ 0x7f := Nat.le_of_lt_succ ascii
  exact if_pos small

theorem ofString_append (s t : String) : Bytes.ofString (s ++ t) = Bytes.ofString s ++ Bytes.ofString t := by
  simp [Bytes.ofString]

theorem utf8EncodeChar_of_wide {c : Char} (wide : 128 ≤ c.toNat) {b : UInt8}
    (member : b ∈ String.utf8EncodeChar c) : 128 ≤ b.toNat := by
  have lead : ∀ n, 128 ≤ n → n < 256 → 128 ≤ (UInt8.ofNat n).toNat := by
    intro n low high
    rw [UInt8.toNat_ofNat', Nat.mod_eq_of_lt high]
    exact low
  have valid : c.toNat < 0xD800 ∨ 0xDFFF < c.toNat ∧ c.toNat < 0x110000 := c.valid
  unfold String.utf8EncodeChar at member
  dsimp only at member
  change 128 ≤ c.val.toNat at wide
  change c.val.toNat < 0xD800 ∨ 0xDFFF < c.val.toNat ∧ c.val.toNat < 0x110000 at valid
  split at member
  · omega
  · split at member
    · simp only [List.mem_cons, List.not_mem_nil, or_false] at member
      rcases member with rfl | rfl <;> exact lead _ (by omega) (by omega)
    · split at member
      · simp only [List.mem_cons, List.not_mem_nil, or_false] at member
        rcases member with rfl | rfl | rfl <;> exact lead _ (by omega) (by omega)
      · simp only [List.mem_cons, List.not_mem_nil, or_false] at member
        rcases member with rfl | rfl | rfl | rfl <;> exact lead _ (by omega) (by omega)

theorem toNat_of_mem {c : Char} {b : UInt8} (ascii : b.toNat < 128) (member : b ∈ String.utf8EncodeChar c) :
    c.toNat = b.toNat := by
  by_cases small : c.toNat < 128
  · rw [utf8EncodeChar_of_ascii small, List.mem_singleton] at member
    rw [member, UInt8.toNat_ofNat', Nat.mod_eq_of_lt (by omega)]
  · have wide := utf8EncodeChar_of_wide (Nat.le_of_not_lt small) member
    exact absurd ascii (Nat.not_lt.mpr wide)

theorem first_ofNat {n : Nat} (small : n < 256) :
    first (UInt8.ofNat n) =
      if n ≤ 0x7F then .inl (.char (Char.ofNat n))
      else if 0xC2 ≤ n ∧ n ≤ 0xDF then .inr ⟨[UInt8.ofNat n], 1, 0x80, 0xBF, n - 0xC0⟩
      else if n = 0xE0 then .inr ⟨[UInt8.ofNat n], 2, 0xA0, 0xBF, 0⟩
      else if n = 0xED then .inr ⟨[UInt8.ofNat n], 2, 0x80, 0x9F, 0xD⟩
      else if 0xE1 ≤ n ∧ n ≤ 0xEF then .inr ⟨[UInt8.ofNat n], 2, 0x80, 0xBF, n - 0xE0⟩
      else if n = 0xF0 then .inr ⟨[UInt8.ofNat n], 3, 0x90, 0xBF, 0⟩
      else if 0xF1 ≤ n ∧ n ≤ 0xF3 then .inr ⟨[UInt8.ofNat n], 3, 0x80, 0xBF, n - 0xF0⟩
      else if n = 0xF4 then .inr ⟨[UInt8.ofNat n], 3, 0x80, 0x8F, 4⟩
      else .inl (.broken [UInt8.ofNat n]) := by
  have value : (UInt8.ofNat n).toNat = n := by
    rw [UInt8.toNat_ofNat']
    omega
  simp only [first, value]

theorem cutFrom_follow {o : Open} {k : Nat} (small : k < 64) (low : o.low.toNat ≤ k + 0x80)
    (high : k + 0x80 ≤ o.high.toNat) (rest : Bytes) :
    cutFrom (some o) (UInt8.ofNat (k + 0x80) :: rest) =
      if o.need = 1 then .char (Char.ofNat (64 * o.bits + k)) :: cutFrom none rest
      else cutFrom (some ⟨UInt8.ofNat (k + 0x80) :: o.read, o.need - 1, 0x80, 0xBF, 64 * o.bits + k⟩) rest := by
  have value : (UInt8.ofNat (k + 0x80)).toNat = k + 0x80 := by
    rw [UInt8.toNat_ofNat']
    omega
  have within_ : o.low ≤ UInt8.ofNat (k + 0x80) ∧ UInt8.ofNat (k + 0x80) ≤ o.high := by
    rw [UInt8.le_iff_toNat_le, UInt8.le_iff_toNat_le, value]
    exact ⟨low, high⟩
  rw [cutFrom, if_pos within_, value, Nat.add_sub_cancel]

theorem first_two {v : Nat} (low : 0x7f < v) (high : v ≤ 0x7ff) :
    first (UInt8.ofNat (v / 64 % 0x20 + 0xc0)) =
      .inr ⟨[UInt8.ofNat (v / 64 % 0x20 + 0xc0)], 1, 0x80, 0xBF, v / 64⟩ := by
  have lead : v / 64 % 0x20 + 0xc0 - 0xC0 = v / 64 := by omega
  rw [first_ofNat (by omega), if_neg (by omega), if_pos (by omega), lead]

theorem first_three {v : Nat} (low : 0x7ff < v) (high : v ≤ 0xffff) (scalar : v < 0xD800 ∨ 0xDFFF < v) :
    ∃ l h : UInt8, first (UInt8.ofNat (v / 4096 % 0x10 + 0xe0)) =
        .inr ⟨[UInt8.ofNat (v / 4096 % 0x10 + 0xe0)], 2, l, h, v / 4096⟩ ∧
      l.toNat ≤ v / 64 % 0x40 + 0x80 ∧ v / 64 % 0x40 + 0x80 ≤ h.toNat := by
  rw [first_ofNat (by omega), if_neg (by omega), if_neg (by omega)]
  split
  · have lead : v / 4096 = 0 := by omega
    refine ⟨0xA0, 0xBF, by rw [lead], ?_, ?_⟩
    · change 0xA0 ≤ _
      omega
    · change _ ≤ 0xBF
      omega
  · split
    · have lead : v / 4096 = 0xD := by omega
      refine ⟨0x80, 0x9F, by rw [lead], ?_, ?_⟩
      · change 0x80 ≤ _
        omega
      · change _ ≤ 0x9F
        omega
    · have lead : v / 4096 % 0x10 + 0xe0 - 0xE0 = v / 4096 := by omega
      rw [if_pos (by omega), lead]
      refine ⟨0x80, 0xBF, rfl, ?_, ?_⟩
      · change 0x80 ≤ _
        omega
      · change _ ≤ 0xBF
        omega

theorem first_four {v : Nat} (low : 0xffff < v) (high : v < 0x110000) :
    ∃ l h : UInt8, first (UInt8.ofNat (v / 262144 % 0x08 + 0xf0)) =
        .inr ⟨[UInt8.ofNat (v / 262144 % 0x08 + 0xf0)], 3, l, h, v / 262144⟩ ∧
      l.toNat ≤ v / 4096 % 0x40 + 0x80 ∧ v / 4096 % 0x40 + 0x80 ≤ h.toNat := by
  rw [first_ofNat (by omega), if_neg (by omega), if_neg (by omega), if_neg (by omega), if_neg (by omega),
    if_neg (by omega)]
  split
  · have lead : v / 262144 = 0 := by omega
    refine ⟨0x90, 0xBF, by rw [lead], ?_, ?_⟩
    · change 0x90 ≤ _
      omega
    · change _ ≤ 0xBF
      omega
  · split
    · have lead : v / 262144 % 0x08 + 0xf0 - 0xF0 = v / 262144 := by omega
      rw [lead]
      refine ⟨0x80, 0xBF, rfl, ?_, ?_⟩
      · change 0x80 ≤ _
        omega
      · change _ ≤ 0xBF
        omega
    · have lead : v / 262144 = 4 := by omega
      rw [if_pos (by omega)]
      refine ⟨0x80, 0x8F, by rw [lead], ?_, ?_⟩
      · change 0x80 ≤ _
        omega
      · change _ ≤ 0x8F
        omega

theorem cutFrom_plain {read : Bytes} {need bits k : Nat} (small : k < 64) (rest : Bytes) :
    cutFrom (some ⟨read, need, 0x80, 0xBF, bits⟩) (UInt8.ofNat (k + 0x80) :: rest) =
      if need = 1 then .char (Char.ofNat (64 * bits + k)) :: cutFrom none rest
      else cutFrom (some ⟨UInt8.ofNat (k + 0x80) :: read, need - 1, 0x80, 0xBF, 64 * bits + k⟩) rest :=
  cutFrom_follow (o := ⟨read, need, 0x80, 0xBF, bits⟩) small (Nat.le_add_left 0x80 k)
    (show k + 0x80 ≤ 0xBF by omega) rest

theorem cutFrom_char (c : Char) (rest : Bytes) :
    cutFrom none (String.utf8EncodeChar c ++ rest) = .char c :: cutFrom none rest := by
  have valid : c.toNat < 0xD800 ∨ 0xDFFF < c.toNat ∧ c.toNat < 0x110000 := c.valid
  have whole : Char.ofNat c.toNat = c := Char.ofNat_toNat c
  have encoded : String.utf8EncodeChar c =
    let v := c.toNat
    if v ≤ 0x7f then [UInt8.ofNat v]
    else if v ≤ 0x7ff then [UInt8.ofNat (v / 64 % 0x20 + 0xc0), UInt8.ofNat (v % 0x40 + 0x80)]
    else if v ≤ 0xffff then
      [UInt8.ofNat (v / 4096 % 0x10 + 0xe0), UInt8.ofNat (v / 64 % 0x40 + 0x80), UInt8.ofNat (v % 0x40 + 0x80)]
    else
      [UInt8.ofNat (v / 262144 % 0x08 + 0xf0), UInt8.ofNat (v / 4096 % 0x40 + 0x80),
        UInt8.ofNat (v / 64 % 0x40 + 0x80), UInt8.ofNat (v % 0x40 + 0x80)] := rfl
  rw [encoded]
  dsimp only
  generalize c.toNat = v at valid whole
  split
  · rw [List.singleton_append, cutFrom, first_ofNat (by omega), if_pos (by assumption), whole]
  · split
    · have back : 64 * (v / 64) + v % 64 = v := by omega
      simp only [List.cons_append, List.nil_append]
      rw [cutFrom, first_two (by omega) (by omega)]
      dsimp only
      rw [cutFrom_plain (by omega), if_pos rfl, back, whole]
    · split
      · obtain ⟨l, h, lead, low, high⟩ := first_three (v := v) (by omega) (by omega) (by omega)
        have back : 64 * (64 * (v / 4096) + v / 64 % 64) + v % 64 = v := by omega
        simp only [List.cons_append, List.nil_append]
        rw [cutFrom, lead]
        dsimp only
        rw [cutFrom_follow (by omega) low high]
        simp only [Nat.reduceEqDiff, ↓reduceIte, Nat.reduceSub]
        rw [cutFrom_plain (by omega), if_pos rfl, back, whole]
      · obtain ⟨l, h, lead, low, high⟩ := first_four (v := v) (by omega) (by omega)
        have back : 64 * (64 * (64 * (v / 262144) + v / 4096 % 64) + v / 64 % 64) + v % 64 = v := by omega
        simp only [List.cons_append, List.nil_append]
        rw [cutFrom, lead]
        dsimp only
        rw [cutFrom_follow (by omega) low high]
        simp only [Nat.reduceEqDiff, ↓reduceIte, Nat.reduceSub]
        rw [cutFrom_plain (by omega), if_neg (by decide), cutFrom_plain (by omega), if_pos rfl, back, whole]

theorem pieces_chars (cs : List Char) : pieces (cs.flatMap String.utf8EncodeChar) = cs.map .char := by
  induction cs with
  | nil => rfl
  | cons c rest ih =>
    rw [List.flatMap_cons, pieces, cutFrom_char, List.map_cons]
    exact congrArg (Piece.char c :: ·) ih

theorem gather_chars (start : Nat) (cs : List Char) : gather start (cs.map .char) = .ok cs := by
  induction cs generalizing start with
  | nil => rfl
  | cons c rest ih =>
    simp only [List.map_cons, gather, ih]
    rfl

theorem decode_ofString (s : String) : decode (Bytes.ofString s) = .ok s := by
  rw [decode, Bytes.ofString, pieces_chars, gather_chars]
  simp [Except.map]

theorem ofString_inj {s t : String} (same : Bytes.ofString s = Bytes.ofString t) : s = t := by
  have decoded := congrArg decode same
  rwa [decode_ofString, decode_ofString, Except.ok.injEq] at decoded

theorem lossy_ofString (s : String) : lossy (Bytes.ofString s) = s := by
  rw [lossy, Bytes.ofString, pieces_chars, List.map_map]
  have same : Piece.shown ∘ Piece.char = id := rfl
  rw [same, List.map_id, String.ofList_toList]

theorem flatMap_encode_of_ascii {cs : List Char} (ascii : ∀ c ∈ cs, c.toNat < 128) :
    cs.flatMap String.utf8EncodeChar = cs.map fun c => UInt8.ofNat c.toNat := by
  induction cs with
  | nil => rfl
  | cons c rest ih =>
    obtain ⟨front, later⟩ := List.forall_mem_cons.mp ascii
    rw [List.flatMap_cons, utf8EncodeChar_of_ascii front, ih later, List.map_cons, List.singleton_append]

theorem take_ofString {s : String} (ascii : ∀ c ∈ s.toList, c.toNat < 128) (k : Nat) :
    (Bytes.ofString s).take k = Bytes.ofString (String.ofList (s.toList.take k)) := by
  have fewer : ∀ c ∈ s.toList.take k, c.toNat < 128 := fun c member => ascii c (List.mem_of_mem_take member)
  rw [Bytes.ofString, Bytes.ofString, String.toList_ofList, flatMap_encode_of_ascii ascii,
    flatMap_encode_of_ascii fewer, List.map_take]

/-- A character begun with more than one byte: whatever follows, its number will not be an ASCII one. -/
def Open.Wide (o : Open) : Prop :=
  o.need = 1 ∧ 2 ≤ o.bits ∨ 2 ≤ o.need ∧ 2 ≤ 64 * o.bits + (o.low.toNat - 0x80)

theorem wide_first {b : UInt8} {o : Open} (begins : first b = .inr o) : o.Wide := by
  unfold first at begins
  dsimp only at begins
  repeat' split at begins
  all_goals cases begins
  · exact .inl ⟨rfl, show 2 ≤ b.toNat - 0xC0 by omega⟩
  · exact .inr ⟨by simp, by simp⟩
  · exact .inr ⟨by simp, by simp⟩
  · exact .inr ⟨Nat.le_refl 2, Nat.le_add_right_of_le (show 2 ≤ 64 * (b.toNat - 0xE0) by omega)⟩
  · exact .inr ⟨by simp, by simp⟩
  · exact .inr ⟨by simp, Nat.le_add_right_of_le (show 2 ≤ 64 * (b.toNat - 0xF0) by omega)⟩
  · exact .inr ⟨by simp, by simp⟩

theorem Open.Wide.follow {o : Open} (wide : o.Wide) {b : UInt8} (low : o.low ≤ b) :
    (o.need = 1 → 128 ≤ 64 * o.bits + (b.toNat - 0x80)) ∧
      (o.need ≠ 1 → Open.Wide ⟨b :: o.read, o.need - 1, 0x80, 0xBF, 64 * o.bits + (b.toNat - 0x80)⟩) := by
  have small := UInt8.le_iff_toNat_le.mp low
  have least : (0x80 : UInt8).toNat = 0x80 := rfl
  unfold Open.Wide at wide ⊢
  simp only [least]
  omega

theorem cutFrom_ne_nil {o : Open} {b : Bytes} : cutFrom (some o) b ≠ [] := by
  induction b generalizing o with
  | nil => exact List.cons_ne_nil _ _
  | cons c rest ih =>
    rw [cutFrom]
    split
    · dsimp only
      split
      · exact List.cons_ne_nil _ _
      · exact ih
    · exact List.cons_ne_nil _ _

theorem eq_nil_of_pieces {b : Bytes} (none_ : cutFrom none b = []) : b = [] := by
  cases b with
  | nil => rfl
  | cons c rest =>
    rw [cutFrom] at none_
    split at none_
    · cases none_
    · exact absurd none_ cutFrom_ne_nil

theorem getLast?_cons_cases {α : Type} {a x : α} {l : List α} (last : (a :: l).getLast? = some x) :
    l = [] ∧ a = x ∨ l.getLast? = some x := by
  cases l with
  | nil => exact .inl ⟨rfl, Option.some.inj last⟩
  | cons b l => exact .inr (List.getLast?_cons_cons ▸ last)

theorem ofNat_ne_of_wide {v : Nat} {c : Char} (wide : 128 ≤ v) (ascii : c.toNat < 128) (proper : c ≠ '\x00') :
    Char.ofNat v ≠ c := by
  rintro rfl
  by_cases valid : v.isValidChar
  · rw [Char.ofNat, dif_pos valid] at ascii
    exact absurd ascii (Nat.not_lt.mpr wide)
  · rw [Char.ofNat, dif_neg valid] at proper
    exact proper rfl

theorem wide_none : ∀ x, none = some x → Open.Wide x := by
  rintro x ⟨⟩

section

variable {c : Char}

theorem shown_broken_ne (ascii : c.toNat < 128) (bytes : Bytes) : Piece.shown (.broken bytes) ≠ c := by
  rintro rfl
  have wide : ¬(Char.ofNat 0xFFFD).toNat < 128 := by decide
  exact wide ascii

theorem byte_of_shown {b : UInt8} {p : Piece} (ascii : c.toNat < 128) (begins : first b = .inl p)
    (shown : p.shown = c) : b = UInt8.ofNat c.toNat := by
  unfold first at begins
  dsimp only at begins
  repeat' split at begins
  all_goals cases begins
  · have valid : b.toNat.isValidChar := .inl (by omega)
    have number : c.toNat = b.toNat := by
      rw [← shown, Piece.shown, Char.ofNat, dif_pos valid]
      rfl
    rw [number, UInt8.ofNat_toNat]
  · exact absurd shown (shown_broken_ne ascii _)

/-- Where the last character is an ASCII one, so is the last byte: every other character and every broken piece
is shown as a wide one. -/
theorem last_of_shown {o : Option Open} {b : Bytes} (ascii : c.toNat < 128) (proper : c ≠ '\x00')
    (wide : ∀ x, o = some x → x.Wide) (last : ((cutFrom o b).map Piece.shown).getLast? = some c) :
    b.getLast? = some (UInt8.ofNat c.toNat) := by
  induction b generalizing o with
  | nil =>
    cases o with
    | none => cases last
    | some o => exact absurd (Option.some.inj last) (shown_broken_ne ascii [])
  | cons a rest ih =>
    have behind (ends : rest.getLast? = some (UInt8.ofNat c.toNat)) :
        (a :: rest).getLast? = some (UInt8.ofNat c.toNat) := by
      rw [List.getLast?_cons, ends]
      rfl
    -- no character is open before the byte
    have fresh (last : ((cutFrom none (a :: rest)).map Piece.shown).getLast? = some c) :
        (a :: rest).getLast? = some (UInt8.ofNat c.toNat) := by
      rw [cutFrom] at last
      split at last
      · rename_i p begins
        rcases getLast?_cons_cases last with ⟨none_, shown⟩ | later
        · rw [eq_nil_of_pieces (List.map_eq_nil_iff.mp none_), byte_of_shown ascii begins shown]
          rfl
        · exact behind (ih wide_none later)
      · rename_i o begins
        refine behind (ih ?_ last)
        rintro x ⟨⟩
        exact wide_first begins
    cases o with
    | none => exact fresh last
    | some o =>
      have goes (fits : o.low ≤ a) := (wide o rfl).follow fits
      rw [cutFrom] at last
      split at last
      · rename_i fits
        dsimp only at last
        split at last
        · rename_i one
          rcases getLast?_cons_cases last with ⟨-, shown⟩ | later
          · exact absurd shown (ofNat_ne_of_wide ((goes fits.1).1 one) ascii proper)
          · exact behind (ih wide_none later)
        · rename_i more
          refine behind (ih ?_ last)
          rintro x ⟨⟩
          exact (goes fits.1).2 more
      · rcases getLast?_cons_cases last with ⟨none_, -⟩ | later
        · cases eq_nil_of_pieces (b := a :: rest) (List.map_eq_nil_iff.mp none_)
        · exact fresh later

end

theorem last_of_lossy {b : Bytes} {c : Char} (ascii : c.toNat < 128) (proper : c ≠ '\x00')
    (last : (lossy b).toList.getLast? = some c) : b.getLast? = some (UInt8.ofNat c.toNat) := by
  rw [lossy, String.toList_ofList] at last
  exact last_of_shown ascii proper wide_none last

/-- A byte that goes on with a character that another one has begun. -/
def Continues (b : UInt8) : Prop := 0x80 ≤ b ∧ b ≤ 0xBF

instance (b : UInt8) : Decidable (Continues b) := inferInstanceAs (Decidable (_ ∧ _))

/-- The characters that pieces are shown as. -/
def shown (o : Option Open) (b : Bytes) : List Char := (cutFrom o b).map Piece.shown

theorem lossy_inj {b b' : Bytes} : lossy b = lossy b' ↔ shown none b = shown none b' :=
  String.ofList_inj

theorem shown_stuck {o : Open} {b : Bytes} (stuck : ∀ c ∈ b.head?, ¬(o.low ≤ c ∧ c ≤ o.high)) :
    shown (some o) b = Char.ofNat 0xFFFD :: shown none b := by
  cases b with
  | nil => rfl
  | cons c rest =>
    simp only [shown, cutFrom, if_neg (stuck c rfl), List.map_cons]
    rfl

theorem first_continues {b : UInt8} (continues : Continues b) : first b = .inl (.broken [b]) := by
  obtain ⟨low, high⟩ := continues
  have low := UInt8.le_iff_toNat_le.mp low
  have high := UInt8.le_iff_toNat_le.mp high
  have least : (0x80 : UInt8).toNat = 0x80 := rfl
  have greatest : (0xBF : UInt8).toNat = 0xBF := rfl
  unfold first
  dsimp only
  rw [if_neg (by omega), if_neg (by omega), if_neg (by omega), if_neg (by omega), if_neg (by omega),
    if_neg (by omega), if_neg (by omega), if_neg (by omega)]

theorem shown_continues {b : UInt8} (continues : Continues b) (rest : Bytes) :
    shown none (b :: rest) = Char.ofNat 0xFFFD :: shown none rest := by
  rw [shown, cutFrom, first_continues continues]
  rfl

theorem shown_open {o : Open} {b : UInt8} (low : o.low ≤ b) (high : b ≤ o.high) (rest : Bytes) :
    shown (some o) (b :: rest) =
      if o.need = 1 then Char.ofNat (64 * o.bits + (b.toNat - 0x80)) :: shown none rest
      else shown (some ⟨b :: o.read, o.need - 1, 0x80, 0xBF, 64 * o.bits + (b.toNat - 0x80)⟩) rest := by
  rw [shown, cutFrom, if_pos ⟨low, high⟩]
  split <;> rfl

end RomLedger.Utf8
