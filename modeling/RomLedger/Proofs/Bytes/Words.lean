import RomLedger.Bytes

/- Machine words and their bytes, each read back from the other. -/
namespace RomLedger.Words

@[simp] theorem length_encode (n v : Nat) : (encode n v).length = n := by
  induction n generalizing v with
  | zero => rfl
  | succ n ih => simp [encode, ih]

theorem decode_encode {n v : Nat} (small : v < Nat.pow 256 n) : decode (encode n v) = v := by
  induction n generalizing v with
  | zero => exact (Nat.lt_one_iff.mp small).symm
  | succ n ih =>
    have rest : v / 256 < Nat.pow 256 n := Nat.div_lt_of_lt_mul (Nat.mul_comm .. ▸ small)
    have low : v % 256 < 256 := Nat.mod_lt _ (by decide)
    simp only [encode, decode, ih rest, UInt8.toNat_ofNat']
    omega

theorem ofNat_decode_encode_32 (w : UInt32) : UInt32.ofNat (decode (encode 4 w.toNat)) = w := by
  rw [decode_encode w.toNat_lt, UInt32.ofNat_toNat]

theorem ofNat_decode_encode_64 (w : UInt64) : UInt64.ofNat (decode (encode 8 w.toNat)) = w := by
  rw [decode_encode w.toNat_lt, UInt64.ofNat_toNat]

theorem length_encode64s (words : Array UInt64) : (encode64s words).length = 8 * words.size := by
  rw [encode64s, ← Array.length_toList]
  induction words.toList with
  | nil => rfl
  | cons w rest ih =>
    simp only [List.flatMap_cons, List.length_append, ih, length_encode, List.length_cons]
    omega

theorem decode64sFrom_encode (words : Array UInt64) (ws : List UInt64) :
    decode64sFrom words (ws.flatMap fun w => encode 8 w.toNat) = words ++ ws.toArray := by
  induction ws generalizing words with
  | nil => simp [decode64sFrom]
  | cons w rest ih =>
    have one : UInt64.ofNat (decode (encode 8 w.toNat)) = w := ofNat_decode_encode_64 w
    simp only [List.flatMap_cons, encode, List.cons_append, List.nil_append, decode64sFrom] at one ih ⊢
    rw [one, ih, Array.push_eq_append, Array.append_assoc]
    simp

theorem decode64s_encode64s (words : Array UInt64) : decode64s (encode64s words) = words := by
  simp [decode64s, encode64s, decode64sFrom_encode]

/-- Bytes that are no eight bytes with others behind them are fewer. -/
theorem length_lt_eight {b : Bytes}
    (short : ∀ a₀ a₁ a₂ a₃ a₄ a₅ a₆ a₇ rest, b = a₀ :: a₁ :: a₂ :: a₃ :: a₄ :: a₅ :: a₆ :: a₇ :: rest → False) :
    b.length < 8 := by
  match b, short with
  | [], _ | [_], _ | [_, _], _ | [_, _, _], _ | [_, _, _, _], _ | [_, _, _, _, _], _
  | [_, _, _, _, _, _], _ | [_, _, _, _, _, _, _], _ => simp
  | _ :: _ :: _ :: _ :: _ :: _ :: _ :: _ :: _, short => exact (short _ _ _ _ _ _ _ _ _ rfl).elim

theorem size_decode64sFrom (words : Array UInt64) (b : Bytes) :
    (decode64sFrom words b).size = words.size + b.length / 8 := by
  fun_induction decode64sFrom words b with
  | case1 words a b c d e f g h rest ih =>
    rw [ih, Array.size_push]
    simp only [List.length_cons]
    omega
  | case2 b words short =>
    have few := length_lt_eight short
    omega

/-- A number of as many bytes as were read has those bytes. -/
theorem encode_decode (b : Bytes) : encode b.length (decode b) = b := by
  induction b with
  | nil => rfl
  | cons c rest ih =>
    have small : c.toNat < 256 := c.toNat_lt
    have low : (c.toNat + 256 * decode rest) % 256 = c.toNat := by omega
    have high : (c.toNat + 256 * decode rest) / 256 = decode rest := by omega
    rw [List.length_cons, encode, decode, low, high, ih, UInt8.ofNat_toNat]

theorem decode_lt (b : Bytes) : decode b < Nat.pow 256 b.length := by
  induction b with
  | nil => exact Nat.one_pos
  | cons c rest ih =>
    have small : c.toNat < 256 := c.toNat_lt
    have power : Nat.pow 256 (rest.length + 1) = Nat.pow 256 rest.length * 256 := Nat.pow_succ ..
    rw [List.length_cons, decode, power]
    omega

theorem encode_ofNat_decode_32 {b : Bytes} (four : b.length = 4) :
    encode 4 (UInt32.ofNat (decode b)).toNat = b := by
  have small := decode_lt b
  rw [four] at small
  rw [UInt32.toNat_ofNat_of_lt' small, ← four, encode_decode]

theorem encode_ofNat_decode_64 {b : Bytes} (eight : b.length = 8) :
    encode 8 (UInt64.ofNat (decode b)).toNat = b := by
  have small := decode_lt b
  rw [eight] at small
  rw [UInt64.toNat_ofNat_of_lt' small, ← eight, encode_decode]

theorem encode64s_push (words : Array UInt64) (w : UInt64) :
    encode64s (words.push w) = encode64s words ++ encode 8 w.toNat := by
  simp [encode64s]

theorem encode64s_decode64sFrom (words : Array UInt64) {b : Bytes} (whole : 8 ∣ b.length) :
    encode64s (decode64sFrom words b) = encode64s words ++ b := by
  fun_induction decode64sFrom words b with
  | case1 words a b c d e f g h rest ih =>
    have more : 8 ∣ rest.length := by
      simp only [List.length_cons] at whole
      omega
    have word : encode 8 (UInt64.ofNat (decode [a, b, c, d, e, f, g, h])).toNat = [a, b, c, d, e, f, g, h] :=
      encode_ofNat_decode_64 rfl
    rw [ih more, encode64s_push, word, List.append_assoc]
    rfl
  | case2 b words short =>
    -- fewer than eight bytes that make whole words are none
    have none_ : b.length = 0 := Nat.eq_zero_of_dvd_of_lt whole (length_lt_eight short)
    rw [List.eq_nil_of_length_eq_zero none_, List.append_nil]

theorem encode64s_decode64s {b : Bytes} (whole : 8 ∣ b.length) : encode64s (decode64s b) = b :=
  encode64s_decode64sFrom #[] whole

end RomLedger.Words
