import RomLedger.Bytes.Sha1

/- Digests of texts that begin with whole blocks. What follows the blocks meets the state that they lead to
   and nothing else of them, so two beginnings that lead to one state have one digest whatever follows. There
   are such beginnings. -/
namespace RomLedger.Sha1

def words : Bytes → List UInt32
  | a :: b :: c :: d :: rest => word a b c d :: words rest
  | _ => []

def nextWord (window : List UInt32) : UInt32 :=
  rotate (window.getD 13 0 ^^^ window.getD 8 0 ^^^ window.getD 2 0 ^^^ window.getD 0 0) 1

/-- The schedule through a window of sixteen words, which moves on by one word at a time. -/
def extend : Nat → List UInt32 → List UInt32
  | 0, window => window
  | n + 1, window => window.headD 0 :: extend n (window.tail ++ [nextWord window])

def rounds (s : State) (ws : List UInt32) : State :=
  ws.foldl (fun (p : State × Nat) w => (round p.1 p.2 w, p.2 + 1)) (s, 0) |>.1

def compressWords (s : State) (ws : List UInt32) : State :=
  let t := rounds s (extend 64 ws)
  ⟨s.a + t.a, s.b + t.b, s.c + t.c, s.d + t.d, s.e + t.e⟩

/-- The state behind so many blocks of words. -/
def behind : Nat → State → List UInt32 → State
  | 0, s, _ => s
  | n + 1, s, ws => behind n (compressWords s (ws.take 16)) (ws.drop 16)

variable {s : State} {front : Bytes} {n : Nat}

theorem length_words (b : Bytes) : (words b).length = b.length / 4 := by
  fun_induction words b with
  | case1 a b c d rest ih => simp only [List.length_cons, ih]; omega
  | case2 b few =>
    match b, few with
    | [], _ | [_], _ | [_, _], _ | [_, _, _], _ => simp
    | a :: b :: c :: d :: rest, few => exact absurd rfl (few a b c d rest)

theorem getD_behind (seen window : List UInt32) (k : Nat) :
    (seen ++ window).toArray.getD (seen.length + k) 0 = window.getD k 0 := by
  simp [List.getElem?_append_right]

theorem foldl_schedule (n : Nat) (seen window : List UInt32) (some_ : window ≠ []) :
    ((List.range' seen.length n).foldl
      (fun w i => w.push
        (rotate (w.getD (i + 13) 0 ^^^ w.getD (i + 8) 0 ^^^ w.getD (i + 2) 0 ^^^ w.getD i 0) 1))
      (seen ++ window).toArray).toList = seen ++ extend n window := by
  induction n generalizing seen window with
  | zero => rfl
  | succ n ih =>
    obtain ⟨w, rest, rfl⟩ := List.exists_cons_of_ne_nil some_
    have moved := ih (seen ++ [w]) (rest ++ [nextWord (w :: rest)]) (by simp)
    have first := getD_behind seen (w :: rest) 0
    rw [List.length_append, List.length_singleton] at moved
    rw [Nat.add_zero] at first
    simp only [List.range'_succ, List.foldl_cons, getD_behind, first, extend]
    simpa [nextWord] using moved

theorem compress_toArray (s : State) {ws : List UInt32} (some_ : ws ≠ []) :
    compress s ws.toArray = compressWords s ws := by
  have whole : (schedule ws.toArray).toList = extend 64 ws := by
    have extended := foldl_schedule 64 [] ws some_
    rwa [List.nil_append, List.nil_append, List.length_nil, ← List.range_eq_range'] at extended
  rw [compress, ← Array.foldl_toList, whole, compressWords, rounds]

theorem absorb_filling (s : State) (held : List UInt32) (front rest : Bytes) (n : Nat)
    (length : front.length = 4 * (n + 1)) (fills : held.length + n = 15) :
    absorb s held.toArray (front ++ rest) = absorb (compressWords s (held ++ words front)) #[] rest := by
  induction n generalizing held front with
  | zero =>
    match front, length with
    | [a, b, c, d], _ =>
      have full : held.toArray.size = 15 := fills
      simp only [List.cons_append, List.nil_append, absorb, full, ↓reduceIte, words]
      rw [← compress_toArray s (by simp)]
      simp
  | succ n ih =>
    match front, length with
    | a :: b :: c :: d :: more, length =>
      have room : ¬held.toArray.size = 15 := by rw [List.size_toArray]; omega
      have later := ih (held ++ [word a b c d]) more (by simp only [List.length_cons] at length; omega)
        (by rw [List.length_append, List.length_singleton]; omega)
      simp only [List.cons_append, absorb, room, ↓reduceIte, words]
      simpa using later

theorem words_append (n : Nat) (front rest : Bytes) (length : front.length = 4 * n) :
    words (front ++ rest) = words front ++ words rest := by
  induction n generalizing front with
  | zero => rw [List.eq_nil_of_length_eq_zero length]; rfl
  | succ n ih =>
    match front, length with
    | a :: b :: c :: d :: more, length =>
      simp only [List.length_cons] at length
      simp only [List.cons_append, words, ih more (by omega)]

theorem absorb_blocks (n : Nat) (s : State) (front rest : Bytes) (length : front.length = 64 * n) :
    absorb s #[] (front ++ rest) = absorb (behind n s (words front)) #[] rest := by
  induction n generalizing s front with
  | zero => rw [List.eq_nil_of_length_eq_zero length]; rfl
  | succ n ih =>
    have block : (front.take 64).length = 4 * (15 + 1) := by rw [List.length_take]; omega
    have sixteen : (words (front.take 64)).length = 16 := by rw [length_words, block]
    have parts := words_append 16 (front.take 64) (front.drop 64) block
    rw [List.take_append_drop] at parts
    have first := absorb_filling s [] (front.take 64) (front.drop 64 ++ rest) 15 block rfl
    rw [← List.append_assoc, List.take_append_drop, List.nil_append] at first
    rw [first, ih _ (front.drop 64) (by rw [List.length_drop]; omega), parts, behind,
      List.take_left' sixteen, List.drop_left' sixteen]

theorem digest_append_of_behind {a b : Bytes} (length : a.length = 64 * n) (length' : b.length = 64 * n)
    (same : behind n start (words a) = behind n start (words b)) (tail : Bytes) :
    digest (a ++ tail) = digest (b ++ tail) := by
  rw [digest, digest, List.length_append, List.length_append, length, length', List.append_assoc,
    List.append_assoc, absorb_blocks n start a _ length, absorb_blocks n start b _ length', same]

/- The chosen words of two beginnings of ten blocks: the first block of each, the others of the first beginning,
   and what each of these differs by in the second. -/

def frontOne : List UInt32 :=
  [0x99040d04, 0x7fe81780, 0x012000ff, 0x4b657920, 0x69732070, 0x61727420, 0x6f662061, 0x20636f6c,
   0x6c697369, 0x6f6e2120, 0x49742773, 0x20612074, 0x72617021, 0x79c61af0, 0xafcc0545, 0x15d9274e]

def frontTwo : List UInt32 :=
  [0x99030d04, 0x7fe81780, 0x011800ff, 0x50726163, 0x74696361, 0x6c205348, 0x412d3120, 0x63686f73,
   0x656e2d70, 0x72656669, 0x7820636f, 0x6c6c6973, 0x696f6e21, 0x1d276c6b, 0xa661e104, 0x0e1f7d76]

def blocks : List UInt32 :=
  [0x7307624b, 0x1dc7fb23, 0x988bb8de, 0x8b575dba, 0x7b9eab31, 0xc1674b6d, 0x974378a8, 0x27732ff5,
   0x851c76a2, 0xe60772b5, 0xa47ce1ea, 0xc40bb993, 0xc12d8c70, 0xe24a4f8d, 0x5fcdedc1, 0xb32c9cf1,
   0x9e31af24, 0x29759d42, 0xe4dfdb31, 0x719f5876, 0x23ee5529, 0x39b6dcdc, 0x459fca53, 0x553b70f8,
   0x7ede30a2, 0x47ea3af6, 0xc759a2f2, 0x0b320d76, 0x0db64ff4, 0x79084fd3, 0xccb3cdd4, 0x8362d96a,
   0x9c430617, 0xcaff6c36, 0xc637e53f, 0xde28417f, 0x626fec54, 0xed7943a4, 0x6e5f5730, 0xf2bb38fb,
   0x1df6e009, 0x0010d00e, 0x24ad78bf, 0x92641993, 0x608e8d15, 0x8a789f34, 0xc46fe1e6, 0x027f35a4,
   0xcbfb8270, 0x76c50eca, 0x0e8b7cca, 0x69bb2c2b, 0x790259f9, 0xbf9570dd, 0x8d4437a3, 0x115faff7,
   0xc3cac09a, 0xd2526605, 0x5c271047, 0x55178eae, 0xff825a2c, 0xaa2acfb5, 0xde64ce76, 0x41dc59a5,
   0x41a9fc9c, 0x756756e2, 0xe23dc713, 0xc8c24c97, 0x90aa6b0e, 0x38a7f55f, 0x14452a1c, 0xa2850ddd,
   0x9562fd9a, 0x18ad4249, 0x6aa97008, 0xf74672f6, 0x8ef461eb, 0x88b09933, 0xd626b4f9, 0x18749cc0,
   0x27fddd6c, 0x425fc421, 0x6835d013, 0x4d15285b, 0xab2cb784, 0xa4f7cbb4, 0xfb514d4b, 0xf0f6237c,
   0xf00a9e9f, 0x132b9a06, 0x6e6fd17f, 0x6c429874, 0x78586ff6, 0x51af9674, 0x7fb426b9, 0x872b9a88,
   0xe4063f59, 0xbb334cc0, 0x0650f83a, 0x80c42751, 0xb71974d3, 0x00fc2819, 0xa2e8f1e3, 0x2c1b51cb,
   0x18e6bfc4, 0xdb9baef6, 0x75d4aaf5, 0xb1574a04, 0x7f8f6dd2, 0xec153a93, 0x41229397, 0x4d928f88,
   0xced9363c, 0xfef97ce2, 0xe742bf34, 0xc96b8ef3, 0x875676fe, 0xa5cca8e5, 0xf7dea0ba, 0xb2413d4d,
   0xe00ee71e, 0xe01f162b, 0xdb6d1eaf, 0xd925e6ae, 0xbaae6a35, 0x4ef17cf2, 0x05a404fb, 0xdb12fc45,
   0x4d41fdd9, 0x5cf24596, 0x64a2ad03, 0x2d1da60a, 0x73264075, 0xd7f1e0d6, 0xc1403ae7, 0xa0d861df,
   0x3fe57071, 0x88dd5e07, 0xd1589b9f, 0x8b663055, 0x3f8fc352, 0xb3e0c27d, 0xa80bddba, 0x4c64020d]

def mask : List UInt32 :=
  [0x0c000002, 0xc0000010, 0xb400001c, 0x3c000004, 0xbc00001a, 0x20000010, 0x2400001c, 0xec000014,
   0x0c000002, 0xc0000010, 0xb400001c, 0x2c000004, 0xbc000018, 0xb0000010, 0x0000000c, 0xb8000010]

@[irreducible] def one : Bytes := (frontOne ++ blocks).flatMap spread

@[irreducible] def two : Bytes :=
  (frontTwo ++ List.zipWith (· ^^^ ·) blocks (List.replicate 9 mask).flatten).flatMap spread

theorem collision : one ≠ two ∧ ∀ tail, digest (one ++ tail) = digest (two ++ tail) := by
  refine ⟨by decide +kernel, fun tail => ?_⟩
  exact digest_append_of_behind (by decide +kernel : one.length = 64 * 10) (by decide +kernel)
    (by decide +kernel) tail

end RomLedger.Sha1
