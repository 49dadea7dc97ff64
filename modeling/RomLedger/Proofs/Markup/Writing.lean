import Mathlib.Data.List.Basic
import Mathlib.Data.List.TakeWhile
import RomLedger.Markup.Tape
import RomLedger.Proofs.Bytes.Utf8
import RomLedger.Proofs.Feed.View
import RomLedger.Text.Basic

/- Markup as it is written: texts with references in place of what would be markup, attributes in quotes,
   tags, and a document around the events that it stands for. -/
namespace RomLedger.Markup

/-- Characters that stand for themselves or are referred to, by name or by number. -/
inductive Escaped : List Char → List Char → Prop
  | nil : Escaped [] []
  | plain {c : Char} {cs ds : List Char} (free : c ≠ '<' ∧ c ≠ '&') (later : Escaped cs ds) :
      Escaped (c :: cs) (c :: ds)
  | reference {c : Char} {name cs ds : List Char} (names : Entity.resolve 0 0 name = .ok c)
      (letters : ∀ d ∈ name, d.isAlphanum = true ∨ d = '#') (later : Escaped cs ds) :
      Escaped (c :: cs) ('&' :: (name ++ ';' :: ds))

def Writes (s : String) (b : Bytes) : Prop :=
  ∃ ds, Escaped s.toList ds ∧ b = Bytes.ofString (String.ofList ds)

namespace Entity

theorem resolve_anywhere {first last first' last' : Nat} {name : List Char} {c : Char}
    (names : resolve first last name = .ok c) : resolve first' last' name = .ok c := by
  unfold resolve at names ⊢
  split at names
  · exact names
  · split at names
    · exact names
    · cases names

theorem replaceFrom_reference {c : Char} {name acc ds : List Char} {first at_ : Nat}
    (names : resolve 0 0 (acc.reverse ++ name) = .ok c) (letters : ∀ d ∈ name, d.isAlphanum = true ∨ d = '#') :
    ∃ at', replaceFrom (some (first, acc)) at_ (name ++ ';' :: ds) = (replaceFrom none at' ds).map (c :: ·) := by
  induction name generalizing acc at_ with
  | nil =>
    refine ⟨at_ + 1, ?_⟩
    rw [List.append_nil] at names
    rw [List.nil_append, replaceFrom, if_pos rfl, resolve_anywhere names]
  | cons d name ih =>
    obtain ⟨letter, letters'⟩ := List.forall_mem_cons.mp letters
    have open_ : d ≠ ';' ∧ d ≠ '&' := by
      constructor <;> rintro rfl <;> revert letter <;> decide
    rw [List.cons_append, replaceFrom, if_neg open_.1, if_neg open_.2]
    exact ih (by simpa using names) letters'

theorem replaceFrom_escaped {cs ds : List Char} (escaped : Escaped cs ds) (at_ : Nat) :
    replaceFrom none at_ ds = .ok cs := by
  induction escaped generalizing at_ with
  | nil => rfl
  | plain free later ih =>
    rw [replaceFrom, if_neg free.2, ih]
    rfl
  | reference names letters later ih =>
    obtain ⟨at', read⟩ := @replaceFrom_reference _ _ [] _ _ _ names letters
    rw [replaceFrom, if_pos rfl, read, ih]
    rfl

theorem text_writes {s : String} {b : Bytes} (writes : Writes s b) : text b = .ok s := by
  obtain ⟨ds, escaped, rfl⟩ := writes
  rw [text, verbatim, Utf8.decode_ofString]
  simp only [String.toList_ofList, replaceFrom_escaped escaped, String.ofList_toList]

end Entity

theorem char_of_ascii {s : String} {b : UInt8} (ascii : b.toNat < 128) (member : b ∈ Bytes.ofString s) :
    Char.ofNat b.toNat ∈ s.toList := by
  obtain ⟨c, among, inside⟩ := List.mem_flatMap.mp member
  rwa [← Utf8.toNat_of_mem ascii inside, Char.ofNat_toNat]

theorem Escaped.lessThan {cs ds : List Char} (escaped : Escaped cs ds) : '<' ∉ ds := by
  induction escaped with
  | nil => exact List.not_mem_nil
  | plain free later ih =>
    rw [List.mem_cons, not_or]
    exact ⟨fun same => free.1 same.symm, ih⟩
  | reference names letters later ih =>
    simp only [List.mem_cons, List.mem_append, not_or]
    refine ⟨by decide, fun member => ?_, by decide, ih⟩
    have letter := letters '<' member
    revert letter
    decide

theorem lessThan_of_writes {s : String} {b : Bytes} (writes : Writes s b) : Scanner.lessThan ∉ b := by
  obtain ⟨ds, escaped, rfl⟩ := writes
  intro member
  have among := char_of_ascii (by decide) member
  rw [String.toList_ofList] at among
  exact escaped.lessThan among

structure Solid (s : String) : Prop where
  trimmed : Text.trim s = s
  some_ : s ≠ ""

theorem isBlank_of_solid {c : Char} (solid : Text.isBlank c = false) :
    ∀ b ∈ String.utf8EncodeChar c, isBlank b = false := by
  intro b member
  cases blank : isBlank b with
  | false => rfl
  | true =>
    have one_of : b = 32 ∨ b = 9 ∨ b = 10 ∨ b = 13 := by simpa [isBlank, or_assoc] using blank
    have ascii : b.toNat < 128 := by rcases one_of with rfl | rfl | rfl | rfl <;> decide
    have char : c = Char.ofNat b.toNat := by rw [← Utf8.toNat_of_mem ascii member, Char.ofNat_toNat]
    rw [char] at solid
    rcases one_of with rfl | rfl | rfl | rfl <;> revert solid <;> decide

theorem Solid.ends {s : String} (solid : Solid s) :
    (∀ c ∈ s.toList.head?, Text.isBlank c = false) ∧ ∀ c ∈ s.toList.getLast?, Text.isBlank c = false := by
  have trimmed : Text.trimList s.toList = s.toList := by
    have chars := congrArg String.toList solid.trimmed
    rwa [Text.trim, String.toList_ofList] at chars
  have front := List.dropWhile_suffix Text.isBlank (l := s.toList)
  have back := List.dropWhile_suffix Text.isBlank (l := (s.toList.dropWhile Text.isBlank).reverse)
  have size := congrArg List.length trimmed
  rw [Text.trimList, List.length_reverse] at size
  have whole : s.toList.dropWhile Text.isBlank = s.toList := by
    apply front.eq_of_length
    have shorter := back.length_le
    have shorter' := front.length_le
    rw [List.length_reverse] at shorter
    omega
  rw [whole] at back size
  have whole' : s.toList.reverse.dropWhile Text.isBlank = s.toList.reverse := by
    apply back.eq_of_length
    rw [size, List.length_reverse]
  have front' := head_dropWhile Text.isBlank s.toList
  have back' := head_dropWhile Text.isBlank s.toList.reverse
  rw [whole] at front'
  rw [whole', List.head?_reverse] at back'
  exact ⟨front', back'⟩

theorem Escaped.head {cs ds : List Char} (escaped : Escaped cs ds)
    (solid : ∀ c ∈ cs.head?, Text.isBlank c = false) : ∀ d ∈ ds.head?, Text.isBlank d = false := by
  cases escaped with
  | nil => exact solid
  | plain free later => exact solid
  | reference names letters later =>
    rintro _ ⟨⟩
    decide

theorem Escaped.last {cs ds : List Char} (escaped : Escaped cs ds)
    (solid : ∀ c ∈ cs.getLast?, Text.isBlank c = false) : ∀ d ∈ ds.getLast?, Text.isBlank d = false := by
  induction escaped with
  | nil => exact solid
  | plain free later ih =>
    cases later with
    | nil => exact solid
    | plain | reference =>
      rw [List.getLast?_cons_cons] at solid ⊢
      exact ih solid
  | @reference c name cs ds names letters later ih =>
    have back : ('&' :: (name ++ ';' :: ds)).getLast? = (';' :: ds).getLast? := by
      rw [← List.cons_append, List.getLast?_append_of_ne_nil _ (List.cons_ne_nil _ _)]
    rw [back]
    cases later with
    | nil =>
      rintro _ ⟨⟩
      decide
    | plain | reference =>
      rw [List.getLast?_cons_cons] at solid ⊢
      exact ih solid

theorem encode_ne_nil (c : Char) : String.utf8EncodeChar c ≠ [] := by
  intro none
  have size := congrArg List.length none
  rw [String.length_utf8EncodeChar] at size
  exact Nat.ne_of_gt c.utf8Size_pos size

theorem trimmed_of_writes {s : String} {b : Bytes} (writes : Writes s b) (solid : Solid s) :
    b ≠ [] ∧ Scanner.trimStart b = b ∧ Scanner.trimEnd b = b := by
  obtain ⟨ds, escaped, rfl⟩ := writes
  obtain ⟨front, back⟩ := solid.ends
  have front' := escaped.head front
  have back' := escaped.last back
  rw [Bytes.ofString, String.toList_ofList]
  have some_ : ds ≠ [] := by
    rintro rfl
    generalize chars : s.toList = cs at escaped
    cases escaped
    exact solid.some_ (String.toList_eq_nil_iff.mp chars)
  refine ⟨?_, ?_, ?_⟩
  · obtain ⟨d, ds, rfl⟩ := List.exists_cons_of_ne_nil some_
    exact List.append_ne_nil_of_left_ne_nil (encode_ne_nil d) _
  · apply dropWhile_of_head
    obtain ⟨d, ds, rfl⟩ := List.exists_cons_of_ne_nil some_
    intro b first
    rw [List.flatMap_cons, List.head?_append_of_ne_nil _ (encode_ne_nil d)] at first
    exact isBlank_of_solid (front' d rfl) b (List.mem_of_head? first)
  · have kept : (ds.flatMap String.utf8EncodeChar).reverse.dropWhile isBlank =
        (ds.flatMap String.utf8EncodeChar).reverse := by
      apply dropWhile_of_head
      obtain rfl | ⟨ds, d, rfl⟩ := List.eq_nil_or_concat ds
      · exact absurd rfl some_
      · intro b last
        rw [List.concat_eq_append, List.flatMap_append, List.flatMap_singleton, List.head?_reverse,
          List.getLast?_append_of_ne_nil _ (encode_ne_nil d)] at last
        exact isBlank_of_solid (back' d (by simp)) b (List.mem_of_getLast? last)
    rw [Scanner.trimEnd, kept, List.reverse_reverse]

def isNameByte (b : UInt8) : Bool :=
  !(isBlank b || Attribute.isQuote b || b == colon || b == Attribute.equals || b == Scanner.lessThan ||
    b == Scanner.greaterThan || b == Scanner.slash || b == Scanner.bang || b == Scanner.question)

structure Named (name : Bytes) : Prop where
  some_ : name ≠ []
  all : ∀ b ∈ name, isNameByte b = true

instance (name : Bytes) : Decidable (Named name) :=
  decidable_of_iff (name ≠ [] ∧ name.all isNameByte = true)
    ⟨fun named => ⟨named.1, List.all_eq_true.mp named.2⟩, fun named => ⟨named.some_, List.all_eq_true.mpr named.all⟩⟩

inductive Value where
  | text (s : String)
  | number (n : UInt64)
  deriving DecidableEq, Repr

def Value.Writes : Value → Bytes → Prop
  | .text s, b => Markup.Writes s b
  | .number n, b => b = Bytes.ofString (toString n.toNat)

/-- Attributes as they stand behind the name of a tag, with blanks behind the last one. -/
inductive Listed : List (String × Value) → Bytes → Prop
  | nil {gap : Bytes} (blank : ∀ b ∈ gap, isBlank b = true) : Listed [] gap
  | cons {key : String} {v : Value} {as : List (String × Value)} {gap before after b rest : Bytes} {q : UInt8}
      (apart : gap ≠ []) (blank : ∀ c ∈ gap, isBlank c = true) (blank' : ∀ c ∈ before ++ after, isBlank c = true)
      (delimits : Attribute.isQuote q = true) (writes : v.Writes b) (inside : q ∉ b) (later : Listed as rest) :
      Listed ((key, v) :: as)
        (gap ++ (Bytes.ofString key ++ (before ++ Attribute.equals :: (after ++ q :: (b ++ q :: rest)))))

namespace Named

variable {name : Bytes}

theorem byte {b : UInt8} (named : Named name) (member : b ∈ name) :
    isBlank b = false ∧ Attribute.isQuote b = false ∧ b ≠ colon ∧ b ≠ Attribute.equals ∧ b ≠ Scanner.lessThan ∧
      b ≠ Scanner.greaterThan ∧ b ≠ Scanner.slash ∧ b ≠ Scanner.bang ∧ b ≠ Scanner.question := by
  simpa [isNameByte, and_assoc] using named.all b member

end Named

namespace Attribute

theorem reading_written {q : UInt8} {after b : Bytes} (key rest : Bytes) (first at_ : Nat)
    (blank : ∀ c ∈ after, isBlank c = true) (delimits : isQuote q = true) (inside : q ∉ b) :
    ∃ p, reading first at_ key (after ++ q :: (b ++ q :: rest)) = ⟨.ok (first, ⟨key, b⟩), some (p, rest)⟩ := by
  have solid : isBlank q = false := by
    have one_of : q = 34 ∨ q = 39 := by simpa [isQuote] using delimits
    rcases one_of with rfl | rfl <;> rfl
  have gap : (after ++ q :: (b ++ q :: rest)).takeWhile isBlank = after := by
    apply takeWhile_front blank
    rintro _ ⟨⟩
    exact solid
  have value : (b ++ q :: rest).takeWhile (· != q) = b := by
    apply takeWhile_front
    · intro c member
      rw [bne_iff_ne]
      exact fun same => inside (same ▸ member)
    · rintro _ ⟨⟩
      exact bne_self_eq_false q
  refine ⟨at_ + after.length + 1 + b.length + 1, ?_⟩
  simp only [reading, gap, List.drop_left, delimits, if_true, value]

theorem takeWhile_key {c : UInt8} {key before tail : Bytes} (named : Named (c :: key))
    (blank : ∀ c ∈ before, isBlank c = true) :
    (key ++ (before ++ equals :: tail)).takeWhile (fun d => !(d == equals || isBlank d)) = key := by
  apply takeWhile_front
  · intro d member
    obtain ⟨solid, _, _, other, _⟩ := named.byte (List.mem_cons_of_mem c member)
    simp [solid, other]
  · cases before with
    | nil =>
      rintro _ ⟨⟩
      rfl
    | cons d before =>
      rintro _ ⟨⟩
      simp [blank d List.mem_cons_self]

theorem atKey_written {c q : UInt8} {key before after b : Bytes} (rest : Bytes) (at_ : Nat) (named : Named (c :: key))
    (blank : ∀ c ∈ before ++ after, isBlank c = true) (delimits : isQuote q = true) (inside : q ∉ b) :
    ∃ p, atKey at_ c (key ++ (before ++ equals :: (after ++ q :: (b ++ q :: rest)))) =
      ⟨.ok (at_, ⟨c :: key, b⟩), some (p, rest)⟩ := by
  obtain ⟨blankBefore, blankAfter⟩ := List.forall_mem_append.mp blank
  obtain ⟨p, read⟩ := reading_written (c :: key) rest at_ (at_ + (c :: key).length + before.length + 1) blankAfter
    delimits inside
  generalize after ++ q :: (b ++ q :: rest) = tail at read
  have gap : (before ++ equals :: tail).takeWhile isBlank = before := by
    apply takeWhile_front blankBefore
    rintro _ ⟨⟩
    rfl
  refine ⟨p, ?_⟩
  simp only [atKey, takeWhile_key named blankBefore, List.drop_left, gap, beq_self_eq_true, if_true, read]

def Holds (p : String × Value) (x : Attribute) : Prop := x.key = Bytes.ofString p.1 ∧ p.2.Writes x.value

theorem takeWhile_gap {gap rest : Bytes} {c : UInt8} (blank : ∀ b ∈ gap, isBlank b = true)
    (solid : isBlank c = false) : (gap ++ c :: rest).takeWhile isBlank = gap := by
  apply takeWhile_front blank
  rintro _ ⟨⟩
  exact solid

theorem read_listed {as : List (String × Value)} {b : Bytes} (listed : Listed as b)
    (named : ∀ p ∈ as, Named (Bytes.ofString p.1)) (apart : (as.map Prod.fst).Nodup) :
    ∃ xs : List Attribute, List.Forall₂ Holds as xs ∧
      (∀ seen at_ budget, (∀ p ∈ as, seen.lookup (Bytes.ofString p.1) = none) → b.length < budget →
        readFrom seen budget at_ b = xs.map .ok) ∧
      ∀ at_ budget, b.length < budget → Tag.plainAttributes.go budget at_ b = xs := by
  induction listed with
  | @nil gap blank =>
    have none_left : gap.drop (gap.takeWhile isBlank).length = [] := by
      rw [List.takeWhile_eq_self_iff.mpr blank, List.drop_length]
    refine ⟨[], .nil, ?_, ?_⟩
    · intro seen at_ budget _ enough
      obtain ⟨budget, rfl⟩ := Nat.exists_eq_add_of_lt enough
      simp only [readFrom, none_left, List.map_nil]
    · intro at_ budget enough
      obtain ⟨budget, rfl⟩ := Nat.exists_eq_add_of_lt enough
      simp only [Tag.plainAttributes.go, none_left]
  | @cons key v as gap before after b rest q some_ blank blank' delimits writes inside later ih =>
    obtain ⟨front, named'⟩ := List.forall_mem_cons.mp named
    obtain ⟨single, apart'⟩ := List.nodup_cons.mp apart
    obtain ⟨xs, holds, read, plain⟩ := ih named' apart'
    obtain ⟨blankBefore, -⟩ := List.forall_mem_append.mp blank'
    obtain ⟨c, bytes, spelt⟩ := List.exists_cons_of_ne_nil front.some_
    have named_ : Named (c :: bytes) := spelt ▸ front
    have solid : isBlank c = false := (named_.byte List.mem_cons_self).1
    refine ⟨⟨Bytes.ofString key, b⟩ :: xs, .cons ⟨rfl, writes⟩ holds, ?_, ?_⟩
    · intro seen at_ budget fresh enough
      obtain ⟨unseen, fresh'⟩ := List.forall_mem_cons.mp fresh
      obtain ⟨budget, rfl⟩ := Nat.exists_eq_add_of_lt enough
      obtain ⟨p, here⟩ := atKey_written rest (at_ + gap.length) named_ blank' delimits inside
      change seen.lookup (Bytes.ofString key) = none at unseen
      rw [spelt] at unseen
      simp only [readFrom, spelt, List.cons_append, takeWhile_gap blank solid, List.drop_left, here,
        takeWhile_key named_ blankBefore, unseen]
      refine congrArg (_ :: ·) (read _ p _ ?_ ?_)
      · intro other among
        have distinct : (Bytes.ofString other.1 == c :: bytes) = false := by
          rw [← spelt, beq_eq_false_iff_ne]
          exact fun same => single (Utf8.ofString_inj same ▸ List.mem_map_of_mem among)
        rw [if_neg Bool.false_ne_true, List.lookup_cons, distinct]
        exact fresh' other among
      · simp only [List.length_append, List.length_cons]
        omega
    · intro at_ budget enough
      obtain ⟨budget, rfl⟩ := Nat.exists_eq_add_of_lt enough
      obtain ⟨p, here⟩ := atKey_written rest (at_ + gap.length) named_ blank' delimits inside
      simp only [Tag.plainAttributes.go, spelt, List.cons_append, takeWhile_gap blank solid, List.drop_left, here]
      refine congrArg (_ :: ·) (plain p _ ?_)
      simp only [List.length_append, List.length_cons]
      omega

end Attribute

theorem Listed.head {as : List (String × Value)} {b : Bytes} (listed : Listed as b) :
    ∀ c ∈ b.head?, isBlank c = true := by
  intro c front
  cases listed with
  | nil blank => exact blank c (List.mem_of_head? front)
  | cons apart blank blank' delimits writes inside later =>
    rw [List.head?_append_of_ne_nil _ apart] at front
    exact blank c (List.mem_of_head? front)

structure Ordinary (as : List (String × Value)) : Prop where
  named : ∀ p ∈ as, Named (Bytes.ofString p.1)
  unbound : ∀ p ∈ as, p.1 ≠ "xmlns"
  apart : (as.map Prod.fst).Nodup

/-- A tag with a name and with attributes in any order. -/
def Tag.Shows (name : String) (as : List (String × Value)) (t : Tag) : Prop :=
  t.name = Bytes.ofString name ∧ ∃ as', as'.Perm as ∧ Listed as' t.rest

def Tag.content (t : Tag) : Bytes := t.name ++ t.rest

theorem not_mem_colon {name : Bytes} (named : Named name) : colon ∉ name := by
  intro member
  obtain ⟨_, _, other, _⟩ := named.byte member
  exact other rfl

theorem localName_of_named {name : Bytes} (named : Named name) : localName name = name := by
  have none_ : name.dropWhile (· != colon) = [] := by
    rw [List.dropWhile_eq_nil_iff]
    intro b member
    rw [bne_iff_ne]
    rintro rfl
    exact not_mem_colon named member
  rw [localName, none_]

theorem prefix?_of_named {name : Bytes} (named : Named name) : prefix? name = none := by
  have absent : name.contains colon = false := by simpa using not_mem_colon named
  rw [prefix?, absent]
  rfl

theorem bound?_of_named {key : String} (named : Named (Bytes.ofString key)) (unbound : key ≠ "xmlns") :
    Scopes.bound? (Bytes.ofString key) = none := by
  have other : Bytes.ofString key ≠ Scopes.xmlnsPrefix := fun same => unbound (Utf8.ofString_inj same)
  have outside : (Scopes.xmlnsPrefix ++ [colon]).isPrefixOf (Bytes.ofString key) = false := by
    rw [Bool.eq_false_iff, ne_eq, List.isPrefixOf_iff_prefix]
    rintro ⟨rest, whole⟩
    exact not_mem_colon named (whole ▸ by simp)
  rw [Scopes.bound?, if_neg other, outside]
  rfl

theorem Ordinary.perm {as as' : List (String × Value)} (ordinary : Ordinary as) (perm : as'.Perm as) :
    Ordinary as' where
  named p member := ordinary.named p (perm.mem_iff.mp member)
  unbound p member := ordinary.unbound p (perm.mem_iff.mp member)
  apart := (perm.map Prod.fst).nodup_iff.mpr ordinary.apart

theorem ordinary_of_sublist {as : List (String × Value)} {keys : List String}
    (some_of : (as.map Prod.fst).Sublist keys) (plain : ∀ k ∈ keys, Named (Bytes.ofString k) ∧ k ≠ "xmlns")
    (apart : keys.Nodup) : Ordinary as := by
  have plain' : ∀ p ∈ as, Named (Bytes.ofString p.1) ∧ p.1 ≠ "xmlns" :=
    fun p member => plain p.1 (some_of.subset (List.mem_map_of_mem member))
  exact ⟨fun p member => (plain' p member).1, fun p member => (plain' p member).2, apart.sublist some_of⟩

theorem exists_of_forall₂ {α β : Type} {R : α → β → Prop} {xs : List α} {ys : List β} {y : β}
    (related : List.Forall₂ R xs ys) (member : y ∈ ys) : ∃ x ∈ xs, R x y := by
  induction related with
  | nil => cases member
  | cons front later ih =>
    rcases List.mem_cons.mp member with rfl | later'
    · exact ⟨_, List.mem_cons_self, front⟩
    · obtain ⟨x, among, held⟩ := ih later'
      exact ⟨x, List.mem_cons_of_mem _ among, held⟩

namespace Tag.Shows

variable {t : Tag} {name : String} {as : List (String × Value)}

theorem attributes (shows_ : t.Shows name as) (ordinary : Ordinary as) :
    ∃ as' xs, as'.Perm as ∧ List.Forall₂ Attribute.Holds as' xs ∧ t.attributes = xs.map .ok ∧
      t.plainAttributes = xs := by
  obtain ⟨-, as', perm, listed⟩ := shows_
  have ordinary' := ordinary.perm perm
  obtain ⟨xs, holds, read, plain⟩ := Attribute.read_listed listed ordinary'.named ordinary'.apart
  exact ⟨as', xs, perm, holds, read [] _ _ (fun _ _ => rfl) (Nat.lt_succ_self _), plain _ _ (Nat.lt_succ_self _)⟩

theorem mem_attributes (shows_ : t.Shows name as) (ordinary : Ordinary as) {x : Attribute}
    (member : .ok x ∈ t.attributes ∨ x ∈ t.plainAttributes) : ∃ p ∈ as, x.key = Bytes.ofString p.1 := by
  obtain ⟨as', xs, perm, holds, read, plain⟩ := shows_.attributes ordinary
  have among : x ∈ xs := by
    rcases member with read' | plain'
    · rw [read, List.mem_map] at read'
      obtain ⟨y, among, same⟩ := read'
      exact Except.ok.inj same ▸ among
    · rwa [plain] at plain'
  obtain ⟨p, among', key, -⟩ := exists_of_forall₂ holds among
  exact ⟨p, perm.mem_iff.mp among', key⟩

theorem enter (shows_ : t.Shows name as) (ordinary : Ordinary as) (s : Scopes) : ∃ inner, s.enter t = .ok inner := by
  have unbound : ∀ x ∈ t.plainAttributes, Scopes.bound? x.key = none := by
    intro x member
    obtain ⟨p, among, key⟩ := shows_.mem_attributes ordinary (.inr member)
    rw [key]
    exact bound?_of_named (ordinary.named p among) (ordinary.unbound p among)
  refine ⟨{ s with depth := s.depth + 1 }, ?_⟩
  rw [Scopes.enter]
  generalize t.plainAttributes = xs at unbound
  induction xs with
  | nil => rfl
  | cons x xs ih =>
    obtain ⟨front, later⟩ := List.forall_mem_cons.mp unbound
    rw [Scopes.bind, front]
    exact ih later

end Tag.Shows

/-- Events as they are written where the elements are open. Markup may have blanks in front of it, but for the
markup that ends a text. -/
inductive Written : List Bytes → List Event → Bytes → Prop
  | ended {gap : Bytes} (blank : ∀ b ∈ gap, isBlank b = true) : Written [] [] gap
  | start {opened : List Bytes} {t : Tag} {es : List Event} {gap rest : Bytes}
      (blank : ∀ b ∈ gap, isBlank b = true) (later : Written (t.name :: opened) es rest) :
      Written opened (.start t :: es) (gap ++ Scanner.lessThan :: (t.content ++ Scanner.greaterThan :: rest))
  | empty {opened : List Bytes} {t : Tag} {es : List Event} {gap rest : Bytes}
      (blank : ∀ b ∈ gap, isBlank b = true) (later : Written opened es rest) :
      Written opened (.start t :: .close t.name :: es)
        (gap ++ Scanner.lessThan :: (t.content ++ Scanner.slash :: Scanner.greaterThan :: rest))
  | close {opened : List Bytes} {name : Bytes} {es : List Event} {gap space rest : Bytes}
      (blank : ∀ b ∈ gap ++ space, isBlank b = true) (later : Written opened es rest) :
      Written (name :: opened) (.close name :: es)
        (gap ++ Scanner.lessThan :: Scanner.slash :: (name ++ (space ++ Scanner.greaterThan :: rest)))
  | text {opened : List Bytes} {s : String} {es : List Event} {b rest : Bytes} (writes : Writes s b)
      (later : Written opened es (Scanner.lessThan :: rest)) :
      Written opened (.text s :: es) (b ++ Scanner.lessThan :: rest)

/-- A document: a declaration, and behind it what is written for the events. -/
def Document (es : List Event) (text : Bytes) : Prop :=
  ∃ d rest, Scanner.question ∉ d ∧ Written [] es rest ∧
    text = Scanner.lessThan :: (Bytes.ofString "?xml" ++ (d ++ (Bytes.ofString "?>" ++ rest)))

end RomLedger.Markup
