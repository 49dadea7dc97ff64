import RomLedger.Index.Archive
import RomLedger.Proofs.Bytes.Utf8
import RomLedger.Proofs.Bytes.Words

/- An index reads back from its bytes. Each value is taken from the front of them as it was put there,
   whatever stands behind it, as long as its numbers and lengths fit a word. -/
namespace RomLedger

namespace Archive

def Fits (n : Nat) : Prop := n < Nat.pow 256 8

/-- What is put of a value is taken as the value, in front of anything. -/
def Recovers {α : Type} (put : α → Bytes) (take : Take α) (v : α) : Prop :=
  ∀ rest, take (put v ++ rest) = some (v, rest)

variable {α β : Type} {b rest : Bytes} {n : Nat}

theorem bind_eq {x : Take α} {v : α} (first : x b = some (v, rest)) (f : α → Take β) : (x >>= f) b = f v rest := by
  change (x b).bind (fun r => f r.1 r.2) = _
  rw [first, Option.bind_some]

theorem takeBytes_append (b rest : Bytes) : takeBytes b.length (b ++ rest) = some (b, rest) := by
  simp [takeBytes]

theorem recovers_word (fits : Fits n) : Recovers putWord takeWord n := by
  intro rest
  have eight : (Words.encode 8 n).length = 8 := Words.length_encode 8 n
  have front := takeBytes_append (Words.encode 8 n) rest
  rw [eight] at front
  rw [takeWord, putWord, bind_eq front, Words.decode_encode fits]
  rfl

theorem recovers_bytes (fits : Fits b.length) : Recovers putBytes takeBlock b := by
  intro rest
  rw [putBytes, List.append_assoc, takeBlock, bind_eq (recovers_word fits _)]
  exact takeBytes_append b rest

theorem recovers_text {s : String} (fits : Fits (Bytes.ofString s).length) : Recovers putText takeText s := by
  intro rest
  rw [putText, takeText, bind_eq (recovers_bytes fits rest), Utf8.decode_ofString]
  rfl

theorem recovers_flag (v : Bool) : Recovers putFlag takeFlag v := by
  intro rest
  cases v <;> rfl

theorem recovers_hash {h : Option Bytes} (fits : ∀ b ∈ h, Fits b.length) : Recovers putHash takeHash h := by
  intro rest
  cases h with
  | none => rfl
  | some b =>
    have flag : takeFlag (1 :: (putBytes b ++ rest)) = some (true, putBytes b ++ rest) := rfl
    rw [putHash, List.cons_append, takeHash, bind_eq flag, if_pos rfl, bind_eq (recovers_bytes (fits b rfl) rest)]
    rfl

theorem recovers_list {put : α → Bytes} {take : Take α} {vs : List α} (fits : Fits vs.length)
    (each : ∀ v ∈ vs, Recovers put take v) : Recovers (putList put) (takeList take) vs := by
  have many (rest : Bytes) : takeMany take vs.length (vs.flatMap put ++ rest) = some (vs, rest) := by
    clear fits
    induction vs with
    | nil => rfl
    | cons v vs ih =>
      obtain ⟨first, others⟩ := List.forall_mem_cons.mp each
      rw [List.flatMap_cons, List.append_assoc, List.length_cons, takeMany, bind_eq (first _), bind_eq (ih others)]
      rfl
  intro rest
  rw [putList, List.append_assoc, takeList, bind_eq (recovers_word fits _), many]

def Short (s : String) : Prop := Fits (Bytes.ofString s).length

def Brief (h : Option Bytes) : Prop := ∀ b ∈ h, Fits b.length

theorem recovers_catalog {c : CatalogRow} (id : Fits c.id) (digest : Fits c.digest.length) (name : Short c.name)
    (description : Short c.description) : Recovers putCatalog takeCatalog c := by
  intro rest
  simp only [putCatalog, List.append_assoc]
  rw [takeCatalog, bind_eq (recovers_word id _), bind_eq (recovers_bytes digest _), bind_eq (recovers_text name _),
    bind_eq (recovers_text description _), bind_eq (recovers_flag c.orphaned _)]
  rfl

theorem recovers_game {g : GameRow} (id : Fits g.id) (catalog : Fits g.catalog) (name : Short g.name)
    (description : Short g.description) : Recovers putGame takeGame g := by
  intro rest
  simp only [putGame, List.append_assoc]
  rw [takeGame, bind_eq (recovers_word id _), bind_eq (recovers_word catalog _), bind_eq (recovers_text name _),
    bind_eq (recovers_text description _), bind_eq (recovers_flag g.software _)]
  rfl

theorem kindOf?_kindCode (k : RomKind) : kindOf? (kindCode k) = some k := by
  cases k <;> rfl

theorem recovers_rom {r : RomRow} (game : Fits r.game) (name : Short r.rom.name) (crc : Brief r.rom.crc)
    (md5 : Brief r.rom.md5) (sha1 : Brief r.rom.sha1) : Recovers putRom takeRom r := by
  intro rest
  simp only [putRom, List.append_assoc]
  have kind (back : Bytes) : takeByte ([kindCode r.kind] ++ back) = some (kindCode r.kind, back) := rfl
  have known (back : Bytes) : (liftM (kindOf? (kindCode r.kind)) : Take RomKind) back = some (r.kind, back) := by
    rw [kindOf?_kindCode]
    rfl
  rw [takeRom, bind_eq (recovers_word game _), bind_eq (kind _), bind_eq (known _), bind_eq (recovers_text name _),
    bind_eq (recovers_word r.rom.size.toNat_lt _), bind_eq (recovers_hash crc _), bind_eq (recovers_hash md5 _),
    bind_eq (recovers_hash sha1 _), UInt64.ofNat_toNat]
  rfl

theorem recovers_content {c : ContentRow} (sha1 : Fits c.sha1.length) (md5 : Brief c.md5) (crc : Brief c.crc) :
    Recovers putContent takeContent c := by
  intro rest
  simp only [putContent, List.append_assoc]
  rw [takeContent, bind_eq (recovers_bytes sha1 _), bind_eq (recovers_hash md5 _), bind_eq (recovers_hash crc _),
    bind_eq (recovers_word c.size.toNat_lt _), UInt64.ofNat_toNat]
  rfl

/-- Every number, text and list of an index fits a word. -/
structure Compact (i : Index) : Prop where
  catalogs : Fits i.catalogs.length
  games : Fits i.games.length
  roms : Fits i.roms.length
  contents : Fits i.contents.length
  catalog : ∀ c ∈ i.catalogs, Fits c.id ∧ Fits c.digest.length ∧ Short c.name ∧ Short c.description
  game : ∀ g ∈ i.games, Fits g.id ∧ Fits g.catalog ∧ Short g.name ∧ Short g.description
  rom : ∀ r ∈ i.roms, Fits r.game ∧ Short r.rom.name ∧ Brief r.rom.crc ∧ Brief r.rom.md5 ∧ Brief r.rom.sha1
  content : ∀ c ∈ i.contents, Fits c.sha1.length ∧ Brief c.md5 ∧ Brief c.crc

theorem recovers_index {i : Index} (compact : Compact i) : Recovers encode takeIndex i := by
  intro rest
  have catalogs : Recovers (putList putCatalog) (takeList takeCatalog) i.catalogs :=
    recovers_list compact.catalogs fun c member =>
      have ⟨id, digest, name, description⟩ := compact.catalog c member
      recovers_catalog id digest name description
  have games : Recovers (putList putGame) (takeList takeGame) i.games :=
    recovers_list compact.games fun g member =>
      have ⟨id, catalog, name, description⟩ := compact.game g member
      recovers_game id catalog name description
  have roms : Recovers (putList putRom) (takeList takeRom) i.roms :=
    recovers_list compact.roms fun r member =>
      have ⟨game, name, crc, md5, sha1⟩ := compact.rom r member
      recovers_rom game name crc md5 sha1
  have contents : Recovers (putList putContent) (takeList takeContent) i.contents :=
    recovers_list compact.contents fun c member =>
      have ⟨sha1, md5, crc⟩ := compact.content c member
      recovers_content sha1 md5 crc
  simp only [encode, List.append_assoc]
  rw [takeIndex, bind_eq (takeBytes_append mark _), if_pos rfl, bind_eq (catalogs _), bind_eq (games _),
    bind_eq (roms _), bind_eq (contents _)]
  rfl

theorem decode_encode {i : Index} (compact : Compact i) : decode (encode i) = some i := by
  have whole := recovers_index compact []
  rw [List.append_nil] at whole
  rw [decode, whole]

end Archive

end RomLedger
