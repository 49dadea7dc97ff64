import RomLedger.BloomFilter.Stored
import RomLedger.Proofs.BloomFilter.Artifact
import RomLedger.Proofs.Disk.Home

/- What storing a filter does to the two files of a root, seen as what can be read at them: the backup gets
   what the current file held, where there was one, and the current file gets the new filter. -/
namespace RomLedger.BloomFilter

open Disk

theorem proper_fileName : fileName ≠ "." ∧ fileName ≠ ".." := by decide
theorem proper_backupName : backupName ≠ "." ∧ backupName ≠ ".." := by decide
theorem names_apart : fileName ≠ backupName := by decide

/-- The places of the two files of a root. -/
def files (place : Place) : List Place := [place ++ [fileName], place ++ [backupName]]

theorem current_mem_files (place : Place) : place ++ [fileName] ∈ files place := by simp [files]
theorem backup_mem_files (place : Place) : place ++ [backupName] ∈ files place := by simp [files]

variable {σ : Type} {d : Disk σ} {root : Path} {place : Place} {f : BloomFilter}

/-- A root directory whose filters, where it has any, are plain files. -/
structure Housed (d : Disk σ) (root : Path) (place : Place) : Prop where
  leads : d.Leads root place
  plain : ∀ p ∈ files place, d.Plain p

theorem Housed.current (housed : Housed d root place) : d.Plain (place ++ [fileName]) :=
  housed.plain _ (current_mem_files place)

theorem Housed.backup (housed : Housed d root place) : d.Plain (place ++ [backupName]) :=
  housed.plain _ (backup_mem_files place)

theorem Housed.dead (housed : Housed d root place) : ∀ p ∈ files place, Dead (d.get? p) :=
  fun p member => (housed.plain p member).dead

theorem Housed.differs {d' : Disk σ} {places : List Place} (housed : Housed d root place)
    (differs : d.Differs d' places) : Housed d' root place :=
  ⟨differs.leads housed.leads, fun p member => differs.keeps p (housed.plain p member)⟩

structure Contents where
  current : Option Bytes
  backup : Option Bytes

def contents (d : Disk σ) (place : Place) : Contents where
  current := bytes? (d.get? (place ++ [fileName]))
  backup := bytes? (d.get? (place ++ [backupName]))

theorem contents_congr {d' : Disk σ} (same : ∀ p ∈ files place, d'.get? p = d.get? p) :
    contents d' place = contents d place := by
  rw [contents, same _ (current_mem_files place), same _ (backup_mem_files place), contents]

def parse? (b : Option Bytes) : Option BloomFilter := b.bind fun b => (decode b).toOption

theorem parse?_encode (sound : f.Sound) : parse? (some f.encode) = some f := by
  simp [parse?, decode_encode sound, Except.toOption]

theorem parse?_take (sound : f.Sound) {n : Nat} (proper : n < f.encode.length) :
    parse? (some (f.encode.take n)) = none := by
  obtain ⟨e, refused⟩ := decode_take sound proper
  simp [parse?, refused, Except.toOption]

theorem sound_of_parse? {b : Option Bytes} (read : parse? b = some f) : f.Sound := by
  obtain ⟨bytes, -, decoded⟩ := Option.bind_eq_some_iff.mp read
  refine sound_of_decode (b := bytes) ?_
  cases result : decode bytes with
  | error e => simp [result, Except.toOption] at decoded
  | ok g => simpa [result, Except.toOption] using decoded

def Contents.filter? (c : Contents) : Option BloomFilter := (parse? c.current).or (parse? c.backup)

theorem sound_of_filter? {c : Contents} (read : c.filter? = some f) : f.Sound := by
  rcases Option.or_eq_some_iff.mp read with current | ⟨-, backup⟩
  · exact sound_of_parse? current
  · exact sound_of_parse? backup

theorem readFile_eq (d : Disk σ) (p : Path) : readFile d p = parse? (d.read p).toOption := by
  unfold readFile
  cases d.read p <;> rfl

theorem stored?_eq (leads : d.Leads root place) (dead : ∀ p ∈ files place, Dead (d.get? p)) :
    stored? d root = (contents d place).filter? := by
  simp only [stored?, readFile_eq, read_plain leads (dead _ (current_mem_files place)) proper_fileName,
    read_plain leads (dead _ (backup_mem_files place)) proper_backupName]
  change _ = (parse? (bytes? _)).or (parse? (bytes? _))
  cases parse? (bytes? (d.get? (place ++ [fileName]))) <;> rfl

theorem fileExists_current (housed : Housed d root place) :
    d.fileExists (root.join fileName) = (contents d place).current.isSome :=
  (fileExists_plain housed.leads housed.current.dead proper_fileName).trans
    (isSome_bytes? housed.current.dead).symm

/-- Storing a filter changes at most the two files, and leaves the filter in the current one if it
succeeds. -/
theorem differs_store (housed : Housed d root place) (f : BloomFilter) :
    d.Differs (store d root f).2 (files place) ∧
      ((store d root f).1 = .ok () → (contents (store d root f).2 place).current = some f.encode) := by
  have one : ∀ {d : Disk σ}, Housed d root place →
      d.Differs (d.write (root.join fileName) f.encode).2 (files place) ∧
        ((d.write (root.join fileName) f.encode).1 = .ok () →
          (contents (d.write (root.join fileName) f.encode).2 place).current = some f.encode) := by
    intro d housed
    obtain ⟨differs, done⟩ := differs_write housed.leads housed.current proper_fileName f.encode
    refine ⟨differs.widen (by simp [files]) housed.plain, fun succeeded => ?_⟩
    rw [contents, done succeeded]
    rfl
  unfold store
  dsimp only
  split
  · rename_i present
    have there : (d.get? (place ++ [fileName])).isSome := by
      rw [← fileExists_plain housed.leads housed.current.dead proper_fileName]
      exact present
    have moved := differs_rename housed.leads housed.current housed.backup proper_fileName
      proper_backupName names_apart there
    split
    · rename_i e d' refused
      rw [refused] at moved
      exact ⟨moved, nofun⟩
    · rename_i d' renamed
      rw [renamed] at moved
      obtain ⟨differs, done⟩ := one (housed.differs moved)
      exact ⟨moved.trans differs, done⟩
  · exact one housed

theorem stored?_store (housed : Housed d root place) (sound : f.Sound)
    (stored : (store d root f).1 = .ok ()) : stored? (store d root f).2 root = some f := by
  obtain ⟨differs, done⟩ := differs_store housed f
  have kept := housed.differs differs
  rw [stored?_eq kept.leads kept.dead, Contents.filter?, done stored, parse?_encode sound]
  rfl

theorem ahead_store (housed : Housed d root place) (f : BloomFilter) :
    ∃ used, used ≤ 2 ∧ (store d root f).2.ahead = d.ahead.drop used := by
  unfold store
  dsimp only
  split
  · rename_i present
    have there : (d.get? (place ++ [fileName])).isSome := by
      rwa [← fileExists_plain housed.leads housed.current.dead proper_fileName]
    have moved := differs_rename housed.leads housed.current housed.backup proper_fileName
      proper_backupName names_apart there
    have ahead := ahead_rename housed.leads housed.current.dead housed.backup.dead proper_fileName
      proper_backupName names_apart there
    split
    · rename_i e d' refused
      rw [refused] at ahead
      exact ⟨1, by omega, by rw [ahead, List.drop_one]⟩
    · rename_i d' renamed
      rw [renamed] at moved ahead
      have kept := housed.differs moved
      have written := (landed_write kept.leads kept.current.dead proper_fileName f.encode).1
      exact ⟨2, by omega, by rw [written, ahead, ← List.drop_one, ← List.drop_one, List.drop_drop]⟩
  · have written := (landed_write housed.leads housed.current.dead proper_fileName f.encode).1
    exact ⟨1, by omega, by rw [written, List.drop_one]⟩

end RomLedger.BloomFilter
