import RomLedger.Depot.Root
import RomLedger.Proofs.BloomFilter.Stored
import RomLedger.Proofs.Depot.Generation
import RomLedger.Proofs.Disk.Growth

/- One depot root in memory and on disk. -/
namespace RomLedger.Root

open Disk

def files (place : Place) : List Place := (place ++ [Generation.fileName]) :: BloomFilter.files place

variable {σ : Type} {d d' d₁ : Disk σ} {root : Path} {place : Place} {c : RootConfig} {r r' : Root}

theorem checkpoint_not_mem (place place' : Place) :
    place ++ [Generation.fileName] ∉ BloomFilter.files place' := by
  intro member
  have same : ∀ {name}, place ++ [Generation.fileName] = place' ++ [name] → Generation.fileName = name :=
    fun equal => List.singleton_inj.mp (List.append_inj_right' equal rfl)
  rcases List.mem_cons.mp member with current | backup
  · exact absurd (same current) (by decide)
  · exact absurd (same (List.mem_singleton.mp backup)) (by decide)

theorem files_apart {p : Place} {place' : Place} (member : p ∈ files place) (member' : p ∈ files place') :
    place = place' := by
  have above : ∀ {place : Place}, p ∈ files place → p.dropLast = place := by
    intro place member
    simp only [files, BloomFilter.files, List.mem_cons, List.not_mem_nil, or_false] at member
    rcases member with rfl | rfl | rfl <;> exact List.dropLast_concat
  exact (above member).symm.trans (above member')

/-- A root directory whose three files, where they are there, are plain files. -/
structure Home (d : Disk σ) (root : Path) (place : Place) : Prop where
  leads : d.Leads root place
  plain : ∀ p ∈ files place, d.Plain p

theorem Home.checkpoint (home : Home d root place) : d.Plain (place ++ [Generation.fileName]) :=
  home.plain _ List.mem_cons_self

theorem Home.housed (home : Home d root place) : BloomFilter.Housed d root place :=
  ⟨home.leads, fun p member => home.plain p (List.mem_cons_of_mem _ member)⟩

theorem Home.differs {places : List Place} (home : Home d root place) (differs : d.Differs d' places) :
    Home d' root place :=
  ⟨differs.leads home.leads, fun p member => differs.keeps p (home.plain p member)⟩

def checkpoint? (d : Disk σ) (place : Place) : Option Bytes :=
  bytes? (d.get? (place ++ [Generation.fileName]))

def size? (d : Disk σ) (place : Place) : Option Int := Generation.number? (checkpoint? d place)

def filter? (d : Disk σ) (place : Place) : Option BloomFilter := (BloomFilter.contents d place).filter?

/-- The root in a directory as its files have it, if they have a size. -/
def onDisk? (d : Disk σ) (place : Place) (c : RootConfig) : Option Root :=
  (size? d place).map fun size => ⟨.ofString c.path, c.maxSize.toInt, size, false, filter? d place⟩

theorem checkpoint?_congr
    (same : d'.get? (place ++ [Generation.fileName]) = d.get? (place ++ [Generation.fileName])) :
    checkpoint? d' place = checkpoint? d place := congrArg bytes? same

theorem size?_congr (same : d'.get? (place ++ [Generation.fileName]) = d.get? (place ++ [Generation.fileName])) :
    size? d' place = size? d place := congrArg Generation.number? (checkpoint?_congr same)

theorem filter?_congr (same : ∀ p ∈ BloomFilter.files place, d'.get? p = d.get? p) :
    filter? d' place = filter? d place := congrArg BloomFilter.Contents.filter? (BloomFilter.contents_congr same)

theorem contents_differs {checkpoints : List Place} (differs : d.Differs d' checkpoints)
    (all : ∀ p ∈ checkpoints, ∃ place', p = place' ++ [Generation.fileName]) (place : Place) :
    BloomFilter.contents d' place = BloomFilter.contents d place := by
  refine BloomFilter.contents_congr fun p member => differs.same p ?_
  intro inside
  obtain ⟨place', rfl⟩ := all p inside
  exact checkpoint_not_mem place' place member

/-- A root in memory, and its files. Unless it is touched, both say the same. -/
structure Kept (d : Disk σ) (place : Place) (c : RootConfig) (r : Root) : Prop where
  path : r.path = .ofString c.path
  limit : r.maxSize = c.maxSize.toInt
  holds : Generation.Holds r.size
  sound : ∀ f, r.filter = some f → f.Sound
  unready : r.filter = none → filter? d place = none
  stored : r.touched = false → size? d place = some r.size ∧ filter? d place = r.filter

theorem Kept.congr (kept : Kept d place c r) (same : ∀ p ∈ files place, d'.get? p = d.get? p) :
    Kept d' place c r := by
  have size := size?_congr (same _ List.mem_cons_self)
  have filter := filter?_congr fun p member => same p (List.mem_cons_of_mem _ member)
  exact ⟨kept.path, kept.limit, kept.holds, kept.sound, fun unready => filter.trans (kept.unready unready),
    fun clean => ⟨size.trans (kept.stored clean).1, filter.trans (kept.stored clean).2⟩⟩

theorem load_onDisk (home : Home d (.ofString c.path) place) (there : (checkpoint? d place).isSome) :
    (Root.load d c).2 = d ∧ (Root.load d c).1.toOption = onDisk? d place c := by
  have dead := home.checkpoint.dead
  have present : d.fileExists (Generation.file (.ofString c.path)) = true := by
    rw [Generation.file, fileExists_plain home.leads dead Generation.proper_fileName, ← isSome_bytes? dead]
    exact there
  obtain ⟨same, number⟩ := Generation.read_of_exists present
  obtain ⟨result, read⟩ : ∃ result, Generation.read d (.ofString c.path) = (result, d) := ⟨_, Prod.ext rfl same⟩
  rw [Generation.file, read_plain home.leads dead Generation.proper_fileName, read] at number
  have size : size? d place = result.toOption := number.symm
  simp only [Root.load, home.leads.makeDirectories, read, onDisk?, size]
  cases result with
  | error f => exact ⟨rfl, rfl⟩
  | ok n =>
    dsimp only
    rw [BloomFilter.stored?_eq home.leads home.housed.dead]
    exact ⟨rfl, rfl⟩

theorem Kept.onDisk (kept : Kept d place c r) (clean : r.touched = false) : onDisk? d place c = some r := by
  obtain ⟨size, filter⟩ := kept.stored clean
  rw [onDisk?, size, filter, ← kept.path, ← kept.limit, ← clean]
  rfl

theorem Kept.load (kept : Kept d place c r) (home : Home d (.ofString c.path) place)
    (clean : r.touched = false) : Root.load d c = (.ok r, d) := by
  obtain ⟨b, there, -⟩ := Option.bind_eq_some_iff.mp (kept.stored clean).1
  obtain ⟨same, loaded⟩ := load_onDisk home (Option.isSome_of_eq_some there)
  rw [kept.onDisk clean] at loaded
  rcases found : Root.load d c with ⟨_ | r', d'⟩ <;> rw [found] at same loaded <;> cases loaded
  exact Prod.ext rfl same

theorem Kept.grows {more : List Place} (kept : Kept d place c r) (clean : r.touched = false)
    (grows : d.Grows d₁ more) (outside : ∀ p ∈ more, p ∉ BloomFilter.files place)
    (home : Home d₁ root place) : Kept d₁ place c r := by
  refine kept.congr fun p member => ?_
  cases found : d.get? p with
  | some e => exact grows.keeps p e found
  | none =>
    rcases grows.adds p found with none | dir | new
    · exact none
    · have dead := (home.plain p member).dead
      rw [dir] at dead
      exact dead.elim
    · rcases List.mem_cons.mp member with rfl | filter
      · have size := (kept.stored clean).1
        rw [size?, checkpoint?, found] at size
        cases size
      · exact absurd filter (outside p new)

section

variable {e : Disk σ} {more : List Place}

theorem size?_of_read {size : Int} (read : Generation.read d root = (.ok size, e))
    (later : e.Grows d₁ more) (home : Home d₁ root place) :
    d.Leads root place ∧ d.Grows e [place ++ [Generation.fileName]] ∧ size? e place = some size := by
  rcases Generation.read_ok read with ⟨rfl, number⟩ | ⟨absent, rfl, written⟩
  · -- that something was read shows that the root leads somewhere; the later disk says where
    obtain ⟨b, found, -⟩ := Option.bind_eq_some_iff.mp number
    obtain ⟨place', leads⟩ := leads_of_read found
    obtain rfl := (later.leads leads).unique home.leads
    have dead := later.dead home.checkpoint.dead
    rw [Generation.file, read_plain leads dead Generation.proper_fileName] at number
    exact ⟨leads, ⟨rfl, fun _ _ => id, fun _ => .inl⟩, number⟩
  · obtain ⟨q, located, grows, there⟩ := grows_write absent written
    obtain ⟨place', leads⟩ := leads_of_locate_join located
    have whole := grows.trans later
    obtain rfl := (whole.leads leads).unique home.leads
    have dead := whole.dead home.checkpoint.dead
    obtain rfl := Except.ok.inj ((locate_plain leads dead Generation.proper_fileName true).symm.trans located)
    refine ⟨leads, grows, ?_⟩
    rw [size?, checkpoint?, there]
    exact Generation.number?_render (by decide)

theorem kept_of_load (loaded : Root.load d c = (.ok r, e)) (later : e.Grows d₁ more)
    (home : Home d₁ (.ofString c.path) place) :
    d.Grows e [place ++ [Generation.fileName]] ∧ Kept e place c r ∧ r.touched = false := by
  unfold Root.load at loaded
  dsimp only at loaded
  split at loaded
  · cases loaded
  · rename_i d' made
    split at loaded
    · cases loaded
    · rename_i size e' read
      cases loaded
      obtain ⟨leads, grows, checkpoint⟩ := size?_of_read read later home
      have stored := BloomFilter.stored?_eq (grows.leads leads) fun p member =>
        later.dead (home.housed.dead p member)
      refine ⟨(grows_makeDirectories made).trans grows, ⟨rfl, rfl, ?_, ?_, ?_, ?_⟩, rfl⟩
      · exact Generation.holds_of_number? checkpoint
      · exact fun f ready => BloomFilter.sound_of_filter? (stored.symm.trans ready)
      · exact fun unready => stored.symm.trans unready
      · exact fun _ => ⟨checkpoint, stored.symm⟩

end

theorem holds_accounted (size delta : Int) : Generation.Holds (accounted size delta) := by
  unfold accounted Generation.Holds
  omega

theorem Kept.adjust (kept : Kept d place c r) (delta : Int) (id : Option Bytes) :
    Kept d place c (r.adjust delta id) where
  path := kept.path
  limit := kept.limit
  holds := holds_accounted r.size delta
  sound f ready := by
    cases id with
    | none => exact kept.sound f ready
    | some i =>
      obtain ⟨g, before, rfl⟩ := Option.map_eq_some_iff.mp ready
      exact BloomFilter.sound_add (kept.sound g before) i
  unready none := by
    cases id with
    | none => exact kept.unready none
    | some i => exact kept.unready (Option.map_eq_none_iff.mp none)
  stored := nofun

theorem Kept.populate (kept : Kept d place c r) (ids : List Bytes) : Kept d place c (r.populate ids) where
  path := kept.path
  limit := kept.limit
  holds := kept.holds
  sound f ready := by
    obtain rfl := Option.some.inj ready
    exact BloomFilter.sound_addAll (BloomFilter.sound_ofSizes ..) ids
  unready := nofun
  stored := nofun

def storeFilter (d : Disk σ) (r : Root) : Except Disk.Fault Unit × Disk σ :=
  match r.filter with
  | some f => BloomFilter.store d r.path f
  | none => (.ok (), d)

theorem flush_untouched (clean : r.touched = false) : Root.flush d r = (.ok (), r, d) := by
  simp [Root.flush, clean]

theorem flush_touched (touched : r.touched = true) :
    Root.flush d r =
      match Generation.write d r.path r.size with
      | (sized, d) =>
        match storeFilter d r with
        | (filtered, d) =>
          match sized, filtered with
          | .ok (), .ok () => (.ok (), { r with touched := false }, d)
          | .error f, _ => (.error (.generation f), r, d)
          | _, .error f => (.error (.filter r.path f), r, d) := by
  simp only [Root.flush, touched, storeFilter]
  rfl

theorem disk_flush (touched : r.touched = true) :
    (Root.flush d r).2.2 = (storeFilter (Generation.write d r.path r.size).2 r).2 := by
  rw [flush_touched touched]
  dsimp only
  split <;> rfl

theorem differs_storeFilter (kept : Kept d place c r) (home : Home d (.ofString c.path) place) :
    d.Differs (storeFilter d r).2 (BloomFilter.files place) ∧
      ((storeFilter d r).1 = .ok () → filter? (storeFilter d r).2 place = r.filter) ∧
      (r.filter = none → filter? (storeFilter d r).2 place = none) := by
  unfold storeFilter
  cases ready : r.filter with
  | none => exact ⟨.refl d _ home.housed.plain, fun _ => kept.unready ready, fun _ => kept.unready ready⟩
  | some f =>
    rw [kept.path]
    obtain ⟨differs, done⟩ := BloomFilter.differs_store home.housed f
    refine ⟨differs, fun succeeded => ?_, nofun⟩
    have stored := BloomFilter.stored?_store home.housed (kept.sound f ready) succeeded
    have later := home.housed.differs differs
    rwa [BloomFilter.stored?_eq later.leads later.dead] at stored

theorem Kept.resized (kept : Kept d place c r) (home : Home d (.ofString c.path) place)
    (touched : r.touched = true) :
    d.Differs (Generation.write d r.path r.size).2 [place ++ [Generation.fileName]] ∧
      Kept (Generation.write d r.path r.size).2 place c r ∧
      ((Generation.write d r.path r.size).1 = .ok () →
        (Generation.write d r.path r.size).2.get? (place ++ [Generation.fileName]) =
          some (.file (Generation.render r.size))) := by
  rw [← kept.path] at home
  obtain ⟨differs, sized⟩ := Generation.differs_write home.leads home.checkpoint r.size
  have same : Kept (Generation.write d r.path r.size).2 place c r := by
    refine ⟨kept.path, kept.limit, kept.holds, kept.sound, fun unready => ?_, by simp [touched]⟩
    exact (congrArg _ (contents_differs differs (by simp) place)).trans (kept.unready unready)
  exact ⟨differs, same, sized⟩

/-- A flush changes at most the files of its root. If it succeeds the root is no longer touched, and what
is stored is what is in memory; otherwise the root stays as it is. -/
theorem Kept.flush (kept : Kept d place c r) (home : Home d (.ofString c.path) place) :
    d.Differs (Root.flush d r).2.2 (files place) ∧
      Kept (Root.flush d r).2.2 place c (Root.flush d r).2.1 ∧
      ((Root.flush d r).1 = .ok () → (Root.flush d r).2.1.touched = false) := by
  cases touched : r.touched with
  | false =>
    rw [flush_untouched touched]
    exact ⟨.refl d _ home.plain, kept, fun _ => touched⟩
  | true =>
    obtain ⟨differs₁, kept₁, sized⟩ := kept.resized home touched
    rw [flush_touched touched]
    generalize Generation.write d r.path r.size = written at differs₁ kept₁ sized ⊢
    obtain ⟨result₁, d₁⟩ := written
    have home₁ := home.differs differs₁
    obtain ⟨differs₂, filtered, unready⟩ := differs_storeFilter kept₁ home₁
    have same := differs₂.same _ (checkpoint_not_mem place place)
    dsimp only
    generalize storeFilter d₁ r = stored at differs₂ filtered unready same ⊢
    obtain ⟨result₂, d₂⟩ := stored
    have differs : d.Differs d₂ (files place) :=
      (differs₁.widen (by simp [files]) home.plain).trans
        (differs₂.widen (fun p => List.mem_cons_of_mem _) home₁.plain)
    -- the size may have been stored, but the root is touched still
    have failed : Kept d₂ place c r :=
      ⟨kept.path, kept.limit, kept.holds, kept.sound, unready, by simp [touched]⟩
    rcases result₁ with f | _
    · exact ⟨differs, failed, nofun⟩
    · rcases result₂ with f | _
      · exact ⟨differs, failed, nofun⟩
      · have size : size? d₂ place = some r.size := by
          rw [size?, checkpoint?, same, sized rfl]
          exact Generation.number?_render kept.holds
        refine ⟨differs, ⟨kept.path, kept.limit, kept.holds, kept.sound, unready, fun _ => ?_⟩, fun _ => rfl⟩
        exact ⟨size, filtered rfl⟩

theorem ahead_storeFilter (home : Home d r.path place) :
    ∃ used, used ≤ 2 ∧ (storeFilter d r).2.ahead = d.ahead.drop used := by
  unfold storeFilter
  split
  · exact BloomFilter.ahead_store home.housed _
  · exact ⟨0, by omega, rfl⟩

theorem checkpoint_flush (kept : Kept d place c r) (home : Home d (.ofString c.path) place)
    (touched : r.touched = true) :
    ∃ used, 1 ≤ used ∧ used ≤ 3 ∧ (Root.flush d r).2.2.ahead = d.ahead.drop used ∧
      checkpoint? (Root.flush d r).2.2 place =
        Outcome.landed (checkpoint? d place) (Generation.render r.size) d.outcome.1 := by
  have here : Home d r.path place := kept.path ▸ home
  obtain ⟨ahead₁, landed⟩ :=
    landed_write here.leads here.checkpoint.dead Generation.proper_fileName (Generation.render r.size)
  obtain ⟨differs₁, kept₁, -⟩ := kept.resized home touched
  have home₁ := home.differs differs₁
  obtain ⟨used, few, ahead₂⟩ := ahead_storeFilter (here.differs differs₁)
  obtain ⟨differs₂, -, -⟩ := differs_storeFilter kept₁ home₁
  rw [disk_flush touched]
  refine ⟨used + 1, by omega, by omega, ?_, ?_⟩
  · rw [ahead₂]
    change List.drop used (d.write (Generation.file r.path) (Generation.render r.size)).2.ahead = _
    rw [Generation.file, ahead₁, List.drop_tail]
  · exact (checkpoint?_congr (differs₂.same _ (checkpoint_not_mem place place))).trans landed

end RomLedger.Root
