import RomLedger.Proofs.BloomFilter.Membership
import RomLedger.Proofs.Depot.Crash

/-!
What a depot has once recorded is not ruled out later. In memory that holds until the filter is built anew;
once a flush of the root has succeeded it holds on the disk as well, and survives whatever becomes of later
flushes and however often the depot is opened again.
-/
namespace RomLedger

namespace Generation

open Disk

variable {σ : Type} {d : Disk σ} {root : Path} {place : Place}

theorem differs_read (leads : d.Leads root place) (plain : d.Plain (place ++ [fileName])) :
    d.Differs (read d root).2 [place ++ [fileName]] := by
  cases present : d.fileExists (file root) with
  | true =>
    rw [(read_of_exists present).1]
    exact .refl d _ (by simpa using plain)
  | false =>
    rw [read, if_neg (by simp [present])]
    exact (differs_write leads plain 0).1

end Generation

namespace Root

open Disk

variable {σ : Type} {d : Disk σ} {place : Place} {c : RootConfig} {r : Root} {id : Bytes}

theorem differs_load (home : Home d (.ofString c.path) place) :
    d.Differs (Root.load d c).2 [place ++ [Generation.fileName]] := by
  have differs := Generation.differs_read home.leads home.checkpoint
  simp only [Root.load, home.leads.makeDirectories]
  rcases read : Generation.read d (.ofString c.path) with ⟨_ | size, e⟩ <;> rw [read] at differs <;>
    exact differs

theorem mightContain_iff (r : Root) (id : Bytes) :
    r.mightContain id = true ↔ ∀ f, r.filter = some f → f.contains id = true := by
  unfold mightContain
  cases r.filter <;> simp

theorem mightContain_adjust (found : r.mightContain id = true) (delta : Int) (given : Option Bytes) :
    (r.adjust delta given).mightContain id = true := by
  rw [mightContain_iff] at found ⊢
  cases given with
  | none => exact found
  | some other =>
    intro f ready
    obtain ⟨g, before, rfl⟩ := Option.map_eq_some_iff.mp ready
    exact BloomFilter.contains_add_of_contains other (found g before)

theorem mightContain_adjust_self (sound : ∀ f, r.filter = some f → f.Sound) (delta : Int) (id : Bytes) :
    (r.adjust delta (some id)).mightContain id = true := by
  rw [mightContain_iff]
  intro f ready
  obtain ⟨g, before, rfl⟩ := Option.map_eq_some_iff.mp ready
  exact BloomFilter.contains_add (sound g before) id

theorem mightContain_populate (r : Root) {ids : List Bytes} (member : id ∈ ids) :
    (r.populate ids).mightContain id = true :=
  BloomFilter.contains_addAll (BloomFilter.sound_ofSizes ..) member

theorem filter_flush (d : Disk σ) (r : Root) : (Root.flush d r).2.1.filter = r.filter := by
  cases touched : r.touched with
  | false => rw [flush_untouched touched]
  | true =>
    rw [flush_touched touched]
    dsimp only
    split <;> rfl

theorem Kept.admits_iff (kept : Kept d place c r) (clean : r.touched = false) (id : Bytes) :
    (BloomFilter.contents d place).Admits id ↔ r.mightContain id = true := by
  rw [mightContain_iff, ← (kept.stored clean).2]
  rfl

theorem admits_flush (kept : Kept d place c r) (home : Home d (.ofString c.path) place)
    (found : r.mightContain id = true) (admits : (BloomFilter.contents d place).Admits id) :
    (BloomFilter.contents (Root.flush d r).2.2 place).Admits id := by
  cases touched : r.touched with
  | false =>
    rw [flush_untouched touched]
    exact admits
  | true =>
    obtain ⟨differs, kept', -⟩ := kept.resized home touched
    have home' : Home (Generation.write d r.path r.size).2 r.path place := by
      rw [kept.path]
      exact home.differs (kept.path ▸ differs)
    rw [← contents_differs differs (by simp) place] at admits
    rw [disk_flush touched]
    unfold storeFilter
    cases ready : r.filter with
    | none => exact admits
    | some f =>
      exact BloomFilter.admits_store home'.housed admits (kept.sound f ready)
        ((mightContain_iff r id).mp found f ready)

end Root

namespace Depot

open Disk Root

variable {σ : Type} {d d₀ : Disk σ} {place : RootConfig → Place} {c : RootConfig} {cs : List RootConfig}
  {r : Root} {rs : List Root} {depot : Depot} {k : Nat} {id : Bytes}

theorem differs_loadAll (homes : Homes d place cs) :
    d.Differs (loadAll d cs).2 (cs.map fun c => place c ++ [Generation.fileName]) := by
  have plain : ∀ {d : Disk σ} {cs}, Homes d place cs →
      ∀ p ∈ cs.map fun c => place c ++ [Generation.fileName], d.Plain p := by
    intro d cs homes p member
    obtain ⟨c, among, rfl⟩ := List.mem_map.mp member
    exact (homes c among).checkpoint
  induction cs generalizing d with
  | nil => exact .refl d _ (plain homes)
  | cons c cs ih =>
    have first := differs_load (homes c List.mem_cons_self)
    have others : Homes d place cs := fun c' member => homes c' (List.mem_cons_of_mem c member)
    have rest := ih (others.differs first)
    have whole := first.widen (by simp) (plain homes)
    have later := whole.trans (rest.widen (fun p => List.mem_cons_of_mem _) (plain (homes.differs first)))
    rw [loadAll]
    rcases loaded : Root.load d c with ⟨_ | r, e⟩ <;> rw [loaded] at whole later
    · exact whole
    · exact later

theorem contents_load (homes : Homes d place cs) (p : Place) :
    BloomFilter.contents (load d cs).2 p = BloomFilter.contents d p := by
  refine contents_differs (differs_loadAll homes) ?_ p
  intro q member
  obtain ⟨c, -, rfl⟩ := List.mem_map.mp member
  exact ⟨place c, rfl⟩

/-- A root of the depot does not rule the content out. -/
def Finds (depot : Depot) (k : Nat) (id : Bytes) : Prop :=
  ∃ r, depot.roots[k]? = some r ∧ r.mightContain id = true

theorem Finds.mightContain (finds : depot.Finds k id) : depot.mightContain id = true := by
  obtain ⟨r, root, found⟩ := finds
  exact List.any_eq_true.mpr ⟨r, List.mem_of_getElem? root, found⟩

theorem change_roots (depot : Depot) (i : Nat) (f : Root → Root) :
    ((depot.change i f).toOption.getD depot).roots = depot.roots.modify i f := by
  unfold Depot.change
  split
  · rfl
  · rename_i outside
    exact (List.modify_eq_self (Nat.le_of_not_lt outside)).symm

theorem filters_flushAll (d : Disk σ) (rs : List Root) :
    (flushAll d rs).2.1.map (·.filter) = rs.map (·.filter) := by
  induction rs generalizing d with
  | nil => rfl
  | cons r rs ih =>
    rw [flushAll_cons, List.map_cons, List.map_cons]
    exact congrArg₂ List.cons (filter_flush d r) (ih _)

theorem Finds.change (finds : depot.Finds k id) (i : Nat) {f : Root → Root}
    (one : ∀ r, i = k → r.mightContain id = true → (f r).mightContain id = true) :
    ((depot.change i f).toOption.getD depot).Finds k id := by
  obtain ⟨r, root, found⟩ := finds
  rw [Finds, change_roots, List.getElem?_modify, root]
  refine ⟨if i = k then f r else r, rfl, ?_⟩
  split
  · rename_i same
    exact one r same found
  · exact found

theorem Finds.act (finds : depot.Finds k id) (d : Disk σ) {op : Op} (keeps : ∀ ids, op ≠ .populate k ids) :
    (act (depot, d) op).1.Finds k id := by
  cases op with
  | adjust i delta given => exact finds.change i fun r _ found => mightContain_adjust found delta given
  | populate i ids =>
    apply finds.change i
    rintro r rfl
    exact absurd rfl (keeps ids)
  | flush =>
    obtain ⟨r, root, found⟩ := finds
    have filter := congrArg (·[k]?) (filters_flushAll d depot.roots)
    simp only [List.getElem?_map, root, Option.map_some] at filter
    obtain ⟨r', root', same⟩ := Option.map_eq_some_iff.mp filter
    refine ⟨r', root', ?_⟩
    rw [mightContain_iff, same, ← mightContain_iff]
    exact found

def Admits (d : Disk σ) (place : RootConfig → Place) (cs : List RootConfig) (k : Nat) (id : Bytes) : Prop :=
  ∀ c, cs[k]? = some c → (BloomFilter.contents d (place c)).Admits id

theorem admits_flushAll (kept : KeptAll d place cs rs) (homes : Homes d place cs) (apart : (cs.map place).Nodup)
    (found : ∀ r, rs[k]? = some r → r.mightContain id = true) (admits : Admits d place cs k id) :
    Admits (flushAll d rs).2.2 place cs k id := by
  induction cs generalizing d rs k with
  | nil => exact nofun
  | cons c cs ih =>
    cases kept with
    | @cons _ r _ rs one kept =>
      obtain ⟨new, apart⟩ := List.nodup_cons.mp apart
      have home := homes c List.mem_cons_self
      have others : Homes d place cs := fun c' member => homes c' (List.mem_cons_of_mem c member)
      obtain ⟨differs, -, -⟩ := one.flush home
      have unchanged := flush_spares one home new
      have rest := kept.congr unchanged
      intro c' config
      cases k with
      | zero =>
        cases config
        have later := flushAll_spares rest (others.differs differs) apart new
        have same : BloomFilter.contents (flushAll d (r :: rs)).2.2 (place c)
            = BloomFilter.contents (Root.flush d r).2.2 (place c) :=
          BloomFilter.contents_congr fun p own => later p (List.mem_cons_of_mem _ own)
        rw [same]
        exact admits_flush one home (found r rfl) (admits c rfl)
      | succ k =>
        refine ih rest (others.differs differs) apart (fun r' root => found r' root) ?_ c' config
        intro c'' config'
        have among := List.mem_of_getElem? config'
        rw [BloomFilter.contents_congr fun p own => unchanged c'' among p (List.mem_cons_of_mem _ own)]
        exact admits c'' config'

theorem load_of_toOption (opened : (load d cs).1.toOption = some depot) :
    load d cs = (.ok depot, (load d cs).2) := by
  rcases loaded : load d cs with ⟨_ | depot', d'⟩ <;> rw [loaded] at opened <;> cases opened
  rfl

theorem finds_of_load (loaded : load d₀ cs = (.ok depot, d)) (homes : Homes d place cs) (inside : k < cs.length)
    (admits : Admits d place cs k id) : depot.Finds k id := by
  rw [load_eq] at loaded
  rcases all : loadAll d₀ cs with ⟨_ | rs, d'⟩ <;> rw [all] at loaded <;> cases loaded
  obtain ⟨-, kept, clean⟩ := kept_loadAll all homes
  have there : k < rs.length := by rwa [kept.length_eq]
  have config := List.getElem?_eq_getElem inside
  have one := kept.get config (List.getElem?_eq_getElem there)
  have admitted := admits _ config
  rw [one.admits_iff (clean _ (List.getElem_mem there))] at admitted
  exact ⟨_, List.getElem?_eq_getElem there, admitted⟩

/-- What can happen to a depot: an operation, or the end of the process that had it and another opening. -/
inductive Event where
  | act (op : Op)
  | reopen

def happen (cs : List RootConfig) (s : Option Depot × Disk σ) : Event → Option Depot × Disk σ
  | .act op =>
    match s.1 with
    | none => s
    | some depot => ((act (depot, s.2) op).1, (act (depot, s.2) op).2)
  | .reopen => ((load s.2 cs).1.toOption, (load s.2 cs).2)

def history (cs : List RootConfig) (s : Option Depot × Disk σ) (events : List Event) :
    Option Depot × Disk σ := events.foldl (happen cs) s

theorem history_append (cs : List RootConfig) (s : Option Depot × Disk σ) (first rest : List Event) :
    history cs s (first ++ rest) = history cs (history cs s first) rest := List.foldl_append

structure Serving (place : RootConfig → Place) (cs : List RootConfig) (s : Option Depot × Disk σ) : Prop where
  homes : Homes s.2 place cs
  faithful : ∀ depot, s.1 = some depot → Faithful place cs (depot, s.2)

variable {s : Option Depot × Disk σ}

theorem Serving.happen (serving : Serving place cs s) (apart : (cs.map place).Nodup) (e : Event) :
    Serving place cs (happen cs s e) := by
  obtain ⟨open?, d⟩ := s
  cases e with
  | act op =>
    cases open? with
    | none => exact serving
    | some depot =>
      have faithful := (serving.faithful depot rfl).act apart op
      exact ⟨faithful.homes, fun depot' same => Option.some.inj same ▸ faithful⟩
  | reopen =>
    have homes := serving.homes.differs (differs_loadAll serving.homes)
    exact ⟨homes, fun depot opened => faithful_of_load (load_of_toOption opened) homes⟩

theorem Serving.history (serving : Serving place cs s) (apart : (cs.map place).Nodup) (events : List Event) :
    Serving place cs (history cs s events) := by
  induction events generalizing s with
  | nil => exact serving
  | cons e rest ih => exact ih (serving.happen apart e)

structure Recalls (place : RootConfig → Place) (cs : List RootConfig) (k : Nat) (id : Bytes)
    (s : Option Depot × Disk σ) : Prop where
  serving : Serving place cs s
  admits : Admits s.2 place cs k id
  finds : ∀ depot, s.1 = some depot → depot.Finds k id

theorem Recalls.happen (recalls : Recalls place cs k id s) (apart : (cs.map place).Nodup)
    (inside : k < cs.length) {e : Event} (keeps : ∀ ids, e ≠ .act (.populate k ids)) :
    Recalls place cs k id (happen cs s e) := by
  have serving := recalls.serving.happen apart e
  obtain ⟨open?, d⟩ := s
  cases e with
  | act op =>
    cases open? with
    | none => exact recalls
    | some depot =>
      have finds := recalls.finds depot rfl
      refine ⟨serving, ?_, ?_⟩
      · cases op with
        | adjust i delta given => exact recalls.admits
        | populate i ids => exact recalls.admits
        | flush =>
          obtain ⟨homes, kept⟩ := recalls.serving.faithful depot rfl
          refine admits_flushAll kept homes apart ?_ recalls.admits
          intro r root
          obtain ⟨r', root', found⟩ := finds
          exact Option.some.inj (root.symm.trans root') ▸ found
      · intro depot' same
        refine Option.some.inj same ▸ finds.act d ?_
        rintro ids rfl
        exact keeps ids rfl
  | reopen =>
    have admits : Admits (load d cs).2 place cs k id := by
      intro c config
      rw [contents_load recalls.serving.homes]
      exact recalls.admits c config
    refine ⟨serving, admits, ?_⟩
    intro depot opened
    exact finds_of_load (load_of_toOption opened) serving.homes inside admits

theorem Recalls.history (recalls : Recalls place cs k id s) (apart : (cs.map place).Nodup)
    (inside : k < cs.length) {events : List Event} (keeps : ∀ ids, .act (.populate k ids) ∉ events) :
    Recalls place cs k id (history cs s events) := by
  induction events generalizing s with
  | nil => exact recalls
  | cons e rest ih =>
    apply ih
    · apply recalls.happen apart inside
      rintro ids rfl
      exact keeps ids List.mem_cons_self
    · intro ids member
      exact keeps ids (List.mem_cons_of_mem e member)

theorem Finds.history (finds : depot.Finds k id) (d : Disk σ) {events : List Event}
    (open_ : .reopen ∉ events) (keeps : ∀ ids, .act (.populate k ids) ∉ events) :
    ∃ now, (history cs (some depot, d) events).1 = some now ∧ now.Finds k id := by
  induction events generalizing depot d with
  | nil => exact ⟨depot, rfl, finds⟩
  | cons e rest ih =>
    cases e with
    | reopen => exact absurd List.mem_cons_self open_
    | act op =>
      apply ih
      · apply finds.act d
        rintro ids rfl
        exact keeps ids List.mem_cons_self
      · intro member
        exact open_ (List.mem_cons_of_mem _ member)
      · intro ids member
        exact keeps ids (List.mem_cons_of_mem _ member)

/-- A root gets to know content when its filter is built from it, or when it comes while there is a filter. -/
def Records (depot : Depot) (k : Nat) (id : Bytes) : Op → Prop
  | .adjust i _ given => i = k ∧ given = some id ∧ ∃ r, depot.roots[k]? = some r ∧ r.isReady = true
  | .populate i ids => i = k ∧ k < depot.roots.length ∧ id ∈ ids
  | .flush => False

theorem finds_of_records {op : Op} (faithful : Faithful place cs (depot, d)) (records : Records depot k id op) :
    (act (depot, d) op).1.Finds k id := by
  cases op with
  | adjust i delta given =>
    obtain ⟨rfl, rfl, r, root, -⟩ := records
    have inside : i < cs.length := by
      rw [← faithful.kept.length_eq]
      exact (List.getElem?_eq_some_iff.mp root).1
    have kept := faithful.kept.get (List.getElem?_eq_getElem inside) root
    refine ⟨r.adjust delta (some id), ?_, mightContain_adjust_self kept.sound delta id⟩
    refine (congrArg (·[i]?) (change_roots depot i _)).trans ?_
    rw [List.getElem?_modify, root]
    simp
  | populate i ids =>
    obtain ⟨rfl, inside, member⟩ := records
    refine ⟨depot.roots[i].populate ids, ?_, mightContain_populate _ member⟩
    refine (congrArg (·[i]?) (change_roots depot i _)).trans ?_
    rw [List.getElem?_modify, List.getElem?_eq_getElem inside]
    simp
  | flush => exact records.elim

def Flushed (k : Nat) (s : Option Depot × Disk σ) : Prop :=
  (s.1.bind (·.roots[k]?)).map (·.touched) = some false

instance (k : Nat) (s : Option Depot × Disk σ) : Decidable (Flushed k s) := inferInstanceAs (Decidable (_ = _))

theorem recalls_of_flushed (serving : Serving place cs s) (there : s.1 = some depot) (finds : depot.Finds k id)
    (flushed : Flushed k s) : k < cs.length ∧ Recalls place cs k id s := by
  obtain ⟨r, root, found⟩ := finds
  have clean : r.touched = false := by
    rw [Flushed, there, Option.bind_some, root] at flushed
    exact Option.some.inj flushed
  have faithful := serving.faithful depot there
  constructor
  · rw [← faithful.kept.length_eq]
    exact (List.getElem?_eq_some_iff.mp root).1
  · refine ⟨serving, ?_, ?_⟩
    · intro c config
      exact ((faithful.kept.get config root).admits_iff clean id).mpr found
    · intro depot' same
      cases there.symm.trans same
      exact ⟨r, root, found⟩

theorem load_of_sizes (homes : Homes d place cs) (sized : ∀ c ∈ cs, (size? d (place c)).isSome) :
    ∃ depot, load d cs = (.ok depot, d) := by
  have there : ∀ c ∈ cs, (checkpoint? d (place c)).isSome := by
    intro c member
    obtain ⟨size, read⟩ := Option.isSome_iff_exists.mp (sized c member)
    obtain ⟨b, found, -⟩ := Option.bind_eq_some_iff.mp read
    exact Option.isSome_of_eq_some found
  obtain ⟨same, opened⟩ := loadAll_onDisk homes there
  have all : ∃ rs, cs.mapM (fun c => onDisk? d (place c) c) = some rs := by
    clear same opened there homes
    induction cs with
    | nil => exact ⟨[], rfl⟩
    | cons c cs ih =>
      obtain ⟨size, read⟩ := Option.isSome_iff_exists.mp (sized c List.mem_cons_self)
      obtain ⟨rs, rest⟩ := ih fun c' member => sized c' (List.mem_cons_of_mem c member)
      refine ⟨⟨.ofString c.path, c.maxSize.toInt, size, false, filter? d (place c)⟩ :: rs, ?_⟩
      rw [List.mapM_cons, rest, onDisk?, read]
      rfl
  obtain ⟨rs, all⟩ := all
  rw [all] at opened
  refine ⟨⟨rs⟩, ?_⟩
  have loaded : (load d cs).1.toOption = some ⟨rs⟩ := by
    rw [load_eq]
    rcases found : loadAll d cs with ⟨_ | rs', e⟩ <;> rw [found] at opened <;> cases opened
    rfl
  rw [load_of_toOption loaded, load_eq, same]

/-- Content that was recorded in a root is not ruled out: not while the depot stays open, and not at any later
time once a flush has left the root untouched, however the writes of later flushes end and however often the
depot is opened again. Only building the filter of the root anew forgets content. -/
theorem no_false_negatives (loaded : load d₀ cs = (.ok depot, d)) (homes : Homes d place cs)
    (apart : (cs.map place).Nodup) (before : List Event) {current : Depot} {e : Disk σ}
    (reached : history cs (some depot, d) before = (some current, e)) {op : Op}
    (records : Records current k id op) (later : List Event)
    (keeps : ∀ ids, .act (.populate k ids) ∉ later) :
    let recorded := happen cs (some current, e) (.act op)
    (.reopen ∉ later → ∃ now, (history cs recorded later).1 = some now ∧
      now.Finds k id ∧ now.mightContain id = true) ∧
    ∀ first rest, later = first ++ .act .flush :: rest → .reopen ∉ first →
      Flushed k (history cs recorded (first ++ [.act .flush])) →
      let s := history cs recorded later
      (∀ now, s.1 = some now → now.Finds k id ∧ now.mightContain id = true) ∧
      ((∀ c ∈ cs, (size? s.2 (place c)).isSome) → ∃ again, load s.2 cs = (.ok again, s.2) ∧
        again.Finds k id ∧ again.mightContain id = true) := by
  intro recorded
  have start : Serving place cs (some depot, d) :=
    ⟨homes, fun _ same => Option.some.inj same ▸ faithful_of_load loaded homes⟩
  have serving : Serving place cs (some current, e) := reached ▸ start.history apart before
  have finds := finds_of_records (serving.faithful current rfl) records
  have whenOpen : ∀ events, .reopen ∉ events → (∀ ids, .act (.populate k ids) ∉ events) →
      ∃ now, (history cs recorded events).1 = some now ∧ now.Finds k id :=
    fun events open_ keeps => finds.history _ open_ keeps
  refine ⟨fun open_ => ?_, ?_⟩
  · obtain ⟨now, there, found⟩ := whenOpen later open_ keeps
    exact ⟨now, there, found, found.mightContain⟩
  · intro first rest split open_ flushed s
    rw [List.append_cons] at split
    obtain ⟨now, there, found⟩ := whenOpen (first ++ [.act .flush]) (by simpa using open_)
      fun ids member => keeps ids (split ▸ List.mem_append_left rest member)
    have serving' := (serving.happen apart (.act op)).history apart (first ++ [.act .flush])
    obtain ⟨inside, recalls⟩ := recalls_of_flushed serving' there found flushed
    have after := recalls.history apart inside fun ids member =>
      keeps ids (split ▸ List.mem_append_right _ member)
    rw [← history_append, ← split] at after
    refine ⟨fun now there => ?_, fun sized => ?_⟩
    · exact ⟨after.finds now there, (after.finds now there).mightContain⟩
    · obtain ⟨again, loaded⟩ := load_of_sizes after.serving.homes sized
      have found := finds_of_load loaded after.serving.homes inside after.admits
      exact ⟨again, loaded, found, found.mightContain⟩

def shelved : Disk Unit where
  entries := [(["r"], .dir), (["r", "romdepot.generation"], .file (Bytes.ofString "12")),
    (["r", "bloomfilter"], .file (BloomFilter.ofSizes 128 1).encode)]
  ahead := [.done, .done, .done, .done, .done, .failed (.beginning 3)]
  here := []

def newcomer : Op := .adjust 0 5 (some (Bytes.ofString "x"))

theorem no_false_negatives_one_root :
    let recorded := happen [⟨"r", 1000⟩]
      (some ⟨[⟨.ofString "r", 1000, 12, false, some (.ofSizes 128 1)⟩]⟩, (load shelved [⟨"r", 1000⟩]).2)
      (.act newcomer)
    let s := history [⟨"r", 1000⟩] recorded [.act .flush, .act (.adjust 0 1 none), .act .flush, .reopen]
    ∃ now, s.1 = some now ∧ now.Finds 0 (Bytes.ofString "x") ∧ now.mightContain (Bytes.ofString "x") = true := by
  have loaded := load_of_toOption (show (load shelved [⟨"r", 1000⟩]).1.toOption =
    some ⟨[⟨.ofString "r", 1000, 12, false, some (.ofSizes 128 1)⟩]⟩ by decide +kernel)
  have homes : Homes (load shelved [⟨"r", 1000⟩]).2 (fun c => [c.path]) [⟨"r", 1000⟩] :=
    List.forall_mem_singleton.mpr ⟨by decide +kernel, by decide +kernel⟩
  have records : Records ⟨[⟨.ofString "r", 1000, 12, false, some (.ofSizes 128 1)⟩]⟩ 0 (Bytes.ofString "x")
      newcomer := ⟨rfl, rfl, _, rfl, rfl⟩
  obtain ⟨-, later⟩ := no_false_negatives loaded homes (by decide) [] rfl records
    [.act .flush, .act (.adjust 0 1 none), .act .flush, .reopen] (by simp)
  obtain ⟨found, -⟩ := later [] [.act (.adjust 0 1 none), .act .flush, .reopen] rfl (by simp) (by decide +kernel)
  intro recorded s
  obtain ⟨now, there⟩ : ∃ now, s.1 = some now := Option.isSome_iff_exists.mp (by decide +kernel)
  exact ⟨now, there, found now there⟩

def entwined : Disk Unit where
  entries := [(["a"], .dir), (["a", "backup.bloomfilter"], .file (BloomFilter.ofSizes 128 1).encode),
    (["b"], .dir), (["b", "backup.bloomfilter"], .file (BloomFilter.ofSizes 128 1).encode),
    (["b", "bloomfilter"], .link "../a/bloomfilter")]
  ahead := []
  here := []

def seen (id : Bytes) (s : Option Depot × Disk σ) : Option (Bool × List Bool) :=
  s.1.map fun now => (now.mightContain id, now.roots.map (·.touched))

def trace (cs : List RootConfig) (id : Bytes) (s : Option Depot × Disk σ) :
    List Event → List (Option (Bool × List Bool))
  | [] => []
  | e :: rest => seen id (happen cs s e) :: trace cs id (happen cs s e) rest

/-- Content that is recorded in the second root and flushed is lost when the first root is flushed. -/
theorem forgotten :
    entwined.Leads (.ofString "a") ["a"] ∧ entwined.Leads (.ofString "b") ["b"] ∧
      trace twoRoots (Bytes.ofString "x") (none, entwined)
          [.reopen, .act (.adjust 1 0 (some (Bytes.ofString "x"))), .act .flush,
            .act (.adjust 0 0 (some (Bytes.ofString "y"))), .act .flush, .reopen] =
        [some (false, [false, false]), some (true, [false, true]), some (true, [false, false]),
          some (true, [true, false]), some (true, [false, false]), some (false, [false, false])] := by
  decide +kernel

end Depot
end RomLedger
