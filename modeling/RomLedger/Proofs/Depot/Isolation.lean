import RomLedger.Proofs.Depot.Reopening

/-!
A flush keeps the roots of a depot apart. A root of which a write fails stays touched and keeps none of the
others from being stored; in memory nothing else changes, and on the disk nothing but the files of touched
roots. Once nothing fails any more, one flush stores all that is left.
-/
namespace RomLedger

namespace Disk

variable {σ : Type} {d d' : Disk σ} {p : Path} {place : Place} {name other : String}

def Lost (d : Disk σ) (p : Path) : Prop := ∀ place, ¬d.Leads p place

instance (d : Disk σ) (p : Path) : Decidable (d.Lost p) :=
  decidable_of_iff (∀ place ∈ (d.follow true maxLinks (d.base p) p.names).toOption, ¬d.Leads p place) <| by
    refine ⟨fun none place leads => none place ?_ leads, fun lost place _ => lost place⟩
    rw [leads.1]
    rfl

theorem Lost.locate (lost : d.Lost p) (name : String) (through : Bool) :
    ∃ f, d.locate through (p.join name) = .error f := by
  cases located : d.locate through (p.join name) with
  | error f => exact ⟨f, rfl⟩
  | ok q =>
    obtain ⟨place, leads⟩ := leads_of_locate_join located
    exact absurd leads (lost place)

theorem Lost.write (lost : d.Lost p) (name : String) (content : Bytes) :
    ∃ f, d.write (p.join name) content = (.error f, d) := by
  obtain ⟨f, refused⟩ := lost.locate name true
  exact ⟨f, by rw [Disk.write, refused]⟩

theorem Lost.fileExists (lost : d.Lost p) (name : String) : d.fileExists (p.join name) = false := by
  obtain ⟨f, refused⟩ := lost.locate name true
  rw [Disk.fileExists, open?, refused]
  rfl

theorem Differs.lost {places : List Place} (differs : d.Differs d' places) (lost : d.Lost p) : d'.Lost p := by
  intro place leads
  refine lost place (leads.frame differs.start.symm fun q live => ?_)
  refine (differs.same q fun inside => ?_).symm
  exact live (differs.keeps q (differs.plain q inside)).dead

/-- No write and no rename will fail. -/
def Smooth (d : Disk σ) : Prop := ∀ o ∈ d.ahead, o = .done

theorem Smooth.outcome (smooth : d.Smooth) : d.outcome.1 = .done := by
  unfold Disk.outcome
  split
  · rfl
  · rename_i o rest more
    exact smooth o (more ▸ List.mem_cons_self)

theorem Smooth.drop (smooth : d.Smooth) {n : Nat} (ahead : d'.ahead = d.ahead.drop n) : d'.Smooth := by
  intro o member
  rw [ahead] at member
  exact smooth o (List.mem_of_mem_drop member)

theorem Smooth.write (smooth : d.Smooth) (leads : d.Leads p place) (dead : Dead (d.get? (place ++ [name])))
    (proper : name ≠ "." ∧ name ≠ "..") (content : Bytes) : (d.write (p.join name) content).1 = .ok () := by
  have done := smooth.outcome
  rw [write_plain leads dead proper]
  rcases next : d.outcome with ⟨o, e⟩
  rw [next] at done
  cases done
  rfl

theorem Smooth.rename (smooth : d.Smooth) (leads : d.Leads p place) (dead : Dead (d.get? (place ++ [name])))
    (dead' : Dead (d.get? (place ++ [other]))) (proper : name ≠ "." ∧ name ≠ "..")
    (proper' : other ≠ "." ∧ other ≠ "..") (apart : name ≠ other) (present : (d.get? (place ++ [name])).isSome) :
    (d.rename (p.join name) (p.join other)).1 = .ok () := by
  have done := smooth.outcome
  rw [rename_plain leads dead dead' proper proper' apart present]
  rcases next : d.outcome with ⟨o, e⟩
  rw [next] at done
  cases done
  rfl

end Disk

namespace BloomFilter

open Disk

variable {σ : Type} {d : Disk σ} {root : Path} {place : Place}

theorem store_lost (lost : d.Lost root) (f : BloomFilter) : ∃ e, store d root f = (.error e, d) := by
  obtain ⟨e, refused⟩ := lost.write fileName f.encode
  refine ⟨e, ?_⟩
  unfold store
  dsimp only
  rw [lost.fileExists, if_neg Bool.false_ne_true, refused]

theorem store_smooth (housed : Housed d root place) (smooth : d.Smooth) (f : BloomFilter) :
    (store d root f).1 = .ok () := by
  unfold store
  dsimp only
  split
  · rename_i present
    have there : (d.get? (place ++ [fileName])).isSome := by
      rwa [← fileExists_plain housed.leads housed.current.dead proper_fileName]
    have moved := differs_rename housed.leads housed.current housed.backup proper_fileName
      proper_backupName names_apart there
    have ahead := ahead_rename housed.leads housed.current.dead housed.backup.dead proper_fileName
      proper_backupName names_apart there
    have done := smooth.rename housed.leads housed.current.dead housed.backup.dead proper_fileName
      proper_backupName names_apart there
    split
    · rename_i e d' refused
      rw [refused] at done
      cases done
    · rename_i d' renamed
      rw [renamed, ← List.drop_one] at ahead
      rw [renamed] at moved
      have kept := housed.differs moved
      exact (smooth.drop ahead).write kept.leads kept.current.dead proper_fileName f.encode
  · exact smooth.write housed.leads housed.current.dead proper_fileName f.encode

end BloomFilter

namespace Generation

open Disk

variable {σ : Type} {d : Disk σ} {root : Path} {place : Place}

theorem write_lost (lost : d.Lost root) (size : Int) : ∃ e, write d root size = (.error e, d) := by
  obtain ⟨f, refused⟩ := lost.write fileName (render size)
  exact ⟨.unwritable (file root) f, by rw [write, file, refused]; rfl⟩

theorem write_smooth (leads : d.Leads root place) (plain : d.Plain (place ++ [fileName])) (smooth : d.Smooth)
    (size : Int) : (write d root size).1 = .ok () := by
  have done := smooth.write leads plain.dead proper_fileName (render size)
  rw [write, file]
  dsimp only
  rw [done]
  rfl

theorem ahead_write (leads : d.Leads root place) (plain : d.Plain (place ++ [fileName])) (size : Int) :
    (write d root size).2.ahead = d.ahead.drop 1 := by
  rw [List.drop_one]
  exact (landed_write leads plain.dead proper_fileName (render size)).1

end Generation

namespace Root

open Disk

variable {σ : Type} {d : Disk σ} {place : Place} {r : Root}

def fails (d : Disk σ) (r : Root) : Bool :=
  let sized := Generation.write d r.path r.size
  r.touched && !(sized.1.isOk && (storeFilter sized.2 r).1.isOk)

theorem memory_flush (d : Disk σ) (r : Root) :
    (Root.flush d r).1.isOk = !r.fails d ∧ (Root.flush d r).2.1 = { r with touched := r.fails d } := by
  cases touched : r.touched with
  | false =>
    rw [flush_untouched touched, fails, touched]
    exact ⟨rfl, by rw [Bool.false_and, ← touched]⟩
  | true =>
    have same (v : Bool) (still : v = true) : r = { r with touched := v } := by rw [still, ← touched]
    rw [flush_touched touched, fails, touched]
    generalize Generation.write d r.path r.size = written
    obtain ⟨sized, d₁⟩ := written
    dsimp only
    generalize storeFilter d₁ r = stored
    obtain ⟨filtered, d₂⟩ := stored
    cases sized with
    | error f => exact ⟨rfl, same _ rfl⟩
    | ok u =>
      cases filtered with
      | error f => exact ⟨rfl, same _ rfl⟩
      | ok u => exact ⟨rfl, rfl⟩

theorem stored_storeFilter (home : Home d r.path place) :
    d.Differs (storeFilter d r).2 (BloomFilter.files place) ∧ ((storeFilter d r).1.isOk = true →
      ∀ f, r.filter = some f → (BloomFilter.contents (storeFilter d r).2 place).current = some f.encode) := by
  unfold storeFilter
  cases r.filter with
  | none => exact ⟨.refl d _ home.housed.plain, nofun⟩
  | some f =>
    obtain ⟨differs, done⟩ := BloomFilter.differs_store home.housed f
    refine ⟨differs, fun succeeds g same => ?_⟩
    cases same
    apply done
    dsimp only at succeeds
    cases result : (BloomFilter.store d r.path f).1 with
    | error e =>
      rw [result] at succeeds
      cases succeeds
    | ok u => rfl

theorem differs_flush (home : Home d r.path place) : d.Differs (Root.flush d r).2.2 (files place) := by
  cases touched : r.touched with
  | false =>
    rw [flush_untouched touched]
    exact .refl d _ home.plain
  | true =>
    rw [disk_flush touched]
    have sized := (Generation.differs_write home.leads home.checkpoint r.size).1
    have home' := home.differs sized
    have filtered := (stored_storeFilter home').1
    exact (sized.widen (by simp [files]) home.plain).trans
      (filtered.widen (fun p => List.mem_cons_of_mem _) home'.plain)

structure Stored (d : Disk σ) (place : Place) (r : Root) : Prop where
  size : checkpoint? d place = some (Generation.render r.size)
  filter : ∀ f, r.filter = some f → (BloomFilter.contents d place).current = some f.encode

theorem Stored.congr {d' : Disk σ} (stored : Stored d place r) (same : ∀ p ∈ files place, d'.get? p = d.get? p) :
    Stored d' place r where
  size := (checkpoint?_congr (same _ List.mem_cons_self)).trans stored.size
  filter f ready := by
    rw [BloomFilter.contents_congr fun p member => same p (List.mem_cons_of_mem _ member)]
    exact stored.filter f ready

theorem stored_flush (home : Home d r.path place) (touched : r.touched = true) (succeeds : r.fails d = false) :
    Stored (Root.flush d r).2.2 place r := by
  simp only [fails, touched, Bool.true_and, Bool.not_eq_false', Bool.and_eq_true] at succeeds
  obtain ⟨written, filtered⟩ := succeeds
  obtain ⟨differs, sized⟩ := Generation.differs_write home.leads home.checkpoint r.size
  obtain ⟨differs', done⟩ := stored_storeFilter (home.differs differs)
  rw [disk_flush touched]
  refine ⟨?_, done filtered⟩
  have result : (Generation.write d r.path r.size).1 = .ok () := by
    cases outcome : (Generation.write d r.path r.size).1 with
    | error f =>
      rw [outcome] at written
      cases written
    | ok u => rfl
  rw [checkpoint?_congr (differs'.same _ (checkpoint_not_mem place place)), checkpoint?, sized result]
  rfl

theorem flush_lost (lost : d.Lost r.path) : (Root.flush d r).2.2 = d ∧ r.fails d = r.touched := by
  obtain ⟨e, sized⟩ := Generation.write_lost lost r.size
  have filtered : (storeFilter d r).2 = d := by
    unfold storeFilter
    cases r.filter with
    | none => rfl
    | some g =>
      obtain ⟨e, same⟩ := BloomFilter.store_lost lost g
      exact congrArg Prod.snd same
  constructor
  · cases touched : r.touched with
    | false => rw [flush_untouched touched]
    | true => rw [disk_flush touched, sized, filtered]
  · simp only [fails, sized]
    exact Bool.and_true _

theorem ahead_flush (home : Home d r.path place) : ∃ n, (Root.flush d r).2.2.ahead = d.ahead.drop n := by
  cases touched : r.touched with
  | false =>
    rw [flush_untouched touched]
    exact ⟨0, rfl⟩
  | true =>
    have differs := (Generation.differs_write home.leads home.checkpoint r.size).1
    obtain ⟨used, -, ahead⟩ := ahead_storeFilter (r := r) (home.differs differs)
    rw [disk_flush touched, ahead, Generation.ahead_write home.leads home.checkpoint, List.drop_drop]
    exact ⟨_, rfl⟩

theorem fails_smooth (home : Home d r.path place) (smooth : d.Smooth) : r.fails d = false := by
  have sized := Generation.write_smooth home.leads home.checkpoint smooth r.size
  have smooth' := smooth.drop (Generation.ahead_write home.leads home.checkpoint r.size)
  have home' := home.differs (Generation.differs_write home.leads home.checkpoint r.size).1
  have filtered : (storeFilter (Generation.write d r.path r.size).2 r).1 = .ok () := by
    unfold storeFilter
    cases r.filter with
    | none => rfl
    | some f => exact BloomFilter.store_smooth home'.housed smooth' f
  simp only [fails, sized, filtered]
  exact Bool.and_false _

end Root

namespace Depot

open Disk Root

variable {σ : Type} {d : Disk σ} {place : Path → Place} {r r' : Root} {rs : List Root}

/-- The three files of a root, where they are there, are plain files in its place, or its directory is out of
reach. -/
def Within (place : Path → Place) (d : Disk σ) (r : Root) : Prop :=
  Home d r.path (place r.path) ∨ d.Lost r.path

theorem Within.flush (other : Within place d r') (within_ : Within place d r) :
    Within place (Root.flush d r).2.2 r' := by
  rcases within_ with home | lost
  · have differs := differs_flush home
    exact other.imp (fun home' => home'.differs differs) differs.lost
  · rwa [(flush_lost lost).1]

theorem Within.spares (within_ : Within place d r) {p : Place}
    (outside : r.touched = true → p ∉ files (place r.path)) : (Root.flush d r).2.2.get? p = d.get? p := by
  cases touched : r.touched with
  | false => rw [flush_untouched touched]
  | true =>
    rcases within_ with home | lost
    · exact (differs_flush home).same p (outside touched)
    · rw [(flush_lost lost).1]

def verdicts (d : Disk σ) : List Root → List Bool
  | [] => []
  | r :: rs => r.fails d :: verdicts (Root.flush d r).2.2 rs

def failing (d : Disk σ) (rs : List Root) : List Root := ((rs.zip (verdicts d rs)).filter (·.2)).map (·.1)

theorem failing_cons (d : Disk σ) (r : Root) (rs : List Root) :
    failing d (r :: rs) =
      if r.fails d then r :: failing (Root.flush d r).2.2 rs else failing (Root.flush d r).2.2 rs := by
  cases fails : r.fails d <;> simp [failing, verdicts, fails]

theorem flushAll_eq (d : Disk σ) (rs : List Root) :
    (flushAll d rs).1 = (failing d rs).map Root.path ∧
      (flushAll d rs).2.1 = List.zipWith (fun r v => { r with touched := v }) rs (verdicts d rs) := by
  induction rs generalizing d with
  | nil => exact ⟨rfl, rfl⟩
  | cons r rs ih =>
    obtain ⟨reported, roots⟩ := ih (Root.flush d r).2.2
    obtain ⟨result, memory⟩ := memory_flush d r
    rw [flushAll_cons, failing_cons]
    refine ⟨?_, congrArg₂ List.cons memory roots⟩
    dsimp only
    cases outcome : (Root.flush d r).1 with
    | ok u =>
      rw [outcome] at result
      have succeeds : r.fails d = false := (Bool.not_eq_true' _).mp result.symm
      rw [if_neg (Bool.eq_false_iff.mp succeeds)]
      exact reported
    | error f =>
      rw [outcome] at result
      have fails : r.fails d = true := (Bool.not_eq_false' _).mp result.symm
      rw [if_pos fails, memory, List.map_cons, reported]

theorem flushAll_elsewhere (within_ : ∀ r ∈ rs, Within place d r) {p : Place}
    (outside : ∀ r ∈ rs, r.touched = true → p ∉ files (place r.path)) : (flushAll d rs).2.2.get? p = d.get? p := by
  induction rs generalizing d with
  | nil => rfl
  | cons r rs ih =>
    obtain ⟨here, later⟩ := List.forall_mem_cons.mp within_
    obtain ⟨out, outs⟩ := List.forall_mem_cons.mp outside
    have rest := ih (fun r' member => (later r' member).flush here) outs
    rw [flushAll_cons]
    exact rest.trans (here.spares out)

theorem flushAll_stored (within_ : ∀ r ∈ rs, Within place d r) (apart : (rs.map fun r => place r.path).Nodup)
    {k : Nat} (root : rs[k]? = some r) (touched : r.touched = true) (succeeds : (verdicts d rs)[k]? = some false) :
    Stored (flushAll d rs).2.2 (place r.path) r := by
  induction rs generalizing d k with
  | nil => cases root
  | cons r₀ rs ih =>
    obtain ⟨here, later⟩ := List.forall_mem_cons.mp within_
    obtain ⟨new, apart⟩ := List.nodup_cons.mp apart
    have within' : ∀ r' ∈ rs, Within place (Root.flush d r₀).2.2 r' := fun r' member => (later r' member).flush here
    rw [flushAll_cons]
    cases k with
    | succ k => exact ih within' apart root succeeds
    | zero =>
      cases root
      have kept : r.fails d = false := Option.some.inj succeeds
      rcases here with home | lost
      · refine (stored_flush home touched kept).congr fun p own => ?_
        refine flushAll_elsewhere within' fun r' member _ other => new ?_
        exact List.mem_map.mpr ⟨r', member, (files_apart own other).symm⟩
      · rw [(flush_lost lost).2, touched] at kept
        cases kept

theorem failing_smooth (homes : ∀ r ∈ rs, Home d r.path (place r.path)) (smooth : d.Smooth) : failing d rs = [] := by
  induction rs generalizing d with
  | nil => rfl
  | cons r rs ih =>
    obtain ⟨home, others⟩ := List.forall_mem_cons.mp homes
    obtain ⟨n, ahead⟩ := ahead_flush home
    have differs := differs_flush home
    rw [failing_cons, if_neg (Bool.eq_false_iff.mp (fails_smooth home smooth))]
    exact ih (fun r' member => (others r' member).differs differs) (smooth.drop ahead)

/-- What a flush of roots may come to: in memory only whether they are touched changes, and a root is touched
behind the flush if it failed; those that did not fail are stored, the rest of the disk is as it was, and the
report counts and lists the failing ones in their order. -/
structure Isolated (place : Path → Place) (d : Disk σ) (rs : List Root)
    (after : Except Unsaved Unit × Depot × Disk σ) : Prop where
  memory : after.2.1.roots = List.zipWith (fun r v => { r with touched := v }) rs (verdicts d rs)
  stored : ∀ (k : Nat) r, rs[k]? = some r → r.touched = true → (verdicts d rs)[k]? = some false →
    Stored after.2.2 (place r.path) r
  untouched : ∀ r ∈ rs, r.touched = false → ∀ p ∈ files (place r.path), after.2.2.get? p = d.get? p
  elsewhere : ∀ p, (∀ r ∈ rs, p ∉ files (place r.path)) → after.2.2.get? p = d.get? p
  result : after.1 = if failing d rs = [] then .ok () else .error ⟨(failing d rs).map Root.path⟩
  message : ∀ e, after.1 = .error e → e.message =
    s!"failed to persist {(failing d rs).length} depot root(s): " ++
      ", ".intercalate ((failing d rs).map fun r => r.path.shown)

theorem message_paths (rs : List Root) : (Unsaved.mk (rs.map Root.path)).message =
    s!"failed to persist {rs.length} depot root(s): " ++ ", ".intercalate (rs.map fun r => r.path.shown) := by
  unfold Unsaved.message
  dsimp only
  rw [List.length_map, List.map_map, Function.comp_def]

theorem isolated_flush (within_ : ∀ r ∈ rs, Within place d r) (apart : (rs.map fun r => place r.path).Nodup) :
    Isolated place d rs (Depot.flush d ⟨rs⟩) := by
  obtain ⟨reported, roots⟩ := flushAll_eq d rs
  have result : (Depot.flush d ⟨rs⟩).1 =
      if failing d rs = [] then .ok () else .error ⟨(failing d rs).map Root.path⟩ := by
    unfold Depot.flush
    dsimp only
    rw [reported]
    cases failing d rs <;> rfl
  refine ⟨roots, fun k r root touched succeeds => flushAll_stored within_ apart root touched succeeds,
    fun r member clean p own => ?_, fun p outside => ?_, result, fun e refused => ?_⟩
  · refine flushAll_elsewhere within_ fun r' member' touched other => ?_
    obtain rfl := List.inj_on_of_nodup_map apart member member' (files_apart own other)
    rw [clean] at touched
    cases touched
  · exact flushAll_elsewhere within_ fun r' member _ => outside r' member
  · rw [result] at refused
    split at refused
    · cases refused
    · rw [← Except.error.inj refused]
      exact message_paths _

variable {d₀ : Disk σ} {cs : List RootConfig} {depot : Depot}

theorem KeptAll.paths {located : RootConfig → Place} (kept : KeptAll d located cs rs) :
    rs.map Root.path = cs.map fun c => .ofString c.path := by
  induction kept with
  | nil => rfl
  | cons one _ ih => rw [List.map_cons, List.map_cons, ih, one.path]

/-- Whatever was done to a depot that was opened, and however its writes went: a flush keeps its roots apart, on
the disk as it is and on any other on which each root is in its place or out of reach. It succeeds if all roots
are in their places and nothing fails; and where it succeeds, every root is loaded again as it is in memory. -/
theorem flush_isolates
    (loaded : load d₀ cs = (.ok depot, d)) (homes : Homes d (fun c => place (.ofString c.path)) cs)
    (apart : (cs.map fun c => place (.ofString c.path)).Nodup) (ops : List Op) :
    let s := run (depot, d) ops
    let after := Depot.flush s.2 s.1
    (∀ r ∈ s.1.roots, Home s.2 r.path (place r.path)) ∧
      (∀ e : Disk σ, (∀ r ∈ s.1.roots, Within place e r) → Isolated place e s.1.roots (Depot.flush e s.1)) ∧
      (∀ e : Disk σ, (∀ r ∈ s.1.roots, Home e r.path (place r.path)) → e.Smooth →
        (Depot.flush e s.1).1 = .ok ()) ∧
      (after.1 = .ok () → ∀ (k : Nat) c r, cs[k]? = some c → after.2.1.roots[k]? = some r →
        r.touched = false ∧ Root.load after.2.2 c = (.ok r, after.2.2)) := by
  intro s after
  have faithful : Faithful _ cs s := (faithful_of_load loaded homes).run apart ops
  have paths := faithful.kept.paths
  have distinct : (s.1.roots.map fun r => place r.path).Nodup := by
    have same := congrArg (List.map place) paths
    rw [List.map_map, List.map_map] at same
    exact same ▸ apart
  have isolated (e : Disk σ) (within_ : ∀ r ∈ s.1.roots, Within place e r) :
      Isolated place e s.1.roots (Depot.flush e s.1) := isolated_flush within_ distinct
  refine ⟨fun r member => ?_, isolated, fun e inside smooth => ?_, fun done k c r config root => ?_⟩
  · have among : r.path ∈ cs.map fun c => Path.ofString c.path := paths ▸ List.mem_map_of_mem member
    obtain ⟨c, config, same⟩ := List.mem_map.mp among
    exact same ▸ faithful.homes c config
  · rw [(isolated e fun r member => .inl (inside r member)).result, failing_smooth inside smooth]
    rfl
  · obtain ⟨flushed, clean⟩ := faithful.flush apart
    have untouched := clean done r (List.mem_of_getElem? root)
    exact ⟨untouched, (flushed.kept.get config root).load (flushed.homes c (List.mem_of_getElem? config)) untouched⟩

def replaced : Disk Unit where
  entries := [(["a"], .file []), (["b"], .dir), (["b", "romdepot.generation"], .file (Bytes.ofString "0"))]
  ahead := []
  here := []

theorem flush_isolates_two_roots :
    let start : Depot × Disk Unit :=
      (⟨[⟨.ofString "a", 1000, 0, false, none⟩, ⟨.ofString "b", 1000, 0, false, none⟩]⟩, (load unsteady twoRoots).2)
    let ops := [Op.adjust 0 15 none, .adjust 1 7 none]
    let s := run start ops
    let after := Depot.flush replaced s.1
    let tried := run start (ops ++ [.flush])
    let again := Depot.flush tried.2 tried.1
    after.1 = .error ⟨[.ofString "a"]⟩ ∧ after.2.1.roots.map Root.touched = [true, false] ∧
      checkpoint? after.2.2 ["b"] = some (Generation.render 7) ∧
      tried.1.roots.map Root.touched = [true, false] ∧ again.1 = .ok () ∧
      Root.load again.2.2 ⟨"a", 1000⟩ = (.ok ⟨.ofString "a", 1000, 15, false, none⟩, again.2.2) := by
  intro start ops s after tried again
  let place (p : Path) : Place := p.names
  have loaded : load unsteady twoRoots = (.ok ⟨[⟨.ofString "a", 1000, 0, false, none⟩,
    ⟨.ofString "b", 1000, 0, false, none⟩]⟩, (load unsteady twoRoots).2) := rfl
  have homes : Homes (load unsteady twoRoots).2 (fun c => place (.ofString c.path)) twoRoots :=
    List.forall_mem_cons.mpr ⟨⟨by decide +kernel, by decide +kernel⟩,
      List.forall_mem_singleton.mpr ⟨by decide +kernel, by decide +kernel⟩⟩
  have apart : (twoRoots.map fun c => place (.ofString c.path)).Nodup := by decide +kernel
  obtain ⟨-, once, -, -⟩ := flush_isolates loaded homes apart ops
  obtain ⟨inside, -, smooth, reopened⟩ := flush_isolates loaded homes apart (ops ++ [.flush])
  have isolated := once replaced (List.forall_mem_cons.mpr ⟨.inr (by decide +kernel),
    List.forall_mem_singleton.mpr (.inl ⟨by decide +kernel, by decide +kernel⟩)⟩)
  have done : again.1 = .ok () := smooth tried.2 inside (by unfold Smooth; decide +kernel)
  refine ⟨isolated.result.trans (by decide +kernel), ?_, ?_, by decide +kernel, done, ?_⟩
  · exact (congrArg (List.map Root.touched) isolated.memory).trans (by decide +kernel)
  · exact (isolated.stored 1 ⟨.ofString "b", 1000, 7, true, none⟩ (by decide +kernel) rfl (by decide +kernel)).size
  · have stays := reopened done 0 ⟨"a", 1000⟩ ⟨.ofString "a", 1000, 15, false, none⟩ rfl (by decide +kernel)
    -- without this, the two sides are compared by running them
    unfold again tried start
    exact stays.2

def saved? (d : Disk σ) (cs : List RootConfig) (ops : List Op) : Option (Bool × Bool) :=
  match load d cs with
  | (.error _, _) => none
  | (.ok depot, d) =>
    let s := run (depot, d) ops
    let (flushed, depot, d) := Depot.flush s.2 s.1
    let sized (r : Root) : Bool :=
      !r.touched && (d.read (Generation.file r.path)).toOption == some (Generation.render r.size)
    some (flushed.isOk, depot.roots.all sized)

def linkedCheckpoint : Disk Unit where
  entries := [(["r"], .dir), (["r", "romdepot.generation"], .link "bloomfilter"),
    (["r", "bloomfilter"], .file (Bytes.ofString "12"))]
  ahead := []
  here := []

def crossedFirst : List RootConfig := [⟨"a/bloomfilter/../../b", 1000⟩, ⟨"a", 1000⟩]

/-- Links and directories in the place of files: each flush succeeds, and leaves a root untouched whose checkpoint
does not have its size, though the directories of the roots are different and not in one another. -/
theorem not_saved :
    saved? linkedCheckpoint [⟨"r", 1000⟩] [.populate 0 []] = some (true, false) ∧
      (load (.empty : Disk Unit) crossedFirst).2.Leads (.ofString "a/bloomfilter/../../b") ["b"] ∧
      (load (.empty : Disk Unit) crossedFirst).2.Leads (.ofString "a") ["a"] ∧
      saved? (.empty : Disk Unit) crossedFirst [.adjust 0 5 none, .populate 1 []] = some (true, false) := by
  decide +kernel

end Depot
end RomLedger
