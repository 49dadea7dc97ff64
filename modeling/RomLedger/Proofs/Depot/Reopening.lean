import RomLedger.Depot.Basic
import RomLedger.Proofs.Depot.Root

/-!
A depot that is opened again. Whatever was done to a depot and however its writes went, each root that is not
touched is loaded from its files just as it is in memory; after a flush without failures that is the whole
depot. The roots lie in different directories, and the files of a root, where they are there, are plain files.
-/
namespace RomLedger.Depot

open Disk Root

variable {σ : Type} {d d' d₀ d₁ : Disk σ} {place : RootConfig → Place} {c : RootConfig}
  {cs : List RootConfig} {r : Root} {rs : List Root} {depot : Depot}

def Homes (d : Disk σ) (place : RootConfig → Place) (cs : List RootConfig) : Prop :=
  ∀ c ∈ cs, Home d (.ofString c.path) (place c)

inductive KeptAll (d : Disk σ) (place : RootConfig → Place) : List RootConfig → List Root → Prop
  | nil : KeptAll d place [] []
  | cons {c : RootConfig} {r : Root} {cs : List RootConfig} {rs : List Root} :
    Kept d (place c) c r → KeptAll d place cs rs → KeptAll d place (c :: cs) (r :: rs)

theorem KeptAll.get (kept : KeptAll d place cs rs) {k : Nat} (config : cs[k]? = some c)
    (root : rs[k]? = some r) : Kept d (place c) c r := by
  induction kept generalizing k with
  | nil => cases config
  | cons one _ ih =>
    cases k with
    | zero =>
      cases config
      cases root
      exact one
    | succ k => exact ih config root

theorem KeptAll.length_eq (kept : KeptAll d place cs rs) : rs.length = cs.length := by
  induction kept with
  | nil => rfl
  | cons _ _ ih => exact congrArg (· + 1) ih

theorem KeptAll.congr (kept : KeptAll d place cs rs)
    (same : ∀ c ∈ cs, ∀ p ∈ files (place c), d'.get? p = d.get? p) : KeptAll d' place cs rs := by
  induction kept with
  | nil => exact .nil
  | @cons c _ _ _ one _ ih =>
    exact .cons (one.congr (same c List.mem_cons_self)) (ih fun c' member =>
      same c' (List.mem_cons_of_mem c member))

theorem KeptAll.modify {f : Root → Root} (kept : KeptAll d place cs rs)
    (one : ∀ c r, Kept d (place c) c r → Kept d (place c) c (f r)) (i : Nat) :
    KeptAll d place cs (rs.modify i f) := by
  induction kept generalizing i with
  | nil =>
    rw [List.modify_nil]
    exact .nil
  | cons first rest ih =>
    cases i with
    | zero => exact .cons (one _ _ first) rest
    | succ i => exact .cons first (ih i)

theorem kept_loadAll (loaded : loadAll d cs = (.ok rs, d₁)) (homes : Homes d₁ place cs) :
    d.Grows d₁ (cs.map fun c => place c ++ [Generation.fileName]) ∧ KeptAll d₁ place cs rs ∧
      ∀ r ∈ rs, r.touched = false := by
  induction cs generalizing d rs with
  | nil =>
    cases loaded
    exact ⟨.refl _, .nil, nofun⟩
  | cons c cs ih =>
    unfold loadAll at loaded
    split at loaded
    · cases loaded
    · rename_i r e first
      cases rest : loadAll e cs with
      | mk result d₂ =>
        rw [rest] at loaded
        cases result with
        | error f => cases loaded
        | ok others =>
          cases loaded
          obtain ⟨later, kept, clean⟩ := ih rest fun c' member => homes c' (List.mem_cons_of_mem c member)
          have home := homes c List.mem_cons_self
          obtain ⟨grows, kept₁, clean₁⟩ := kept_of_load first later home
          have outside : ∀ p ∈ cs.map fun c => place c ++ [Generation.fileName],
              p ∉ BloomFilter.files (place c) := by
            intro p member
            obtain ⟨c', -, rfl⟩ := List.mem_map.mp member
            exact checkpoint_not_mem (place c') (place c)
          exact ⟨grows.trans later, .cons (kept₁.grows clean₁ later outside home) kept,
            List.forall_mem_cons.mpr ⟨clean₁, clean⟩⟩

theorem KeptAll.loadAll (kept : KeptAll d place cs rs) (homes : Homes d place cs)
    (clean : ∀ r ∈ rs, r.touched = false) : Depot.loadAll d cs = (.ok rs, d) := by
  induction kept with
  | nil => rfl
  | @cons c r _ _ one _ ih =>
    have first := one.load (homes c List.mem_cons_self) (clean r List.mem_cons_self)
    have rest := ih (fun c' member => homes c' (List.mem_cons_of_mem c member)) fun r' member =>
      clean r' (List.mem_cons_of_mem r member)
    simp only [Depot.loadAll, first, rest]
    rfl

theorem flushAll_cons (d : Disk σ) (r : Root) (rs : List Root) :
    flushAll d (r :: rs) =
      let first := Root.flush d r
      let rest := flushAll first.2.2 rs
      (match first.1 with
        | .ok () => rest.1
        | .error _ => first.2.1.path :: rest.1,
       first.2.1 :: rest.2.1, rest.2.2) := rfl

def allFiles (place : RootConfig → Place) (cs : List RootConfig) : List Place :=
  cs.flatMap fun c => files (place c)

theorem Homes.plain (homes : Homes d place cs) : ∀ p ∈ allFiles place cs, d.Plain p := by
  intro p member
  obtain ⟨c, among, file⟩ := List.mem_flatMap.mp member
  exact (homes c among).plain p file

theorem Homes.differs {places : List Place} (homes : Homes d place cs) (differs : d.Differs d' places) :
    Homes d' place cs := fun c member => (homes c member).differs differs

theorem not_mem_files (new : place c ∉ cs.map place) {p : Place} (member : p ∈ allFiles place cs) :
    p ∉ files (place c) := by
  obtain ⟨c', among, file⟩ := List.mem_flatMap.mp member
  intro own
  exact new (files_apart own file ▸ List.mem_map_of_mem among)

theorem flush_spares (kept : Kept d (place c) c r) (home : Home d (.ofString c.path) (place c))
    (new : place c ∉ cs.map place) :
    ∀ c' ∈ cs, ∀ p ∈ files (place c'), (Root.flush d r).2.2.get? p = d.get? p := by
  intro c' member p file
  exact (kept.flush home).1.same p (not_mem_files new (List.mem_flatMap.mpr ⟨c', member, file⟩))

theorem kept_flushAll (kept : KeptAll d place cs rs) (homes : Homes d place cs)
    (apart : (cs.map place).Nodup) :
    d.Differs (flushAll d rs).2.2 (allFiles place cs) ∧
      KeptAll (flushAll d rs).2.2 place cs (flushAll d rs).2.1 ∧
      ((flushAll d rs).1 = [] → ∀ r ∈ (flushAll d rs).2.1, r.touched = false) := by
  induction cs generalizing d rs with
  | nil =>
    cases kept
    exact ⟨.refl d _ homes.plain, .nil, nofun⟩
  | cons c cs ih =>
    cases kept with
    | @cons _ r _ rs one kept =>
      obtain ⟨new, apart⟩ := List.nodup_cons.mp apart
      have others : Homes d place cs := fun c' member => homes c' (List.mem_cons_of_mem c member)
      obtain ⟨differs, kept₁, clean₁⟩ := one.flush (homes c List.mem_cons_self)
      have unchanged := kept.congr (flush_spares one (homes c List.mem_cons_self) new)
      obtain ⟨differs₂, kept₂, clean₂⟩ := ih unchanged (others.differs differs) apart
      rw [flushAll_cons]
      dsimp only
      refine ⟨?_, .cons (kept₁.congr fun p own => differs₂.same p ?_) kept₂, ?_⟩
      · have first := differs.widen (fun p => List.mem_append_left _) homes.plain
        exact first.trans (differs₂.widen (fun p => List.mem_append_right _) (homes.differs differs).plain)
      · intro member
        exact not_mem_files new member own
      · intro none
        split at none
        · rename_i done
          exact List.forall_mem_cons.mpr ⟨clean₁ done, clean₂ none⟩
        · cases none

theorem flushAll_spares (kept : KeptAll d place cs rs) (homes : Homes d place cs) (apart : (cs.map place).Nodup)
    (new : place c ∉ cs.map place) : ∀ p ∈ files (place c), (flushAll d rs).2.2.get? p = d.get? p := by
  intro p own
  refine (kept_flushAll kept homes apart).1.same p ?_
  intro member
  exact not_mem_files new member own

/-- What can be done to a depot. -/
inductive Op where
  | adjust (i : Nat) (delta : Int) (id : Option Bytes)
  | populate (i : Nat) (ids : List Bytes)
  | flush

/-- A depot and the disk below it. A root that does not exist cannot be changed. -/
def act (s : Depot × Disk σ) : Op → Depot × Disk σ
  | .adjust i delta id => ((s.1.adjust i delta id).toOption.getD s.1, s.2)
  | .populate i ids => ((s.1.populate i ids).toOption.getD s.1, s.2)
  | .flush => (Depot.flush s.2 s.1).2

def run (s : Depot × Disk σ) (ops : List Op) : Depot × Disk σ := ops.foldl act s

structure Faithful (place : RootConfig → Place) (cs : List RootConfig) (s : Depot × Disk σ) : Prop where
  homes : Homes s.2 place cs
  kept : KeptAll s.2 place cs s.1.roots

variable {s : Depot × Disk σ}

theorem Faithful.change (faithful : Faithful place cs s) {f : Root → Root}
    (one : ∀ c r, Kept s.2 (place c) c r → Kept s.2 (place c) c (f r)) (i : Nat) :
    Faithful place cs ((s.1.change i f).toOption.getD s.1, s.2) := by
  unfold Depot.change
  split
  · exact ⟨faithful.homes, faithful.kept.modify one i⟩
  · exact faithful

theorem Faithful.flush (faithful : Faithful place cs s) (apart : (cs.map place).Nodup) :
    Faithful place cs (Depot.flush s.2 s.1).2 ∧
      ((Depot.flush s.2 s.1).1 = .ok () → ∀ r ∈ (Depot.flush s.2 s.1).2.1.roots, r.touched = false) := by
  obtain ⟨differs, kept, clean⟩ := kept_flushAll faithful.kept faithful.homes apart
  refine ⟨⟨faithful.homes.differs differs, kept⟩, fun done => clean ?_⟩
  unfold Depot.flush at done
  dsimp only at done
  split at done
  · rename_i none
    exact List.isEmpty_iff.mp none
  · cases done

theorem Faithful.act (faithful : Faithful place cs s) (apart : (cs.map place).Nodup) (op : Op) :
    Faithful place cs (act s op) := by
  cases op with
  | adjust i delta id => exact faithful.change (fun _ _ kept => kept.adjust delta id) i
  | populate i ids => exact faithful.change (fun _ _ kept => kept.populate ids) i
  | flush => exact (faithful.flush apart).1

theorem Faithful.run (faithful : Faithful place cs s) (apart : (cs.map place).Nodup) (ops : List Op) :
    Faithful place cs (run s ops) := by
  induction ops generalizing s with
  | nil => exact faithful
  | cons op rest ih => exact ih (faithful.act apart op)

theorem faithful_of_load (loaded : load d₀ cs = (.ok depot, d)) (homes : Homes d place cs) :
    Faithful place cs (depot, d) := by
  unfold load at loaded
  cases all : loadAll d₀ cs with
  | mk result d₁ =>
    rw [all] at loaded
    cases result with
    | error f => cases loaded
    | ok rs =>
      cases loaded
      exact ⟨homes, (kept_loadAll all homes).2.1⟩

/-- Whatever is done to a depot that was opened, and whatever becomes of its writes: each root that is not
touched is loaded again as it is in memory, and after a flush without failures so is the whole depot. -/
theorem reopened (loaded : load d₀ cs = (.ok depot, d)) (homes : Homes d place cs)
    (apart : (cs.map place).Nodup) (ops : List Op) :
    let s := run (depot, d) ops
    s.1.roots.length = cs.length ∧
    (∀ (k : Nat) c r, cs[k]? = some c → s.1.roots[k]? = some r → r.touched = false →
      Root.load s.2 c = (.ok r, s.2)) ∧
    ((Depot.flush s.2 s.1).1 = .ok () → ∃ again,
      Depot.flush s.2 s.1 = (.ok (), again) ∧ (∀ r ∈ again.1.roots, r.touched = false) ∧
        load again.2 cs = (.ok again.1, again.2)) := by
  have faithful := (faithful_of_load loaded homes).run apart ops
  intro s
  refine ⟨faithful.kept.length_eq, fun k c r config root clean => ?_, fun done => ?_⟩
  · exact (faithful.kept.get config root).load (faithful.homes c (List.mem_of_getElem? config)) clean
  · obtain ⟨flushed, clean⟩ := faithful.flush apart
    refine ⟨(Depot.flush s.2 s.1).2, Prod.ext done rfl, clean done, ?_⟩
    have all := flushed.kept.loadAll flushed.homes (clean done)
    unfold load
    rw [all]
    rfl

def twoRoots : List RootConfig := [⟨"a", 1000⟩, ⟨"b", 1000⟩]

def unsteady : Disk Unit := ⟨[], [.done, .done, .failed (.beginning 1)], []⟩

theorem reopened_two_roots :
    let s := run (⟨[⟨.ofString "a", 1000, 0, false, none⟩, ⟨.ofString "b", 1000, 0, false, none⟩]⟩,
      (load unsteady twoRoots).2) [.adjust 0 15 none, .adjust 1 7 none, .flush]
    Root.load s.2 ⟨"b", 1000⟩ = (.ok ⟨.ofString "b", 1000, 7, false, none⟩, s.2) ∧
      ∃ again, Depot.flush s.2 s.1 = (.ok (), again) ∧ load again.2 twoRoots = (.ok again.1, again.2) := by
  have loaded : load unsteady twoRoots = (.ok ⟨[⟨.ofString "a", 1000, 0, false, none⟩,
    ⟨.ofString "b", 1000, 0, false, none⟩]⟩, (load unsteady twoRoots).2) := rfl
  have homes : Homes (load unsteady twoRoots).2 (fun c => [c.path]) twoRoots :=
    List.forall_mem_cons.mpr ⟨⟨by decide +kernel, by decide +kernel⟩,
      List.forall_mem_singleton.mpr ⟨by decide +kernel, by decide +kernel⟩⟩
  obtain ⟨-, one, all⟩ := reopened loaded homes (by decide) [.adjust 0 15 none, .adjust 1 7 none, .flush]
  obtain ⟨again, flushed, -, same⟩ := all rfl
  exact ⟨one 1 _ _ rfl rfl rfl, again, flushed, same⟩

def linkedRoot : Disk Unit where
  entries := [(["r"], .dir), (["r", "romdepot.generation"], .link "bloomfilter"),
    (["r", "bloomfilter"], .file (Bytes.ofString "12")),
    (["r", "backup.bloomfilter"], .file (BloomFilter.ofSizes 128 1).encode)]
  ahead := []
  here := []

def crossed : List RootConfig := [⟨"a", 1000⟩, ⟨"a/bloomfilter/../../b", 1000⟩]

def again? (d : Disk σ) (cs : List RootConfig) (ops : List Op) : Option (Bool × Bool) :=
  match load d cs with
  | (.error _, _) => none
  | (.ok depot, d) =>
    let (depot, d) := run (depot, d) ops
    let (flushed, _, d) := Depot.flush d depot
    some (flushed.toOption.isSome, (load d cs).1.toOption.isSome)

/-- Neither is opened again after a flush without failures, though the directories are different. -/
theorem not_reopened :
    again? linkedRoot [⟨"r", 1000⟩] [.adjust 0 0 none] = some (true, false) ∧
      (load (.empty : Disk Unit) crossed).2.Leads (.ofString "a") ["a"] ∧
      (load (.empty : Disk Unit) crossed).2.Leads (.ofString "a/bloomfilter/../../b") ["b"] ∧
      again? (.empty : Disk Unit) crossed [.populate 0 []] = some (true, false) := by
  decide +kernel

end RomLedger.Depot
