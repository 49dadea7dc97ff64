import RomLedger.Proofs.Depot.Isolation
import RomLedger.Proofs.Depot.Membership

/-!
Sizes below zero. Adjusting a root is what keeps its size from falling below zero; opening takes whatever
number the checkpoint holds, and a flush writes whatever size there is. So a root is negative exactly as long
as it was opened so and has not been adjusted since, and a depot that is opened without such a root never has
one, nor ever stores one.
-/
namespace RomLedger

namespace Generation

open Disk

def Floored (b : Option Bytes) : Prop := ∀ n, number? b = some n → 0 ≤ n

theorem cut?_nonneg {n m : Int} {k : Nat} (floored : 0 ≤ n) (cut : Numeral.cut? n k = some m) : 0 ≤ m := by
  unfold Numeral.cut? at cut
  split at cut
  · cases cut
  · rw [← Option.some.inj cut]
    exact Int.tdiv_nonneg floored (Int.pow_nonneg (by decide))

theorem Floored.landed {old : Option Bytes} {size : Int} (before : Floored old) (holds : Holds size)
    (floored : 0 ≤ size) (o : Outcome) : Floored (Outcome.landed old (render size) o) := by
  rcases o with _ | _ | _ | n
  · intro m read
    exact Option.some.inj ((number?_render holds).symm.trans read) ▸ floored
  · exact before
  · exact nofun
  · intro m read
    exact cut?_nonneg floored ((number?_take holds n).symm.trans read)

end Generation

namespace Root

open Disk

variable {σ : Type} {d : Disk σ} {place : Place} {c : RootConfig} {r : Root}

theorem accounted_nonneg (size delta : Int) : 0 ≤ accounted size delta := Int.le_max_left ..

theorem size_flush (d : Disk σ) (r : Root) : (Root.flush d r).2.1.size = r.size := by
  rw [(memory_flush d r).2]

theorem checkpoint_load (home : Home d (.ofString c.path) place) :
    checkpoint? (Root.load d c).2 place = checkpoint? d place ∨
      checkpoint? (Root.load d c).2 place =
        Outcome.landed (checkpoint? d place) (Generation.render 0) d.outcome.1 := by
  have read : (Root.load d c).2 = (Generation.read d (.ofString c.path)).2 := by
    simp only [Root.load, home.leads.makeDirectories]
    rcases Generation.read d (.ofString c.path) with ⟨_ | size, e⟩ <;> rfl
  rw [read]
  cases present : d.fileExists (Generation.file (.ofString c.path)) with
  | true => exact .inl (by rw [(Generation.read_of_exists present).1])
  | false =>
    rw [Generation.read, if_neg (by simp [present])]
    exact .inr (landed_write home.leads home.checkpoint.dead Generation.proper_fileName _).2

end Root

namespace Depot

open Disk Root

variable {σ : Type} {d d₀ : Disk σ} {place : RootConfig → Place} {c : RootConfig} {cs : List RootConfig}
  {r : Root} {rs : List Root} {depot : Depot} {s : Option Depot × Disk σ}

def resize (sizes : List Int) : Op → List Int
  | .adjust i delta _ => sizes.modify i (accounted · delta)
  | _ => sizes

theorem sizes_flushAll (d : Disk σ) (rs : List Root) :
    (flushAll d rs).2.1.map (·.size) = rs.map (·.size) := by
  induction rs generalizing d with
  | nil => rfl
  | cons r rs ih =>
    rw [flushAll_cons, List.map_cons, List.map_cons]
    exact congrArg₂ List.cons (size_flush d r) (ih _)

theorem sizes_change {f : Root → Root} {g : Int → Int} (same : ∀ r, (f r).size = g r.size) (i : Nat) :
    ((depot.change i f).toOption.getD depot).roots.map (·.size) = (depot.roots.map (·.size)).modify i g := by
  rw [change_roots]
  apply List.ext_getElem?
  intro k
  simp only [List.getElem?_map, List.getElem?_modify]
  split <;> cases depot.roots[k]? <;> simp [same]

theorem sizes_act (s : Depot × Disk σ) (op : Op) :
    (act s op).1.roots.map (·.size) = resize (s.1.roots.map (·.size)) op := by
  cases op with
  | adjust i delta id => exact sizes_change (fun r => rfl) i
  | populate i ids =>
    have same (r : Root) : (r.populate ids).size = id r.size := rfl
    exact (sizes_change same i).trans (List.modify_id ..)
  | flush => exact sizes_flushAll s.2 s.1.roots

theorem sizes_run (s : Depot × Disk σ) (ops : List Op) :
    (run s ops).1.roots.map (·.size) = ops.foldl resize (s.1.roots.map (·.size)) := by
  induction ops generalizing s with
  | nil => rfl
  | cons op rest ih => rw [run, List.foldl_cons, ← run, ih, sizes_act, List.foldl_cons]

theorem resized_neg_iff {sizes : List Int} {ops : List Op} {k : Nat} {n₀ n : Int} (start : sizes[k]? = some n₀)
    (now : (ops.foldl resize sizes)[k]? = some n) :
    n < 0 ↔ n₀ < 0 ∧ ∀ delta id, .adjust k delta id ∉ ops := by
  induction ops generalizing sizes n₀ with
  | nil =>
    obtain rfl := Option.some.inj (start.symm.trans now)
    simp
  | cons op rest ih =>
    rw [List.foldl_cons] at now
    cases op with
    | adjust i delta id =>
      have next : (resize sizes (.adjust i delta id))[k]? = some (if i = k then accounted n₀ delta else n₀) := by
        rw [resize, List.getElem?_modify, start]
        rfl
      rw [ih next now]
      split
      · rename_i same
        have floored := accounted_nonneg n₀ delta
        constructor
        · rintro ⟨below, -⟩
          omega
        · rintro ⟨-, unadjusted⟩
          exact absurd List.mem_cons_self (same ▸ unadjusted delta id)
      · rename_i other
        simp [Ne.symm other]
    | populate i ids => simpa using ih start now
    | flush => simpa using ih start now

/-- Neither the open depot has a size below zero nor a checkpoint. -/
structure Above (place : RootConfig → Place) (cs : List RootConfig) (s : Option Depot × Disk σ) : Prop where
  memory : ∀ depot, s.1 = some depot → ∀ r ∈ depot.roots, 0 ≤ r.size
  stored : ∀ c ∈ cs, Generation.Floored (checkpoint? s.2 (place c))

theorem floored_flushAll (kept : KeptAll d place cs rs) (homes : Homes d place cs) (apart : (cs.map place).Nodup)
    (floored : ∀ r ∈ rs, 0 ≤ r.size) (before : ∀ c ∈ cs, Generation.Floored (checkpoint? d (place c))) :
    ∀ c ∈ cs, Generation.Floored (checkpoint? (flushAll d rs).2.2 (place c)) := by
  obtain ⟨spent, -, decided⟩ := checkpoints_flushAll kept homes apart
  intro c member
  obtain ⟨k, config⟩ := List.mem_iff_getElem?.mp member
  have inside : k < rs.length := by
    rw [kept.length_eq]
    exact (List.getElem?_eq_some_iff.mp config).1
  have root := List.getElem?_eq_getElem inside
  obtain ⟨-, same | ⟨-, landed⟩⟩ := decided k c _ config root
  · rw [same]
    exact before c member
  · rw [landed]
    exact (before c member).landed (kept.get config root).holds (floored _ (List.getElem_mem inside)) _

theorem disk_loadAll (d : Disk σ) (c : RootConfig) (cs : List RootConfig) :
    (loadAll d (c :: cs)).2 = (Root.load d c).2 ∨
      (loadAll d (c :: cs)).2 = (loadAll (Root.load d c).2 cs).2 := by
  rw [loadAll]
  rcases Root.load d c with ⟨_ | r, e⟩
  · exact .inl rfl
  · exact .inr rfl

theorem floored_loadAll (homes : Homes d place cs) (apart : (cs.map place).Nodup)
    (before : ∀ c ∈ cs, Generation.Floored (checkpoint? d (place c))) :
    ∀ c ∈ cs, Generation.Floored (checkpoint? (loadAll d cs).2 (place c)) := by
  induction cs generalizing d with
  | nil => exact nofun
  | cons c cs ih =>
    obtain ⟨new, apart⟩ := List.nodup_cons.mp apart
    obtain ⟨home, others⟩ := List.forall_mem_cons.mp homes
    obtain ⟨own, rest⟩ := List.forall_mem_cons.mp before
    have differs := differs_load home
    have homes' : Homes (Root.load d c).2 place cs := fun c' member => (others c' member).differs differs
    have first : Generation.Floored (checkpoint? (Root.load d c).2 (place c)) := by
      rcases checkpoint_load home with same | landed
      · exact same ▸ own
      · exact landed ▸ own.landed (by decide) (Int.le_refl 0) _
    -- a root has a directory of its own, so that the others find their checkpoints as they were
    have spared : ∀ c' ∈ cs, Generation.Floored (checkpoint? (Root.load d c).2 (place c')) := by
      intro c' member
      have elsewhere : place c' ++ [Generation.fileName] ∉ [place c ++ [Generation.fileName]] := by
        intro equal
        exact new (List.append_inj_left' (List.mem_singleton.mp equal) rfl ▸ List.mem_map_of_mem member)
      rw [checkpoint?_congr (differs.same _ elsewhere)]
      exact rest c' member
    have later := differs_loadAll homes'
    have kept : checkpoint? (loadAll (Root.load d c).2 cs).2 (place c) = checkpoint? (Root.load d c).2 (place c) := by
      refine checkpoint?_congr (later.same _ fun member => ?_)
      obtain ⟨c', among, equal⟩ := List.mem_map.mp member
      exact new (List.append_inj_left' equal rfl ▸ List.mem_map_of_mem among)
    have all := ih homes' apart spared
    rcases disk_loadAll d c cs with stopped | on
    · rw [stopped]
      exact List.forall_mem_cons.mpr ⟨first, spared⟩
    · rw [on]
      exact List.forall_mem_cons.mpr ⟨kept ▸ first, all⟩

theorem resize_nonneg {sizes : List Int} (floored : ∀ n ∈ sizes, 0 ≤ n) (op : Op) :
    ∀ n ∈ resize sizes op, 0 ≤ n := by
  cases op with
  | adjust i delta id =>
    intro n member
    obtain ⟨k, there⟩ := List.mem_iff_getElem?.mp member
    rw [resize, List.getElem?_modify] at there
    obtain ⟨m, before, rfl⟩ := Option.map_eq_some_iff.mp there
    split
    · exact accounted_nonneg m delta
    · exact floored m (List.mem_of_getElem? before)
  | populate i ids => exact floored
  | flush => exact floored

theorem size_of_load (loaded : load d₀ cs = (.ok depot, d)) (homes : Homes d place cs) {k : Nat}
    (config : cs[k]? = some c) (root : depot.roots[k]? = some r) : size? d (place c) = some r.size := by
  rw [load_eq] at loaded
  rcases all : loadAll d₀ cs with ⟨_ | rs, d'⟩ <;> rw [all] at loaded <;> cases loaded
  obtain ⟨-, kept, clean⟩ := kept_loadAll all homes
  exact ((kept.get config root).stored (clean r (List.mem_of_getElem? root))).1

theorem above_of_load (loaded : load d₀ cs = (.ok depot, d)) (homes : Homes d place cs)
    (stored : ∀ c ∈ cs, Generation.Floored (checkpoint? d (place c))) : ∀ r ∈ depot.roots, 0 ≤ r.size := by
  intro r member
  obtain ⟨k, root⟩ := List.mem_iff_getElem?.mp member
  have inside : k < cs.length := by
    rw [← (faithful_of_load loaded homes).kept.length_eq]
    exact (List.getElem?_eq_some_iff.mp root).1
  have config := List.getElem?_eq_getElem inside
  exact stored _ (List.getElem_mem inside) _ (size_of_load loaded homes config root)

theorem Above.happen (above : Above place cs s) (serving : Serving place cs s) (apart : (cs.map place).Nodup)
    (e : Event) : Above place cs (happen cs s e) := by
  obtain ⟨open?, d⟩ := s
  cases e with
  | act op =>
    cases open? with
    | none => exact above
    | some depot =>
      have floored : ∀ n ∈ depot.roots.map (·.size), 0 ≤ n :=
        List.forall_mem_map.mpr (above.memory depot rfl)
      refine ⟨fun depot' same => ?_, ?_⟩
      · have kept := resize_nonneg floored op
        rw [← sizes_act (depot, d) op] at kept
        exact Option.some.inj same ▸ List.forall_mem_map.mp kept
      · cases op with
        | adjust i delta id => exact above.stored
        | populate i ids => exact above.stored
        | flush =>
          obtain ⟨homes, kept⟩ := serving.faithful depot rfl
          exact floored_flushAll kept homes apart (above.memory depot rfl) above.stored
  | reopen =>
    have stored := floored_loadAll serving.homes apart above.stored
    have homes := serving.homes.differs (differs_loadAll serving.homes)
    exact ⟨fun depot opened => above_of_load (load_of_toOption opened) homes stored, stored⟩

theorem Above.history (above : Above place cs s) (serving : Serving place cs s) (apart : (cs.map place).Nodup)
    (events : List Event) : Above place cs (history cs s events) := by
  induction events generalizing s with
  | nil => exact above
  | cons e rest ih => exact ih (above.happen serving apart e) (serving.happen apart e)

/-- Since it was opened a root is negative exactly if it was opened so and was never adjusted. Opening takes the
number in the checkpoint, whatever it is; and the depot has no size below zero in any later state, nor any
checkpoint, exactly if it was opened without one. -/
theorem negative_iff_opened (loaded : load d₀ cs = (.ok depot, d)) :
    (∀ (ops : List Op) (k : Nat) r₀ r, depot.roots[k]? = some r₀ →
      (run (depot, d) ops).1.roots[k]? = some r →
        (r.size < 0 ↔ r₀.size < 0 ∧ ∀ delta id, .adjust k delta id ∉ ops)) ∧
    ∀ place : RootConfig → Place, Homes d place cs → (cs.map place).Nodup →
      (∀ (k : Nat) c r, cs[k]? = some c → depot.roots[k]? = some r → size? d (place c) = some r.size) ∧
      ((∀ events, Above place cs (history cs (some depot, d) events)) ↔ ∀ r ∈ depot.roots, 0 ≤ r.size) := by
  refine ⟨fun ops k r₀ r start now => ?_, fun place homes apart => ⟨fun k c r config root => ?_, ?_, ?_⟩⟩
  · have sizes := congrArg (·[k]?) (sizes_run (depot, d) ops)
    simp only [List.getElem?_map, now, Option.map_some] at sizes
    exact resized_neg_iff (by rw [List.getElem?_map, start, Option.map_some]) sizes.symm
  · exact size_of_load loaded homes config root
  · exact fun always => (always []).memory depot rfl
  · intro floored events
    have faithful := faithful_of_load loaded homes
    have serving : Serving place cs (some depot, d) :=
      ⟨homes, fun depot' same => Option.some.inj same ▸ faithful⟩
    have above : Above place cs (some depot, d) := by
      refine ⟨fun depot' same => Option.some.inj same ▸ floored, fun c member n read => ?_⟩
      obtain ⟨k, config⟩ := List.mem_iff_getElem?.mp member
      have inside : k < depot.roots.length := by
        rw [faithful.kept.length_eq]
        exact (List.getElem?_eq_some_iff.mp config).1
      have size := size_of_load loaded homes config (List.getElem?_eq_getElem inside)
      exact Option.some.inj (size.symm.trans read) ▸ floored _ (List.getElem_mem inside)
    exact above.history serving apart events

def sunken : Disk Unit where
  entries := [(["a"], .dir), (["a", "romdepot.generation"], .file (Bytes.ofString "-5\n")), (["b"], .dir)]
  ahead := []
  here := []

theorem negative_iff_opened_two_roots :
    (∃ r, (run ((⟨[⟨.ofString "a", 1000, -5, false, none⟩, ⟨.ofString "b", 1000, 0, false, none⟩]⟩ : Depot),
        (load sunken twoRoots).2) [.populate 0 [], .adjust 1 (-7) none, .flush]).1.roots[0]? = some r ∧
      r.size < 0) ∧
    ∀ events, Above (fun c => [c.path]) twoRoots (history twoRoots
      (some ⟨[⟨.ofString "a", 1000, 0, false, none⟩, ⟨.ofString "b", 1000, 0, false, none⟩]⟩,
        (load (.empty : Disk Unit) twoRoots).2) events) := by
  have loaded : load sunken twoRoots = (.ok ⟨[⟨.ofString "a", 1000, -5, false, none⟩,
    ⟨.ofString "b", 1000, 0, false, none⟩]⟩, (load sunken twoRoots).2) :=
    load_of_toOption (by decide +kernel)
  have loaded' : load (.empty : Disk Unit) twoRoots = (.ok ⟨[⟨.ofString "a", 1000, 0, false, none⟩,
    ⟨.ofString "b", 1000, 0, false, none⟩]⟩, (load (.empty : Disk Unit) twoRoots).2) := rfl
  have homes : Homes (load (.empty : Disk Unit) twoRoots).2 (fun c => [c.path]) twoRoots :=
    List.forall_mem_cons.mpr ⟨⟨by decide +kernel, by decide +kernel⟩,
      List.forall_mem_singleton.mpr ⟨by decide +kernel, by decide +kernel⟩⟩
  constructor
  · exact ⟨_, rfl, ((negative_iff_opened loaded).1 [.populate 0 [], .adjust 1 (-7) none, .flush] 0 _ _ rfl
      rfl).mpr ⟨by decide, by simp⟩⟩
  · exact ((negative_iff_opened loaded').2 _ homes (by decide)).2.mpr (by simp)

/-- The number below zero is taken when the depot is opened, and stored again by a flush once a filter was built:
behind it the checkpoint holds the number without the end of the line. -/
theorem stored_below_zero :
    let sizes (s : Option Depot × Disk Unit) := s.1.map fun now => now.roots.map (·.size)
    let opened := happen twoRoots (none, sunken) .reopen
    let flushed := history twoRoots opened [.act (.populate 0 []), .act .flush]
    sizes opened = some [-5, 0] ∧ checkpoint? opened.2 ["a"] = some (Bytes.ofString "-5\n") ∧
      sizes flushed = some [-5, 0] ∧ checkpoint? flushed.2 ["a"] = some (Bytes.ofString "-5") ∧
      sizes (happen twoRoots flushed .reopen) = some [-5, 0] := by
  decide +kernel

end Depot
end RomLedger
