import RomLedger.Disk.Walk

/- Which files a walk meets: those in the directories that it gets inside of, along entries and along links
   that do not lead back. The bound on the depth never cuts a walk short. -/
namespace RomLedger.Disk

variable {σ : Type}

/-- The directories that a walk from `root` is inside of, innermost first, where it stands at a path. -/
inductive Inside (d : Disk σ) (root : Path) : List Place → Path → Prop where
  | root {place : Place} (opens : d.open? root = .ok (place, .dir)) : Inside d root [place] root
  | directory {here : Place} {around : List Place} {p : Path} {name : String}
      (inside : Inside d root (here :: around) p) (child : (name, .dir) ∈ d.children here) :
      Inside d root ((here ++ [name]) :: here :: around) (p.join name)
  | link {here place : Place} {around : List Place} {p : Path} {name target : String}
      (inside : Inside d root (here :: around) p) (child : (name, .link target) ∈ d.children here)
      (opens : d.open? (p.join name) = .ok (place, .dir)) (new : place ∉ here :: around) :
      Inside d root (place :: here :: around) (p.join name)

def IsFile (d : Disk σ) (q : Path) (e : Entry σ) (size : UInt64) : Prop :=
  match e with
  | .dir => False
  | .link _ => ∃ place f, d.open? q = .ok (place, f) ∧ f ≠ .dir ∧ size = f.size
  | e => size = e.size

def FileOf (d : Disk σ) (root : Path) (q : Path) (size : UInt64) : Prop :=
  ∃ here around p name e, d.Inside root (here :: around) p ∧ (name, e) ∈ d.children here ∧
    q = p.join name ∧ d.IsFile q e size

def outside (d : Disk σ) (chain : List Place) : List Place :=
  ([] :: d.entries.map Prod.fst).filter fun p => !chain.contains p

def beneath (d : Disk σ) (here : Place) : List (Place × Entry σ) :=
  d.entries.filter fun e => here.isPrefixOf e.1 && e.1 != here

/-- How deep a walk may still go. -/
def depth (d : Disk σ) (chain : List Place) : Nat :=
  (d.outside chain).length * (d.entries.length + 1) + (d.beneath (chain.headD [])).length

theorem beneath_le (d : Disk σ) (here : Place) : (d.beneath here).length ≤ d.entries.length :=
  List.length_filter_le ..

theorem mem_places {d : Disk σ} {place : Place} {e : Entry σ} (found : d.get? place = some e) :
    place ∈ [] :: d.entries.map Prod.fst := by
  unfold get? at found
  split at found
  · simp_all
  · obtain ⟨before, after, entries, _⟩ := List.lookup_eq_some_iff.mp found
    simp [entries]

theorem mem_children {d : Disk σ} {here : Place} {name : String} {e : Entry σ}
    (child : (name, e) ∈ d.children here) : (here ++ [name], e) ∈ d.entries := by
  unfold children at child
  rw [List.mem_mergeSort] at child
  obtain ⟨⟨place, f⟩, member, named⟩ := List.mem_filterMap.mp child
  split at named
  · rename_i inner
    obtain ⟨last, same, pair⟩ := Option.map_eq_some_iff.mp named
    cases pair
    obtain ⟨above, rfl⟩ := List.getLast?_eq_some_iff.mp same
    rw [← inner.2, List.dropLast_concat]
    exact member
  · cases named

theorem get?_of_open {d : Disk σ} {p : Path} {place : Place} {e : Entry σ}
    (opens : d.open? p = .ok (place, e)) : d.get? place = some e := by
  unfold open? at opens
  split at opens
  · cases opens
  · split at opens
    · cases opens
      assumption
    · cases opens

theorem outside_cons (d : Disk σ) (place : Place) (chain : List Place) :
    d.outside (place :: chain) = (d.outside chain).filter fun p => p != place := by
  simp only [outside, List.filter_filter, List.contains_cons, Bool.not_or]
  rfl

theorem outside_cons_lt {d : Disk σ} {place : Place} {e : Entry σ} {chain : List Place}
    (known : d.get? place = some e) (new : place ∉ chain) :
    (d.outside (place :: chain)).length < (d.outside chain).length := by
  rw [outside_cons, List.length_filter_lt_length_iff_exists]
  exact ⟨place, List.mem_filter.mpr ⟨mem_places known, by simpa using new⟩, by simp⟩

theorem beneath_child_lt {d : Disk σ} {here : Place} {name : String} {e : Entry σ}
    (child : (name, e) ∈ d.children here) :
    (d.beneath (here ++ [name])).length < (d.beneath here).length := by
  have within (p : Place) : (here ++ [name]).isPrefixOf p && p != here ++ [name] →
      here.isPrefixOf p && p != here := by
    simp only [Bool.and_eq_true, List.isPrefixOf_iff_prefix, bne_iff_ne, ne_eq, and_imp]
    rintro ⟨rest, rfl⟩ _
    exact ⟨⟨[name] ++ rest, by simp⟩, by simp⟩
  have inner : d.beneath (here ++ [name]) = (d.beneath here).filter
      fun e => (here ++ [name]).isPrefixOf e.1 && e.1 != here ++ [name] := by
    simp only [beneath, List.filter_filter]
    refine List.filter_congr fun e _ => ?_
    have := within e.1
    cases h : (here ++ [name]).isPrefixOf e.1 && e.1 != here ++ [name] <;> simp_all
  rw [inner, List.length_filter_lt_length_iff_exists]
  refine ⟨(here ++ [name], e), List.mem_filter.mpr ⟨mem_children child, ?_⟩, by simp⟩
  simp

theorem depth_directory_lt {d : Disk σ} {here : Place} {around : List Place} {name : String}
    (child : (name, .dir) ∈ d.children here) :
    d.depth ((here ++ [name]) :: here :: around) < d.depth (here :: around) := by
  have fewer := beneath_child_lt child
  have same : (d.outside ((here ++ [name]) :: here :: around)).length
      ≤ (d.outside (here :: around)).length := by
    rw [outside_cons]
    exact List.length_filter_le ..
  have := Nat.mul_le_mul_right (d.entries.length + 1) same
  simp only [depth, List.headD_cons]
  omega

theorem depth_link_lt {d : Disk σ} {place : Place} {chain : List Place} {p : Path}
    (opens : d.open? p = .ok (place, .dir)) (new : place ∉ chain) :
    d.depth (place :: chain) < d.depth chain := by
  have fewer := outside_cons_lt (get?_of_open opens) new
  have few := d.beneath_le place
  have := Nat.mul_le_mul_right (d.entries.length + 1) (Nat.succ_le_of_lt fewer)
  simp only [depth, List.headD_cons, Nat.succ_mul] at this ⊢
  omega

theorem depth_root_lt {d : Disk σ} {place : Place} {p : Path}
    (opens : d.open? p = .ok (place, .dir)) : d.depth [place] < d.depthBound := by
  have fewer := outside_cons_lt (get?_of_open opens) (List.not_mem_nil (a := place))
  have all : (d.outside []).length = d.entries.length + 1 := by
    simp [outside, List.filter_eq_self.mpr]
  have few := d.beneath_le place
  have := Nat.mul_le_mul_right (d.entries.length + 1) (Nat.le_of_lt_succ (all ▸ fewer))
  simp only [depth, depthBound, List.headD_cons, Nat.succ_mul] at this ⊢
  omega

theorem file_mem_walkIn {d : Disk σ} {root : Path} {budget : Nat} {chain : List Place} {p q : Path}
    {size : UInt64} (inside : d.Inside root chain p)
    (met : .file q size ∈ d.walkIn budget chain p) : d.FileOf root q size := by
  induction budget generalizing chain p with
  | zero => simp [walkIn] at met
  | succ budget ih =>
    cases chain with
    | nil => simp [walkIn] at met
    | cons here around =>
      simp only [walkIn, List.mem_flatMap] at met
      obtain ⟨⟨name, e⟩, child, met⟩ := met
      have leaf {s : UInt64} (file : d.IsFile (p.join name) e s) : d.FileOf root (p.join name) s :=
        ⟨here, around, p, name, e, inside, child, rfl, file⟩
      cases e with
      | dir =>
        simp only [List.mem_cons, reduceCtorEq, false_or] at met
        exact ih (.directory inside child) met
      | link target =>
        dsimp only at met
        split at met
        · simp at met
        · rename_i place opens
          split at met
          · simp at met
          · rename_i new
            simp only [List.mem_cons, reduceCtorEq, false_or] at met
            exact ih (.link inside child opens (by simpa using new)) met
        · rename_i place f other opens
          cases List.mem_singleton.mp met
          exact leaf ⟨place, f, opens, other, rfl⟩
      | file b =>
        cases List.mem_singleton.mp met
        exact leaf rfl
      | store c =>
        cases List.mem_singleton.mp met
        exact leaf rfl

theorem walkIn_subset_walk {d : Disk σ} {root : Path} {chain : List Place} {p : Path}
    (inside : d.Inside root chain p) :
    ∃ budget, d.depth chain < budget ∧ ∀ v ∈ d.walkIn budget chain p, v ∈ d.walk root := by
  induction inside with
  | root opens =>
    refine ⟨d.depthBound, depth_root_lt opens, fun v met => ?_⟩
    simp only [walk, opens]
    exact List.mem_cons_of_mem _ met
  | @directory here around p name inside child ih =>
    obtain ⟨budget, enough, all⟩ := ih
    obtain ⟨budget, rfl⟩ : ∃ b, budget = b + 1 := ⟨budget - 1, by omega⟩
    have shallower : d.depth ((here ++ [name]) :: here :: around) < d.depth (here :: around) :=
      depth_directory_lt child
    refine ⟨budget, by omega, fun v met => all v ?_⟩
    simp only [walkIn, List.mem_flatMap]
    exact ⟨(name, .dir), child, List.mem_cons_of_mem _ met⟩
  | @link here place around p name target inside child opens new ih =>
    obtain ⟨budget, enough, all⟩ := ih
    obtain ⟨budget, rfl⟩ : ∃ b, budget = b + 1 := ⟨budget - 1, by omega⟩
    -- the place may have more beneath it, but the walk was not inside of it yet
    have shallower := depth_link_lt opens new
    refine ⟨budget, by omega, fun v met => all v ?_⟩
    simp only [walkIn, List.mem_flatMap]
    refine ⟨(name, .link target), child, ?_⟩
    simp only [opens, List.contains_iff_mem, new, ↓reduceIte]
    exact List.mem_cons_of_mem _ met

theorem mem_walk_iff {d : Disk σ} {root q : Path} {size : UInt64} (directory : d.isDirectory root) :
    .file q size ∈ d.walk root ↔ d.FileOf root q size := by
  constructor
  · intro met
    unfold isDirectory at directory
    split at directory
    · rename_i place opens
      simp only [walk, opens, List.mem_cons, reduceCtorEq, false_or] at met
      exact file_mem_walkIn (.root opens) met
    · cases directory
  · rintro ⟨here, around, p, name, e, inside, child, rfl, file⟩
    obtain ⟨budget, enough, all⟩ := walkIn_subset_walk inside
    obtain ⟨budget, rfl⟩ : ∃ b, budget = b + 1 := ⟨budget - 1, by omega⟩
    refine all _ ?_
    simp only [walkIn, List.mem_flatMap]
    refine ⟨(name, e), child, ?_⟩
    cases e with
    | dir => exact file.elim
    | link target =>
      obtain ⟨place, f, opens, other, rfl⟩ := file
      simp only [opens]
      cases f <;> simp_all
    | file b =>
      cases file
      exact List.mem_singleton_self _
    | store c =>
      cases file
      exact List.mem_singleton_self _

theorem walk_flat {d : Disk σ} {root : Path} {place : Place} {found : List (String × Bytes)}
    (opens : d.open? root = .ok (place, .dir))
    (files : d.children place = found.map fun f => (f.1, .file f.2)) :
    d.walk root = .directory root ::
      found.map fun f => .file (root.join f.1) (UInt64.ofNat f.2.length) := by
  obtain ⟨budget, bound⟩ : ∃ b, d.depthBound = b + 1 := ⟨d.depthBound - 1, by
    have := depth_root_lt opens
    omega⟩
  simp only [walk, opens, bound, walkIn, files, List.flatMap_map, Entry.size]
  rw [List.map_eq_flatMap]

end RomLedger.Disk
