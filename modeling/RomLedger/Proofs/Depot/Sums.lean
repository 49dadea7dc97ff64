import Mathlib
import RomLedger.Proofs.BloomFilter.Membership
import RomLedger.Proofs.Depot.Root

/-!
What the changes of a root add up to. A size is a sum that starts anew from zero whenever it would fall below:
so it is the sum of all changes with the first size, or of those since it last stood at zero, whichever is the
greatest. The upper end stops a sum, but it does not start one; and what is recorded in the filter does not
depend on the sizes at all, nor on the order of the calls.
-/
namespace RomLedger

namespace BloomFilter

theorem setBit_comm (words : Array UInt64) (p q : UInt64) :
    setBit (setBit words p) q = setBit (setBit words q) p := by
  apply Array.ext_getElem?
  intro i
  simp only [setBit, Array.getElem?_modify]
  cases words[i]? with
  | none => simp
  | some w =>
    have swap : w ||| mask p ||| mask q = w ||| mask q ||| mask p := by
      rw [UInt64.or_assoc, UInt64.or_comm (mask p), ← UInt64.or_assoc]
    split <;> split <;> simp [swap]

theorem setBits_perm {ps qs : List UInt64} (perm : ps.Perm qs) (words : Array UInt64) :
    ps.foldl setBit words = qs.foldl setBit words :=
  perm.foldl_eq' (fun p _ q _ words => setBit_comm words p q) words

theorem add_comm (f : BloomFilter) (a b : Bytes) : (f.add a).add b = (f.add b).add a := by
  have words : (f.positions a ++ f.positions b).foldl setBit f.words =
      (f.positions b ++ f.positions a).foldl setBit f.words :=
    setBits_perm List.perm_append_comm f.words
  rw [List.foldl_append, List.foldl_append] at words
  exact congrArg (fun words => (⟨words, f.numBits, f.numHashes⟩ : BloomFilter)) words

theorem addAll_perm {items others : List Bytes} (perm : items.Perm others) (f : BloomFilter) :
    f.addAll items = f.addAll others :=
  perm.foldl_eq' (fun a _ b _ f => add_comm f a b) f

end BloomFilter

namespace Root

/-- What a call accounts for: by how much the size changes, and the identifier of the content if one is given. -/
abbrev Change := Int × Option Bytes

def adjustAll (r : Root) (cs : List Change) : Root := cs.foldl (fun r c => r.adjust c.1 c.2) r

def deltas (cs : List Change) : List Int := cs.map Prod.fst

def peak : List Int → Int
  | [] => 0
  | d :: ds => max (d + ds.sum) (peak ds)

theorem accounted_bounds (size delta : Int) :
    0 ≤ accounted size delta ∧ accounted size delta ≤ Numeral.max63 := by
  have top : (0 : Int) ≤ Numeral.max63 := by decide
  unfold accounted
  omega

theorem size_adjustAll (r : Root) (cs : List Change) :
    (r.adjustAll cs).size = (deltas cs).foldl accounted r.size := by
  induction cs generalizing r with
  | nil => rfl
  | cons c rest ih => exact ih (r.adjust c.1 c.2)

theorem sum_le_peak (ds : List Int) : ds.sum ≤ peak ds := by
  cases ds with
  | nil => exact Int.le_refl 0
  | cons d ds => exact Int.le_max_left ..

theorem isGreatest_peak (ds : List Int) : IsGreatest {x | ∃ k ≤ ds.length, (ds.drop k).sum = x} (peak ds) := by
  induction ds with
  | nil => exact ⟨⟨0, Nat.le_refl 0, rfl⟩, by rintro _ ⟨k, -, rfl⟩; simp [peak]⟩
  | cons d ds ih =>
    obtain ⟨⟨k, within_, attained⟩, bound⟩ := ih
    constructor
    · rcases Int.le_total (peak ds) (d + ds.sum) with later | first
      · exact ⟨0, Nat.zero_le _, by rw [peak, Int.max_eq_left later, List.drop_zero, List.sum_cons]⟩
      · refine ⟨k + 1, Nat.succ_le_succ within_, ?_⟩
        rw [peak, Int.max_eq_right first, List.drop_succ_cons, attained]
    · rintro _ ⟨k, within_, rfl⟩
      cases k with
      | zero => exact Int.le_max_left ..
      | succ k => exact Int.le_trans (bound ⟨k, Nat.le_of_succ_le_succ within_, rfl⟩) (Int.le_max_right ..)

theorem foldl_accounted {n : Int} {ds : List Int} (floor : 0 ≤ n)
    (room : ∀ k (_ : k < ds.length), (ds.take k).foldl accounted n + ds[k] ≤ Numeral.max63) :
    ds.foldl accounted n = max (n + ds.sum) (peak ds) := by
  induction ds generalizing n with
  | nil => simp [peak, floor]
  | cons d ds ih =>
    have first : n + d ≤ Numeral.max63 := room 0 (Nat.succ_pos _)
    have next : accounted n d = max 0 (n + d) := by rw [accounted, Int.min_eq_right first]
    have later := ih (accounted_bounds n d).1 fun k inside => room (k + 1) (Nat.succ_lt_succ inside)
    have last := sum_le_peak ds
    rw [List.foldl_cons, later, next, peak, List.sum_cons]
    omega

theorem foldl_accounted_of_nonneg {n : Int} {ds : List Int} (floor : 0 ≤ n) (word : n ≤ Numeral.max63)
    (grows : ∀ d ∈ ds, 0 ≤ d) : ds.foldl accounted n = min (Numeral.max63 : Int) (n + ds.sum) := by
  induction ds generalizing n with
  | nil => simp [word]
  | cons d ds ih =>
    obtain ⟨first, others⟩ := List.forall_mem_cons.mp grows
    obtain ⟨low, high⟩ := accounted_bounds n d
    have more : 0 ≤ ds.sum := List.sum_nonneg others
    rw [List.foldl_cons, ih low high others, List.sum_cons, accounted]
    omega

theorem bounds_adjustAll {r : Root} (floor : 0 ≤ r.size) (word : r.size ≤ Numeral.max63) (cs : List Change) :
    0 ≤ (r.adjustAll cs).size ∧ (r.adjustAll cs).size ≤ Numeral.max63 := by
  induction cs generalizing r with
  | nil => exact ⟨floor, word⟩
  | cons c rest ih =>
    obtain ⟨low, high⟩ := accounted_bounds r.size c.1
    exact ih (r := r.adjust c.1 c.2) low high

theorem filter_adjustAll (r : Root) (cs : List Change) :
    (r.adjustAll cs).filter = r.filter.map (·.addAll (cs.filterMap Prod.snd)) := by
  induction cs generalizing r with
  | nil => exact (congrFun Option.map_id r.filter).symm
  | cons c rest ih =>
    obtain ⟨delta, id⟩ := c
    refine (ih (r.adjust delta id)).trans ?_
    cases id with
    | none => rfl
    | some id => cases filter : r.filter <;> simp [adjust, filter, BloomFilter.addAll]

/-- The size of a root in closed form. It is the greatest of the sum of all changes with the first size and the sums
of the last changes that leave out the first one, as long as no call adds up to more than a signed word; it never
leaves the range from zero to the greatest signed word; and where all changes are additions it is their sum up to
that word, in whatever order. The filter has the same bits in whatever order the calls come. -/
theorem size_of_changes (r : Root) (floor : 0 ≤ r.size) (word : r.size ≤ Numeral.max63) (cs : List Change) :
    (cs ≠ [] →
      (∀ k (_ : k < cs.length), (r.adjustAll (cs.take k)).size + cs[k].1 ≤ Numeral.max63) →
      IsGreatest (insert (r.size + (deltas cs).sum)
        {x | ∃ k, 1 ≤ k ∧ k ≤ cs.length ∧ ((deltas cs).drop k).sum = x}) (r.adjustAll cs).size) ∧
    (∀ n, 0 ≤ (r.adjustAll (cs.take n)).size ∧ (r.adjustAll (cs.take n)).size ≤ Numeral.max63) ∧
    ((∀ c ∈ cs, 0 ≤ c.1) → ∀ others, others.Perm cs →
      (r.adjustAll others).size = min (Numeral.max63 : Int) (r.size + (deltas cs).sum)) ∧
    (∀ f, r.filter = some f → ∀ others, others.Perm cs →
      (r.adjustAll others).filter = some (f.addAll (cs.filterMap Prod.snd))) := by
  refine ⟨fun some_ room => ?_, fun n => bounds_adjustAll floor word _, fun grows others perm => ?_,
    fun f ready others perm => ?_⟩
  · obtain ⟨c, rest, rfl⟩ := List.exists_cons_of_ne_nil some_
    have size : (r.adjustAll (c :: rest)).size =
        max (r.size + (deltas (c :: rest)).sum) (peak (deltas (c :: rest))) := by
      rw [size_adjustAll]
      refine foldl_accounted floor fun k inside => ?_
      have among : k < (c :: rest).length := by simpa [deltas] using inside
      have roomy := room k among
      rw [size_adjustAll, deltas, List.map_take] at roomy
      rw [← List.getElem_map Prod.fst] at roomy
      exact roomy
    -- the sum of all changes alone is no more than that with the first size
    have tail : (r.adjustAll (c :: rest)).size =
        max (r.size + (deltas (c :: rest)).sum) (peak (deltas rest)) := by
      rw [size]
      simp only [deltas, List.map_cons, peak, List.sum_cons]
      omega
    have sums : {x | ∃ k, 1 ≤ k ∧ k ≤ (c :: rest).length ∧ ((deltas (c :: rest)).drop k).sum = x} =
        {x | ∃ k ≤ (deltas rest).length, ((deltas rest).drop k).sum = x} := by
      ext x
      constructor
      · rintro ⟨k, some_, within_, rfl⟩
        obtain ⟨k, rfl⟩ := Nat.exists_eq_succ_of_ne_zero (Nat.ne_of_gt some_)
        exact ⟨k, by simpa [deltas] using within_, rfl⟩
      · rintro ⟨k, within_, rfl⟩
        exact ⟨k + 1, Nat.succ_pos k, by simpa [deltas] using within_, rfl⟩
    rw [tail, sums]
    exact (isGreatest_peak (deltas rest)).insert _
  · have sum : (deltas others).sum = (deltas cs).sum := (perm.map Prod.fst).sum_eq
    have additions : ∀ d ∈ deltas others, 0 ≤ d := by
      intro d member
      obtain ⟨c, among, rfl⟩ := List.mem_map.mp member
      exact grows c (perm.mem_iff.mp among)
    rw [size_adjustAll, foldl_accounted_of_nonneg floor word additions, sum]
  · rw [filter_adjustAll, ready, Option.map_some, BloomFilter.addAll_perm (perm.filterMap Prod.snd)]

def smallRoot : Root := ⟨.ofString "r", 1000, 3, false, some (.ofSizes 64 2)⟩

def someChanges : List Change :=
  [(-10, none), (7, some (Bytes.ofString "a")), (-2, none), (-1, some (Bytes.ofString "b")), (1, none)]

theorem size_of_some_changes :
    0 ≤ smallRoot.size ∧ smallRoot.size ≤ Numeral.max63 ∧ someChanges ≠ [] ∧
      (∀ k (_ : k < someChanges.length),
        (smallRoot.adjustAll (someChanges.take k)).size + someChanges[k].1 ≤ Numeral.max63) ∧
      IsGreatest (insert (-2) {x | ∃ k, 1 ≤ k ∧ k ≤ 5 ∧ ((deltas someChanges).drop k).sum = x}) 5 ∧
      (smallRoot.adjustAll someChanges).size = 5 ∧
      (smallRoot.adjustAll someChanges.reverse).filter =
        some ((BloomFilter.ofSizes 64 2).addAll [Bytes.ofString "a", Bytes.ofString "b"]) := by
  have floor : 0 ≤ smallRoot.size := by decide
  have word : smallRoot.size ≤ Numeral.max63 := by decide
  have room : ∀ k (_ : k < someChanges.length),
      (smallRoot.adjustAll (someChanges.take k)).size + someChanges[k].1 ≤ Numeral.max63 := by decide
  have some_ : someChanges ≠ [] := by decide
  have size : (smallRoot.adjustAll someChanges).size = 5 := by decide
  obtain ⟨greatest, -, -, same⟩ := size_of_changes smallRoot floor word someChanges
  exact ⟨floor, word, some_, room, size ▸ greatest some_ room, size,
    same _ rfl _ (List.reverse_perm someChanges)⟩

end Root
end RomLedger
