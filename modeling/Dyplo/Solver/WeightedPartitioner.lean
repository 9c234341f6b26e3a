import Dyplo.Library.BitMembers
import Dyplo.Solver.BranchAndBound

/-!
# `WeightedPartitioner`

Functions that each may be put on some of the partitions are given partitions of their own, so
that the scores of those that got one add up to as much as possible. A call of `recurse` decides
one function; the two vectors `solution` and `best_score` are shared by all calls.
-/

namespace Dyplo

open Assignment FirstMaximum BitMembers

/-- One entry of `function_masks` and `function_scores`, which are equally long. -/
structure WeightedFunction where
  mask : BitVec 32
  score : BitVec 32

/-- What `recurse` writes. -/
structure PartitionRecords where
  solution : List Int
  bestScore : List (BitVec 32)

structure WeightedPartitioner where
  functions : List WeightedFunction
  records : PartitionRecords

namespace WeightedPartitioner

/-- `calc_max_attainable_score` from `function_index` on. -/
def calcMaxAttainableScore (functions : List WeightedFunction) (mask : BitVec 32) : BitVec 32 :=
  functions.foldl (fun result f => if f.mask &&& mask ≠ 0#32 then result + f.score else result) 0

/-- The loop of `recurse` over the partitions. `recurse` stands for the recursive call with the
function's score added; `turns` bounds the number of turns. -/
def tryPartitions (recurse : BitVec 32 → PartitionRecords → Option (BitVec 32 × PartitionRecords))
    (functionMask mask score maxAttainableScore : BitVec 32) :
    (turns index : Nat) → (indexBit maxScore : BitVec 32) → (localSolution : Int) →
      PartitionRecords → Option (BitVec 32 × Int × PartitionRecords)
  | 0, _, _, _, _, _ => none
  | turns + 1, index, indexBit, maxScore, localSolution, records =>
      if indexBit ≤ mask ∧ indexBit ≠ 0#32 ∧ maxScore - score < maxAttainableScore then
        if mask &&& indexBit ≠ 0#32 ∧ functionMask &&& indexBit ≠ 0#32 then
          (recurse (mask &&& ~~~indexBit) records).bind fun (r, records) =>
            if maxScore < r then
              tryPartitions recurse functionMask mask score maxAttainableScore turns (index + 1)
                (indexBit <<< 1) r index records
            else
              tryPartitions recurse functionMask mask score maxAttainableScore turns (index + 1)
                (indexBit <<< 1) maxScore localSolution records
        else
          tryPartitions recurse functionMask mask score maxAttainableScore turns (index + 1)
            (indexBit <<< 1) maxScore localSolution records
      else some (maxScore, localSolution, records)

/-- The end of `recurse`: a better score than before replaces the function's entry. -/
def keepBest (records : PartitionRecords) (functionIndex : Nat) (maxScore : BitVec 32)
    (localSolution : Int) : PartitionRecords :=
  if records.bestScore.getD functionIndex 0 < maxScore then
    { solution := records.solution.set functionIndex localSolution
      bestScore := records.bestScore.set functionIndex maxScore }
  else records

/-- `recurse`, with the functions from `functionIndex` on. -/
def recurse (turns : Nat) : List WeightedFunction → (functionIndex : Nat) →
    (mask score : BitVec 32) → PartitionRecords → Option (BitVec 32 × PartitionRecords)
  | [], _, _, score, records => some (score, records)
  | f :: functions, functionIndex, mask, score, records =>
      let maxAttainableScore := calcMaxAttainableScore (f :: functions) mask
      (tryPartitions
        (fun mask => recurse turns functions (functionIndex + 1) mask (score + f.score))
        f.mask mask score maxAttainableScore turns 0 1 score (-1) records).bind
        fun (maxScore, localSolution, records) =>
          if maxScore - score < maxAttainableScore then
            -- what if we do NOT pick this function
            (recurse turns functions (functionIndex + 1) mask score records).bind
              fun (r, records) =>
                if maxScore < r then some (r, keepBest records functionIndex r (-1))
                else some (maxScore, keepBest records functionIndex maxScore localSolution)
          else some (maxScore, keepBest records functionIndex maxScore localSolution)

def solve (p : WeightedPartitioner) (turns : Nat) (availableMask : BitVec 32) :
    Option (BitVec 32 × WeightedPartitioner) :=
  (recurse turns p.functions 0 availableMask 0
    { solution := List.replicate p.functions.length (-1)
      bestScore := List.replicate p.functions.length 0 }).map
    fun (score, records) => (score, { p with records := records })

end WeightedPartitioner

/-- The partitions a function may be put on, with its score. -/
def WeightedFunction.demand (f : WeightedFunction) : Demand Nat :=
  ⟨members f.mask, f.score.toNat⟩

/-- An entry of `solution`. -/
def localSolution : Option Nat → Int
  | none => -1
  | some p => p

/-- The scores of all functions together, as a number. -/
def totalScore (functions : List WeightedFunction) : Nat :=
  (functions.map fun f => f.score.toNat).sum

private theorem totalScore_cons (f : WeightedFunction) (functions : List WeightedFunction) :
    totalScore (f :: functions) = f.score.toNat + totalScore functions := by
  rw [totalScore, List.map_cons, List.sum_cons, totalScore]

private theorem attainable_le_totalScore (functions : List WeightedFunction) (free : Finset Nat) :
    attainable (functions.map WeightedFunction.demand) free ≤ totalScore functions := by
  have hle := attainable_le_total (functions.map WeightedFunction.demand) free
  rwa [List.map_map] at hle

namespace WeightedPartitioner

/-- The bound is the optimistic one, as long as the scores do not overflow. -/
theorem calcMaxAttainableScore_toNat {functions : List WeightedFunction} (mask : BitVec 32)
    (htotal : totalScore functions < 2 ^ 32) :
    (calcMaxAttainableScore functions mask).toNat =
      attainable (functions.map WeightedFunction.demand) (members mask) := by
  have hfold : ∀ result : BitVec 32, result.toNat + totalScore functions < 2 ^ 32 →
      (functions.foldl
        (fun result f => if f.mask &&& mask ≠ 0#32 then result + f.score else result)
        result).toNat =
        result.toNat + attainable (functions.map WeightedFunction.demand) (members mask) := by
    clear htotal
    induction functions with
    | nil => exact fun result _ => rfl
    | cons f functions ih =>
      intro result hsum
      rw [totalScore_cons] at hsum
      rw [List.foldl_cons, List.map_cons, attainable]
      have hiff : f.mask &&& mask ≠ 0#32 ↔ (members mask ∩ f.demand.allowed).Nonempty := by
        rw [and_ne_zero, Finset.inter_comm]
        rfl
      by_cases hsome : (members mask ∩ f.demand.allowed).Nonempty
      · have hadd : (result + f.score).toNat = result.toNat + f.score.toNat := by
          rw [BitVec.toNat_add, Nat.mod_eq_of_lt (by omega)]
        rw [if_pos (hiff.mpr hsome), if_pos hsome, ih _ (by omega), hadd]
        exact Nat.add_assoc _ _ _
      · rw [if_neg (fun h => hsome (hiff.mp h)), if_neg hsome, ih _ (by omega), Nat.zero_add]
  rw [calcMaxAttainableScore, hfold 0 (by simpa using htotal)]
  exact Nat.zero_add _

end WeightedPartitioner

namespace PartitionRecords

/-- The best score and the solution of one function. -/
def entry (records : PartitionRecords) (k : Nat) : Nat × Int :=
  ((records.bestScore.getD k 0).toNat, records.solution.getD k (-1))

/-- The calls on the levels from `i` on have been entered in order; the levels above are
untouched. -/
structure Absorbs (records records' : PartitionRecords) (i : Nat)
    (levels : Nat → List (Nat × Option Nat)) : Prop where
  solution : records'.solution.length = records.solution.length
  bestScore : records'.bestScore.length = records.bestScore.length
  above : ∀ k < i, records'.entry k = records.entry k
  entry : ∀ k, records'.entry (i + k) =
    (levels k).foldl (improve Prod.fst fun r => localSolution r.2) (records.entry (i + k))

namespace Absorbs

variable {records records' records'' : PartitionRecords} {i : Nat}
  {levels levels' : Nat → List (Nat × Option Nat)}

private theorem refl (records : PartitionRecords) (i : Nat) : Absorbs records records i fun _ =>
    [] :=
  ⟨rfl, rfl, fun _ _ => rfl, fun _ => rfl⟩

private theorem trans (h : Absorbs records records' i levels)
    (h' : Absorbs records' records'' i levels') :
    Absorbs records records'' i fun k => levels k ++ levels' k where
  solution := h'.solution.trans h.solution
  bestScore := h'.bestScore.trans h.bestScore
  above k hk := (h'.above k hk).trans (h.above k hk)
  entry k := by rw [h'.entry, h.entry, List.foldl_append]

private theorem congr (h : Absorbs records records' i levels) (heq : ∀ k, levels k = levels' k) :
    Absorbs records records' i levels' where
  solution := h.solution
  bestScore := h.bestScore
  above := h.above
  entry k := by rw [← heq, h.entry]

end Absorbs

private theorem keepBest_entry {records : PartitionRecords} {i : Nat}
    (hsolution : i < records.solution.length) (hbest : i < records.bestScore.length)
    (maxScore : BitVec 32) (choice : Option Nat) :
    (WeightedPartitioner.keepBest records i maxScore (localSolution choice)).entry i =
      improve Prod.fst (fun r => localSolution r.2) (records.entry i)
        (maxScore.toNat, choice) := by
  unfold WeightedPartitioner.keepBest
  by_cases hlt : records.bestScore.getD i 0 < maxScore
  · rw [if_pos hlt, improve_of_lt (BitVec.lt_def.mp hlt)]
    simp only [entry, List.getD_eq_getElem?_getD, List.getElem?_set_self hbest,
      List.getElem?_set_self hsolution, Option.getD_some]
  · rw [if_neg hlt, improve_of_le]
    exact Nat.le_of_not_lt fun h => hlt (BitVec.lt_def.mpr h)

private theorem keepBest_entry_of_ne {records : PartitionRecords} {i k : Nat} (hne : i ≠ k)
    (maxScore : BitVec 32) (choice : Int) :
    (WeightedPartitioner.keepBest records i maxScore choice).entry k = records.entry k := by
  unfold WeightedPartitioner.keepBest
  split_ifs
  · simp only [entry, List.getD_eq_getElem?_getD, List.getElem?_set_ne hne]
  · rfl

/-- The call itself is entered behind all the calls that it has made. -/
theorem Absorbs.keepBest {records records' : PartitionRecords} {i : Nat} {d : Demand Nat}
    {demands : List (Demand Nat)} {c : SearchCall Nat} {maxScore : BitVec 32}
    (h : Absorbs records records' (i + 1) (levelRecords demands (c.children d demands)))
    (hsolution : i < records.solution.length) (hbest : i < records.bestScore.length)
    (hmax : maxScore.toNat = c.outcome (d :: demands)) :
    Absorbs records (WeightedPartitioner.keepBest records' i maxScore
      (localSolution (c.choice d demands))) i (levelRecords (d :: demands) [c]) where
  solution := by
    unfold WeightedPartitioner.keepBest
    split_ifs
    · exact (List.length_set ..).trans h.solution
    · exact h.solution
  bestScore := by
    unfold WeightedPartitioner.keepBest
    split_ifs
    · exact (List.length_set ..).trans h.bestScore
    · exact h.bestScore
  above k hk := by
    rw [keepBest_entry_of_ne (by omega)]
    exact h.above k (by omega)
  entry k := by
    cases k with
    | zero =>
      rw [Nat.add_zero, keepBest_entry (h.solution.symm ▸ hsolution) (h.bestScore.symm ▸ hbest),
        h.above i (Nat.lt_succ_self i), hmax]
      rfl
    | succ k =>
      rw [keepBest_entry_of_ne (by omega), levelRecords, List.flatMap_cons, List.flatMap_nil,
        List.append_nil, ← Nat.add_assoc, Nat.add_right_comm]
      exact h.entry k

end PartitionRecords

namespace WeightedPartitioner

open PartitionRecords

/-- `recurse` returns the outcome of its call and enters the calls below it level by level. -/
def Searches (turns : Nat) (functions : List WeightedFunction) : Prop :=
  ∀ (i : Nat) (mask score : BitVec 32) (records : PartitionRecords),
    score.toNat + totalScore functions < 2 ^ 32 →
    i + functions.length ≤ records.solution.length →
    i + functions.length ≤ records.bestScore.length →
    ∃ r records', recurse turns functions i mask score records = some (r, records') ∧
      r.toNat = SearchCall.outcome (functions.map WeightedFunction.demand)
        ⟨members mask, score.toNat⟩ ∧
      Absorbs records records' i (levelRecords (functions.map WeightedFunction.demand)
        [⟨members mask, score.toNat⟩])

private theorem sub_lt_iff {maxScore score bound : BitVec 32} {gained : Nat}
    (h : maxScore.toNat = score.toNat + gained) :
    maxScore - score < bound ↔ gained < bound.toNat := by
  rw [BitVec.lt_def, BitVec.toNat_sub_of_le (BitVec.le_def.mpr (by omega)), h,
    Nat.add_sub_cancel_left]

section Loop

variable {turns₀ i : Nat} {f : WeightedFunction} {functions : List WeightedFunction}
  {mask score : BitVec 32} {records : PartitionRecords}

private theorem Searches.pick (h : Searches turns₀ functions)
    (hsum : score.toNat + totalScore (f :: functions) < 2 ^ 32) (p : Nat)
    (hsolution : i + 1 + functions.length ≤ records.solution.length)
    (hbest : i + 1 + functions.length ≤ records.bestScore.length) :
    ∃ r records', recurse turns₀ functions (i + 1) (mask &&& ~~~BitVec.twoPow 32 p)
        (score + f.score) records = some (r, records') ∧
      r.toNat = score.toNat +
        gain f.demand (functions.map WeightedFunction.demand) (members mask) (some p) ∧
      Absorbs records records' (i + 1) (levelRecords (functions.map WeightedFunction.demand)
        [SearchCall.descend f.demand ⟨members mask, score.toNat⟩ (some p)]) := by
  rw [totalScore_cons] at hsum
  have hadd : (score + f.score).toNat = score.toNat + f.score.toNat := by
    rw [BitVec.toNat_add, Nat.mod_eq_of_lt (by omega)]
  have hcall : (⟨members (mask &&& ~~~BitVec.twoPow 32 p), (score + f.score).toNat⟩ :
      SearchCall Nat) = SearchCall.descend f.demand ⟨members mask, score.toNat⟩ (some p) := by
    rw [members_clear, hadd]
    rfl
  obtain ⟨r, records', hrecurse, hr, habsorbs⟩ := h (i + 1) (mask &&& ~~~BitVec.twoPow 32 p)
    (score + f.score) records (by omega) hsolution hbest
  rw [hcall] at hr habsorbs
  exact ⟨r, records', hrecurse, hr.trans (SearchCall.outcome_descend _), habsorbs⟩

/-- The loop has followed the choices `picks`, from the gain and the choice in `start` on. -/
def Follows (f : WeightedFunction) (functions : List WeightedFunction) (mask score : BitVec 32)
    (i : Nat) (records : PartitionRecords) (start : Nat × Option Nat) (picks : List (Option Nat))
    (result : Option (BitVec 32 × Int × PartitionRecords)) : Prop :=
  ∃ maxScore records', result = some (maxScore,
      localSolution (picks.foldl (improve (gain f.demand
        (functions.map WeightedFunction.demand) (members mask)) id) start).2, records') ∧
    maxScore.toNat = score.toNat + (picks.foldl (improve (gain f.demand
      (functions.map WeightedFunction.demand) (members mask)) id) start).1 ∧
    Absorbs records records' (i + 1) (levelRecords (functions.map WeightedFunction.demand)
      (picks.map (SearchCall.descend f.demand ⟨members mask, score.toNat⟩)))

private theorem Follows.nil {maxScore : BitVec 32} {gained : Nat} {choice : Option Nat}
    (hmax : maxScore.toNat = score.toNat + gained) :
    Follows f functions mask score i records (gained, choice) []
      (some (maxScore, localSolution choice, records)) :=
  ⟨maxScore, records, rfl, hmax,
    (Absorbs.refl records (i + 1)).congr fun k => (levelRecords_nil _ k).symm⟩

private theorem Follows.cons {records₁ : PartitionRecords} {start : Nat × Option Nat}
    {choice : Option Nat}
    {picks : List (Option Nat)} {result : Option (BitVec 32 × Int × PartitionRecords)}
    (hfirst : Absorbs records records₁ (i + 1)
      (levelRecords (functions.map WeightedFunction.demand)
        [SearchCall.descend f.demand ⟨members mask, score.toNat⟩ choice]))
    (h : Follows f functions mask score i records₁
      (improve (gain f.demand (functions.map WeightedFunction.demand) (members mask)) id start
        choice) picks result) :
    Follows f functions mask score i records start (choice :: picks) result := by
  obtain ⟨maxScore, records', hresult, hmax, habsorbs⟩ := h
  refine ⟨maxScore, records', hresult, hmax, (hfirst.trans habsorbs).congr fun k => ?_⟩
  rw [← levelRecords_append, List.map_cons, List.singleton_append]

/-- The loop tries the common members from its index on, until the bound is reached. -/
theorem tryPartitions_spec (h : Searches turns₀ functions)
    (hsum : score.toNat + totalScore (f :: functions) < 2 ^ 32) {turns p : Nat}
    (hp : p ≤ 32) (hturns : 33 ≤ turns + p) {maxScore : BitVec 32} {start : Nat × Option Nat}
    (hmax : maxScore.toNat = score.toNat + start.1)
    (hsolution : i + 1 + functions.length ≤ records.solution.length)
    (hbest : i + 1 + functions.length ≤ records.bestScore.length) :
    Follows f functions mask score i records start
      (tried (attainable (f.demand :: functions.map WeightedFunction.demand) (members mask))
        (gain f.demand (functions.map WeightedFunction.demand) (members mask)) start.1
        ((common mask f.mask p).map some))
      (tryPartitions (fun mask => recurse turns₀ functions (i + 1) mask (score + f.score)) f.mask
        mask score (calcMaxAttainableScore (f :: functions) mask) turns p (BitVec.twoPow 32 p)
        maxScore (localSolution start.2) records) := by
  induction turns generalizing p maxScore start records with
  | zero => omega
  | succ turns ih =>
    have hbound : (calcMaxAttainableScore (f :: functions) mask).toNat =
        attainable (f.demand :: functions.map WeightedFunction.demand) (members mask) :=
      calcMaxAttainableScore_toNat mask (by omega)
    rw [tryPartitions]
    by_cases hguard : BitVec.twoPow 32 p ≤ mask ∧ BitVec.twoPow 32 p ≠ 0#32 ∧
        maxScore - score < calcMaxAttainableScore (f :: functions) mask
    · rw [if_pos hguard]
      obtain ⟨-, hbit, hlt⟩ := hguard
      have hp : p < 32 := twoPow_ne_zero.mp hbit
      rw [sub_lt_iff hmax, hbound] at hlt
      rw [twoPow_shiftLeft_one, common_eq hp]
      by_cases hpick : p ∈ members mask ∩ members f.mask
      · rw [if_pos (twoPow_mem_both.mpr hpick), if_pos hpick, List.map_cons, tried_cons id hlt]
        obtain ⟨r, records₁, hrecurse, hr, habsorbs⟩ := h.pick hsum p hsolution hbest
        rw [hrecurse, Option.bind_some]
        dsimp only
        apply Follows.cons habsorbs
        have hsolution₁ := habsorbs.solution.symm ▸ hsolution
        have hbest₁ := habsorbs.bestScore.symm ▸ hbest
        by_cases hbetter : maxScore < r
        · have hgain : start.1 < gain f.demand (functions.map WeightedFunction.demand)
              (members mask) (some p) := by
            rw [BitVec.lt_def] at hbetter
            omega
          rw [if_pos hbetter, improve_of_lt hgain]
          exact ih hp (by omega) hr hsolution₁ hbest₁
        · have hgain : gain f.demand (functions.map WeightedFunction.demand)
              (members mask) (some p) ≤ start.1 := by
            rw [BitVec.lt_def] at hbetter
            omega
          rw [if_neg hbetter, improve_of_le hgain]
          exact ih hp (by omega) hmax hsolution₁ hbest₁
      · rw [if_neg (mt twoPow_mem_both.mp hpick), if_neg hpick]
        exact ih hp (by omega) hmax hsolution hbest
    · rw [if_neg hguard]
      have hpicks : tried (attainable (f.demand :: functions.map WeightedFunction.demand)
          (members mask)) (gain f.demand (functions.map WeightedFunction.demand) (members mask))
          start.1 ((common mask f.mask p).map some) = [] := by
        by_cases hlt : start.1 <
            attainable (f.demand :: functions.map WeightedFunction.demand) (members mask)
        · -- the bit has passed all members
          have hnone : common mask f.mask p = [] := by
            by_cases hp : p < 32
            · apply common_eq_nil
              intro hmember
              refine hguard ⟨(twoPow_le hp).mpr hmember, twoPow_ne_zero.mpr hp, ?_⟩
              rw [sub_lt_iff hmax, hbound]
              exact hlt
            · exact common_of_le (Nat.le_of_not_lt hp)
          rw [hnone]
          rfl
        · exact tried_of_le (Nat.le_of_not_lt hlt) _
      rw [hpicks]
      exact .nil hmax

/-- Behind the partitions, the function is left out. -/
theorem Follows.skip {start : Nat × Option Nat} {picks : List (Option Nat)} {maxScore r : BitVec 32}
    {local' : Int} {records₁ records₂ : PartitionRecords}
    (h : Follows f functions mask score i records start picks (some (maxScore, local', records₁)))
    (hr : r.toNat = score.toNat +
      gain f.demand (functions.map WeightedFunction.demand) (members mask) none)
    (hskip : Absorbs records₁ records₂ (i + 1)
      (levelRecords (functions.map WeightedFunction.demand)
        [SearchCall.descend f.demand ⟨members mask, score.toNat⟩ none])) :
    Follows f functions mask score i records start (picks ++ [none])
      (some (if maxScore < r then (r, -1, records₂) else (maxScore, local', records₂))) := by
  obtain ⟨maxScore₁, records₁', hresult, hmax, habsorbs⟩ := h
  obtain ⟨rfl, rfl, rfl⟩ : maxScore = maxScore₁ ∧ local' = _ ∧ records₁ = records₁' := by
    simpa using hresult
  have hlevels : Absorbs records records₂ (i + 1)
      (levelRecords (functions.map WeightedFunction.demand)
        ((picks ++ [none]).map (SearchCall.descend f.demand ⟨members mask, score.toNat⟩))) := by
    refine (habsorbs.trans hskip).congr fun k => ?_
    rw [← levelRecords_append, List.map_append, List.map_singleton]
  by_cases hbetter : maxScore < r
  · have hgain := BitVec.lt_def.mp hbetter
    rw [hmax, hr, Nat.add_lt_add_iff_left] at hgain
    refine ⟨r, records₂, ?_, ?_, hlevels⟩ <;>
      rw [List.foldl_append, List.foldl_cons, List.foldl_nil, improve_of_lt hgain]
    · rw [if_pos hbetter]
      rfl
    · exact hr
  · have hgain := mt BitVec.lt_def.mpr hbetter
    rw [hmax, hr, Nat.add_lt_add_iff_left, Nat.not_lt] at hgain
    refine ⟨maxScore, records₂, ?_, ?_, hlevels⟩ <;>
      rw [List.foldl_append, List.foldl_cons, List.foldl_nil, improve_of_le hgain]
    · rw [if_neg hbetter]
    · exact hmax

private theorem Follows.finish {maxScore : BitVec 32} {local' : Int} {records' : PartitionRecords}
    (hsolution : i < records.solution.length) (hbest : i < records.bestScore.length)
    (h : Follows f functions mask score i records (0, none)
      (SearchCall.triedChoices f.demand (functions.map WeightedFunction.demand)
        ⟨members mask, score.toNat⟩) (some (maxScore, local', records'))) :
    maxScore.toNat = SearchCall.outcome ((f :: functions).map WeightedFunction.demand)
        ⟨members mask, score.toNat⟩ ∧
      Absorbs records (keepBest records' i maxScore local') i
        (levelRecords ((f :: functions).map WeightedFunction.demand)
          [⟨members mask, score.toNat⟩]) := by
  obtain ⟨maxScore₁, records₁, hresult, hmax, habsorbs⟩ := h
  obtain ⟨rfl, rfl, rfl⟩ : maxScore = maxScore₁ ∧ local' = _ ∧ records' = records₁ := by
    simpa using hresult
  have houtcome : maxScore.toNat = SearchCall.outcome
      (f.demand :: functions.map WeightedFunction.demand) ⟨members mask, score.toNat⟩ :=
    hmax.trans (congrArg (score.toNat + ·) (SearchCall.kept_fst f.demand
      (functions.map WeightedFunction.demand) ⟨members mask, score.toNat⟩))
  exact ⟨houtcome, habsorbs.keepBest hsolution hbest houtcome⟩

end Loop

private theorem searches {turns : Nat} (hturns : 33 ≤ turns) (functions : List WeightedFunction) :
    Searches turns functions := by
  induction functions with
  | nil =>
    intro i mask score records _ _ _
    exact ⟨score, records, rfl, rfl, .refl records i⟩
  | cons f functions ih =>
    intro i mask score records hsum hsolution hbest
    rw [List.length_cons] at hsolution hbest
    have hloop : Follows f functions mask score i records (0, none)
        (SearchCall.triedPartitions f.demand (functions.map WeightedFunction.demand)
          ⟨members mask, score.toNat⟩)
        (tryPartitions (fun mask => recurse turns functions (i + 1) mask (score + f.score))
          f.mask mask score (calcMaxAttainableScore (f :: functions) mask) turns 0 1 score (-1)
          records) := by
      change Follows f functions mask score i records (0, none)
        (tried _ _ 0 (((members mask ∩ members f.mask).sort (· ≤ ·)).map some)) _
      rw [← common_zero]
      exact tryPartitions_spec ih hsum (Nat.zero_le 32) hturns rfl (by omega) (by omega)
    obtain ⟨maxScore, records₁, hresult, hmax, habsorbs⟩ := id hloop
    generalize localSolution _ = local' at hresult
    have hbound : (calcMaxAttainableScore (f :: functions) mask).toNat =
        attainable (f.demand :: functions.map WeightedFunction.demand) (members mask) :=
      calcMaxAttainableScore_toNat mask (by omega)
    have hchoices := SearchCall.triedChoices_eq f.demand
      (functions.map WeightedFunction.demand) ⟨members mask, score.toNat⟩
    rw [recurse]
    dsimp only
    rw [hresult] at hloop ⊢
    rw [Option.bind_some]
    dsimp only
    by_cases hskip : maxScore - score < calcMaxAttainableScore (f :: functions) mask
    · rw [if_pos hskip]
      rw [sub_lt_iff hmax, hbound] at hskip
      rw [if_pos hskip] at hchoices
      rw [totalScore_cons] at hsum
      obtain ⟨r, records₂, hrecurse, hr, hrest⟩ := ih (i + 1) mask score records₁ (by omega)
        (by rw [habsorbs.solution]; omega) (by rw [habsorbs.bestScore]; omega)
      rw [hrecurse, Option.bind_some]
      have hall := hloop.skip (hr.trans (SearchCall.outcome_descend (d := f.demand)
        (c := ⟨members mask, score.toNat⟩) none)) hrest
      rw [← hchoices] at hall
      dsimp only
      split_ifs at hall ⊢
      · obtain ⟨houtcome, hkept⟩ := hall.finish (by omega) (by omega)
        exact ⟨_, _, rfl, houtcome, hkept⟩
      · obtain ⟨houtcome, hkept⟩ := hall.finish (by omega) (by omega)
        exact ⟨_, _, rfl, houtcome, hkept⟩
    · rw [if_neg hskip]
      rw [sub_lt_iff hmax, hbound] at hskip
      rw [if_neg hskip, List.append_nil] at hchoices
      rw [← hchoices] at hloop
      obtain ⟨houtcome, hkept⟩ := hloop.finish (by omega) (by omega)
      exact ⟨_, _, rfl, houtcome, hkept⟩

def demands (p : WeightedPartitioner) : List (Demand Nat) :=
  p.functions.map WeightedFunction.demand

/-- The vectors at the beginning of `solve`. -/
def startRecords (p : WeightedPartitioner) : PartitionRecords where
  solution := List.replicate p.functions.length (-1)
  bestScore := List.replicate p.functions.length 0

theorem solve_spec (p : WeightedPartitioner) (htotal : totalScore p.functions < 2 ^ 32)
    (availableMask : BitVec 32) {turns : Nat} (hturns : 33 ≤ turns) :
    ∃ records, p.solve turns availableMask =
        some (BitVec.ofNat 32 (best p.demands (members availableMask)),
          { p with records := records }) ∧
      Absorbs p.startRecords records 0 (levelRecords p.demands [⟨members availableMask, 0⟩]) := by
  obtain ⟨r, records, hrecurse, hr, habsorbs⟩ := searches hturns p.functions 0 availableMask 0
    p.startRecords (by simpa using htotal) (by simp [startRecords]) (by simp [startRecords])
  refine ⟨records, ?_, habsorbs⟩
  have hscore : r = BitVec.ofNat 32 (best p.demands (members availableMask)) := by
    rw [← BitVec.toNat_inj, BitVec.toNat_ofNat, ← Nat.mod_eq_of_lt r.isLt, hr]
    exact congrArg (· % 2 ^ 32) (Nat.zero_add _)
  rw [← hscore]
  exact congrArg (Option.map _) hrecurse

theorem best_lt {p : WeightedPartitioner} (htotal : totalScore p.functions < 2 ^ 32)
    (free : Finset Nat) : best p.demands free < 2 ^ 32 :=
  ((best_le_attainable p.demands free).trans
    (attainable_le_totalScore p.functions free)).trans_lt htotal

/-- `solve` ends, and what it returns is the greatest total score of any assignment of distinct
available partitions to functions that allow them. -/
theorem solve_optimal (p : WeightedPartitioner) (htotal : totalScore p.functions < 2 ^ 32)
    (availableMask : BitVec 32) :
    ∃ score, (∀ turns, 33 ≤ turns → ∃ p', p.solve turns availableMask = some (score, p')) ∧
      IsGreatest {v | ∃ choices, IsPartial p.demands (members availableMask) choices ∧
        value p.demands choices = v} score.toNat := by
  refine ⟨BitVec.ofNat 32 (best p.demands (members availableMask)), ?_, ?_⟩
  · intro turns hturns
    obtain ⟨records, hsolve, -⟩ := p.solve_spec htotal availableMask hturns
    exact ⟨_, hsolve⟩
  · rw [BitVec.toNat_ofNat, Nat.mod_eq_of_lt (best_lt htotal _)]
    exact isGreatest_best p.demands (members availableMask)

/-- Two functions that compete for the last partition. -/
def competing : WeightedPartitioner where
  functions := [⟨0x80000000, 1⟩, ⟨0xc0000000, 5⟩]
  records := ⟨[], []⟩

theorem solve_optimal_competing :
    totalScore competing.functions < 2 ^ 32 ∧
    ∃ score, (∀ turns, 33 ≤ turns →
        ∃ p', competing.solve turns 0xc0000000 = some (score, p')) ∧
      IsGreatest {v | ∃ choices,
        IsPartial competing.demands (members (0xc0000000 : BitVec 32)) choices ∧
        value competing.demands choices = v} score.toNat :=
  ⟨by decide, competing.solve_optimal (by decide) 0xc0000000⟩

end WeightedPartitioner

end Dyplo
