import Distllm.Apportion
import Distllm.PlanState
import Mathlib.Algebra.Order.BigOperators.Group.List
import Mathlib.Data.Rat.Floor

/-! What a plan is worth. Unless all stages are fixed to fewer layers than there are, planning ends with
a valid split or with a refusal: the shares come to at most one layer too many for each flexible stage,
every round of a loop changes the sum by one, and as long as there are too many layers some flexible
stage has more than one. -/

namespace Distllm.LayerPlan

open Ranges While Apportion

/-! ### Splits -/

/-- What a split has to be: a row for each node, layers from the first to the last without a gap, the
fixed counts, and on each machine no more than the planned part of its memory. -/
structure ValidSplit (args : Args) (stages : List Stage) : Prop where
  rows : stages.map (fun stage => (stage.machine, stage.gb)) = args.nodes.map fun node => (node.machine, node.gb)
  layers : Consecutive 0 args.layers.length (stages.map fun stage => (stage.first, stage.last))
  counts : ∀ (i : ℕ) (node : Node) (stage : Stage) (count : ℕ), args.nodes[i]? = some node →
    stages[i]? = some stage → node.count = some count → 0 < count → stage.last + 1 = stage.first + count
  used : ∀ (i : ℕ) (stage : Stage), stages[i]? = some stage →
    stage.used * giga = args.used i stage.first stage.last (stage.last + 1 - stage.first)
  memory : ∀ node ∈ args.nodes, args.nodes.find? (·.machine == node.machine) = some node →
    ((stages.filter (·.machine == node.machine)).map Stage.used).sum ≤ 85 / 100 * node.gb

/-- A valid split or a refusal, and nothing else. -/
def Clean (args : Args) : Outcome → Prop
  | .returned stages => ValidSplit args stages
  | .systemExit _ => True
  | .raised _ => False
  | .unfinished => False

namespace Args

variable {args : Args}

/-! ### Fixed and flexible stages -/

theorem mem_flexible {i : ℕ} : i ∈ args.flexible ↔ i < args.nodes.length ∧ args.fixed i = none := by
  rw [flexible, List.mem_filter, List.mem_range, Option.isNone_iff_eq_none]

theorem flexible_ne_nil : args.flexible ≠ [] ↔ ∃ node ∈ args.nodes, node.fixed = none := by
  constructor
  · intro hne
    obtain ⟨i, hi⟩ := List.exists_mem_of_ne_nil _ hne
    obtain ⟨hlength, hfixed⟩ := mem_flexible.mp hi
    rw [fixed, List.getElem?_eq_getElem hlength] at hfixed
    exact ⟨args.nodes[i], List.getElem_mem hlength, hfixed⟩
  · rintro ⟨node, hnode, hfixed⟩
    obtain ⟨i, hi⟩ := List.mem_iff_getElem?.mp hnode
    obtain ⟨hlength, -⟩ := List.getElem?_eq_some_iff.mp hi
    have hflexible : i ∈ args.flexible := mem_flexible.mpr ⟨hlength, by rw [fixed, hi]; exact hfixed⟩
    exact List.ne_nil_of_mem hflexible

theorem fixedLayers_eq :
    args.fixedLayers = ((List.range args.nodes.length).map fun i => (args.fixed i).getD 0).sum := by
  rw [fixedLayers]
  congr 1
  apply List.ext_getElem
  · rw [List.length_map, List.length_map, List.length_range]
  · intro i hi _
    rw [List.length_map] at hi
    simp [fixed, hi]

/-- Stages with the counts that they are fixed to, and the others with counts from elsewhere. -/
theorem sum_fixed_getD (other : ℕ → ℕ) :
    ((List.range args.nodes.length).map fun i => (args.fixed i).getD (other i)).sum
      = args.fixedLayers + (args.flexible.map other).sum := by
  rw [fixedLayers_eq, flexible]
  exact sum_map_getD args.fixed other _

/-! ### Shares -/

theorem toNat_int {x : ℚ} (hx : 0 ≤ x) : (int x).toNat = ⌊x⌋₊ := by
  have hnum : 0 ≤ x.num := Rat.num_nonneg.mpr hx
  rw [int, Int.tdiv_eq_ediv_of_nonneg hnum, ← Rat.floor_def', Int.floor_toNat]

theorem weight_nonneg (i : ℕ) : 0 ≤ args.weight i := by
  rw [weight]
  split
  · exact div_nonneg (le_max_right _ _) (Nat.cast_nonneg _)
  · exact le_refl 0

theorem sum_weight_nonneg : 0 ≤ (args.flexible.map args.weight).sum := by
  apply List.sum_nonneg
  intro x hx
  obtain ⟨i, -, rfl⟩ := List.mem_map.mp hx
  exact weight_nonneg i

theorem totalWeight_pos : 0 < args.totalWeight := by
  rw [totalWeight]
  split
  · exact one_pos
  · exact lt_of_le_of_ne sum_weight_nonneg (Ne.symm ‹_›)

theorem sum_weight_le : (args.flexible.map args.weight).sum ≤ args.totalWeight := by
  rw [totalWeight]
  split
  · rename_i hzero
    rw [hzero]
    exact zero_le_one
  · exact le_refl _

/-- The shares come to at most one layer too many for each flexible stage. -/
theorem sum_counts_le (hfree : (args.flexible.length : ℤ) ≤ args.freeLayers) :
    args.counts.sum ≤ args.layers.length + args.flexible.length := by
  obtain ⟨free, hfree'⟩ := Int.eq_ofNat_of_zero_le ((Int.natCast_nonneg _).trans hfree)
  have hshare : ∀ i ∈ args.flexible, args.share i ≤ ⌊(free : ℚ) * args.weight i / args.totalWeight⌋₊ + 1 := by
    intro i _
    have hpart : 0 ≤ (free : ℚ) * args.weight i / args.totalWeight :=
      div_nonneg (mul_nonneg free.cast_nonneg (weight_nonneg i)) totalWeight_pos.le
    rw [share, hfree', Int.cast_natCast, toNat_int hpart]
    omega
  have hshares : (args.flexible.map args.share).sum ≤ free + args.flexible.length := by
    calc (args.flexible.map args.share).sum
        ≤ (args.flexible.map fun i => ⌊(free : ℚ) * args.weight i / args.totalWeight⌋₊ + 1).sum :=
          List.sum_le_sum hshare
      _ = (args.flexible.map fun i => ⌊(free : ℚ) * args.weight i / args.totalWeight⌋₊).sum
            + args.flexible.length := by rw [List.sum_map_add]; simp
      _ ≤ free + args.flexible.length :=
          Nat.add_le_add_right (sum_floor_le (fun i _ => weight_nonneg i) totalWeight_pos sum_weight_le) _
  have hcounts : args.counts.sum = args.fixedLayers + (args.flexible.map args.share).sum := sum_fixed_getD args.share
  have hlayers : (args.layers.length : ℤ) - args.fixedLayers = free := hfree'
  omega

/-! ### The loops -/

/-- What the loops keep: a count for each stage, its own for a fixed one, and none of zero. -/
structure Keeps (args : Args) (counts : List ℕ) : Prop where
  length : counts.length = args.nodes.length
  fixed : ∀ i count : ℕ, args.fixed i = some count → counts[i]? = some count
  pos : ∀ i count : ℕ, counts[i]? = some count → 0 < count

theorem fixed_pos {i count : ℕ} (h : args.fixed i = some count) : 0 < count := by
  rw [fixed, Option.bind_eq_some_iff] at h
  obtain ⟨node, -, hfixed⟩ := h
  rw [Node.fixed, Option.filter_eq_some_iff] at hfixed
  simpa using hfixed.2

theorem keeps_counts (args : Args) : Keeps args args.counts where
  length := by rw [counts, List.length_map, List.length_range]
  fixed i count hfixed := by
    have hi : i < args.nodes.length := by
      rw [Args.fixed, Option.bind_eq_some_iff] at hfixed
      obtain ⟨node, hnode, -⟩ := hfixed
      exact (List.getElem?_eq_some_iff.mp hnode).1
    rw [counts, List.getElem?_map, List.getElem?_range hi, Option.map_some, hfixed, Option.getD_some]
  pos i count hcount := by
    rw [counts, List.getElem?_map, Option.map_eq_some_iff] at hcount
    obtain ⟨j, -, rfl⟩ := hcount
    cases hfixed : args.fixed j with
    | none => exact Nat.lt_of_lt_of_le Nat.one_pos (Nat.le_max_left 1 _)
    | some count => exact fixed_pos hfixed

namespace Keeps

variable {counts : List ℕ}

/-- The count of a flexible stage may change as long as it stays positive. -/
theorem modify (h : Keeps args counts) {i : ℕ} (hi : i ∈ args.flexible) {f : ℕ → ℕ}
    (hf : 0 < f (counts.getD i 0)) : Keeps args (counts.modify i f) where
  length := by rw [List.length_modify, h.length]
  fixed j count hfixed := by
    have hne : i ≠ j := by
      rintro rfl
      rw [(mem_flexible.mp hi).2] at hfixed
      cases hfixed
    rw [List.getElem?_modify_ne _ _ hne]
    exact h.fixed j count hfixed
  pos j count hcount := by
    by_cases hne : i = j
    · subst hne
      rw [List.getElem?_modify_eq, Option.map_eq_map, Option.map_eq_some_iff] at hcount
      obtain ⟨old, hold, rfl⟩ := hcount
      rwa [List.getD_eq_getElem?_getD, hold] at hf
    · rw [List.getElem?_modify_ne _ _ hne] at hcount
      exact h.pos j count hcount

theorem handOut (h : Keeps args counts) (hflexible : args.flexible ≠ []) :
    ∃ counts', args.handOut counts = .ok counts' ∧ Keeps args counts' ∧ counts'.sum = counts.sum + 1 := by
  rw [Args.handOut]
  split
  · rename_i best hbest
    have hmem : best ∈ args.flexible := List.argmax_mem hbest
    have hlength : best < counts.length := by
      rw [h.length]
      exact (mem_flexible.mp hmem).1
    exact ⟨_, rfl, h.modify hmem (Nat.succ_pos _), sum_modify_succ hlength⟩
  · exact absurd (List.argmax_eq_none.mp ‹_›) hflexible

/-- With more layers given out than there are, some flexible stage has more than one. -/
theorem exists_above_one (h : Keeps args counts) (hfree : (args.flexible.length : ℤ) ≤ args.freeLayers)
    (hmany : args.layers.length < counts.sum) : ∃ i ∈ args.flexible, 1 < counts.getD i 0 := by
  by_contra hnone
  -- Every flexible stage has one layer, and every fixed one its own.
  have hcounts : counts = (List.range args.nodes.length).map fun i => (args.fixed i).getD 1 := by
    apply List.ext_getElem
    · rw [List.length_map, List.length_range, h.length]
    · intro i hi hi'
      have hget : counts[i]? = some counts[i] := List.getElem?_eq_getElem hi
      rw [List.getElem_map, List.getElem_range]
      cases hfixed : args.fixed i with
      | some count =>
          rw [h.fixed i count hfixed] at hget
          exact (Option.some.inj hget).symm
      | none =>
          have hflexible : i ∈ args.flexible := mem_flexible.mpr ⟨h.length ▸ hi, hfixed⟩
          have hle : ¬ 1 < counts.getD i 0 := fun hlt => hnone ⟨i, hflexible, hlt⟩
          have hpos := h.pos i _ hget
          rw [List.getD_eq_getElem?_getD, hget, Option.getD_some] at hle
          rw [Option.getD_none]
          omega
  have hsum : counts.sum = args.fixedLayers + args.flexible.length := by
    rw [hcounts, sum_fixed_getD fun _ => 1]
    simp
  rw [freeLayers] at hfree
  omega

theorem takeBack (h : Keeps args counts) (hfree : (args.flexible.length : ℤ) ≤ args.freeLayers)
    (hmany : args.layers.length < counts.sum) :
    ∃ counts', args.takeBack counts = .ok counts' ∧ Keeps args counts' ∧ counts'.sum + 1 = counts.sum := by
  rw [Args.takeBack]
  split
  · rename_i worst hworst
    have hmem := List.argmax_mem hworst
    rw [List.mem_filter, decide_eq_true_eq] at hmem
    obtain ⟨hflexible, habove⟩ := hmem
    exact ⟨_, rfl, h.modify hflexible (Nat.sub_pos_of_lt habove), sum_modify_pred (by omega)⟩
  · rename_i hnone
    obtain ⟨i, hi, habove⟩ := h.exists_above_one hfree hmany
    have hmem : i ∈ args.flexible.filter fun i => 1 < counts.getD i 0 :=
      List.mem_filter.mpr ⟨hi, decide_eq_true habove⟩
    rw [List.argmax_eq_none.mp hnone] at hmem
    cases hmem

end Keeps

variable {rounds : ℕ}

theorem sum_counts_of_fixed (hflexible : args.flexible = []) : args.counts.sum = args.fixedLayers := by
  rw [counts, sum_fixed_getD, hflexible, List.map_nil, List.sum_nil, Nat.add_zero]

theorem tooFew_iff {counts : List ℕ} : args.tooFew counts ↔ counts.sum < args.layers.length := by
  rw [tooFew, decide_eq_true_eq]

theorem tooMany_iff {counts : List ℕ} : args.tooMany counts ↔ args.layers.length < counts.sum := by
  rw [tooMany, decide_eq_true_eq]

/-- The first loop leaves no layer over, and gives out no more than the shares come to. -/
theorem handOut_loop (hfree : (args.flexible.length : ℤ) ≤ args.freeLayers) (hflexible : args.flexible ≠ [])
    (hrounds : args.layers.length ≤ rounds) :
    ∃ counts, whileLoop args.tooFew args.handOut rounds args.counts = some (.ok counts) ∧ Keeps args counts ∧
      args.layers.length ≤ counts.sum ∧ counts.sum ≤ args.layers.length + args.flexible.length := by
  obtain ⟨counts, hloop, ⟨hkeeps, hle⟩, hdone⟩ := whileLoop_total args.tooFew args.handOut
    (fun counts => Keeps args counts ∧ counts.sum ≤ args.layers.length + args.flexible.length)
    (fun counts => args.layers.length - counts.sum)
    (by
      rintro counts ⟨hkeeps, -⟩ hfew
      rw [tooFew_iff] at hfew
      obtain ⟨counts', hbody, hkeeps', hsum⟩ := hkeeps.handOut hflexible
      exact ⟨counts', hbody, ⟨hkeeps', by omega⟩, by omega⟩)
    ⟨keeps_counts args, sum_counts_le hfree⟩ (Nat.sub_le_of_le_add (Nat.le_add_right_of_le hrounds))
  have hall : ¬ counts.sum < args.layers.length := by
    rw [← tooFew_iff, hdone]
    exact Bool.false_ne_true
  exact ⟨counts, hloop, hkeeps, by omega, hle⟩

/-- The second loop takes back what is given out too much. -/
theorem takeBack_loop (hfree : (args.flexible.length : ℤ) ≤ args.freeLayers) {counts : List ℕ}
    (hkeeps : Keeps args counts) (hall : args.layers.length ≤ counts.sum)
    (hrounds : counts.sum - args.layers.length ≤ rounds) :
    ∃ counts', whileLoop args.tooMany args.takeBack rounds counts = some (.ok counts') ∧ Keeps args counts' ∧
      counts'.sum = args.layers.length := by
  obtain ⟨counts', hloop, ⟨hkeeps', hle⟩, hdone⟩ := whileLoop_total args.tooMany args.takeBack
    (fun counts => Keeps args counts ∧ args.layers.length ≤ counts.sum)
    (fun counts => counts.sum - args.layers.length)
    (by
      rintro counts ⟨hkeeps, -⟩ hmany
      rw [tooMany_iff] at hmany
      obtain ⟨counts', hbody, hkeeps', hsum⟩ := hkeeps.takeBack hfree hmany
      exact ⟨counts', hbody, ⟨hkeeps', by omega⟩, by omega⟩)
    ⟨hkeeps, hall⟩ hrounds
  have hfit : ¬ args.layers.length < counts'.sum := by
    rw [← tooMany_iff, hdone]
    exact Bool.false_ne_true
  exact ⟨counts', hloop, hkeeps', by omega⟩

/-- The loops end with all layers given out, if there is a flexible stage or nothing to do. -/
theorem settle_ok (hfree : (args.flexible.length : ℤ) ≤ args.freeLayers)
    (hcovered : args.flexible ≠ [] ∨ args.layers.length ≤ args.fixedLayers)
    (hrounds : args.layers.length + args.nodes.length ≤ rounds) :
    ∃ counts, args.settle rounds = some (.ok counts) ∧ Keeps args counts ∧ counts.sum = args.layers.length := by
  by_cases hflexible : args.flexible = []
  · have hsum := sum_counts_of_fixed hflexible
    have hcovered := hcovered.resolve_left (not_not_intro hflexible)
    rw [freeLayers, hflexible, List.length_nil] at hfree
    have htake : args.counts.sum - args.layers.length ≤ rounds := by omega
    obtain ⟨counts, hloop, hkeeps, hall⟩ :=
      takeBack_loop (by rw [freeLayers, hflexible, List.length_nil]; exact hfree) (keeps_counts args) (by omega) htake
    have hfew : args.tooFew args.counts = false := by
      rw [← Bool.not_eq_true, tooFew_iff]
      omega
    rw [settle, whileLoop_of_not hfew]
    exact ⟨counts, hloop, hkeeps, hall⟩
  · have hfew : args.flexible.length ≤ args.nodes.length := by
      simpa [flexible] using List.length_filter_le _ (List.range args.nodes.length)
    have hhand : args.layers.length ≤ rounds := by omega
    obtain ⟨handed, hhanded, hkeeps, hall, hle⟩ := handOut_loop hfree hflexible hhand
    rw [settle, hhanded]
    exact takeBack_loop hfree hkeeps hall (by omega)

/-- Without a flexible stage there is none to take a layer that the fixed stages leave. -/
theorem settle_error (hflexible : args.flexible = []) (huncovered : args.fixedLayers < args.layers.length)
    (hrounds : 0 < rounds) : args.settle rounds = some (.error .valueError) := by
  have hbody : args.handOut args.counts = .error .valueError := by
    rw [handOut, hflexible, List.argmax_nil]
  have hfew : args.tooFew args.counts := by
    rw [tooFew_iff, sum_counts_of_fixed hflexible]
    exact huncovered
  rw [settle, whileLoop_error hfew hbody hrounds]

theorem map_place_rows (i start : ℕ) (pairs : List (Node × ℕ)) :
    (args.place i start pairs).map (fun p => (p.1.machine, p.1.gb)) = pairs.map fun q => (q.1.machine, q.1.gb) := by
  induction pairs generalizing i start with
  | nil => rfl
  | cons q pairs ih => rw [place, List.map_cons, ih, List.map_cons]

theorem map_place_layers (i start : ℕ) (pairs : List (Node × ℕ)) :
    (args.place i start pairs).map (fun p => (p.1.first, p.1.last)) = ofCounts start (pairs.map Prod.snd) := by
  induction pairs generalizing i start with
  | nil => rfl
  | cons q pairs ih => rw [place, List.map_cons, ih, List.map_cons, ofCounts]

/-- What a row says of its stage. -/
theorem getElem?_place {i start k : ℕ} {pairs : List (Node × ℕ)} {stage : Stage} {bytes : ℚ}
    (h : (args.place i start pairs)[k]? = some (stage, bytes)) :
    ∃ node count, pairs[k]? = some (node, count) ∧ stage.last = stage.first + count - 1 ∧
      bytes = args.used (i + k) stage.first stage.last count ∧ stage.used = bytes / giga := by
  induction pairs generalizing i start k with
  | nil => cases h
  | cons q pairs ih =>
      obtain ⟨node, count⟩ := q
      cases k with
      | zero =>
          obtain ⟨rfl, rfl⟩ := Prod.mk.inj (Option.some.inj h)
          exact ⟨node, count, rfl, rfl, rfl, rfl⟩
      | succ k =>
          have hrest : (args.place (i + 1) (start + count) pairs)[k]? = some (stage, bytes) := h
          obtain ⟨node', count', hpair, hlast, hbytes, hused⟩ := ih hrest
          refine ⟨node', count', hpair, hlast, ?_, hused⟩
          rw [hbytes, Nat.add_right_comm, Nat.add_assoc]

theorem giga_pos : 0 < giga := by norm_num [giga]

/-- In GB the rows of a machine come to what its stages use. -/
theorem sum_used (placed : List (Stage × ℚ)) (machine : String) (h : ∀ p ∈ placed, p.1.used = p.2 / giga) :
    (((placed.map Prod.fst).filter (·.machine == machine)).map Stage.used).sum = usedBy placed machine / giga := by
  rw [usedBy, List.filter_map, List.map_map, div_eq_mul_inv, ← List.sum_map_mul_right]
  congr 1
  apply List.map_congr_left
  intro p hp
  rw [Function.comp_apply, h p (List.mem_of_mem_filter hp), div_eq_mul_inv]

/-- A machine that is not overfull has room for what its stages use. -/
theorem usedBy_le {placed : List (Stage × ℚ)} (h : args.overfull placed = none) {node : Node} (hnode : node ∈ args.nodes) :
    usedBy placed node.machine ≤ args.capacity node.machine := by
  rw [overfull, List.find?_eq_none] at h
  have hmachine : node.machine ∈ (args.nodes.map Node.machine).eraseDups :=
    List.mem_eraseDups.mpr (List.mem_map_of_mem hnode)
  simpa using h node.machine hmachine

section Rows

variable {counts : List ℕ}

/-- In GB a machine that is not overfull uses no more than the planned part of its memory. -/
theorem sum_used_le (hfits : args.overfull (args.place 0 0 (args.nodes.zip counts)) = none) {node : Node}
    (hnode : node ∈ args.nodes) (hfirst : args.nodes.find? (·.machine == node.machine) = some node) :
    ((((args.place 0 0 (args.nodes.zip counts)).map Prod.fst).filter (·.machine == node.machine)).map
      Stage.used).sum ≤ 85 / 100 * node.gb := by
  have hplaced : ∀ p ∈ args.place 0 0 (args.nodes.zip counts), p.1.used = p.2 / giga := by
    rintro ⟨stage, bytes⟩ hp
    obtain ⟨i, hi⟩ := List.mem_iff_getElem?.mp hp
    obtain ⟨-, -, -, -, -, hused⟩ := getElem?_place hi
    exact hused
  have hle := usedBy_le hfits hnode
  rw [capacity, hfirst, Option.map_some, Option.getD_some] at hle
  rw [sum_used _ _ hplaced, div_le_iff₀ giga_pos]
  refine hle.trans_eq ?_
  rw [headroom]
  ring

variable (hkeeps : Keeps args counts)

include hkeeps

/-- A row has its node's number of layers and shows what they use. -/
theorem exists_of_row {i : ℕ} {stage : Stage}
    (h : ((args.place 0 0 (args.nodes.zip counts)).map Prod.fst)[i]? = some stage) :
    ∃ (node : Node) (count : ℕ), args.nodes[i]? = some node ∧ counts[i]? = some count ∧
      stage.last + 1 = stage.first + count ∧ stage.used = args.used i stage.first stage.last count / giga := by
  rw [List.getElem?_map, Option.map_eq_some_iff] at h
  obtain ⟨⟨stage, bytes⟩, hplace, rfl⟩ := h
  obtain ⟨node, count, hpair, hlast, hbytes, hused⟩ := getElem?_place hplace
  rw [List.getElem?_zip_eq_some] at hpair
  obtain ⟨hnode, hcount⟩ := hpair
  have hpos := hkeeps.pos i count hcount
  rw [Nat.zero_add] at hbytes
  refine ⟨node, count, hnode, hcount, ?_, by rw [hused, hbytes]⟩
  show stage.last + 1 = stage.first + count
  omega

theorem rows_eq_nodes : ((args.place 0 0 (args.nodes.zip counts)).map Prod.fst).map
    (fun stage => (stage.machine, stage.gb)) = args.nodes.map fun node => (node.machine, node.gb) := by
  have hnodes : (args.nodes.zip counts).map Prod.fst = args.nodes := List.map_fst_zip (Nat.le_of_eq hkeeps.length.symm)
  calc ((args.place 0 0 (args.nodes.zip counts)).map Prod.fst).map (fun stage => (stage.machine, stage.gb))
      = (args.place 0 0 (args.nodes.zip counts)).map fun p => (p.1.machine, p.1.gb) := by
        rw [List.map_map]
        rfl
    _ = (args.nodes.zip counts).map fun q => (q.1.machine, q.1.gb) := map_place_rows 0 0 _
    _ = ((args.nodes.zip counts).map Prod.fst).map fun node => (node.machine, node.gb) := by
        rw [List.map_map]
        rfl
    _ = args.nodes.map fun node => (node.machine, node.gb) := by rw [hnodes]

theorem consecutive_rows : Consecutive 0 counts.sum
    (((args.place 0 0 (args.nodes.zip counts)).map Prod.fst).map fun stage => (stage.first, stage.last)) := by
  have hcounts : (args.nodes.zip counts).map Prod.snd = counts := List.map_snd_zip (Nat.le_of_eq hkeeps.length)
  have hlayers := @map_place_layers args 0 0 (args.nodes.zip counts)
  have hconsecutive : Consecutive 0 (0 + counts.sum) (ofCounts 0 counts) := by
    apply consecutive_ofCounts
    intro count hcount
    obtain ⟨i, hi⟩ := List.mem_iff_getElem?.mp hcount
    exact hkeeps.pos i count hi
  rw [Nat.zero_add] at hconsecutive
  rw [hcounts] at hlayers
  rw [List.map_map]
  exact hlayers ▸ hconsecutive

/-- The rows for counts that the loops keep and that give out all layers make a valid split, if no
machine is overfull. -/
theorem validSplit (hall : counts.sum = args.layers.length)
    (hfits : args.overfull (args.place 0 0 (args.nodes.zip counts)) = none) :
    ValidSplit args ((args.place 0 0 (args.nodes.zip counts)).map Prod.fst) where
  rows := rows_eq_nodes hkeeps
  layers := hall ▸ consecutive_rows hkeeps
  counts i node stage count hnode hstage hgiven hpos := by
    obtain ⟨node', count', hnode', hcount', hlast, -⟩ := exists_of_row hkeeps hstage
    obtain rfl : node' = node := Option.some.inj (hnode'.symm.trans hnode)
    have hfixed : args.fixed i = some count := by
      rw [fixed, hnode, Option.bind_some, Node.fixed, hgiven]
      simp [hpos]
    have hcount := hkeeps.fixed i count hfixed
    obtain rfl : count' = count := Option.some.inj (hcount'.symm.trans hcount)
    exact hlast
  used i stage hstage := by
    obtain ⟨node, count, -, hcount, hlast, hused⟩ := exists_of_row hkeeps hstage
    rw [hused, div_mul_cancel₀ _ giga_pos.ne', hlast, Nat.add_sub_cancel_left]
  memory _ hnode hfirst := sum_used_le hfits hnode hfirst

end Rows

end Args

open Args

variable {args : Args} {rounds : ℕ}

/-- With a flexible stage, or with all layers fixed, the loops end and the split is valid or refused. -/
theorem plan_clean (hlayers : args.layers ≠ []) (hnodes : args.nodes ≠ [])
    (hcovered : args.flexible ≠ [] ∨ args.layers.length ≤ args.fixedLayers)
    (hrounds : args.layers.length + args.nodes.length ≤ rounds) : Clean args (args.plan rounds) := by
  rw [plan, if_neg hlayers, if_neg hnodes]
  split
  · exact trivial
  · rename_i hfree
    obtain ⟨counts, hsettle, hkeeps, hall⟩ := settle_ok (Int.not_lt.mp hfree) hcovered hrounds
    rw [hsettle]
    dsimp only
    split
    · exact trivial
    · exact validSplit hkeeps hall ‹_›

/-- With all stages fixed and layers left over there is no stage to give them to. -/
theorem plan_uncovered (hlayers : args.layers ≠ []) (hnodes : args.nodes ≠ []) (hflexible : args.flexible = [])
    (huncovered : args.fixedLayers < args.layers.length) (hrounds : 0 < rounds) :
    args.plan rounds = .raised .valueError := by
  have hfree : ¬ args.freeLayers < args.flexible.length := by
    rw [freeLayers, hflexible, List.length_nil]
    omega
  rw [plan, if_neg hlayers, if_neg hnodes, if_neg hfree, settle_error hflexible huncovered hrounds]

/-- Planning ends with a valid split or a refusal exactly if some stage is flexible or the fixed stages
take all layers. -/
theorem plan_clean_iff (args : Args) (rounds : ℕ) (hlayers : args.layers ≠ []) (hnodes : args.nodes ≠ [])
    (hrounds : args.layers.length + args.nodes.length ≤ rounds) :
    Clean args (args.plan rounds) ↔
      (∃ node ∈ args.nodes, node.fixed = none) ∨ args.layers.length ≤ args.fixedLayers := by
  have hpositive : 0 < args.layers.length := List.length_pos_iff.mpr hlayers
  rw [← flexible_ne_nil]
  constructor
  · intro hclean
    by_contra huncovered
    obtain ⟨hflexible, huncovered⟩ := not_or.mp huncovered
    rw [plan_uncovered hlayers hnodes (not_ne_iff.mp hflexible) (Nat.not_le.mp huncovered) (by omega)] at hclean
    exact hclean
  · intro hcovered
    exact plan_clean hlayers hnodes hcovered hrounds

/-- Forty layers, and a machine with the first two and the last two of them. -/
def sharedMachine : Args where
  layers := List.replicate 40 100000000
  embed := 500000000
  head := 500000000
  kvWidth := 1024
  nodes := [⟨"me", 6, some 2⟩, ⟨"alice", 10, none⟩, ⟨"bob", 10, none⟩, ⟨"me", 6, some 2⟩]
  quantize := some .nf4
  dtype := .float16
  context := 1024

theorem plan_sharedMachine : Clean sharedMachine (sharedMachine.plan 44) :=
  (plan_clean_iff sharedMachine 44 (by decide) (by decide) (by decide)).mpr
    (.inl ⟨⟨"alice", 10, none⟩, List.mem_cons_of_mem _ List.mem_cons_self, rfl⟩)

/-- Forty layers for two machines with two layers each. -/
def twoFixed : Args where
  layers := List.replicate 40 100000000
  embed := 500000000
  head := 500000000
  kvWidth := 1024
  nodes := [⟨"a", 10, some 2⟩, ⟨"b", 10, some 2⟩]
  quantize := some .nf4
  dtype := .float16
  context := 1024

theorem plan_twoFixed : (∀ size ∈ twoFixed.layers, 0 < size) ∧
    (∀ node ∈ twoFixed.nodes, 0 < node.gb ∧ ∃ count ∈ node.count, 0 < count) ∧
    twoFixed.plan 42 = .raised .valueError ∧ ¬ Clean twoFixed (twoFixed.plan 42) := by
  have hplan : twoFixed.plan 42 = .raised .valueError :=
    plan_uncovered (by decide) (by decide) (by decide) (by decide) (by decide)
  refine ⟨fun size hsize => ?_, fun node hnode => ?_, hplan, ?_⟩
  · rw [List.eq_of_mem_replicate hsize]
    decide
  · simp only [twoFixed, List.mem_cons, List.not_mem_nil, or_false] at hnode
    rcases hnode with rfl | rfl <;> exact ⟨by norm_num, 2, rfl, by decide⟩
  · rw [hplan]
    exact id

end Distllm.LayerPlan
