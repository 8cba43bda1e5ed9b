import Mathlib.Algebra.BigOperators.Field
import Mathlib.Algebra.Order.Field.Basic
import Mathlib.Analysis.Complex.Exponential
import Mathlib.Data.Fintype.Lattice
import Mathlib.Order.WithBot
import Mathlib.Tactic.FinCases
import Distllm.Ranking

/-! Picking the next token from the logits (`hf.py`), in exact arithmetic: temperature, the `top_k`
mask, the `top_p` mask and the draw. A masked logit is minus infinity. -/

namespace Distllm.Sampling

open Ranked (Ranking)

variable {𝕜 : Type} [Field 𝕜] [LinearOrder 𝕜]

/-! ### Tensors -/

/-- The logits of a vocabulary, some of them masked. -/
abbrev Logits (𝕜 : Type) (vocab : ℕ) : Type := Fin vocab → WithBot 𝕜

/-- What is used of `torch`. Where values are equal, it may take them in any order; `topk` gives the
first values of a ranking. -/
structure Torch (𝕜 : Type) [Field 𝕜] [LinearOrder 𝕜] where
  exp : 𝕜 → 𝕜
  exp_pos : ∀ x, 0 < exp x
  argmax : {vocab : ℕ} → [NeZero vocab] → (x : Fin vocab → 𝕜) → Fin vocab
  le_argmax : ∀ {vocab : ℕ} [NeZero vocab] (x : Fin vocab → 𝕜) (t : Fin vocab), x t ≤ x (argmax x)
  topk : {vocab : ℕ} → (x : Logits 𝕜 vocab) → Ranking x
  sort : {vocab : ℕ} → (x : Logits 𝕜 vocab) → Ranking x

variable {vocab : ℕ}

/-- `masked_fill` with minus infinity -/
def maskedFill (x : Logits 𝕜 vocab) (mask : Fin vocab → Bool) : Logits 𝕜 vocab :=
  fun t => if mask t then ⊥ else x t

/-- `cumsum` -/
def cumsum (w : Fin vocab → 𝕜) : Fin vocab → 𝕜 := fun i => ∑ j ∈ Finset.Iic i, w j

/-- `scatter` of what is found at each rank to the place where it was found -/
def scatter (order : Equiv.Perm (Fin vocab)) (src : Fin vocab → Bool) : Fin vocab → Bool :=
  fun t => src (order.symm t)

/-- The exponential of minus infinity is zero. -/
def weight (torch : Torch 𝕜) (x : WithBot 𝕜) : 𝕜 := (x.map torch.exp).unbotD 0

def softmax (torch : Torch 𝕜) (x : Logits 𝕜 vocab) : Fin vocab → 𝕜 :=
  fun t => weight torch (x t) / ∑ u, weight torch (x u)

/-! ### Parameters -/

structure SamplingParams (𝕜 : Type) [Field 𝕜] [LinearOrder 𝕜] where
  temperature : 𝕜
  topK : Option ℤ
  topP : Option 𝕜
  temperature_nonneg : 0 ≤ temperature
  one_le_topK : ∀ k ∈ topK, 1 ≤ k
  topP_mem : ∀ p ∈ topP, 0 < p ∧ p ≤ 1

namespace SamplingParams

/-- `__post_init__`: the text of the `ValueError`, or the parameters. -/
def postInit (temperature : 𝕜) (topK : Option ℤ) (topP : Option 𝕜) :
    Except String (SamplingParams 𝕜) :=
  if htemperature : temperature < 0 then .error "temperature must be >= 0"
  else if htopK : ∃ k ∈ topK, k < 1 then .error "top_k must be >= 1"
  else if htopP : ∃ p ∈ topP, ¬ (0 < p ∧ p ≤ 1) then .error "top_p must be in (0, 1]"
  else .ok ⟨temperature, topK, topP, not_lt.mp htemperature,
    fun k hk => not_lt.mp fun h => htopK ⟨k, hk, h⟩,
    fun p hp => not_not.mp fun h => htopP ⟨p, hp, h⟩⟩

/-- The parameters that there are pass every check. -/
theorem postInit_eq_ok (params : SamplingParams 𝕜) :
    postInit params.temperature params.topK params.topP = .ok params := by
  have htopK : ¬ ∃ k ∈ params.topK, k < 1 := fun ⟨k, hk, h⟩ =>
    (params.one_le_topK k hk).not_gt h
  have htopP : ¬ ∃ p ∈ params.topP, ¬ (0 < p ∧ p ≤ 1) := fun ⟨p, hp, h⟩ =>
    h (params.topP_mem p hp)
  rw [postInit, dif_neg params.temperature_nonneg.not_gt, dif_neg htopK, dif_neg htopP]

def greedy (params : SamplingParams 𝕜) : Bool := params.temperature = 0 || params.topK = some 1

end SamplingParams

/-! ### `sample_next` -/

variable (torch : Torch 𝕜) (params : SamplingParams 𝕜)

/-- The logits at the temperature. -/
def scaled (logits : Fin vocab → 𝕜) : Logits 𝕜 vocab := fun t => ↑(logits t / params.temperature)

/-- The `top_k` mask: what is below the last of the `k` largest logits. -/
def maskTopK (x : Logits 𝕜 vocab) : Logits 𝕜 vocab :=
  match htopK : params.topK with
  | none => x
  | some k =>
    if h : k < vocab then
      have hlast : k.toNat - 1 < vocab := by
        have hk := params.one_le_topK k htopK
        omega
      let kth := x ((torch.topk x).order ⟨k.toNat - 1, hlast⟩)
      maskedFill x fun t => x t < kth
    else x

/-- The `top_p` mask: what has `top_p` of the mass before it, in the order of the sort. -/
def maskTopP (x : Logits 𝕜 vocab) : Logits 𝕜 vocab :=
  match params.topP with
  | none => x
  | some p =>
    if p < 1 then
      let order := (torch.sort x).order
      let sorted := x ∘ order
      let cumulative := cumsum (softmax torch sorted)
      let drop := fun i => decide (p ≤ cumulative i - softmax torch sorted i)
      maskedFill x (scatter order drop)
    else x

/-- `sample_next`; `multinomial` draws a token from the probabilities. -/
def sampleNext [NeZero vocab] (multinomial : (Fin vocab → 𝕜) → Fin vocab)
    (logits : Fin vocab → 𝕜) : Fin vocab :=
  if params.greedy then torch.argmax logits
  else multinomial (softmax torch (maskTopP torch params (maskTopK torch params
    (scaled params logits))))

/-! ### What the masks are for -/

/-- What the `top_k` mask is for. Without `top_k` nothing is left out; of more tokens than `top_k` those
that are too many have equal logits. -/
structure TopK (topK : Option ℤ) (logits : Fin vocab → 𝕜) (K : Finset (Fin vocab)) : Prop where
  card : topK.elim (vocab : ℤ) (min · vocab) ≤ K.card
  below : ∀ t ∉ K, ∀ u ∈ K, logits t < logits u
  above : ∀ k ∈ topK, ∀ t ∈ K, ((Finset.univ.filter fun u => logits t < logits u).card : ℤ) < k

/-- The softmax over some of the tokens. -/
def share (torch : Torch 𝕜) (temperature : 𝕜) (logits : Fin vocab → 𝕜) (K : Finset (Fin vocab))
    (t : Fin vocab) : 𝕜 :=
  torch.exp (logits t / temperature) / ∑ u ∈ K, torch.exp (logits u / temperature)

/-- The smallest set of the most likely tokens whose mass reaches the bound. The lowest-ranked token
is the last in the order of the sort, or any that has no greater logit than the others. -/
structure IsNucleus (logits mass : Fin vocab → 𝕜) (rank : Fin vocab → Fin vocab) (p : 𝕜)
    (K S : Finset (Fin vocab)) : Prop where
  nonempty : S.Nonempty
  subset : S ⊆ K
  argmax : ∃ t ∈ S, ∀ u, logits u ≤ logits t
  upward : ∀ t ∈ K, ∀ u ∈ S, logits u < logits t → t ∈ S
  reaches : p ≤ ∑ t ∈ S, mass t
  last : ∀ t ∈ S, (∀ u ∈ S, rank u ≤ rank t) → ∑ u ∈ S.erase t, mass u < p
  least : ∀ t ∈ S, (∀ u ∈ S, logits t ≤ logits u) → ∑ u ∈ S.erase t, mass u < p

/-! ### Masks -/

/-- The tokens that are not masked. -/
def left (x : Logits 𝕜 vocab) : Finset (Fin vocab) := Finset.univ.filter fun t => x t ≠ ⊥

variable {torch params} {x : Logits 𝕜 vocab} {logits : Fin vocab → 𝕜} {t u : Fin vocab} {p : 𝕜}

omit [Field 𝕜] in
theorem mem_left : t ∈ left x ↔ x t ≠ ⊥ := by
  rw [left, Finset.mem_filter, and_iff_right (Finset.mem_univ t)]

omit [Field 𝕜] in
theorem mem_left_maskedFill {mask : Fin vocab → Bool} :
    t ∈ left (maskedFill x mask) ↔ x t ≠ ⊥ ∧ mask t = false := by
  rw [mem_left, maskedFill]
  cases mask t with
  | true => simp
  | false => simp

/-- The `top_k` mask leaves everything, or what is no smaller than the value at the last rank. -/
theorem maskTopK_cases (torch : Torch 𝕜) (params : SamplingParams 𝕜) (x : Logits 𝕜 vocab) :
    (maskTopK torch params x = x ∧ ∀ k ∈ params.topK, (vocab : ℤ) ≤ k) ∨
      ∃ k ∈ params.topK, ∃ i : Fin vocab, k = i + 1 ∧
        maskTopK torch params x = maskedFill x fun t => x t < x ((torch.topk x).order i) := by
  unfold maskTopK
  split
  · next hnone => exact .inl ⟨rfl, fun k hk => by rw [hnone] at hk; cases hk⟩
  · next k hsome =>
      have hk := params.one_le_topK k hsome
      split
      · next h => exact .inr ⟨k, hsome, ⟨k.toNat - 1, by omega⟩, by dsimp only; omega, rfl⟩
      · next h =>
          refine .inl ⟨rfl, fun k' hk' => ?_⟩
          obtain rfl := Option.some.inj (hsome.symm.trans hk')
          exact not_lt.mp h

theorem maskTopK_eq_of_mem (h : t ∈ left (maskTopK torch params x)) :
    maskTopK torch params x t = x t := by
  rcases maskTopK_cases torch params x with ⟨heq, -⟩ | ⟨k, -, i, -, heq⟩
  · rw [heq]
  · rw [heq, mem_left_maskedFill] at h
    rw [heq, maskedFill, if_neg (ne_true_of_eq_false h.2)]

theorem SamplingParams.temperature_pos (h : params.greedy = false) : 0 < params.temperature := by
  rw [SamplingParams.greedy, Bool.or_eq_false_iff, decide_eq_false_iff_not] at h
  exact params.temperature_nonneg.lt_of_ne' h.1

theorem scaled_ne_bot : scaled params logits t ≠ ⊥ := WithBot.coe_ne_bot

theorem left_scaled (params : SamplingParams 𝕜) (logits : Fin vocab → 𝕜) :
    left (scaled params logits) = Finset.univ :=
  Finset.filter_true_of_mem fun _ _ => scaled_ne_bot

/-! ### Softmax -/

@[simp] theorem weight_bot (torch : Torch 𝕜) : weight torch ⊥ = 0 := rfl

@[simp] theorem weight_coe (torch : Torch 𝕜) (v : 𝕜) : weight torch v = torch.exp v := rfl

theorem weight_pos {v : WithBot 𝕜} (h : v ≠ ⊥) : 0 < weight torch v := by
  obtain ⟨v, rfl⟩ := WithBot.ne_bot_iff_exists.mp h
  exact torch.exp_pos v

theorem weight_nonneg (torch : Torch 𝕜) (v : WithBot 𝕜) : 0 ≤ weight torch v := by
  by_cases h : v = ⊥
  · rw [h, weight_bot]
  · exact (weight_pos h).le

theorem softmax_comp (order : Equiv.Perm (Fin vocab)) :
    softmax torch (x ∘ order) = softmax torch x ∘ order := by
  funext i
  have htotal := Equiv.sum_comp order fun u => weight torch (x u)
  simp only [softmax, Function.comp_apply, htotal]

theorem softmax_bot (h : x t = ⊥) : softmax torch x t = 0 := by
  rw [softmax, h, weight_bot, zero_div]

variable (torch) in
/-- The mass of a token among those that are not masked. -/
theorem softmax_eq_share {temperature : 𝕜}
    (hx : ∀ t ∈ left x, x t = ↑(logits t / temperature)) (ht : t ∈ left x) :
    softmax torch x t = share torch temperature logits (left x) t := by
  have htotal : ∑ u, weight torch (x u) = ∑ u ∈ left x, torch.exp (logits u / temperature) := by
    calc ∑ u, weight torch (x u)
        = ∑ u ∈ left x, weight torch (x u) := by
          refine (Finset.sum_subset (Finset.subset_univ _) fun u _ hu => ?_).symm
          rw [not_not.mp (mem_left.not.mp hu), weight_bot]
      _ = _ := Finset.sum_congr rfl fun u hu => by rw [hx u hu, weight_coe]
  rw [softmax, share, htotal, hx t ht, weight_coe]

variable [IsStrictOrderedRing 𝕜]

theorem total_pos (h : (left x).Nonempty) : 0 < ∑ u, weight torch (x u) := by
  obtain ⟨t, ht⟩ := h
  exact Finset.sum_pos' (fun u _ => weight_nonneg torch (x u))
    ⟨t, Finset.mem_univ t, weight_pos (mem_left.mp ht)⟩

theorem softmax_nonneg (torch : Torch 𝕜) (x : Logits 𝕜 vocab) (t : Fin vocab) :
    0 ≤ softmax torch x t :=
  div_nonneg (weight_nonneg torch (x t))
    (Finset.sum_nonneg fun u _ => weight_nonneg torch (x u))

theorem sum_softmax (h : (left x).Nonempty) : ∑ t, softmax torch x t = 1 := by
  simp only [softmax]
  rw [← Finset.sum_div, div_self (total_pos h).ne']

theorem softmax_pos_iff (h : (left x).Nonempty) : 0 < softmax torch x t ↔ t ∈ left x := by
  constructor
  · intro hpos
    exact mem_left.mpr fun hbot => hpos.ne' (softmax_bot hbot)
  · exact fun ht => div_pos (weight_pos (mem_left.mp ht)) (total_pos h)

/-! ### What the `top_p` mask leaves -/

omit [LinearOrder 𝕜] [IsStrictOrderedRing 𝕜] in
/-- What is dropped has the bound before it. -/
theorem cumsum_sub (w : Fin vocab → 𝕜) (i : Fin vocab) : cumsum w i - w i = Ranked.before w i := by
  rw [cumsum, Ranked.before, ← Finset.Iio_insert, Finset.sum_insert Finset.notMem_Iio_self,
    add_sub_cancel_left]

omit [IsStrictOrderedRing 𝕜] in
theorem mem_left_maskTopP (hp : params.topP = some p) (hlt : p < 1) :
    t ∈ left (maskTopP torch params x) ↔
      x t ≠ ⊥ ∧ t ∈ (torch.sort x).cut (softmax torch x) p := by
  unfold maskTopP
  rw [hp]
  dsimp only
  rw [if_pos hlt, mem_left_maskedFill, scatter, cumsum_sub, softmax_comp, Ranking.mem_cut,
    Ranked.mem_kept, decide_eq_false_iff_not, not_le]

/-- What is masked has all of the mass before it. -/
theorem before_of_bot (r : Ranking x) (h : (left x).Nonempty) {i : Fin vocab}
    (hi : x (r.order i) = ⊥) : Ranked.before (softmax torch x ∘ r.order) i = 1 := by
  have hrest : ∀ j ∈ Finset.univ, j ∉ Finset.Iio i → (softmax torch x ∘ r.order) j = 0 := by
    intro j _ hj
    have hle : x (r.order j) ≤ x (r.order i) := r.antitone (not_lt.mp (Finset.mem_Iio.not.mp hj))
    exact softmax_bot (le_bot_iff.mp (hle.trans_eq hi))
  calc Ranked.before (softmax torch x ∘ r.order) i
      = ∑ j, (softmax torch x ∘ r.order) j := Finset.sum_subset (Finset.subset_univ _) hrest
    _ = ∑ t, softmax torch x t := Equiv.sum_comp r.order (softmax torch x)
    _ = 1 := sum_softmax h

/-- The tokens that are left are those of the cut: none of them was masked before. -/
theorem left_maskTopP (hp : params.topP = some p) (hlt : p < 1) (h : (left x).Nonempty) :
    left (maskTopP torch params x) = (torch.sort x).cut (softmax torch x) p := by
  ext t
  rw [mem_left_maskTopP hp hlt]
  apply and_iff_right_of_imp
  intro hcut hbot
  rw [Ranking.mem_cut, Ranked.mem_kept, before_of_bot (torch.sort x) h
    (by rw [Equiv.apply_symm_apply]; exact hbot)] at hcut
  exact hcut.not_gt hlt

/-! ### The candidates -/

theorem scaled_lt_scaled (hpos : 0 < params.temperature) :
    scaled params logits t < scaled params logits u ↔ logits t < logits u :=
  WithBot.coe_lt_coe.trans (div_lt_div_iff_of_pos_right hpos)

theorem topK_left (torch : Torch 𝕜) (logits : Fin vocab → 𝕜) (hpos : 0 < params.temperature) :
    TopK params.topK logits (left (maskTopK torch params (scaled params logits))) := by
  rcases maskTopK_cases torch params (scaled params logits) with ⟨heq, hall⟩ | ⟨k, hk, i, hi, heq⟩
  · rw [heq, left_scaled]
    refine ⟨?_, fun t ht => absurd (Finset.mem_univ t) ht, fun k hk t _ => ?_⟩
    · rw [Finset.card_univ, Fintype.card_fin]
      cases params.topK with
      | none => exact le_rfl
      | some k => exact min_le_right _ _
    · -- a token is not above itself
      have hproper : (Finset.univ.filter fun u => logits t < logits u) ⊂ Finset.univ :=
        Finset.filter_ssubset.mpr ⟨t, Finset.mem_univ t, lt_irrefl _⟩
      have hcard := Finset.card_lt_card hproper
      rw [Finset.card_univ, Fintype.card_fin] at hcard
      have hvocab := hall k hk
      omega
  · have hmem : ∀ t, t ∈ left (maskTopK torch params (scaled params logits)) ↔
        scaled params logits ((torch.topk (scaled params logits)).order i) ≤
          scaled params logits t := by
      intro t
      rw [heq, mem_left_maskedFill, and_iff_right scaled_ne_bot, decide_eq_false_iff_not,
        not_lt]
    refine ⟨?_, fun t ht u hu => ?_, fun k' hk' t ht => ?_⟩
    · have hrank := (torch.topk (scaled params logits)).rank_lt_card i
      rw [← Finset.filter_congr fun t _ => hmem t, Finset.filter_univ_mem] at hrank
      rw [Option.mem_def.mp hk, Option.elim_some]
      omega
    · exact (scaled_lt_scaled hpos).mp
        ((not_le.mp ((hmem t).not.mp ht)).trans_le ((hmem u).mp hu))
    · obtain rfl := Option.some.inj (hk.symm.trans hk')
      have hhigher : (Finset.univ.filter fun u => logits t < logits u) ⊆
          Finset.univ.filter fun u =>
            scaled params logits ((torch.topk (scaled params logits)).order i) < scaled params logits u :=
        Finset.monotone_filter_right _ fun u _ hu =>
          ((hmem t).mp ht).trans_lt ((scaled_lt_scaled hpos).mpr hu)
      have hcard := (Finset.card_le_card hhigher).trans
        ((torch.topk (scaled params logits)).card_lt_le_rank i)
      omega

omit [IsStrictOrderedRing 𝕜] in
/-- Where tokens with equal logits have equal mass, any token with the least logit will do for the
one that comes last. -/
theorem sum_erase_least {mass : Fin vocab → 𝕜} {rank : Fin vocab → Fin vocab}
    {S : Finset (Fin vocab)} (hmass : ∀ t u, logits t = logits u → mass t = mass u)
    (hrank : ∀ t ∈ S, ∀ u ∈ S, rank t ≤ rank u → logits u ≤ logits t)
    (hlast : ∀ t ∈ S, (∀ u ∈ S, rank u ≤ rank t) → ∑ u ∈ S.erase t, mass u < p) :
    ∀ t ∈ S, (∀ u ∈ S, logits t ≤ logits u) → ∑ u ∈ S.erase t, mass u < p := by
  intro t ht hleast
  obtain ⟨last, hmem, hmax⟩ := Finset.exists_max_image S rank ⟨t, ht⟩
  have hequal : logits t = logits last :=
    (hleast last hmem).antisymm (hrank t ht last hmem (hmax t ht))
  calc ∑ u ∈ S.erase t, mass u
      = ∑ u ∈ S, mass u - mass last := by rw [Finset.sum_erase_eq_sub ht, hmass t last hequal]
    _ = ∑ u ∈ S.erase last, mass u := (Finset.sum_erase_eq_sub hmem).symm
    _ < p := hlast last hmem hmax

/-- The cut of the logits that are left, as `top_p` makes it. -/
theorem isNucleus_left {x : Logits 𝕜 vocab} (torch : Torch 𝕜) (hpos : 0 < params.temperature)
    (hx : ∀ t ∈ left x, x t = scaled params logits t) (hleft : (left x).Nonempty)
    (hbelow : ∀ t ∉ left x, ∀ u ∈ left x, logits t < logits u) (hp : params.topP = some p)
    (hlt : p < 1) :
    IsNucleus logits (share torch params.temperature logits (left x)) (torch.sort x).order.symm p
      (left x) (left (maskTopP torch params x)) := by
  have hlogits : ∀ t ∈ left x, ∀ u ∈ left x, (x t < x u ↔ logits t < logits u) :=
    fun t ht u hu => by rw [hx t ht, hx u hu, scaled_lt_scaled hpos]
  have hS : left (maskTopP torch params x) = (torch.sort x).cut (softmax torch x) p :=
    left_maskTopP hp hlt hleft
  have hsubset : left (maskTopP torch params x) ⊆ left x := fun t ht =>
    mem_left.mpr ((mem_left_maskTopP hp hlt).mp ht).1
  have hshare : ∀ T ⊆ left x, ∑ t ∈ T, share torch params.temperature logits (left x) t =
      ∑ t ∈ T, softmax torch x t := fun T hT =>
    Finset.sum_congr rfl fun t ht => (softmax_eq_share torch hx (hT ht)).symm
  have hlast : ∀ t ∈ left (maskTopP torch params x), (∀ u ∈ left (maskTopP torch params x),
      (torch.sort x).order.symm u ≤ (torch.sort x).order.symm t) →
      ∑ u ∈ (left (maskTopP torch params x)).erase t,
        share torch params.temperature logits (left x) u < p := by
    intro t ht hlowest
    rw [hshare _ ((Finset.erase_subset _ _).trans hsubset)]
    rw [hS] at ht hlowest ⊢
    exact (torch.sort x).sum_erase_cut_lt (softmax_nonneg torch x) ht hlowest
  obtain ⟨top, htop, hmax⟩ := (torch.sort x).exists_max_mem_cut (m := softmax torch x)
    (Fin.pos hleft.choose) (params.topP_mem p hp).1
  rw [← hS] at htop
  have hleast := sum_erase_least (fun t u h => by rw [share, share, h])
    (fun t ht u hu hrank => not_lt.mp fun h =>
      ((torch.sort x).apply_le_of_rank_le hrank).not_gt
        ((hlogits t (hsubset ht) u (hsubset hu)).mpr h)) hlast
  refine ⟨⟨top, htop⟩, hsubset, ⟨top, htop, fun u => ?_⟩, fun t ht u hu hut => ?_, ?_, hlast,
    hleast⟩
  · by_cases hu : u ∈ left x
    · exact not_lt.mp fun h => (hmax u).not_gt ((hlogits top (hsubset htop) u hu).mpr h)
    · exact (hbelow u hu top (hsubset htop)).le
  · have hxut : x u < x t := (hlogits u (hsubset hu) t ht).mpr hut
    rw [hS] at hu ⊢
    exact (torch.sort x).mem_cut_of_lt (softmax_nonneg torch x) hxut hu
  · rw [hshare _ hsubset, hS]
    apply (torch.sort x).le_sum_cut (softmax_nonneg torch x)
    rw [sum_softmax hleft]
    exact hlt.le

variable [NeZero vocab]

theorem nonempty_left_maskTopK (torch : Torch 𝕜) (logits : Fin vocab → 𝕜)
    (hpos : 0 < params.temperature) :
    (left (maskTopK torch params (scaled params logits))).Nonempty := by
  have hcard := (topK_left torch logits hpos).card
  have hvocab : 0 < vocab := NeZero.pos vocab
  rw [← Finset.card_pos]
  cases htopK : params.topK with
  | none =>
      rw [htopK, Option.elim_none] at hcard
      omega
  | some k =>
      have hk := params.one_le_topK k htopK
      rw [htopK, Option.elim_some] at hcard
      omega

/-- The two masks of `sample_next` leave the tokens that `top_k` and `top_p` are meant to leave. -/
theorem candidates (torch : Torch 𝕜) (params : SamplingParams 𝕜) (logits : Fin vocab → 𝕜) (p : 𝕜)
    (hgreedy : params.greedy = false) (hp : params.topP = some p) (hlt : p < 1) :
    let afterTopK := maskTopK torch params (scaled params logits)
    TopK params.topK logits (left afterTopK) ∧
      IsNucleus logits (share torch params.temperature logits (left afterTopK))
        (torch.sort afterTopK).order.symm p (left afterTopK)
        (left (maskTopP torch params afterTopK)) := by
  intro afterTopK
  have hpos : 0 < params.temperature := SamplingParams.temperature_pos hgreedy
  have htopK : TopK params.topK logits (left afterTopK) := topK_left torch logits hpos
  exact ⟨htopK, isNucleus_left torch hpos (fun t ht => maskTopK_eq_of_mem ht)
    (nonempty_left_maskTopK torch logits hpos) htopK.below hp hlt⟩

/-- `torch` over the real numbers. -/
noncomputable def exact : Torch ℝ where
  exp := Real.exp
  exp_pos := Real.exp_pos
  argmax x := (Finite.exists_max x).choose
  le_argmax x := (Finite.exists_max x).choose_spec
  topk := Ranking.stable
  sort := Ranking.stable

/-- Three logits. -/
noncomputable def three : Fin 3 → ℝ := ![2, 1, 0]

theorem three_lt {t u : Fin 3} : three t < three u ↔ u < t := by
  fin_cases t <;> fin_cases u <;> simp [three]

/-- Two of them are above the last, which `top_k = 2` therefore leaves out. -/
theorem TopK.eq_three {K : Finset (Fin 3)} (h : TopK (some 2) three K) : K = {0, 1} := by
  have hlast : (2 : Fin 3) ∉ K := by
    intro hmem
    have habove := h.above 2 rfl 2 hmem
    simp only [three_lt] at habove
    exact absurd habove (by decide)
  have hsub : K ⊆ {0, 1} := by
    intro t ht
    have hothers : ∀ t : Fin 3, t ≠ 2 → t ∈ ({0, 1} : Finset (Fin 3)) := by decide
    exact hothers t fun heq => hlast (heq ▸ ht)
  exact Finset.eq_of_subset_of_card_le hsub (by simpa using h.card)

/-- The first has more than half of the mass of the first two. -/
theorem IsNucleus.eq_three {rank : Fin 3 → Fin 3} {S : Finset (Fin 3)}
    (h : IsNucleus three (share exact 1 three {0, 1}) rank (1 / 2) {0, 1} S) : S = {0} := by
  have hfirst : 0 ∈ S := by
    obtain ⟨t, ht, hmax⟩ := h.argmax
    have hle := hmax 0
    rw [← not_lt, three_lt] at hle
    have hzero : t = 0 := by omega
    exact hzero ▸ ht
  have hsecond : 1 ∉ S := by
    intro hmem
    have hall : S = {0, 1} := by
      refine Finset.Subset.antisymm h.subset (Finset.insert_subset hfirst ?_)
      exact Finset.singleton_subset_iff.mpr hmem
    have hleast : ∀ u ∈ S, three 1 ≤ three u := by
      have hothers : ∀ u ∈ ({0, 1} : Finset (Fin 3)), ¬1 < u := by decide
      intro u hu
      rw [← not_lt, three_lt]
      exact hothers u (hall ▸ hu)
    have hmass := h.least 1 hmem hleast
    have herase : ({0, 1} : Finset (Fin 3)).erase 1 = {0} := by decide
    rw [hall, herase, Finset.sum_singleton, share, Finset.sum_pair (by decide)] at hmass
    have hexp : exact.exp (three 1 / 1) < exact.exp (three 0 / 1) := by
      apply Real.exp_lt_exp.mpr
      norm_num [three]
    have hpos := exact.exp_pos (three 1 / 1)
    rw [div_lt_div_iff₀ (by linarith) (by norm_num)] at hmass
    linarith
  refine Finset.Subset.antisymm (fun t ht => ?_) (Finset.singleton_subset_iff.mpr hfirst)
  rcases Finset.mem_insert.mp (h.subset ht) with rfl | hone
  · exact Finset.mem_singleton_self _
  · rw [Finset.mem_singleton.mp hone] at ht
    exact absurd ht hsecond

/-- `top_k` leaves the first two of three tokens, and `top_p` the first. -/
theorem candidates_sample :
    let params : SamplingParams ℝ := ⟨1, some 2, some (1 / 2), by norm_num,
      fun k hk => by cases hk; decide, fun p hp => by cases hp; norm_num⟩
    let afterTopK := maskTopK exact params (scaled params three)
    left afterTopK = {0, 1} ∧ left (maskTopP exact params afterTopK) = {0} := by
  intro params afterTopK
  have hgreedy : params.greedy = false := by simp [SamplingParams.greedy, params]
  obtain ⟨htopK, hnucleus⟩ := candidates exact params three (1 / 2) hgreedy rfl (by norm_num)
  have hleft : left afterTopK = {0, 1} := htopK.eq_three
  rw [hleft] at hnucleus
  exact ⟨hleft, hnucleus.eq_three⟩

/-! ### The draw -/

/-- A draw of a token that has some mass is a draw of a token that is left. -/
theorem sampleNext_mem {multinomial : (Fin vocab → 𝕜) → Fin vocab} (hgreedy : params.greedy = false)
    (hdraw : ∀ w : Fin vocab → 𝕜, (∃ t, 0 < w t) → 0 < w (multinomial w))
    (hleft : (left (maskTopP torch params
      (maskTopK torch params (scaled params logits)))).Nonempty) :
    sampleNext torch params multinomial logits ∈
      left (maskTopP torch params (maskTopK torch params (scaled params logits))) := by
  rw [sampleNext, if_neg (ne_true_of_eq_false hgreedy)]
  refine (softmax_pos_iff hleft).mp (hdraw _ ?_)
  obtain ⟨t, ht⟩ := hleft
  exact ⟨t, (softmax_pos_iff ⟨t, ht⟩).mpr ht⟩

end Distllm.Sampling
