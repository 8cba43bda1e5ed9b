import Distllm.Run
import Mathlib.Data.List.Nodup
import Mathlib.Data.List.Infix

/-! Waiting lines. A step of a system takes some of those who wait, in order, and lets others go; the
rest keep their order, and whoever is new comes behind them. So nobody is overtaken: whoever is
taken while someone waits was ahead of them from the beginning. -/

namespace Distllm.Line

variable {α : Type} {line line' taken ahead behind : List α} {x : α}

/-- Who is taken, and then who stays, have waited in this order; the others come behind them. -/
def Moves (line taken line' : List α) : Prop :=
  ∃ kept added, line' = kept ++ added ∧ (taken ++ kept).Sublist line ∧ ∀ y ∈ added, y ∉ line

theorem Moves.refl (line : List α) : Moves line [] line :=
  ⟨line, [], (List.append_nil line).symm, .refl line, nofun⟩

/-- Others come behind. -/
theorem Moves.append (h : Moves line taken line') {added : List α} (hadded : ∀ y ∈ added, y ∉ line) :
    Moves line taken (line' ++ added) := by
  obtain ⟨kept, added', rfl, hsub, hadded'⟩ := h
  refine ⟨kept, added' ++ added, List.append_assoc .., hsub, fun y hy => ?_⟩
  exact (List.mem_append.mp hy).elim (hadded' y) (hadded y)

/-- Some leave. -/
theorem Moves.filter (line : List α) (p : α → Bool) : Moves line [] (line.filter p) :=
  ⟨line.filter p, [], (List.append_nil _).symm, List.filter_sublist, nofun⟩

theorem sublist_of_append_cons (h : (taken ++ x :: behind).Sublist (ahead ++ x :: line))
    (hx : x ∉ ahead) (hline : x ∉ line) : taken.Sublist ahead := by
  obtain ⟨front, rest, hsplit, hfront, hrest⟩ := List.sublist_append_iff.mp h
  -- What comes before `x` on the left cannot reach over the `x` on the right.
  rcases List.append_eq_append_iff.mp hsplit with ⟨middle, rfl, hmiddle⟩ | ⟨middle, rfl, hmiddle⟩
  · cases middle with
    | nil => exact (List.append_nil taken ▸ hfront)
    | cons y middle =>
        obtain ⟨rfl, -⟩ := List.cons.inj hmiddle
        exact absurd (hfront.subset (List.mem_append_right taken List.mem_cons_self)) hx
  · cases middle with
    | nil => exact (List.append_nil front).symm ▸ hfront
    | cons y middle =>
        rw [hmiddle, List.cons_append] at hrest
        rcases List.sublist_cons_iff.mp hrest with hover | ⟨_, heq, hover⟩
        · have hmem : x ∈ y :: (middle ++ x :: behind) :=
            List.mem_cons_of_mem y (List.mem_append_right middle List.mem_cons_self)
          exact absurd (hover.subset hmem) hline
        · obtain ⟨-, rfl⟩ := List.cons.inj heq
          exact absurd (hover.subset (List.mem_append_right middle List.mem_cons_self)) hline

/-- Whoever is taken was ahead of those who go on waiting, and so was whoever is ahead of them now. -/
theorem Moves.not_overtaken (h : Moves line taken line') (hnodup : line.Nodup)
    (hline : line = ahead ++ x :: behind) (hx : x ∈ line') :
    ∃ ahead' behind', line' = ahead' ++ x :: behind' ∧ (taken ++ ahead').Sublist ahead := by
  obtain ⟨kept, added, rfl, hsub, hadded⟩ := h
  have hmem : x ∈ line := hline ▸ List.mem_append_right ahead List.mem_cons_self
  have hkept : x ∈ kept := (List.mem_append.mp hx).resolve_right fun h => hadded x h hmem
  obtain ⟨front, back, rfl⟩ := List.append_of_mem hkept
  refine ⟨front, back ++ added, by rw [List.append_assoc, List.cons_append], ?_⟩
  rw [hline] at hsub hnodup
  have hsplit := List.nodup_append.mp hnodup
  have hfront : (taken ++ front ++ x :: back).Sublist (ahead ++ x :: behind) := by
    rwa [List.append_assoc]
  apply sublist_of_append_cons hfront
  · exact fun hahead => hsplit.2.2 x hahead x List.mem_cons_self rfl
  · exact (List.nodup_cons.mp hsplit.2.1).1

/-- Along a run in which someone goes on waiting, all that are taken, and then those who are still
ahead of them, were ahead of them at the beginning, in this order. The labels say who is taken. -/
theorem ahead_run {σ ε : Type} {step : σ → ε × List α → σ → Prop} (Inv : σ → Prop)
    {line : σ → List α} {s t : σ} {labels : List (ε × List α)} (hrun : Run step s labels t)
    (hkeep : ∀ {s label t}, step s label t → Inv s → Inv t)
    (hnodup : ∀ {s}, Inv s → (line s).Nodup)
    (hmoves : ∀ {s label t}, step s label t → Inv s → Moves (line s) label.2 (line t) ∧ x ∈ line t)
    (hinv : Inv s) (hline : line s = ahead ++ x :: behind) :
    Inv t ∧ ∃ ahead' behind', line t = ahead' ++ x :: behind' ∧
      (labels.flatMap Prod.snd ++ ahead').Sublist ahead := by
  refine hrun.invariant_labels (P := fun labels t => Inv t ∧ ∃ ahead' behind',
    line t = ahead' ++ x :: behind' ∧ (labels.flatMap Prod.snd ++ ahead').Sublist ahead)
    (fun {labels s label t} hstep hline => ?_) ⟨hinv, ahead, behind, hline, .refl ahead⟩
  obtain ⟨hinv, front, back, hplace, hsub⟩ := hline
  obtain ⟨hmove, hx⟩ := hmoves hstep hinv
  obtain ⟨front', back', hplace', htaken⟩ := hmove.not_overtaken (hnodup hinv) hplace hx
  refine ⟨hkeep hstep hinv, front', back', hplace', List.Sublist.trans ?_ hsub⟩
  rw [List.flatMap_append, List.flatMap_singleton, List.append_assoc]
  exact htaken.append_left _

/-- As many steps take someone as there are people to be taken, at most. -/
theorem countP_taken_le {ε : Type} (labels : List (ε × List α)) :
    labels.countP (fun label => !label.2.isEmpty) ≤ (labels.flatMap Prod.snd).length := by
  induction labels with
  | nil => exact Nat.zero_le _
  | cons label labels ih =>
      rw [List.flatMap_cons, List.length_append, List.countP_cons]
      cases htaken : label.2 with
      | nil => simpa [htaken] using ih
      | cons y rest =>
          simp only [List.isEmpty_cons, Bool.not_false, if_true, List.length_cons]
          omega

end Distllm.Line
