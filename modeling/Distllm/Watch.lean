import Mathlib.Data.List.Induction
import Mathlib.Data.Option.Basic

/-! A value that is read from something with a modification time, and read again only when that
time has changed. If equal times mean equal readings, the value is the last one that could be read,
however often nothing was found or nothing could be read in between. -/

namespace Distllm

/-- The value that was read last, and the time of what it was read from. -/
structure Watch (τ α : Type) where
  value : Option α
  seen : Option τ

namespace Watch

variable {τ α σ : Type}

def fresh : Watch τ α := ⟨none, none⟩

section Look

variable [DecidableEq τ] (time : σ → τ) (read : σ → Option α)

/-- Look at what there is to be found. -/
def look (w : Watch τ α) : Option σ → Watch τ α
  | none => w
  | some found =>
    if some (time found) = w.seen then w
    else
      match read found with
      | none => w
      | some a => ⟨some a, some (time found)⟩

end Look

/-- The last reading among what was found. -/
def lastRead (read : σ → Option α) (found : List (Option σ)) : Option α :=
  found.foldl (fun last f => (f.bind read).or last) none

theorem lastRead_append (read : σ → Option α) (found : List (Option σ)) (f : Option σ) :
    lastRead read (found ++ [f]) = (f.bind read).or (lastRead read found) := by
  rw [lastRead, List.foldl_append]
  rfl

/-- A changed reading has a changed time. -/
def Timely (time : σ → τ) (read : σ → Option α) (found : List (Option σ)) : Prop :=
  ∀ f g, some f ∈ found → some g ∈ found → time f = time g →
    ∀ a b, read f = some a → read g = some b → a = b

/-- The value is the last reading, and its time is that of something it was read from. -/
structure Tracks (time : σ → τ) (read : σ → Option α) (found : List (Option σ))
    (w : Watch τ α) : Prop where
  value : w.value = lastRead read found
  seen : ∀ t, w.seen = some t → ∃ f, some f ∈ found ∧ time f = t ∧ ∃ a, read f = some a ∧
    w.value = some a

variable {time : σ → τ} {read : σ → Option α} {found : List (Option σ)} {w : Watch τ α}

theorem tracks_fresh : Tracks time read [] (fresh : Watch τ α) :=
  ⟨rfl, fun _ h => nomatch h⟩

/-- A look that changes nothing, when there is no new reading. -/
theorem Tracks.skip (h : Tracks time read found w) {f : Option σ}
    (hf : f.bind read = none ∨ f.bind read = w.value) : Tracks time read (found ++ [f]) w where
  value := by
    rw [lastRead_append, ← h.value]
    rcases hf with hf | hf
    · rw [hf, Option.none_or]
    · rw [hf, Option.or_self]
  seen := fun t ht => by
    obtain ⟨g, hg, htime, hread⟩ := h.seen t ht
    exact ⟨g, List.mem_append_left _ hg, htime, hread⟩

theorem Tracks.look [DecidableEq τ] (h : Tracks time read found w) {f : Option σ}
    (htimely : Timely time read (found ++ [f])) :
    Tracks time read (found ++ [f]) (w.look time read f) := by
  cases f with
  | none => exact h.skip (.inl rfl)
  | some f =>
      have hmem : some f ∈ found ++ [some f] := List.mem_append_right _ (List.mem_singleton.mpr rfl)
      rw [Watch.look]
      by_cases htime : some (time f) = w.seen
      · rw [if_pos htime]
        apply h.skip
        cases hread : read f with
        | none => exact .inl hread
        | some a =>
            obtain ⟨g, hg, htg, b, hb, hvalue⟩ := h.seen _ htime.symm
            have hab : a = b := htimely f g hmem (List.mem_append_left _ hg) htg.symm a b hread hb
            exact .inr (hread.trans (hab ▸ hvalue.symm))
      · rw [if_neg htime]
        cases hread : read f with
        | none => exact h.skip (.inl hread)
        | some a =>
            refine ⟨?_, fun t ht => ?_⟩
            · have hbind : (some f).bind read = some a := hread
              rw [lastRead_append, hbind, Option.some_or]
            · obtain rfl := Option.some.inj ht
              exact ⟨f, hmem, rfl, a, hread, rfl⟩

end Watch
end Distllm
