import Mathlib.Data.List.Infix

/-! Causal maps of sequences: the result is as long as the argument, and what stands at a position
depends only on the positions up to it. -/

namespace Distllm

structure Causal (α β : Type) where
  toFun : List α → List β
  length_eq : ∀ xs, (toFun xs).length = xs.length
  take_eq : ∀ xs n, toFun (xs.take n) = (toFun xs).take n

namespace Causal

variable {α β γ : Type}

instance : CoeFun (Causal α β) fun _ => List α → List β := ⟨toFun⟩

@[simp] theorem length_apply (f : Causal α β) (xs : List α) : (f xs).length = xs.length :=
  f.length_eq xs

theorem apply_take (f : Causal α β) (xs : List α) (n : Nat) : f (xs.take n) = (f xs).take n :=
  f.take_eq xs n

def comp (g : Causal β γ) (f : Causal α β) : Causal α γ where
  toFun := fun xs => g (f xs)
  length_eq := fun xs => (g.length_eq _).trans (f.length_eq xs)
  take_eq := fun xs n => by rw [apply_take, apply_take]

@[simp] theorem comp_apply (g : Causal β γ) (f : Causal α β) (xs : List α) :
    g.comp f xs = g (f xs) :=
  rfl

/-- Apply a function at every position. -/
def map (f : Causal α β) (g : β → γ) : Causal α γ where
  toFun := fun xs => (f xs).map g
  length_eq := fun xs => by rw [List.length_map, length_apply]
  take_eq := fun xs n => by rw [apply_take, List.map_take]

@[simp] theorem map_apply (f : Causal α β) (g : β → γ) (xs : List α) : f.map g xs = (f xs).map g :=
  rfl

/-- The last position of a prefix is the position where it ends. -/
theorem getLast?_take (f : Causal α β) (xs : List α) {n : Nat} (hn : n < xs.length) :
    (f (xs.take (n + 1))).getLast? = (f xs)[n]? := by
  have hlen : n + 1 ≤ xs.length := hn
  rw [apply_take, List.getLast?_eq_getElem?, List.length_take, length_apply, Nat.min_eq_left hlen,
    Nat.add_sub_cancel, List.getElem?_take_of_lt (Nat.lt_succ_self n)]

end Causal
end Distllm
