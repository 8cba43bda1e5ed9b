import Mathlib.Data.List.Basic

/-! Trees of lists and maps with text keys, over any type of leaves. A codec for plain trees is
carried over to trees with other leaves by two hooks: one replaces a leaf by a tree before the
codec writes it, the other sees every map after its children when the codec has read it. -/

namespace Distllm

inductive Tree (α : Type) where
  | leaf (x : α)
  | list (items : List (Tree α))
  | map (entries : List (String × Tree α))

namespace Tree

variable {α β γ ε ε' : Type}

def keys (entries : List (String × Tree α)) : List String := entries.map Prod.fst

mutual

/-- Apply a function at every leaf. -/
def mapLeaves (g : α → β) : Tree α → Tree β
  | .leaf x => .leaf (g x)
  | .list items => .list (mapItems g items)
  | .map entries => .map (mapEntries g entries)

def mapItems (g : α → β) : List (Tree α) → List (Tree β)
  | [] => []
  | t :: rest => mapLeaves g t :: mapItems g rest

def mapEntries (g : α → β) : List (String × Tree α) → List (String × Tree β)
  | [] => []
  | (key, t) :: rest => (key, mapLeaves g t) :: mapEntries g rest

end

mutual

/-- Replace every leaf by a tree. -/
def expand (f : α → Except ε (Tree β)) : Tree α → Except ε (Tree β)
  | .leaf x => f x
  | .list items => (expandItems f items).map .list
  | .map entries => (expandEntries f entries).map .map

def expandItems (f : α → Except ε (Tree β)) : List (Tree α) → Except ε (List (Tree β))
  | [] => .ok []
  | t :: rest => (expand f t).bind fun u => (expandItems f rest).map (u :: ·)

def expandEntries (f : α → Except ε (Tree β)) :
    List (String × Tree α) → Except ε (List (String × Tree β))
  | [] => .ok []
  | (key, t) :: rest => (expand f t).bind fun u => (expandEntries f rest).map ((key, u) :: ·)

end

mutual

/-- Put a tree together again from the leaves up; the hook sees every map after its children. -/
def restore (g : α → β) (hook : List (String × Tree β) → Except ε (Tree β)) :
    Tree α → Except ε (Tree β)
  | .leaf x => .ok (.leaf (g x))
  | .list items => (restoreItems g hook items).map .list
  | .map entries => (restoreEntries g hook entries).bind hook

def restoreItems (g : α → β) (hook : List (String × Tree β) → Except ε (Tree β)) :
    List (Tree α) → Except ε (List (Tree β))
  | [] => .ok []
  | t :: rest => (restore g hook t).bind fun u => (restoreItems g hook rest).map (u :: ·)

def restoreEntries (g : α → β) (hook : List (String × Tree β) → Except ε (Tree β)) :
    List (String × Tree α) → Except ε (List (String × Tree β))
  | [] => .ok []
  | (key, t) :: rest =>
    (restore g hook t).bind fun u => (restoreEntries g hook rest).map ((key, u) :: ·)

end

mutual

/-- Every leaf has one property, the keys of every map another. -/
def All (P : α → Prop) (K : List String → Prop) : Tree α → Prop
  | .leaf x => P x
  | .list items => AllItems P K items
  | .map entries => K (keys entries) ∧ AllEntries P K entries

def AllItems (P : α → Prop) (K : List String → Prop) : List (Tree α) → Prop
  | [] => True
  | t :: rest => All P K t ∧ AllItems P K rest

def AllEntries (P : α → Prop) (K : List String → Prop) : List (String × Tree α) → Prop
  | [] => True
  | (_, t) :: rest => All P K t ∧ AllEntries P K rest

end

theorem keys_mapEntries (g : α → β) (entries : List (String × Tree α)) :
    keys (mapEntries g entries) = keys entries := by
  induction entries with
  | nil => rfl
  | cons entry rest ih => exact congrArg (List.cons entry.1) ih

mutual

theorem mapLeaves_mapLeaves (g : β → γ) (f : α → β) :
    (t : Tree α) → mapLeaves g (mapLeaves f t) = mapLeaves (g ∘ f) t
  | .leaf _ => rfl
  | .list items => congrArg Tree.list (mapItems_mapItems g f items)
  | .map entries => congrArg Tree.map (mapEntries_mapEntries g f entries)

theorem mapItems_mapItems (g : β → γ) (f : α → β) :
    (items : List (Tree α)) → mapItems g (mapItems f items) = mapItems (g ∘ f) items
  | [] => rfl
  | t :: rest => congrArg₂ List.cons (mapLeaves_mapLeaves g f t) (mapItems_mapItems g f rest)

theorem mapEntries_mapEntries (g : β → γ) (f : α → β) :
    (entries : List (String × Tree α)) →
      mapEntries g (mapEntries f entries) = mapEntries (g ∘ f) entries
  | [] => rfl
  | (key, t) :: rest => congrArg₂ List.cons (congrArg (Prod.mk key) (mapLeaves_mapLeaves g f t))
      (mapEntries_mapEntries g f rest)

end

/-! ### Both hooks together -/

section Hooks

variable {P : α → Prop} {Q : β → Prop} {K : List String → Prop} {f : α → Except ε (Tree β)}
  {g : β → γ} {hook : List (String × Tree γ) → Except ε' (Tree γ)} {back : α → γ}

/-- What a leaf is replaced by is plain and comes back as a leaf; the hook leaves alone the maps
that a tree may have. -/
structure Returns (P : α → Prop) (Q : β → Prop) (K L : List String → Prop)
    (f : α → Except ε (Tree β)) (g : β → γ) (hook : List (String × Tree γ) → Except ε' (Tree γ))
    (back : α → γ) : Prop where
  names : ∀ names, K names → L names
  leaf : ∀ x, P x → ∃ t, f x = .ok t ∧ All Q L t ∧ restore g hook t = .ok (.leaf (back x))
  map : ∀ entries, K (keys entries) → hook entries = .ok (.map entries)

variable {L : List String → Prop}

mutual

/-- When the leaves come back and the hook leaves the maps of a tree alone, the tree comes back. -/
theorem restore_expand (hooks : Returns P Q K L f g hook back) : (t : Tree α) → All P K t →
    ∃ u, expand f t = .ok u ∧ All Q L u ∧ restore g hook u = .ok (mapLeaves back t)
  | .leaf x, h => hooks.leaf x h
  | .list items, h => by
      obtain ⟨us, hexpand, hall, hrestore⟩ := restore_expandItems hooks items h
      exact ⟨.list us, by rw [expand, hexpand]; rfl, hall, by rw [restore, hrestore]; rfl⟩
  | .map entries, h => by
      obtain ⟨us, hexpand, hnames, hall, hrestore⟩ := restore_expandEntries hooks entries h.2
      refine ⟨.map us, by rw [expand, hexpand]; rfl, ⟨?_, hall⟩, ?_⟩
      · rw [hnames]
        exact hooks.names _ h.1
      · rw [restore, hrestore]
        exact hooks.map _ (by rw [keys_mapEntries]; exact h.1)

theorem restore_expandItems (hooks : Returns P Q K L f g hook back) :
    (items : List (Tree α)) → AllItems P K items →
      ∃ us, expandItems f items = .ok us ∧ AllItems Q L us ∧
        restoreItems g hook us = .ok (mapItems back items)
  | [], _ => ⟨[], rfl, trivial, rfl⟩
  | t :: rest, h => by
      obtain ⟨u, hexpand, hall, hrestore⟩ := restore_expand hooks t h.1
      obtain ⟨us, hexpands, halls, hrestores⟩ := restore_expandItems hooks rest h.2
      refine ⟨u :: us, ?_, ⟨hall, halls⟩, ?_⟩
      · rw [expandItems, hexpand, hexpands]
        rfl
      · rw [restoreItems, hrestore, hrestores]
        rfl

theorem restore_expandEntries (hooks : Returns P Q K L f g hook back) :
    (entries : List (String × Tree α)) → AllEntries P K entries →
      ∃ us, expandEntries f entries = .ok us ∧ keys us = keys entries ∧ AllEntries Q L us ∧
        restoreEntries g hook us = .ok (mapEntries back entries)
  | [], _ => ⟨[], rfl, rfl, trivial, rfl⟩
  | (key, t) :: rest, h => by
      obtain ⟨u, hexpand, hall, hrestore⟩ := restore_expand hooks t h.1
      obtain ⟨us, hexpands, hnames, halls, hrestores⟩ := restore_expandEntries hooks rest h.2
      refine ⟨(key, u) :: us, ?_, congrArg (List.cons key) hnames, ⟨hall, halls⟩, ?_⟩
      · rw [expandEntries, hexpand, hexpands]
        rfl
      · rw [restoreEntries, hrestore, hrestores]
        rfl

end

end Hooks

end Tree
end Distllm
