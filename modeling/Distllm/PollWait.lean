import Mathlib.Data.List.Perm.Basic
import Distllm.Run

/-! How a poll of the Python relay waits for the first item of several queues
(`_queue_get_first`). One getter waits at each queue; the timeout, a first item and a cancelled
request end the wait, and the getters are cancelled and gathered. Puts may come at any time, and a
cancelled getter either still takes an item or leaves the queue alone. -/

namespace Distllm.PyRelay.QueueWait

variable {α : Type}

/-- `queue.get()` as a task of its own. -/
inductive Getter (α : Type) where
  | waiting
  | got (item : α)
  | cancelled

def Getter.item : Getter α → Option α
  | got item => some item
  | _ => none

/-- A queue with its getter, and everything that was ever put into it. -/
structure Slot (α : Type) where
  queue : List α
  getter : Getter α
  put : List α

/-- Where the request is: at `asyncio.wait`, at `asyncio.gather` or at its end. A returned item
comes with the number of its queue. -/
inductive Phase (α : Type) where
  | waiting
  | gathering (cancelled : Bool)
  | returned (item : Option (Nat × α))
  | raised

def Phase.running : Phase α → Bool
  | waiting | gathering _ => true
  | returned _ | raised => false

structure State (α : Type) where
  slots : List (Slot α)
  phase : Phase α

/-- The first queue that is not empty gives its first item. -/
def takeFirst : Nat → List (List α) → Option (Nat × α) × List (List α)
  | _, [] => (none, [])
  | i, (item :: queue) :: queues => (some (i, item), queue :: queues)
  | i, [] :: queues =>
    let (found, queues) := takeFirst (i + 1) queues
    (found, [] :: queues)

/-- The slots of queues that held `puts`. -/
def slotsOf (puts queues : List (List α)) : List (Slot α) :=
  puts.zipWith (fun put queue => ⟨queue, .waiting, put⟩) queues

/-- Up to the first await: an item that is there is returned at once. There is nothing to wait for
without a queue (`ValueError`). -/
def start (queues : List (List α)) : State α :=
  match takeFirst 0 queues with
  | (some found, rest) => ⟨slotsOf queues rest, .returned (some found)⟩
  | (none, rest) => ⟨slotsOf queues rest, if queues = [] then .raised else .waiting⟩

/-- The items that the getters have taken, with the numbers of their queues. -/
def gotFrom : Nat → List (Slot α) → List (Nat × α)
  | _, [] => []
  | i, slot :: slots => slot.getter.item.toList.map (i, ·) ++ gotFrom (i + 1) slots

def State.got (s : State α) : List (Nat × α) := gotFrom 0 s.slots

/-- `queue.put_nowait(item)` -/
def putNowait (slots : List (Slot α)) (found : Nat × α) : List (Slot α) :=
  slots.modify found.1 fun slot => { slot with queue := slot.queue ++ [found.2] }

/-- From the end of `asyncio.gather` on: all items but the first are put back, and the first too
when the request was cancelled. -/
def State.finish (s : State α) (cancelled : Bool) : State α :=
  ⟨(s.got.drop (if cancelled then 0 else 1)).foldl putNowait s.slots,
    if cancelled then .raised else .returned s.got.head?⟩

/-- An error raised at `asyncio.gather` comes with what the getters have taken. -/
inductive Event (α : Type) where
  | put (i : Nat) (item : α)
  | get (i : Nat)
  | wake
  | cancelWait
  | cancelGetter (i : Nat)
  | resume
  | cancelGather (taken : List (Nat × α))

def State.gathered (s : State α) : Prop := ∀ slot ∈ s.slots, slot.getter ≠ .waiting

def State.setSlot (s : State α) (i : Nat) (slot : Slot α) : State α :=
  { s with slots := s.slots.set i slot }

inductive Step : State α → Event α → State α → Prop where
  | put {s : State α} {i : Nat} {slot : Slot α} {item : α} (hslot : s.slots[i]? = some slot) :
      Step s (.put i item) (s.setSlot i ⟨slot.queue ++ [item], slot.getter, slot.put ++ [item]⟩)
  | get {s : State α} {i : Nat} {slot : Slot α} {item : α} {rest : List α}
      (hrunning : s.phase.running = true) (hslot : s.slots[i]? = some slot)
      (hgetter : slot.getter = .waiting) (hqueue : slot.queue = item :: rest) :
      Step s (.get i) (s.setSlot i ⟨rest, .got item, slot.put⟩)
  | wake {s : State α} (hphase : s.phase = .waiting) :
      Step s .wake { s with phase := .gathering false }
  | cancelWait {s : State α} (hphase : s.phase = .waiting) :
      Step s .cancelWait { s with phase := .gathering true }
  | cancelGetter {s : State α} {i : Nat} {slot : Slot α} {cancelled : Bool}
      (hphase : s.phase = .gathering cancelled) (hslot : s.slots[i]? = some slot)
      (hgetter : slot.getter = .waiting) :
      Step s (.cancelGetter i) (s.setSlot i { slot with getter := .cancelled })
  | resume {s : State α} {cancelled : Bool} (hphase : s.phase = .gathering cancelled)
      (hgathered : s.gathered) : Step s .resume (s.finish cancelled)
  | cancelGather {s : State α} {cancelled : Bool} (hphase : s.phase = .gathering cancelled)
      (hgathered : s.gathered) : Step s (.cancelGather s.got) { s with phase := .raised }

/-- The items of one queue. -/
def itemsAt (i : Nat) (items : List (Nat × α)) : List α :=
  (items.filter fun found => found.1 == i).map Prod.snd

def Phase.item : Phase α → Option (Nat × α)
  | returned item => item
  | _ => none

/-- At the end every item that was put is in its queue or is returned, exactly once. -/
def State.Conserved (s : State α) : Prop :=
  ∀ (i : Nat) (slot : Slot α), s.slots[i]? = some slot →
    slot.put.Perm (slot.queue ++ itemsAt i s.phase.item.toList)

/-! ### Accounts -/

variable {s s' : State α} {i j : Nat} {slot : Slot α} {x : Nat × α} {items : List (Nat × α)}

@[simp] theorem itemsAt_nil (i : Nat) : itemsAt i ([] : List (Nat × α)) = [] := rfl

theorem itemsAt_cons_self (x : Nat × α) (items : List (Nat × α)) :
    itemsAt x.1 (x :: items) = x.2 :: itemsAt x.1 items := by
  simp [itemsAt]

theorem itemsAt_cons_ne (h : x.1 ≠ i) : itemsAt i (x :: items) = itemsAt i items := by
  simp [itemsAt, h]

theorem itemsAt_append (i : Nat) (items items' : List (Nat × α)) :
    itemsAt i (items ++ items') = itemsAt i items ++ itemsAt i items' := by
  simp [itemsAt]

/-- Everything put into a queue is in it, is held for it (`held`), or is named in `items`. -/
def Accounted (slots : List (Slot α)) (held : Slot α → List α) (items : List (Nat × α)) : Prop :=
  ∀ (i : Nat) (slot : Slot α), slots[i]? = some slot →
    slot.put.Perm (slot.queue ++ (held slot ++ itemsAt i items))

/-- Changing one slot. -/
theorem Accounted.set {slots : List (Slot α)} {held : Slot α → List α} {changed : Slot α}
    (h : Accounted slots held items)
    (hchanged : changed.put.Perm (changed.queue ++ (held changed ++ itemsAt i items))) :
    Accounted (slots.set i changed) held items := by
  intro j slot hslot
  rw [List.getElem?_set] at hslot
  split at hslot
  · rename_i hij
    split at hslot
    · obtain rfl := Option.some.inj hslot
      rwa [← hij]
    · cases hslot
  · exact h j slot hslot

theorem itemsAt_gotFrom (slots : List (Slot α)) (i j : Nat) :
    itemsAt (i + j) (gotFrom i slots) = (slots[j]?.bind fun slot => slot.getter.item).toList := by
  induction slots generalizing i j with
  | nil => rfl
  | cons slot slots ih =>
      have hlater : ∀ k, k < i + 1 → itemsAt k (gotFrom (i + 1) slots) = [] := by
        intro k hk
        have hbound : ∀ (slots : List (Slot α)) (n : Nat), k < n →
            itemsAt k (gotFrom n slots) = [] := by
          intro slots
          induction slots with
          | nil => exact fun _ _ => rfl
          | cons slot slots ih =>
              intro n hn
              rw [gotFrom, itemsAt_append, ih (n + 1) (by omega)]
              cases slot.getter.item with
              | none => rfl
              | some item =>
                  have hne : (n, item).1 ≠ k := by
                    dsimp only
                    omega
                  rw [Option.toList_some, List.map_singleton, itemsAt_cons_ne hne]
                  rfl
        exact hbound slots (i + 1) hk
      rw [gotFrom, itemsAt_append]
      cases j with
      | zero =>
          rw [Nat.add_zero, hlater i (by omega), List.append_nil]
          cases hitem : slot.getter.item with
          | none => simp [hitem]
          | some item => simp [hitem, itemsAt]
      | succ j =>
          have hrest := ih (i + 1) j
          rw [show i + 1 + j = i + (j + 1) by omega] at hrest
          rw [hrest, List.getElem?_cons_succ]
          cases slot.getter.item with
          | none => rfl
          | some item =>
              have hne : (i, item).1 ≠ i + (j + 1) := by
                dsimp only
                omega
              rw [Option.toList_some, List.map_singleton, itemsAt_cons_ne hne]
              rfl

theorem State.itemsAt_got (hslot : s.slots[i]? = some slot) :
    itemsAt i s.got = slot.getter.item.toList := by
  have hitems := itemsAt_gotFrom s.slots 0 i
  rwa [Nat.zero_add, hslot, Option.bind_some] at hitems

/-- What is put back is in its queue again. -/
theorem Accounted.putBack {held : Slot α → List α} (hheld : ∀ slot queue,
      held { slot with queue := queue } = held slot) (back : List (Nat × α))
    {slots : List (Slot α)} (h : Accounted slots held (back ++ items)) :
    Accounted (back.foldl putNowait slots) held items := by
  induction back generalizing slots with
  | nil => exact h
  | cons found back ih =>
      apply ih
      intro i slot hslot
      rw [putNowait, List.getElem?_modify] at hslot
      obtain ⟨before, hbefore, hafter⟩ := Option.map_eq_some_iff.mp hslot
      have haccount := h i before hbefore
      rw [List.cons_append] at haccount
      by_cases hi : found.1 = i
      · rw [if_pos hi] at hafter
        subst hi hafter
        rw [itemsAt_cons_self] at haccount
        apply haccount.trans
        rw [hheld before (before.queue ++ [found.2]), List.append_assoc]
        exact List.Perm.append_left _ List.perm_middle
      · rw [if_neg hi] at hafter
        obtain rfl : before = slot := hafter
        rwa [itemsAt_cons_ne hi] at haccount

/-! ### Every step keeps the account -/

/-- What the getters hold for the request, as long as it runs. -/
def State.held (s : State α) (slot : Slot α) : List α :=
  if s.phase.running then slot.getter.item.toList else []

/-- Items that are lost with an error at `asyncio.gather`. -/
def Event.lost : Event α → List (Nat × α)
  | cancelGather taken => taken
  | _ => []

structure State.Kept (s : State α) (lost : List (Nat × α)) : Prop where
  accounted : Accounted s.slots s.held (s.phase.item.toList ++ lost)
  slot : ∀ x ∈ lost, x.1 < s.slots.length

theorem takeFirst_cases (queues : List (List α)) (i : Nat) :
    (∃ found rest, takeFirst i queues = (some found, rest) ∧ rest.length = queues.length ∧
      i ≤ found.1 ∧ ∀ (j : Nat) (put queue : List α), queues[j]? = some put →
        rest[j]? = some queue → put = itemsAt (i + j) [found] ++ queue) ∨
    takeFirst i queues = (none, queues) ∧ ∀ queue ∈ queues, queue = [] := by
  induction queues generalizing i with
  | nil => exact .inr ⟨rfl, fun queue hqueue => nomatch hqueue⟩
  | cons queue queues ih =>
      cases queue with
      | cons item queue =>
          refine .inl ⟨(i, item), queue :: queues, rfl, rfl, Nat.le_refl i,
            fun j put left hput hleft => ?_⟩
          cases j with
          | zero =>
              obtain rfl := Option.some.inj hput
              obtain rfl := Option.some.inj hleft
              exact (congrArg (· ++ queue) (itemsAt_cons_self (i, item) [])).symm
          | succ j =>
              have hne : (i, item).1 ≠ i + (j + 1) := by
                dsimp only
                omega
              rw [itemsAt_cons_ne hne]
              exact Option.some.inj (hput.symm.trans hleft)
      | nil =>
          rcases ih (i + 1) with
            ⟨found, rest, htake, hlength, hlater, hrest⟩ | ⟨htake, hempty⟩
          · refine .inl ⟨found, [] :: rest, by rw [takeFirst, htake],
              congrArg Nat.succ hlength, by omega, fun j put left hput hleft => ?_⟩
            cases j with
            | zero =>
                have hne : found.1 ≠ i + 0 := by omega
                rw [itemsAt_cons_ne hne]
                exact Option.some.inj (hput.symm.trans hleft)
            | succ j =>
                have hsplit := hrest j put left hput hleft
                rwa [show i + 1 + j = i + (j + 1) by omega] at hsplit
          · refine .inr ⟨by rw [takeFirst, htake], fun queue hqueue => ?_⟩
            rcases List.mem_cons.mp hqueue with rfl | hqueue
            · rfl
            · exact hempty queue hqueue

theorem getElem?_slotsOf {puts queues : List (List α)} (h : (slotsOf puts queues)[i]? = some slot) :
    puts[i]? = some slot.put ∧ queues[i]? = some slot.queue ∧ slot.getter = .waiting := by
  rw [slotsOf, List.getElem?_zipWith] at h
  split at h
  · rename_i put queue hput hqueue
    obtain rfl := Option.some.inj h
    exact ⟨hput, hqueue, rfl⟩
  · cases h

theorem start_kept (queues : List (List α)) : (start queues).Kept [] := by
  refine ⟨?_, fun x hx => nomatch hx⟩
  intro i slot hslot
  unfold start at hslot ⊢
  rcases takeFirst_cases queues 0 with
    ⟨found, rest, htake, _, _, hrest⟩ | ⟨htake, _⟩
  · rw [htake] at hslot ⊢
    obtain ⟨hput, hqueue, _⟩ := getElem?_slotsOf hslot
    rw [hrest i slot.put slot.queue hput hqueue, Nat.zero_add]
    exact List.perm_append_comm
  · rw [htake] at hslot ⊢
    obtain ⟨hput, hqueue, hgetter⟩ := getElem?_slotsOf hslot
    have hsame : slot.put = slot.queue := Option.some.inj (hput.symm.trans hqueue)
    dsimp only
    rw [hsame, State.held, hgetter]
    split <;> split <;> simp [Getter.item, Phase.item]

namespace State.Kept

variable {lost : List (Nat × α)}

/-- Changing one slot. -/
theorem setSlot {changed : Slot α} (h : s.Kept lost) (hslot : s.slots[i]? = some slot)
    (hchanged : slot.put.Perm (slot.queue ++ (s.held slot ++
      itemsAt i (s.phase.item.toList ++ lost))) → changed.put.Perm (changed.queue ++
      (s.held changed ++ itemsAt i (s.phase.item.toList ++ lost)))) :
    (s.setSlot i changed).Kept lost where
  accounted := h.accounted.set (hchanged (h.accounted i slot hslot))
  slot := fun x hx => by
    rw [State.setSlot, List.length_set]
    exact h.slot x hx

theorem put {item : α} (h : s.Kept lost) (hslot : s.slots[i]? = some slot) :
    (s.setSlot i ⟨slot.queue ++ [item], slot.getter, slot.put ++ [item]⟩).Kept lost := by
  apply h.setSlot hslot
  intro haccount
  have hheld : s.held ⟨slot.queue ++ [item], slot.getter, slot.put ++ [item]⟩ = s.held slot := rfl
  rw [hheld, List.append_assoc]
  have hfirst : (item :: slot.queue ++ (s.held slot ++
      itemsAt i (s.phase.item.toList ++ lost))).Perm _ := List.perm_middle.symm
  exact List.perm_append_comm.trans ((haccount.append_left [item]).trans hfirst)

theorem get {item : α} {rest : List α} (h : s.Kept lost) (hrunning : s.phase.running = true)
    (hslot : s.slots[i]? = some slot) (hgetter : slot.getter = .waiting)
    (hqueue : slot.queue = item :: rest) :
    (s.setSlot i ⟨rest, .got item, slot.put⟩).Kept lost := by
  apply h.setSlot hslot
  intro haccount
  rw [State.held, if_pos hrunning, hgetter, hqueue] at haccount
  rw [State.held, if_pos hrunning]
  exact haccount.trans List.perm_middle.symm

/-- Without a change of the slots the request goes on waiting. -/
theorem running {phase : Phase α} (h : s.Kept lost) (hrunning : s.phase.running = true)
    (hphase : phase.running = true) : State.Kept { s with phase := phase } lost := by
  have hheld : State.held { s with phase := phase } = s.held := by
    funext slot
    rw [State.held, State.held, if_pos hrunning, if_pos hphase]
  have hitem : ∀ phase : Phase α, phase.running = true → phase.item = none := by
    intro phase hrunning
    cases phase with
    | returned item => cases hrunning
    | _ => rfl
  refine ⟨?_, h.slot⟩
  have haccounted := h.accounted
  rw [hitem s.phase hrunning] at haccounted
  rw [hheld, hitem phase hphase]
  exact haccounted

/-- At the end of `asyncio.gather` all that is held is named. -/
theorem gathered (h : s.Kept lost) (hrunning : s.phase.running = true)
    (hitem : s.phase.item = none) :
    Accounted s.slots (fun _ => []) (s.got ++ lost) := by
  intro i slot hslot
  have haccount := h.accounted i slot hslot
  rw [State.held, if_pos hrunning, hitem] at haccount
  rw [itemsAt_append, State.itemsAt_got hslot]
  exact haccount

theorem slots_got (slots : List (Slot α)) (i : Nat) :
    ∀ x ∈ gotFrom i slots, x.1 < i + slots.length := by
  induction slots generalizing i with
  | nil => exact fun x hx => nomatch hx
  | cons slot slots ih =>
      intro x hx
      rw [List.length_cons]
      rcases List.mem_append.mp hx with hx | hx
      · obtain ⟨item, _, rfl⟩ := List.mem_map.mp hx
        dsimp only
        omega
      · have := ih (i + 1) x hx
        omega

theorem finish {cancelled : Bool} (h : s.Kept lost) (hphase : s.phase = .gathering cancelled) :
    (s.finish cancelled).Kept lost := by
  have hgathered := h.gathered (by rw [hphase]; rfl) (by rw [hphase]; rfl)
  have hlength : ∀ (back : List (Nat × α)) (slots : List (Slot α)),
      (back.foldl putNowait slots).length = slots.length := by
    intro back
    induction back with
    | nil => exact fun _ => rfl
    | cons found back ih =>
        intro slots
        rw [List.foldl_cons, ih, putNowait, List.length_modify]
  refine ⟨?_, fun x hx => by rw [State.finish, hlength]; exact h.slot x hx⟩
  cases cancelled with
  | true => exact hgathered.putBack (fun _ _ => rfl) s.got
  | false =>
      refine Accounted.putBack (fun _ _ => rfl) _ fun i slot hslot => ?_
      refine (hgathered i slot hslot).trans (List.Perm.append_left _ (List.Perm.append_left _ ?_))
      rw [State.finish, if_neg Bool.false_ne_true, if_neg Bool.false_ne_true]
      cases s.got with
      | nil => exact .refl _
      | cons first rest =>
          rw [List.cons_append, ← List.singleton_append, itemsAt_append, itemsAt_append,
            itemsAt_append, itemsAt_append]
          exact List.perm_append_comm_assoc ..

theorem step {event : Event α} (hstep : Step s event s') (h : s.Kept lost) :
    s'.Kept (lost ++ event.lost) := by
  have hnone : ∀ {s' : State α}, s'.Kept lost → s'.Kept (lost ++ []) := fun h => by
    rwa [List.append_nil]
  cases hstep with
  | put hslot => exact hnone (h.put hslot)
  | get hrunning hslot hgetter hqueue => exact hnone (h.get hrunning hslot hgetter hqueue)
  | wake hphase => exact hnone (h.running (by rw [hphase]; rfl) rfl)
  | cancelWait hphase => exact hnone (h.running (by rw [hphase]; rfl) rfl)
  | cancelGetter hphase hslot hgetter =>
      refine hnone (h.setSlot hslot fun haccount => ?_)
      rw [State.held, hphase, hgetter] at haccount
      rw [State.held, hphase]
      exact haccount
  | resume hphase hgathered => exact hnone (h.finish hphase)
  | cancelGather hphase hgathered =>
      have hitems := h.gathered (by rw [hphase]; rfl) (by rw [hphase]; rfl)
      refine ⟨fun i slot hslot => ?_, fun x hx => ?_⟩
      · refine (hitems i slot hslot).trans (List.Perm.append_left _ ?_)
        rw [itemsAt_append, Event.lost]
        change ([] ++ _ : List α).Perm ([] ++ itemsAt i (lost ++ s.got))
        rw [itemsAt_append]
        exact List.Perm.append_left _ List.perm_append_comm
      · rcases List.mem_append.mp hx with hx | hx
        · exact h.slot x hx
        · have := slots_got s.slots 0 x hx
          dsimp only
          omega

end State.Kept

/-- The items lost in a run. -/
def lostIn (events : List (Event α)) : List (Nat × α) := events.flatMap Event.lost

theorem kept_run {queues : List (List α)} {events : List (Event α)}
    (hrun : Run Step (start queues) events s) : s.Kept (lostIn events) :=
  hrun.invariant_labels (P := fun events s => s.Kept (lostIn events))
    (fun hstep h => by
      rw [lostIn, List.flatMap_append, List.flatMap_singleton]
      exact h.step hstep)
    (start_kept queues)

/-- **No item is lost by the wait.** When a run of the wait has ended, every item that was put is
in its queue or is returned, exactly once, if and only if no `CancelledError` came at
`asyncio.gather` while a getter had an item. -/
theorem queue_get_first_conserves_iff {queues : List (List α)} {events : List (Event α)}
    (hrun : Run Step (start queues) events s) (hended : s.phase.running = false) :
    s.Conserved ↔ ∀ taken, .cancelGather taken ∈ events → taken = [] := by
  have hkept := kept_run hrun
  have haccount : ∀ (i : Nat) (slot : Slot α), s.slots[i]? = some slot →
      slot.put.Perm (slot.queue ++ (itemsAt i s.phase.item.toList ++
        itemsAt i (lostIn events))) := by
    intro i slot hslot
    have haccount := hkept.accounted i slot hslot
    rwa [State.held, hended, if_neg Bool.false_ne_true, List.nil_append, itemsAt_append]
      at haccount
  have hlost : (∀ taken, .cancelGather taken ∈ events → taken = []) ↔ lostIn events = [] := by
    rw [lostIn, List.flatMap_eq_nil_iff]
    constructor
    · intro hnone event hevent
      cases event with
      | cancelGather taken => exact hnone taken hevent
      | _ => rfl
    · exact fun hnone taken htaken => hnone _ htaken
  rw [hlost]
  constructor
  · intro hconserved
    by_contra hne
    obtain ⟨x, hx⟩ := List.exists_mem_of_ne_nil _ hne
    obtain ⟨slot, hslot⟩ : ∃ slot, s.slots[x.1]? = some slot :=
      ⟨_, List.getElem?_eq_getElem (hkept.slot x hx)⟩
    have hsame := (hconserved x.1 slot hslot).length_eq
    have hmore := (haccount x.1 slot hslot).length_eq
    have hmem : x.2 ∈ itemsAt x.1 (lostIn events) :=
      List.mem_map.mpr ⟨x, List.mem_filter.mpr ⟨hx, beq_self_eq_true _⟩, rfl⟩
    have hpos := List.length_pos_of_mem hmem
    simp only [List.length_append] at hsame hmore
    omega
  · intro hnone i slot hslot
    have hall := haccount i slot hslot
    rwa [hnone, itemsAt_nil, List.append_nil] at hall

/-- The two queues of a poll, both empty at first: during the wait a task came for the role. -/
def gatheringOne : State String :=
  ⟨[⟨[], .cancelled, []⟩, ⟨[], .got "t", ["t"]⟩], .gathering false⟩

theorem gathered_gatheringOne : gatheringOne.gathered := by
  intro slot hslot
  rcases List.mem_pair.mp hslot with rfl | rfl
  · exact fun h => by cases h
  · exact fun h => by cases h

theorem run_gatheringOne : Run Step (start [[], []])
    [.put 1 "t", .get 1, .wake, .cancelGetter 0] gatheringOne := by
  have hput : Step (start [[], []]) (.put 1 "t") _ := .put rfl
  have hget : Step ⟨[⟨[], .waiting, []⟩, ⟨["t"], .waiting, ["t"]⟩], .waiting⟩ (.get 1) _ :=
    .get rfl rfl rfl rfl
  have hwake : Step ⟨[⟨[], .waiting, []⟩, ⟨[], .got "t", ["t"]⟩], .waiting⟩ .wake _ := .wake rfl
  have hcancel : Step ⟨[⟨[], .waiting, []⟩, ⟨[], .got "t", ["t"]⟩], .gathering false⟩
      (.cancelGetter 0) _ := .cancelGetter rfl rfl rfl
  exact (((Run.single hput).snoc hget).snoc hwake).snoc hcancel

theorem queue_get_first_conserves_iff_returned : ∃ s : State String,
    s.phase.item = some (1, "t") ∧ s.Conserved := by
  have hrun := run_gatheringOne.snoc (.resume rfl gathered_gatheringOne)
  exact ⟨_, rfl, (queue_get_first_conserves_iff hrun rfl).mpr (by simp)⟩

/-- The request is cancelled while its getters are gathered: the task is in no queue. -/
theorem cancelled_gather_loses_item : ¬∀ (queues : List (List String))
    (events : List (Event String)) (s : State String), Run Step (start queues) events s →
    s.phase.running = false → s.Conserved := by
  intro hconserved
  have hrun := run_gatheringOne.snoc (.cancelGather rfl gathered_gatheringOne)
  have hperm := hconserved _ _ _ hrun rfl 1 _ rfl
  exact absurd hperm.length_eq (by decide)

end Distllm.PyRelay.QueueWait
