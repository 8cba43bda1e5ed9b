import Distllm.StageCausal
import Distllm.StageRequests
import Distllm.StageStacking

/-! Batches that run through. Every stored cache has as many layers as the model, whatever the
requests; so when the padded caches of a batch can be stacked and one of them has a column for every
position, each of them has. Then the batch is made of decode steps, and every payload in it gets the
answer that it would get alone. -/

namespace Distllm.Stage

variable {τ η ℓ κ α : Type} {cfg : Config} {M : Model τ η ℓ κ} {pass : Pass τ η κ} {zero : κ}
  {s : Sessions κ} {now : Instant} {id : String} {sess : Session κ} {cache : Cache κ}

/-! ### Layers -/

/-- Every stored cache has the layers of the model. -/
def Layered (M : Model τ η ℓ κ) (s : Sessions κ) : Prop :=
  ∀ id sess, s.lookup id = some sess → sess.cache.length = M.kinds.length

theorem Layered.insert (hs : Layered M s) (hsess : sess.cache.length = M.kinds.length) :
    Layered M (s.insert id sess) := by
  intro other found hfound
  rw [AList.lookup_insert_eq] at hfound
  split at hfound
  · rw [← Option.some.inj hfound, hsess]
  · exact hs other found hfound

theorem Layered.erase (hs : Layered M s) : Layered M (s.erase id) := by
  intro other found hfound
  by_cases hother : other = id
  · rw [hother, AList.lookup_erase] at hfound
    cases hfound
  · rw [AList.lookup_erase_ne hother] at hfound
    exact hs other found hfound

theorem Layered.modify (hs : Layered M s) {f : Session κ → Session κ}
    (hf : ∀ sess, sess.cache.length = M.kinds.length → (f sess).cache.length = M.kinds.length) :
    Layered M (s.modify id f) := by
  intro other found hfound
  by_cases hother : other = id
  · rw [hother, AList.lookup_modify, if_pos rfl] at hfound
    obtain ⟨before, hbefore, rfl⟩ := Option.map_eq_some_iff.mp hfound
    exact hf before (hs id before hbefore)
  · rw [AList.lookup_modify_ne hother] at hfound
    exact hs other found hfound

theorem Layered.evict (hs : Layered M s) (cfg : Config) (now : Instant) :
    Layered M (evict cfg now s) := fun id sess hsess => hs id sess (lookup_of_evict cfg hsess)

theorem length_after (M : Model τ η ℓ κ) (new : Inputs τ η) (start : Int) (cache : Cache κ) :
    (M.after new start cache).length = cache.length := by
  rw [Model.after, Cache.append, List.length_zipWith, M.base_layers, Nat.min_self]

theorem advance_layered (hs : Layered M s) (hcache : cache.length = M.kinds.length)
    (req : Request τ η) (start : Int) : Layered M (advance cfg M now s req start cache).2 := by
  have hadvanced := advance_advanced cfg M now s req start cache
  generalize advance cfg M now s req start cache = outcome at hadvanced
  have hafter : ∀ new, (M.after new start cache).length = M.kinds.length := fun new =>
    (length_after M new start cache).trans hcache
  cases hadvanced with
  | refused e _ => exact hs
  | baseFailed hinputs hlen hbase => exact hs.erase
  | outputFailed e hinputs hlen hbase hfault =>
      dsimp only
      split
      · exact hs
      · exact hs.modify fun _ _ => hafter _
  | answered hinputs hlen hbase hfault houtput => exact (hs.insert (hafter _)).evict cfg now

theorem handle_layered (hs : Layered M s) (req : Request τ η) :
    Layered M (handle cfg M now s req).2 := by
  have hhandled := handle_handled cfg M now s req
  generalize handle cfg M now s req = outcome at hhandled
  have hcrop : ∀ (start : Int) (sess : Session κ), sess.cache.length = M.kinds.length →
      (sess.cache.crop start).length = M.kinds.length := fun start sess hsess =>
    (List.length_map _).trans hsess
  cases hhandled with
  | refused e => exact hs
  | closed hclose => exact hs.erase
  | missed cached hstart hne _ => exact hs
  | fresh hclose hstart => exact advance_layered hs (List.length_map _) req 0
  | @cropFailed _ _ k hclose hsess hstart hne hrewinds _ =>
      refine hs.modify fun sess hlength => ?_
      rw [Cache.cropPart, List.length_append, List.length_map, ← List.length_append,
        List.take_append_drop]
      exact hlength
  | rewound hclose hsess hstart hne hrewinds _ =>
      exact advance_layered (hs.modify (hcrop _)) (hcrop _ _ (hs _ _ hsess)) req _
  | continued hclose hsess hstart hne hlength => exact advance_layered hs (hs _ _ hsess) req _

theorem handleRaw_layered (hs : Layered M s) (r : Raw τ η) :
    Layered M (handleRaw cfg M now s r).2 := by
  unfold handleRaw
  split
  · exact hs
  · split
    · exact hs
    · split
      · exact hs
      · exact hs.erase
      · split
        · exact hs
        · split
          · exact hs
          · split
            · exact handle_layered hs _
            · exact handle_layered hs _

theorem storePadded_layered {layers : Stacked κ} {longest : Int}
    {rows : List ((Payload τ η × Session κ) × Nat)} (hs : Layered M s)
    (hrows : ∀ x ∈ rows, x.1.2.cache.length = M.kinds.length) :
    Layered M (storePadded now layers longest rows s) := by
  induction rows generalizing s with
  | nil => exact hs
  | cons x rest ih =>
      obtain ⟨⟨p, sess⟩, row⟩ := x
      have hsess := hrows _ List.mem_cons_self
      rw [storePadded]
      refine ih (hs.insert ?_) fun y hy => hrows y (List.mem_cons_of_mem _ hy)
      rw [Session.unpad, List.length_map, List.length_zipIdx]
      exact hsess

theorem decodePadded_layered (hs : Layered M s) {ps : List (Payload τ η)}
    {answers : List (Response τ η ℓ)} {s' : Sessions κ}
    (h : decodePadded cfg M pass zero now s ps = .ok (answers, s')) : Layered M s' := by
  obtain ⟨-, -, layers, longest, rfl⟩ := decodePadded_spec h
  refine (storePadded_layered hs fun x hx => ?_).evict cfg now
  have hstored : x.1.2 ∈ storedOf s ps :=
    (List.of_mem_zip (List.fst_mem_of_mem_zipIdx hx)).2
  obtain ⟨p, -, hsess⟩ := List.mem_filterMap.mp hstored
  exact hs _ _ hsess

/-! ### Decode steps -/

/-- A token has one position. -/
def Tensor.Sized (t : Tensor α) : Prop := ∀ rest, t.shape = 1 :: 1 :: rest → t.items.length = 1

theorem Tensor.sized_row (rest : List Nat) (items : List α) : (Tensor.row rest items).Sized :=
  fun _ h => (List.cons.inj (List.cons.inj h).2).1

def Inputs.Sized (new : Inputs τ η) : Prop := ∀ rest, new.shape = 1 :: 1 :: rest → new.size = 1

/-- What a padded pass has established when it comes to an end. -/
theorem stackable_of_ok {ps : List (Payload τ η)} {result : List (Response τ η ℓ) × Sessions κ}
    (h : decodePadded cfg M pass zero now s ps = .ok result) :
    (∀ p ∈ ps, p.sessionId ∈ s) ∧ Stackable M.kinds.length (storedOf s ps) ∧
      ∃ new, catInputs cfg ps = .ok new := by
  unfold decodePadded at h
  cases hsessions : batchSessions s ps with
  | error e =>
      rw [hsessions] at h
      cases h
  | ok sessions =>
      obtain rfl := batchSessions_storedOf hsessions
      rw [hsessions] at h
      dsimp only [bind, Except.bind, pure, Except.pure] at h
      split at h
      · cases h
      · rename_i longest hlongest
        have hle : ∀ sess ∈ storedOf s ps, sess.length ≤ longest := fun sess hsess =>
          (List.max?_eq_some_iff.mp hlongest).2 _ (List.mem_map_of_mem hsess)
        split at h
        · cases h
        · rename_i layers hlayers
          have hstack := mapM_isOk_iff.mp ⟨layers, hlayers⟩
          split at h
          · cases h
          · rename_i new hnew
            refine ⟨batchSessions_isOk_iff.mp ⟨_, hsessions⟩, fun l hl => ?_, new, hnew⟩
            exact (stackLayer_isOk_iff hle l).mp (hstack l (List.mem_range.mpr hl))

/-- A session that can be stacked with a consistent one is consistent. -/
theorem consistent_of_stackable {sessions : List (Session κ)} {n : Nat}
    (h : Stackable n sessions) (hlayers : ∀ sess ∈ sessions, sess.cache.length = n)
    {first : Session κ} (hfirst : first ∈ sessions) (hconsistent : first.Consistent)
    (hsess : sess ∈ sessions) : sess.Consistent := by
  intro layer hlayer
  obtain ⟨l, hl⟩ := List.mem_iff_getElem?.mp hlayer
  have hlt : l < n := hlayers sess hsess ▸ (List.getElem?_eq_some_iff.mp hl).1
  have hown : l < first.cache.length := hlayers first hfirst ▸ hlt
  obtain ⟨-, hexcess⟩ := h l hlt sess hsess first hfirst
  have hnone := hconsistent _ (List.getElem_mem hown)
  rw [Session.excess, Session.excess, hl, List.getElem?_eq_getElem hown, Option.map_some,
    Option.map_some] at hexcess
  have hequal := Option.some.inj hexcess
  omega

/-- When a batch runs through and one of its sessions is consistent, it is made of decode steps. -/
theorem decodeSteps_of_ok (hs : Layered M s) {ps : List (Payload τ η)}
    {result : List (Response τ η ℓ) × Sessions κ}
    (h : decodePadded cfg M pass zero now s ps = .ok result)
    (hnamed : ∀ p ∈ ps, p.sessionId ≠ "") (hbatch : ∀ p ∈ ps, batchable cfg s p = .ok true)
    (htokens : ∀ p ∈ ps, HasToken cfg p)
    (hsized : ∀ p ∈ ps, ∀ new, inputs cfg p = .ok new → new.Sized) {p : Payload τ η}
    (hp : p ∈ ps) (hsess : s.lookup p.sessionId = some sess) (hconsistent : sess.Consistent) :
    ∃ rest, ∀ q ∈ ps, DecodeStep cfg M rest s q := by
  obtain ⟨-, hstack, hcat⟩ := stackable_of_ok h
  have hone := (catInputs_isOk_iff (List.ne_nil_of_mem hp) htokens).1.mp hcat
  obtain ⟨first, rest, hfirst, hshape⟩ := htokens p hp
  have hstored : ∀ q ∈ ps, ∀ sess, s.lookup q.sessionId = some sess → sess ∈ storedOf s ps :=
    fun q hq sess hsess => List.mem_filterMap.mpr ⟨q, hq, hsess⟩
  have hlayers : ∀ sess ∈ storedOf s ps, sess.cache.length = M.kinds.length := by
    intro sess hsess
    obtain ⟨q, -, hq⟩ := List.mem_filterMap.mp hsess
    exact hs _ _ hq
  refine ⟨rest, fun q hq => ⟨hnamed q hq, hbatch q hq, fun new hnew => ?_, fun sess => hs _ sess,
    fun sess' hsess' => ?_⟩⟩
  · have hsame : new.shape = 1 :: 1 :: rest := (hone q hq p hp new first hnew hfirst).trans hshape
    exact ⟨hsame, hsized q hq new hnew rest hsame⟩
  · exact consistent_of_stackable hstack hlayers (hstored p hp sess hsess) hconsistent
      (hstored q hq sess' hsess')

/-- A batch that runs through is the steps of its payloads, each on its own session. -/
theorem decodes_of_ok {row : RowPass τ η κ} {dims : List Nat} (hmask : Rowwise M pass row dims)
    (hs : Layered M s) {ps : List (Payload τ η)} {answers : List (Response τ η ℓ)}
    {s' : Sessions κ} (h : decodePadded cfg M pass zero now s ps = .ok (answers, s'))
    (hdistinct : (ps.map Payload.sessionId).Nodup) (hnamed : ∀ p ∈ ps, p.sessionId ≠ "")
    (hbatch : ∀ p ∈ ps, batchable cfg s p = .ok true) (htokens : ∀ p ∈ ps, HasToken cfg p)
    (hsized : ∀ p ∈ ps, ∀ new, inputs cfg p = .ok new → new.Sized) {p : Payload τ η}
    (hp : p ∈ ps) (hsess : s.lookup p.sessionId = some sess) (hconsistent : sess.Consistent) :
    ∃ steps : List (Decode τ η ℓ κ), ps = steps.map (fun x => x.req.payload) ∧
      answers = steps.map Decode.answer ∧ s' = evict cfg now (storeSteps M now steps s) ∧
      (steps.map Decode.id).Nodup ∧ ∀ x ∈ steps, x.Valid cfg M ∧ s.lookup x.id = some x.sess := by
  obtain ⟨rest, hsteps⟩ :=
    decodeSteps_of_ok hs h hnamed hbatch htokens hsized hp hsess hconsistent
  have hrequests : ∀ req ∈ ps.map fun p => (⟨p, .none⟩ : Request τ η), ∃ x : Decode τ η ℓ κ,
      x.req = req ∧ (x.Valid cfg M ∧ x.Plain M rest ∧ s.lookup x.id = some x.sess) := by
    intro req hreq
    obtain ⟨q, hq, rfl⟩ := List.mem_map.mp hreq
    exact (hsteps q hq).exists_plain
  obtain ⟨steps, hmap, hx⟩ := exists_map_eq hrequests
  have hps : ps = steps.map fun x => x.req.payload := by
    have hpayloads := congrArg (List.map Request.payload) hmap
    rw [List.map_map, List.map_map] at hpayloads
    rw [← List.map_id ps]
    exact hpayloads.symm
  subst hps
  have hne : steps ≠ [] := by
    rintro rfl
    cases hp
  have hpadded : decodePadded cfg M pass zero now s (steps.map fun x => x.req.payload) =
      .ok (steps.map Decode.answer, evict cfg now (storeSteps M now steps s)) :=
    decodePadded_steps hmask hne (fun x h => (hx x h).1) (fun x h => (hx x h).2.1)
      fun x h => (hx x h).2.2
  obtain ⟨rfl, rfl⟩ := Prod.mk.inj (Except.ok.inj (h.symm.trans hpadded))
  rw [List.map_map] at hdistinct
  exact ⟨steps, rfl, rfl, rfl, hdistinct, fun x h => ⟨(hx x h).1, (hx x h).2.2⟩⟩

/-! ### Slices -/

section Slices

variable {wrap : Tensor α → Inputs τ η} {shape dims : List Nat} {law : Law M wrap shape dims}
  {xs : List α} {a : Nat} {x : Decode τ η ℓ κ}

/-- The cache of a sequence has a column for every position. -/
theorem Law.Holds.consistent (h : law.Holds sess xs) : sess.Consistent := by
  intro layer hlayer
  rw [h.1] at hlayer
  rw [h.2]
  cases hxs : xs with
  | nil =>
      rw [hxs, ← law.fresh] at hlayer
      exact freshCache_columns M layer hlayer
  | cons first rest =>
      have hpos : 0 < xs.length := by
        rw [hxs]
        exact Nat.succ_pos _
      have hcached : M.after (wrap (.row shape xs)) 0 M.freshCache = law.cacheOf xs := by
        rw [law.fresh]
        exact law.cached xs 0 hpos
      have hlen : (wrap (.row shape xs)).seqLen = some xs.length := law.seqLen _
      rw [← hcached] at hlayer
      have hcolumns := after_columns M (freshCache_columns M) hlen layer hlayer
      rw [hcolumns, ← hxs, Int.zero_add]

variable (now) in
/-- A decode step that carries the end of a sequence is answered from the whole of it, and stores
its cache. -/
theorem Decode.Valid.slice (hx : x.Valid cfg M) (hp : Slice cfg wrap shape x.req.payload xs a)
    (hsess : law.Holds x.sess (xs.take a)) :
    x.answer = Stage.answer cfg M dims x.req.payload ((law.full xs).drop a) ∧
      law.Holds (x.stored M now) xs := by
  have hstart : x.sess.length = (a : Int) :=
    Option.some.inj (hx.continues.symm.trans hp.starts)
  have hnew : x.new = wrap (.row shape (xs.drop a)) :=
    Except.ok.inj (hx.readable.symm.trans hp.items)
  have hone : (xs.drop a).length = 1 := by
    have hlen := hx.oneToken
    rw [hnew, law.seqLen] at hlen
    exact Option.some.inj hlen
  have hlength : xs.length = a + 1 := by
    rw [List.length_drop] at hone
    have hle := hp.nonempty
    omega
  have hhidden : (law.full xs).drop a ≠ [] := by
    rw [Ne, List.drop_eq_nil_iff, law.full.length_apply]
    exact Nat.not_le.mpr hp.nonempty
  constructor
  · have hanswer := hx.answers
    rw [hnew, hstart, hsess.1, law.forward xs a hp.nonempty, output_row _ hhidden] at hanswer
    exact (Except.ok.inj hanswer).symm
  · refine ⟨?_, ?_⟩
    · rw [Decode.stored, hnew, hstart, hsess.1]
      exact law.cached xs a hp.nonempty
    · rw [Decode.stored, hstart, hlength]
      exact (Int.natCast_succ a).symm

end Slices
end Distllm.Stage
