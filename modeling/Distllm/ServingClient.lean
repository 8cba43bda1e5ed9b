import Distllm.ServingSpec

/-! A client that generates. As long as its calls hear what they should, all of them are requests for
prefixes of one sequence, and every token is drawn from the row of the full model. -/

namespace Distllm.Serving

open Stage (Tensor Raw truthOf)
open Payload (Key Item Dict Value sessionKey ridKey)
open Payload.Cluster (Ending)
open Pipeline (Lawful Outcome GenerationResult)
open Decoding (decode)
open Script (Meets)

variable {τ η ℓ κ σ ω : Type} {S : Setup τ η ℓ κ ω} {L : Lawful S.pipeline}
  {jobs : String → Option (Job τ ℓ σ)} {sessionId : String} {job : Job τ ℓ σ} {d : Dict ω}
  {ys : List τ} {start : Nat}

/-! ### Payloads -/

/-- What a stage reads of a client's request. -/
def tokensOf (sessionId : String) (start : Nat) (rewind : Bool) (items : List τ) :
    Stage.Payload τ η :=
  ⟨sessionId, false, some start, rewind, false, .tensor (.row [] items), .missing⟩

theorem reads_tokens {C : Codec τ η ℓ ω} {T : Payload.Transport ω} (hC : C.Sound T)
    (hid : sessionId ≠ "") {items : List τ} {rewind : Bool}
    (hsession : d.lookup sessionKey = some (.str sessionId))
    (hstart : d.lookup startKey = some (.other (C.number start)))
    (hids : d.lookup idsKey = some (.other (C.ofIds (.row [] items))))
    (hrewind : d.lookup rewindKey = if rewind then some (.other C.flag) else none)
    (hclose : d.lookup closeKey = none) (houtput : d.lookup outputKey = none)
    (hhidden : d.lookup hiddenKey = none) :
    Reads C d (tokensOf sessionId start rewind items) := by
  refine ⟨?_, ?_, rfl, ⟨start, ?_, rfl⟩, ?_, ?_, ?_, ?_⟩
  · simp only [Codec.raw, Raw.id, hsession, Option.map_some, hC.text, hC.textTruth, Except.map,
      decide_eq_true hid, if_true]
    rfl
  · rw [Codec.raw, hclose]
    rfl
  · rw [Codec.raw, Raw.start, hstart]
    exact hC.number start
  · rw [Codec.raw, hrewind]
    cases rewind with
    | false => rfl
    | true => exact hC.flag
  · rw [Codec.raw, Raw.isArgmax, houtput]
    rfl
  · rw [Codec.raw, hids]
    exact hC.ids _ (Tensor.sized_row _ _)
  · rw [Codec.raw, hhidden]
    rfl

/-- The payloads of a step: the tokens, and the tokens again with a rewind. -/
theorem requests_tokens (hS : S.Sound jobs) (hjob : jobs sessionId = some job)
    (hys : ys <+: job.sequence L) (hstart : start < ys.length) (rewind : Bool)
    (hd : d = if rewind then
        (tokensPayload S.codec sessionId start (ys.drop start)).put rewindKey (.other S.codec.flag)
      else tokensPayload S.codec sessionId start (ys.drop start)) :
    Requests S L jobs 0 S.pipeline.pos d (tokensOf sessionId start rewind (ys.drop start)) ys
      start := by
  have hid : sessionId ≠ "" := by
    rintro rfl
    rw [hS.named] at hjob
    cases hjob
  have hlookup : ∀ key, d.lookup key =
      if key = rewindKey ∧ rewind = true then some (.other S.codec.flag)
      else if key = idsKey then some (.other (S.codec.ofIds (.row [] (ys.drop start))))
      else if key = startKey then some (.other (S.codec.number start))
      else if key = sessionKey then some (.str sessionId)
      else none := by
    intro key
    rw [hd]
    cases rewind with
    | false =>
        rw [if_neg Bool.false_ne_true, if_neg fun h => Bool.false_ne_true h.2]
        simp only [tokensPayload, AList.lookup_put]
        rfl
    | true =>
        simp only [if_true, and_true, tokensPayload, AList.lookup_put]
        rfl
  refine ⟨reads_tokens hS.codec hid ?_ ?_ ?_ ?_ ?_ ?_ ?_, ⟨job, hjob, hys⟩,
    Pipeline.carries_tokens rewind false hstart, ?_⟩
  · rw [hlookup]
    rfl
  · rw [hlookup]
    rfl
  · rw [hlookup]
    rfl
  · rw [hlookup]
    cases rewind <;> rfl
  · rw [hlookup]
    rfl
  · rw [hlookup]
    rfl
  · rw [hlookup]
    rfl
  · rw [← AList.lookup_eq_none, hlookup]
    rfl

theorem closes_closePayload (hS : S.Sound jobs) (hjob : jobs sessionId = some job) :
    Closes S jobs (closePayload S.codec sessionId) := by
  have hid : sessionId ≠ "" := by
    rintro rfl
    rw [hS.named] at hjob
    cases hjob
  have hlookup : ∀ key, (closePayload S.codec sessionId).lookup key =
      if key = closeKey then some (.other S.codec.flag)
      else if key = sessionKey then some (.str sessionId)
      else none := by
    intro key
    simp only [closePayload, AList.lookup_put]
    rfl
  have hsession : (closePayload S.codec sessionId).lookup sessionKey = some (.str sessionId) := by
    rw [hlookup]
    rfl
  refine ⟨⟨sessionId, job, hjob, ?_⟩, ?_, ?_⟩
  · simp only [Codec.raw, Raw.id, hsession, Option.map_some, hS.codec.text, hS.codec.textTruth,
      Except.map, decide_eq_true hid, if_true]
  · rw [Codec.raw, hlookup]
    exact hS.codec.flag
  · rw [← AList.lookup_eq_none, hlookup]
    rfl

/-! ### The calls of a step -/

variable {a : Nat}

/-- What is heard of a request, if anything. -/
def Echo (S : Setup τ η ℓ κ ω) (L : Lawful S.pipeline) (jobs : String → Option (Job τ ℓ σ))
    (ys : List τ) (a : Nat) (h : Heard ω) : Prop :=
  ∀ response, h = .response response → ∃ j, Reply S L jobs ys a j response

/-- From one role to the next. -/
theorem throughRoles_meets {rest : List String} {i : Nat} {hi : i < S.pipeline.size}
    {p : Stage.Payload τ η} (hrest : rest = S.roles.drop i) (h : Requests S L jobs i hi d p ys a)
    (hargmax : p.argmax = false) (hdone : rest = [] → ∃ j, Reply S L jobs ys a j d) :
    (throughRoles rest d).Meets (Asks S L jobs) (Hears S L jobs) (Echo S L jobs ys a) := by
  induction rest generalizing i d p with
  | nil =>
      intro response hresponse
      obtain rfl := Heard.response.inj hresponse
      exact hdone rfl
  | cons role rest ih =>
      have hlt : i < S.roles.length := by
        rw [← Nat.not_le, ← List.drop_eq_nil_iff, ← hrest]
        exact List.cons_ne_nil role rest
      rw [List.drop_eq_getElem_cons hlt] at hrest
      obtain ⟨rfl, rfl⟩ := List.cons.inj hrest
      have hrole : S.roles[i]? = some S.roles[i] := List.getElem?_eq_getElem hlt
      unfold throughRoles
      refine Meets.ask (.request hrole h (.inl rfl)) fun ending hending => ?_
      cases hheard : heard ending with
      | lost => exact fun response hresponse => by cases hresponse
      | failed => exact fun response hresponse => by cases hresponse
      | response response =>
          obtain ⟨j, hreply, hj⟩ := hending response hheard i hi p ys a hrole h hargmax
          obtain rfl := hj rfl
          have hpure : (pure (.response response) : Asking ω (Heard ω)).Meets (Asks S L jobs)
              (Hears S L jobs) (Echo S L jobs ys a) := by
            intro response' hresponse
            obtain rfl := Heard.response.inj hresponse
            exact ⟨_, hreply⟩
          dsimp only
          split
          · rename_i hhidden
            cases hreply with
            | missed hnone => exact absurd hhidden hnone
            | final _ hnone => exact absurd hhidden hnone
            | halfway hnext hargmax' hmem hrow =>
                exact ih rfl hnext hargmax' fun _ => ⟨_, .halfway hnext hargmax' hmem hrow⟩
          · exact hpure

/-- Through all the roles, with one call or with one call for each. -/
theorem through_meets (hS : S.Sound jobs) (routed : Bool) {p : Stage.Payload τ η}
    (h : Requests S L jobs 0 S.pipeline.pos d p ys a) (hargmax : p.argmax = false) :
    (through S.roles routed d).Meets (Asks S L jobs) (Hears S L jobs) (Echo S L jobs ys a) := by
  have hlength : S.roles ≠ [] := by
    rw [← List.length_pos_iff, hS.all]
    exact S.pipeline.pos
  unfold through
  split
  · rename_i role route hroles
    have hrole : S.roles[0]? = some role := by rw [hroles]; rfl
    have htail : route = S.roles.tail := by rw [hroles]; rfl
    refine Meets.ask (.request hrole h (.inr ⟨rfl, htail⟩)) fun ending hending => ?_
    intro response hresponse
    obtain ⟨j, hreply, -⟩ := hending response hresponse 0 S.pipeline.pos p ys a hrole h hargmax
    exact ⟨j, hreply⟩
  · exact throughRoles_meets rfl h hargmax fun hnil => absurd hnil hlength

/-- The row under `logits` is that of the full model. -/
def Exact (S : Setup τ η ℓ κ ω) (L : Lawful S.pipeline) (ys : List τ)
    (outcome : Outcome (Item ω)) : Prop :=
  ∀ item, outcome = .value item → ∃ row, item = .other (S.codec.ofRows [row]) ∧ L.logits ys = some row

theorem Reply.exact {j : Nat} {response : Dict ω} (h : Reply S L jobs ys a j response) :
    Exact S L ys (readKey S.codec logitsKey response) := by
  intro item hitem
  unfold readKey at hitem
  split at hitem
  · cases hitem
  · cases hitem
  · rename_i hfalse
    cases h with
    | missed _ hmiss => cases hmiss.symm.trans hfalse
    | halfway _ _ _ hrow =>
        rw [hrow] at hitem
        cases hitem
    | final hrow _ hlookup =>
        rw [hlookup] at hitem
        exact ⟨_, (Outcome.value.inj hitem).symm, hrow⟩

theorem attempt_meets (hS : S.Sound jobs) (routed : Bool) {payloads : List (Dict ω)}
    (h : ∀ d ∈ payloads, ∃ p, Requests S L jobs 0 S.pipeline.pos d p ys a ∧ p.argmax = false) :
    (attempt S.codec S.roles routed logitsKey payloads).Meets (Asks S L jobs) (Hears S L jobs)
      (Exact S L ys) := by
  induction payloads with
  | nil => exact fun item hitem => by cases hitem
  | cons payload rest ih =>
      obtain ⟨p, hreq, hargmax⟩ := h payload List.mem_cons_self
      refine (through_meets hS routed hreq hargmax).bind fun answer hanswer => ?_
      cases answer with
      | lost => exact ih fun d hd => h d (List.mem_cons_of_mem _ hd)
      | failed => exact fun item hitem => by cases hitem
      | response response =>
          obtain ⟨j, hreply⟩ := hanswer response rfl
          exact hreply.exact

/-- The row of a prefix, or nothing. -/
def RowOf (L : Lawful S.pipeline) (ys : List τ) (outcome : Outcome ℓ) : Prop :=
  ∀ row, outcome = .value row → L.logits ys = some row

theorem forward_meets (hS : S.Sound jobs) (routed : Bool) (hjob : jobs sessionId = some job)
    (hys : ys <+: job.sequence L) (hstart : start < ys.length) :
    (forward S.codec S.roles routed sessionId start (ys.drop start)).Meets (Asks S L jobs)
      (Hears S L jobs) (RowOf L ys) := by
  have hpayloads : ∀ d ∈ [tokensPayload S.codec sessionId start (ys.drop start),
      (tokensPayload S.codec sessionId start (ys.drop start)).put rewindKey (.other S.codec.flag)],
      ∃ p, Requests S L jobs 0 S.pipeline.pos d p ys start ∧ p.argmax = false := by
    intro d hd
    rcases List.mem_cons.mp hd with rfl | hd
    · exact ⟨_, requests_tokens hS hjob hys hstart false rfl, rfl⟩
    · obtain rfl := List.mem_singleton.mp hd
      exact ⟨_, requests_tokens hS hjob hys hstart true rfl, rfl⟩
  refine (attempt_meets hS routed hpayloads).bind fun outcome houtcome => ?_
  cases outcome with
  | miss => exact fun row hrow => by cases hrow
  | failed => exact fun row hrow => by cases hrow
  | value item =>
      obtain ⟨row, rfl, hrow⟩ := houtcome item rfl
      intro row' hrow'
      rw [firstRow, hS.codec.rows] at hrow'
      obtain rfl := Outcome.value.inj hrow'
      exact hrow

/-! ### The loop -/

section Recover

variable {α : Type} {asks : Ask ω → Prop} {hears : Ask ω → Ending ω → Prop}
  {good : Outcome α → Prop} {again : Asking ω (Outcome α)}

/-- Replays come to what one replay comes to. -/
theorem recover_meets (hfailed : good .failed) (hagain : again.Meets asks hears good) (n : Nat)
    {outcome : Outcome α} (h : good outcome) :
    (recover again n outcome).Meets asks hears fun result => good result.1 := by
  induction n generalizing outcome with
  | zero =>
      cases outcome with
      | miss => exact hfailed
      | value x => exact h
      | failed => exact h
  | succ n ih =>
      cases outcome with
      | miss =>
          refine hagain.bind fun next hnext => ?_
          exact (ih hnext).bind fun result hresult => hresult
      | value x => exact h
      | failed => exact h

end Recover

theorem closeAll_meets (hS : S.Sound jobs) (hjob : jobs sessionId = some job)
    (roles : List String) :
    (closeAll S.codec sessionId roles).Meets (Asks S L jobs) (Hears S L jobs) fun _ => True := by
  induction roles with
  | nil => trivial
  | cons role rest ih =>
      exact Meets.ask (.closing (closes_closePayload hS hjob) rfl) fun _ _ => ih

/-- The tokens so far, and then what is decoded from the sequence so far. -/
theorem generateLoop_meets (hS : S.Sound jobs) (hjob : jobs sessionId = some job) (n : Nat)
    {sequence : List τ} {cached : Nat} {rng : σ} (acc : GenerationResult τ)
    (hsequence : sequence ++ decode L.logits job.pick job.eos n sequence rng = job.sequence L)
    (hcached : cached < sequence.length) :
    (generateLoop S.codec S.roles sessionId job n sequence cached rng acc).Meets (Asks S L jobs)
      (Hears S L jobs) fun result => ∀ r, result = some r →
        r.tokenIds = acc.tokenIds ++ decode L.logits job.pick job.eos n sequence rng := by
  induction n generalizing sequence cached rng acc with
  | zero =>
      intro r hr
      obtain rfl := Option.some.inj hr
      rw [decode, List.append_nil]
  | succ n ih =>
      have hprefix : sequence <+: job.sequence L := hsequence ▸ List.prefix_append ..
      have hstart : (if job.useKvCache then cached else 0) < sequence.length := by
        split
        · exact hcached
        · exact Nat.zero_lt_of_lt hcached
      have hagain : (forward S.codec S.roles job.routed sessionId 0 sequence).Meets
          (Asks S L jobs) (Hears S L jobs) (RowOf L sequence) :=
        forward_meets hS job.routed hjob hprefix (Nat.zero_lt_of_lt hcached)
      unfold generateLoop
      refine (forward_meets hS job.routed hjob hprefix hstart).bind fun first hfirst => ?_
      have hfailed : RowOf L sequence .failed := fun row hrow => by cases hrow
      refine (recover_meets hfailed hagain _ hfirst).bind fun result hresult => ?_
      obtain ⟨outcome, recoveries⟩ := result
      cases outcome with
      | miss => exact fun r hr => by cases hr
      | failed => exact fun r hr => by cases hr
      | value row =>
          have hrow := hresult row rfl
          rw [decode, hrow] at hsequence ⊢
          dsimp only at hsequence ⊢
          split
          · rename_i heos
            intro r hr
            obtain rfl := Option.some.inj hr
            rfl
          · rename_i heos
            rw [if_neg heos] at hsequence
            have hnew : sequence.length < (sequence ++ [(job.pick row rng).1]).length := by
              rw [List.length_append]
              exact Nat.lt_succ_self _
            refine (ih _ ?_ hnew).mono fun result hresult r hr => ?_
            · rw [List.append_assoc]
              exact hsequence
            · rw [hresult r hr, List.append_assoc]
              rfl

/-- What a generation may come to. -/
def Good (L : Lawful S.pipeline) (job : Job τ ℓ σ) (result : Option (GenerationResult τ)) : Prop :=
  ∀ r, result = some r →
    r.tokenIds = decode L.logits job.pick job.eos job.maxNewTokens job.inputIds job.rng

/-- A generation whose calls hear what they should is exact. -/
theorem generate_meets (hS : S.Sound jobs) (hjob : jobs sessionId = some job) :
    (generate S.codec S.roles sessionId job).Meets (Asks S L jobs) (Hears S L jobs) (Good L job) := by
  have hprompt : 0 < job.inputIds.length := List.length_pos_iff.mpr (hS.prompted _ _ hjob)
  have hloop : (generateLoop S.codec S.roles sessionId job job.maxNewTokens job.inputIds 0 job.rng
      ⟨[], 0, 0⟩).Meets (Asks S L jobs) (Hears S L jobs) (Good L job) :=
    generateLoop_meets hS hjob job.maxNewTokens ⟨[], 0, 0⟩ rfl hprompt
  exact hloop.bind fun result hresult => (closeAll_meets hS hjob S.roles).bind fun _ _ => hresult

end Distllm.Serving
