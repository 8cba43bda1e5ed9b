import Distllm.AuthState

/-! The token in front of the endpoints. The middleware decides by the path it sees, the application
by the path of the scope; the two agree on whose endpoint it is as long as the `Host` header has no
`/`, `?` or `#`. A header that has one replaces the path the middleware sees, by the status page or by
a path of the other side. -/

namespace Distllm.Auth

variable (env : Env) (auth : AuthTokens) (req : Request)

/-! ### What is promised -/

/-- The token set accepts the header: a bearer token that is one of its own. -/
def authorizes (ts : TokenSet) : Bool :=
  match bearer req.authorization with
  | none => false
  | some value => (ts.accepts env.files env.now value).1 == some true

/-- The side has tokens, and the header holds none of them. -/
def Refuses (side : Side) : Prop :=
  (auth.get side).enabled = true ∧ authorizes env req (auth.get side) = false

/-- The handler of an endpoint runs only for the tokens of its side, if that side has tokens. -/
def Guarded : Prop :=
  ∀ e side, (serve env auth req).1 = .runs e → e.side = some side →
    (auth.get side).enabled = true → authorizes env req (auth.get side) = true

/-- What the middleware sees, as far as the `Host` header decides it. -/
inductive Seen where
  | ownPath
  | statusPage
  | pathOf (side : Side)
  deriving DecidableEq

/-- A header with a delimiter shows a path of its own: what follows the delimiter, up to a `?` or `#`. It is
the path of the status page if nothing but the delimiter `/` stands before the `?` or `#`. -/
def seenBy (host : Text) : Seen :=
  let shown := (Url.tail host).takeWhile Url.inPath
  if Url.tail host = [] then .ownPath
  else if shown = "/".toList ∧ Url.tail host ≠ "/".toList then .statusPage
  else .pathOf (sideOf shown)

/-- The header does not lead the middleware past the tokens. -/
def HostHarmless : Prop :=
  match seenBy req.host with
  | .ownPath => True
  | .statusPage => False
  | .pathOf side => Refuses env auth req side

/-! ### The path that the middleware sees -/

/-- The path of the request's URL; the query has no part in it. -/
def seen : Text := (Url.tail (req.host ++ req.path)).takeWhile Url.inPath

theorem tail_append_slash_ne_nil (host rest : Text) : Url.tail (host ++ '/' :: rest) ≠ [] := by
  by_cases hhost : Url.tail host = []
  · rw [Url.tail_append_of_nil hhost, Url.tail_cons_slash]
    exact List.cons_ne_nil _ _
  · rw [Url.tail_append_of_ne_nil hhost]
    exact List.append_ne_nil_of_left_ne_nil hhost _

theorem path_url {rest : Text} (hpath : req.path = '/' :: rest) :
    Url.path env.checkNetloc req.url
      = if env.checkNetloc (Url.authority req.host) then some (seen req) else none := by
  have hauthority : Url.authority (req.host ++ req.path ++ '?' :: req.query)
      = Url.authority req.host := by
    rw [hpath, List.append_assoc, List.cons_append, Url.authority_append_slash]
  have htail : Url.tail (req.host ++ req.path ++ '?' :: req.query)
      = Url.tail (req.host ++ req.path) ++ '?' :: Url.clean req.query := by
    rw [Url.tail_append_of_ne_nil (hpath ▸ tail_append_slash_ne_nil req.host rest)]
    rfl
  have hstop : ¬ Url.inPath '?' := by decide
  rw [Request.url, Url.path_scheme, hauthority, htail, Url.takeWhile_append_stop hstop, seen]

/-- A header without delimiters leaves the path as it is, up to a `?` or `#`. -/
theorem seen_of_ownPath (hhost : Url.tail req.host = []) {rest : Text}
    (hpath : req.path = '/' :: rest) : seen req = (Url.clean req.path).takeWhile Url.inPath := by
  rw [seen, Url.tail_append_of_nil hhost, hpath, Url.tail_cons_slash, Url.clean_cons_slash]

theorem workerPaths_slash {word : Text} (hword : word ∈ workerPaths) :
    ∃ name, word = '/' :: name ∧ '/' ∉ name := by
  simp only [workerPaths, List.mem_cons, List.not_mem_nil, or_false] at hword
  rcases hword with rfl | rfl | rfl | rfl | rfl | rfl <;> exact ⟨_, rfl, by decide⟩

/-- Whose path it is shows before its second slash. -/
theorem sideOf_append_slash {text : Text} (htext : text ≠ []) (rest : Text) :
    sideOf (text ++ '/' :: rest) = sideOf text := by
  have hany : workerPaths.any (·.isPrefixOf (text ++ '/' :: rest))
      = workerPaths.any (·.isPrefixOf text) := by
    rw [Bool.eq_iff_iff, List.any_eq_true, List.any_eq_true]
    constructor
    · rintro ⟨word, hword, hstart⟩
      obtain ⟨name, rfl, hname⟩ := workerPaths_slash hword
      cases text with
      | nil => exact absurd rfl htext
      | cons c text =>
          rw [List.isPrefixOf_iff_prefix, List.cons_append] at hstart
          obtain ⟨rfl, hrest⟩ := List.cons_prefix_cons.mp hstart
          refine ⟨_, hword, List.isPrefixOf_iff_prefix.mpr (List.cons_prefix_cons.mpr ⟨rfl, ?_⟩)⟩
          exact prefix_of_prefix_append_cons hname hrest
    · rintro ⟨word, hword, hstart⟩
      rw [List.isPrefixOf_iff_prefix] at hstart
      exact ⟨word, hword, List.isPrefixOf_iff_prefix.mpr (hstart.trans (List.prefix_append _ _))⟩
  rw [sideOf, sideOf, hany]

/-- A header that shows a path of its own: the request's path only adds to it. -/
theorem seen_of_tail (hhost : Url.tail req.host ≠ []) {rest : Text}
    (hpath : req.path = '/' :: rest) :
    seen req
      = if (Url.tail req.host).all Url.inPath then
          Url.tail req.host ++ '/' :: (Url.clean rest).takeWhile Url.inPath
        else (Url.tail req.host).takeWhile Url.inPath := by
  rw [seen, Url.tail_append_of_ne_nil hhost, hpath, Url.clean_cons_slash]
  split
  · rename_i hall
    rw [List.takeWhile_append_of_pos (List.all_eq_true.mp hall),
      List.takeWhile_cons_of_pos (by decide)]
  · rename_i hall
    rw [List.takeWhile_append, if_neg]
    intro hlength
    have heq := List.IsPrefix.eq_of_length (List.takeWhile_prefix Url.inPath) hlength
    exact hall (List.all_eq_true.mpr (List.takeWhile_eq_self_iff.mp heq))

theorem takeWhile_of_all {text : Text} (hall : text.all Url.inPath) :
    text.takeWhile Url.inPath = text :=
  List.takeWhile_eq_self_iff.mpr (List.all_eq_true.mp hall)

theorem seen_of_statusPage (hhost : seenBy req.host = .statusPage) {rest : Text}
    (hpath : req.path = '/' :: rest) : seen req = "/".toList := by
  simp only [seenBy] at hhost
  split at hhost
  · cases hhost
  · rename_i hne
    split at hhost
    · rename_i hshown
      rw [seen_of_tail req hne hpath, if_neg, hshown.1]
      intro hall
      exact hshown.2 ((takeWhile_of_all hall).symm.trans hshown.1)
    · cases hhost

theorem seen_of_pathOf {side : Side} (hhost : seenBy req.host = .pathOf side) {rest : Text}
    (hpath : req.path = '/' :: rest) : seen req ≠ "/".toList ∧ sideOf (seen req) = side := by
  simp only [seenBy] at hhost
  split at hhost
  · cases hhost
  · rename_i hne
    split at hhost
    · cases hhost
    · rename_i hshown
      obtain rfl := Seen.pathOf.inj hhost
      rw [seen_of_tail req hne hpath]
      split
      · rename_i hall
        rw [takeWhile_of_all hall, sideOf_append_slash hne]
        refine ⟨fun heq => ?_, rfl⟩
        have hlength := congrArg List.length heq
        have hpos := List.length_pos_iff.mpr hne
        have hslash : "/".toList.length = 1 := rfl
        rw [List.length_append, List.length_cons] at hlength
        omega
      · rename_i hall
        refine ⟨fun heq => hshown ⟨heq, ?_⟩, rfl⟩
        rintro hslash
        rw [hslash] at hall
        exact hall rfl

/-! ### The routes -/

namespace Endpoint

theorem accepts_name {e : Endpoint} {path : Text} (h : e.accepts path) :
    ∃ more, path = e.name ++ more := by
  rw [accepts] at h
  split at h
  · rw [Bool.and_eq_true, List.isPrefixOf_iff_prefix] at h
    obtain ⟨more, rfl⟩ := h.1
    exact ⟨more, rfl⟩
  · rw [Bool.or_eq_true, beq_iff_eq, beq_iff_eq] at h
    rcases h with rfl | rfl
    · exact ⟨[], (List.append_nil _).symm⟩
    · exact ⟨_, rfl⟩

theorem name_slash (e : Endpoint) : ∃ rest, e.name = '/' :: rest := by
  cases e <;> exact ⟨_, rfl⟩

theorem clean_name (e : Endpoint) : Url.clean e.name = e.name := by
  cases e <;> decide

theorem name_inPath (e : Endpoint) : ∀ c ∈ e.name, Url.inPath c = true := by
  apply List.all_eq_true.mp
  cases e <;> decide

theorem name_mem_workerPaths {e : Endpoint} (he : e.side = some .worker) : e.name ∈ workerPaths := by
  cases e <;> first | (cases he; done) | decide

/-- The name of a client endpoint parts from each of the worker paths before either ends. -/
theorem name_ne_workerPaths {e : Endpoint} (he : e.side = some .client) :
    ∀ word ∈ workerPaths, ¬ word <+: e.name ∧ ¬ e.name <+: word := by
  cases e <;> first | (cases he; done) | decide

theorem sideOf_name {e : Endpoint} {side : Side} (he : e.side = some side) (more : Text) :
    sideOf (e.name ++ more) = side := by
  cases side with
  | worker =>
      rw [sideOf, if_pos]
      exact List.any_eq_true.mpr ⟨_, name_mem_workerPaths he,
        List.isPrefixOf_iff_prefix.mpr (List.prefix_append _ _)⟩
  | client =>
      rw [sideOf, if_neg]
      intro hany
      obtain ⟨word, hword, hstart⟩ := List.any_eq_true.mp hany
      obtain ⟨hnot, hnot'⟩ := name_ne_workerPaths he word hword
      rw [List.isPrefixOf_iff_prefix] at hstart
      exact (List.prefix_or_prefix_of_prefix hstart (List.prefix_append e.name more)).elim hnot hnot'

/-- Only the status page has the path of the status page. -/
theorem name_ne_slash {e : Endpoint} {side : Side} (he : e.side = some side) (more : Text) :
    e.name ++ more ≠ "/".toList := by
  have hlength : 1 < e.name.length := by
    cases e <;> first | (cases he; done) | decide
  intro heq
  have hshort := congrArg List.length heq
  have hslash : "/".toList.length = 1 := rfl
  rw [List.length_append] at hshort
  omega

end Endpoint

theorem route_name {method : String} {path : Text} {e : Endpoint}
    (h : route method path = some e) : ∃ more, path = e.name ++ more := by
  have haccepts := List.find?_some h
  rw [Bool.and_eq_true] at haccepts
  exact Endpoint.accepts_name haccepts.2

theorem route_slash {method : String} {path : Text} {e : Endpoint}
    (h : route method path = some e) : ∃ rest, path = '/' :: rest := by
  obtain ⟨more, rfl⟩ := route_name h
  obtain ⟨rest, hname⟩ := e.name_slash
  exact ⟨rest ++ more, by rw [hname, List.cons_append]⟩

/-- Of a routed request with an ordinary header the middleware sees the side. -/
theorem seen_of_route {e : Endpoint} {side : Side} (hroute : route req.method req.path = some e)
    (he : e.side = some side) (hhost : seenBy req.host = .ownPath) :
    seen req ≠ "/".toList ∧ sideOf (seen req) = side := by
  have htail : Url.tail req.host = [] := by
    simp only [seenBy] at hhost
    split at hhost
    · assumption
    · split at hhost <;> cases hhost
  obtain ⟨rest, hpath⟩ := route_slash hroute
  obtain ⟨more, hmore⟩ := route_name hroute
  rw [seen_of_ownPath req htail hpath, hmore, Url.clean_append, e.clean_name,
    List.takeWhile_append_of_pos e.name_inPath]
  exact ⟨Endpoint.name_ne_slash he _, Endpoint.sideOf_name he _⟩

/-! ### The guard -/

/-- The middleware lets through what looks like the status page, and what is not refused by the side
it looks at. -/
theorem requireToken_callNext_iff :
    (requireToken env auth req).1 = .callNext ↔
      ∃ path, Url.path env.checkNetloc req.url = some path ∧
        (path = "/".toList ∨ ¬ Refuses env auth req (sideOf path)) := by
  unfold requireToken Refuses authorizes
  cases hurl : Url.path env.checkNetloc req.url with
  | none => simp
  | some path =>
      by_cases hslash : path = "/".toList
      · simp [hslash]
      · simp only [Option.some.injEq, exists_eq_left', hslash, false_or, if_false]
        cases henabled : (auth.get (sideOf path)).enabled with
        | false => simp
        | true =>
            cases bearer req.authorization with
            | none => simp
            | some value =>
                rcases haccepts : (auth.get (sideOf path)).accepts env.files env.now value with
                  ⟨answer, ts⟩
                rcases answer with _ | _ | _ <;> simp [haccepts]

theorem serve_runs_iff (e : Endpoint) :
    (serve env auth req).1 = .runs e ↔
      (requireToken env auth req).1 = .callNext ∧ route req.method req.path = some e ∧
        env.checkParams e req = true := by
  unfold serve dispatch
  rcases requireToken env auth req with ⟨decision, auth'⟩
  cases decision with
  | refused => simp
  | raised => simp
  | callNext =>
      cases hroute : route req.method req.path with
      | none => simp
      | some e' =>
          simp only [Option.some.injEq, true_and]
          by_cases hparams : env.checkParams e' req = true
          · rw [if_pos hparams, Outcome.runs.injEq]
            exact ⟨fun h => ⟨h, h ▸ hparams⟩, fun h => h.1⟩
          · rw [if_neg hparams]
            refine ⟨fun h => (by cases h), ?_⟩
            rintro ⟨rfl, h⟩
            exact absurd h hparams

/-- For a routed request that its own side refuses: it is let through exactly if the header is one
that the parser takes and that leads past the tokens. -/
theorem callNext_iff_of_refuses {e : Endpoint} {side : Side}
    (hroute : route req.method req.path = some e) (he : e.side = some side)
    (hrefuses : Refuses env auth req side) :
    (requireToken env auth req).1 = .callNext ↔
      env.checkNetloc (Url.authority req.host) = true ∧ ¬ HostHarmless env auth req := by
  obtain ⟨rest, hpath⟩ := route_slash hroute
  rw [requireToken_callNext_iff, path_url env req hpath]
  cases hnetloc : env.checkNetloc (Url.authority req.host) with
  | false => simp
  | true =>
      simp only [if_true, Option.some.injEq, exists_eq_left', true_and]
      cases hseen : seenBy req.host with
      | ownPath =>
          obtain ⟨hne, hside⟩ := seen_of_route req hroute he hseen
          simp only [HostHarmless, hseen]
          rw [hside, or_iff_right hne]
          exact iff_of_false (not_not_intro hrefuses) (not_not_intro trivial)
      | statusPage =>
          simp only [HostHarmless, hseen]
          exact iff_of_true (Or.inl (seen_of_statusPage req hseen hpath)) not_false
      | pathOf other =>
          obtain ⟨hne, hside⟩ := seen_of_pathOf req hseen hpath
          simp only [HostHarmless, hseen]
          rw [hside, or_iff_right hne]

/-- The tokens guard a request exactly if it is stopped for another reason, or its header is
harmless. -/
theorem guarded_iff_hostHarmless :
    Guarded env auth req ↔
      ∀ e side, route req.method req.path = some e → e.side = some side →
        Refuses env auth req side → env.checkParams e req = true →
        env.checkNetloc (Url.authority req.host) = true → HostHarmless env auth req := by
  constructor
  · intro h e side hroute he hrefuses hparams hnetloc
    by_contra hharm
    have hcall := (callNext_iff_of_refuses env auth req hroute he hrefuses).mpr ⟨hnetloc, hharm⟩
    have hruns := (serve_runs_iff env auth req e).mpr ⟨hcall, hroute, hparams⟩
    exact Bool.false_ne_true (hrefuses.2.symm.trans (h e side hruns he hrefuses.1))
  · intro h e side hruns he henabled
    obtain ⟨hcall, hroute, hparams⟩ := (serve_runs_iff env auth req e).mp hruns
    by_contra hrefused
    have hrefuses : Refuses env auth req side := ⟨henabled, Bool.eq_false_iff.mpr hrefused⟩
    obtain ⟨hnetloc, hharm⟩ := (callNext_iff_of_refuses env auth req hroute he hrefuses).mp hcall
    exact hharm (h e side hroute he hrefuses hparams hnetloc)

/-- Both sides have the token `s3cret`. -/
def secretTokens : AuthTokens :=
  let ts : TokenSet := ⟨some "s3cret".toList, none, ["s3cret".toList], none, none⟩
  ⟨ts, ts⟩

/-- There are no files, an authority without brackets is taken, and no parameter is missing. -/
def plainEnv : Env where
  now := 0
  files := fun _ => none
  checkNetloc := fun netloc => !netloc.contains '[' && !netloc.contains ']'
  checkParams := fun _ _ => true

/-- A worker without a token registers; the header shows the path of the status page. -/
def registerByHost : Request where
  method := "POST"
  scheme := Url.http
  host := "relay/?".toList
  path := "/register".toList
  query := "node_id=n&role=r".toList
  authorization := []

theorem register_unguarded :
    setAuthTokens plainEnv.files plainEnv.now (some "s3cret".toList) none = some secretTokens ∧
      (serve plainEnv secretTokens registerByHost).1 = .runs .register ∧
      ¬ Guarded plainEnv secretTokens registerByHost := by
  have hruns : (serve plainEnv secretTokens registerByHost).1 = .runs .register := by decide
  refine ⟨by rfl, hruns, fun h => ?_⟩
  have hauthorized := h .register .worker hruns rfl rfl
  exact absurd hauthorized (by decide)

/-- A header without delimiters leaves every request guarded. -/
theorem guarded_of_plain_host (hhost : ∀ c ∈ req.host, Url.isDelim c = false) :
    Guarded env auth req := by
  have htail : Url.tail req.host = [] := by
    apply List.dropWhile_eq_nil_iff.mpr
    intro c hc
    rw [hhost c ((List.mem_filter.mp hc).1)]
    rfl
  intro e side hruns he henabled
  obtain ⟨hcall, hroute, hparams⟩ := (serve_runs_iff env auth req e).mp hruns
  by_contra hrefused
  have hrefuses : Refuses env auth req side := ⟨henabled, Bool.eq_false_iff.mpr hrefused⟩
  apply ((callNext_iff_of_refuses env auth req hroute he hrefuses).mp hcall).2
  rw [HostHarmless, show seenBy req.host = .ownPath from if_pos htail]
  trivial

end Distllm.Auth
