import Distllm.TokenState

/-! The endpoints of the Python relay and the middleware in front of them that checks the token. A
request is routed by the path of its ASGI scope; the middleware reads the path of the request's URL,
which is put together from the scheme, the `Host` header, that path and the query. -/

namespace Distllm.Auth

/-! ### Requests and endpoints -/

/-- A missing `Authorization` header is read as an empty one. -/
structure Request where
  method : String
  scheme : Url.Scheme
  host : Text
  path : Text
  query : Text
  authorization : Text

/-- `str(request.url)` -/
def Request.url (req : Request) : Text :=
  req.scheme.name ++ "://".toList ++ (req.host ++ req.path ++ '?' :: req.query)

inductive Side where
  | worker
  | client
  deriving DecidableEq

/-- The handlers of the relay, and those that FastAPI adds for its documentation. -/
inductive Endpoint where
  | openapi | docs | oauth2Redirect | redoc
  | register | deregister | heartbeat | submitTask | pollTask | postResult | postFailure
  | status | ui | getResult
  deriving DecidableEq

namespace Endpoint

/-- In the order in which the routes are added to the application. -/
def all : List Endpoint :=
  [openapi, docs, oauth2Redirect, redoc, register, deregister, heartbeat, submitTask, pollTask,
    postResult, postFailure, status, ui, getResult]

def methods : Endpoint → List String
  | openapi | docs | oauth2Redirect | redoc => ["GET", "HEAD"]
  | register | deregister | heartbeat | submitTask | postResult | postFailure => ["POST"]
  | pollTask | status | ui | getResult => ["GET"]

/-- The fixed part of the path. -/
def name : Endpoint → Text
  | openapi => "/openapi.json".toList
  | docs => "/docs".toList
  | oauth2Redirect => "/docs/oauth2-redirect".toList
  | redoc => "/redoc".toList
  | register => "/register".toList
  | deregister => "/deregister".toList
  | heartbeat => "/heartbeat".toList
  | submitTask => "/submit".toList
  | pollTask => "/poll".toList
  | postResult => "/result".toList
  | postFailure => "/fail".toList
  | status => "/status".toList
  | ui => "/".toList
  | getResult => "/get_result".toList

/-- Whether the path goes on with `/{role}` or `/{task_id}`. -/
def hasParam : Endpoint → Bool
  | pollTask | postResult | postFailure | getResult => true
  | _ => false

/-- Whether the regular expression of the route matches: a parameter is `[^/]+`, and `$` also
matches before a line end that is the last character. -/
def accepts (e : Endpoint) (path : Text) : Bool :=
  if e.hasParam then
    e.name.isPrefixOf path && match path.drop e.name.length with
      | '/' :: c :: param => !(c :: param).contains '/'
      | _ => false
  else path == e.name || path == e.name ++ ['\n']

/-- Whose token the endpoint is for; the status page is public. -/
def side : Endpoint → Option Side
  | register | deregister | heartbeat | pollTask | postResult | postFailure => some .worker
  | ui => none
  | _ => some .client

end Endpoint

/-- The endpoint that the application routes a request to. -/
def route (method : String) (path : Text) : Option Endpoint :=
  Endpoint.all.find? fun e => e.methods.contains method && e.accepts path

/-! ### Tokens of both sides -/

structure AuthTokens where
  client : TokenSet
  worker : TokenSet

namespace AuthTokens

/-- `auth_tokens[side]` -/
def get (auth : AuthTokens) : Side → TokenSet
  | .worker => auth.worker
  | .client => auth.client

def set (auth : AuthTokens) (ts : TokenSet) : Side → AuthTokens
  | .worker => { auth with worker := ts }
  | .client => { auth with client := ts }

end AuthTokens

/-- `worker_token or token` -/
def orToken (workerToken token : Option Text) : Option Text :=
  match workerToken with
  | none | some [] => token
  | some spec => some spec

/-- `set_auth_tokens`; no result when the constructor of a token set raises. -/
def setAuthTokens (files : Files) (now : Instant) (token workerToken : Option Text) :
    Option AuthTokens :=
  match TokenSet.init files now token, TokenSet.init files now (orToken workerToken token) with
  | (some (), client), (some (), worker) => some ⟨client, worker⟩
  | _, _ => none

/-! ### The middleware -/

def workerPaths : List Text :=
  ["/register".toList, "/deregister".toList, "/heartbeat".toList, "/poll".toList, "/result".toList,
    "/fail".toList]

/-- `_side` -/
def sideOf (path : Text) : Side :=
  if workerPaths.any (·.isPrefixOf path) then .worker else .client

/-- What a request meets: the clock and the token files, and what is outside this code. The parser
refuses an authority by rules that differ between Python's versions, and FastAPI answers a request
whose parameters it cannot read before the handler runs. -/
structure Env where
  now : Instant
  files : Files
  checkNetloc : Text → Bool
  checkParams : Endpoint → Request → Bool

/-- The value of a bearer token: `authorization.partition(" ")`. -/
def bearer (authorization : Text) : Option Text :=
  if (authorization.takeWhile (· != ' ')).map Char.toLower = "bearer".toList then
    some (strip ((authorization.dropWhile (· != ' ')).drop 1))
  else none

inductive Decision where
  | callNext
  | refused
  | raised
  deriving DecidableEq

/-- `require_token`, up to the call of what comes next. -/
def requireToken (env : Env) (auth : AuthTokens) (req : Request) : Decision × AuthTokens :=
  match Url.path env.checkNetloc req.url with
  | none => (.raised, auth)
  | some path =>
    if path = "/".toList then (.callNext, auth)
    else
      let expected := auth.get (sideOf path)
      if expected.enabled then
        match bearer req.authorization with
        | none => (.refused, auth)
        | some value =>
          match expected.accepts env.files env.now value with
          | (some true, ts) => (.callNext, auth.set ts (sideOf path))
          | (some false, ts) => (.refused, auth.set ts (sideOf path))
          | (none, ts) => (.raised, auth.set ts (sideOf path))
      else (.callNext, auth)

/-! ### Serving a request -/

/-- What becomes of a request. A refused one is answered with status 401 and the detail
`Invalid or missing token`. -/
inductive Outcome where
  | runs (e : Endpoint)
  | unauthorized
  | notRouted
  | badParams (e : Endpoint)
  | internalError
  deriving DecidableEq

/-- The routing behind the middleware. -/
def dispatch (env : Env) (req : Request) : Outcome :=
  match route req.method req.path with
  | none => .notRouted
  | some e => if env.checkParams e req then .runs e else .badParams e

def serve (env : Env) (auth : AuthTokens) (req : Request) : Outcome × AuthTokens :=
  match requireToken env auth req with
  | (.callNext, auth) => (dispatch env req, auth)
  | (.refused, auth) => (.unauthorized, auth)
  | (.raised, auth) => (.internalError, auth)

end Distllm.Auth
