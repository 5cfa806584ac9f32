import IW4x.XCurl.Transfer

/-!
# The options of libcurl that choose the method

libcurl keeps the method of a request in three places: the kind of request, the flag for a request
without a body, and the custom request. The options override each other there according to their
values, and `Curl_http_method` reads the three when the request is written.
-/

namespace IW4x.XCurl

/-- `Curl_HttpReq`, less the kinds of a form, which none of these options selects. -/
inductive HttpReq where
  | get
  | post
  | put
  | head
  deriving DecidableEq

/-- What `curl_easy_setopt` stores, as far as the method and the URL go. -/
structure UserDefined where
  method : HttpReq := .get
  optNoBody : Bool := false
  customRequest : Option Str := none
  setUrl : Option Str := none
  deriving DecidableEq

/-- An option that bears on the method or the URL, with the argument it is set to. -/
inductive Ask where
  | httpget (v : ℤ)
  | post (v : ℤ)
  | upload (v : ℤ)
  | nobody (v : ℤ)
  | customrequest (v : Option (Short 15))
  | url (v : Option (Short 2047))
  deriving DecidableEq

namespace Ask

/-- The same, as `transfer::set` is given it. -/
def setting : Ask → Setting
  | .httpget v => .httpget v
  | .post v => .post v
  | .upload v => .upload v
  | .nobody v => .nobody v
  | .customrequest v => .customrequest (v.map Subtype.val)
  | .url v => .url (v.map Subtype.val)

end Ask

/-- `CURL_MAX_INPUT_LENGTH`. -/
def maxInputLength : ℕ := 8000000

/-- `CURLE_BAD_FUNCTION_ARGUMENT`. -/
def badFunctionArgument : CurlCode := 43

/-- `Curl_setstropt`, where `strdup` finds the memory. What was stored is gone in each case. -/
def setstropt (s : Option Str) : Option Str × CurlCode :=
  match s with
  | none => (none, 0)
  | some s => if maxInputLength < s.length then (none, badFunctionArgument) else (some s, 0)

/-- `Curl_vsetopt`, for these options. -/
def setopt (u : UserDefined) : Ask → UserDefined × CurlCode
  | .httpget v => (if v ≠ 0 then { u with method := .get, optNoBody := false } else u, 0)
  | .post v =>
    (if v ≠ 0 then { u with method := .post, optNoBody := false } else { u with method := .get }, 0)
  | .upload v =>
    (if v ≠ 0 then { u with method := .put, optNoBody := false } else { u with method := .get }, 0)
  | .nobody v =>
    let u := { u with optNoBody := decide (v ≠ 0) }
    (if u.optNoBody then { u with method := .head }
      else if u.method = .head then { u with method := .get } else u, 0)
  | .customrequest v =>
    let stored := setstropt (v.map Subtype.val)
    ({ u with customRequest := stored.1 }, stored.2)
  | .url v =>
    let stored := setstropt (v.map Subtype.val)
    ({ u with setUrl := stored.1 }, stored.2)

/-- What a request carries of its method, in `data->state` and `data->req`. -/
structure Request where
  httpreq : HttpReq
  upload : Bool := false
  noBody : Bool := false

/-- `Curl_pretransfer`, `Curl_req_hard_reset`, `Curl_init_CONNECT` and `Curl_init_do`, in the order
a transfer goes through them. -/
def started (u : UserDefined) : Request :=
  let r : Request := { httpreq := u.method }
  let r := { r with noBody := u.optNoBody }
  let r := { r with upload := decide (r.httpreq = HttpReq.put) }
  if r.noBody then { r with httpreq := .head } else r

/-- `Curl_http_method`, for the HTTP protocols. -/
def httpMethod (u : UserDefined) (r : Request) : Str :=
  let httpreq := if r.upload then HttpReq.put else r.httpreq
  match u.customRequest with
  | some request => request
  | none =>
    if r.noBody then "HEAD".toList
    else match httpreq with
      | .post => "POST".toList
      | .put => "PUT".toList
      | .get => "GET".toList
      | .head => "HEAD".toList

def wireMethod (u : UserDefined) : Str := httpMethod u (started u)

/-- The request that is sent, where there is a URL to send it to. -/
def sent (u : UserDefined) : Option (Str × Str) := u.setUrl.map fun url => (wireMethod u, url)

/-- What libcurl has stored after a sequence of options. -/
def stored (asks : List Ask) : UserDefined := asks.foldl (fun u a => (setopt u a).1) {}

/-- A transfer after the same sequence. -/
def mirrored (asks : List Ask) : Transfer :=
  asks.foldl (fun t a => t.set a.setting) Transfer.opened

@[simp] theorem stored_nil : stored [] = {} := rfl

@[simp] theorem stored_concat (asks : List Ask) (a : Ask) :
    stored (asks ++ [a]) = (setopt (stored asks) a).1 := by
  simp [stored]

@[simp] theorem mirrored_nil : mirrored [] = Transfer.opened := rfl

@[simp] theorem mirrored_concat (asks : List Ask) (a : Ask) :
    mirrored (asks ++ [a]) = (mirrored asks).set a.setting := by
  simp [mirrored]

theorem setstropt_short {limit : ℕ} (fits : limit ≤ maxInputLength) (v : Option (Short limit)) :
    setstropt (v.map Subtype.val) = (v.map Subtype.val, 0) := by
  cases v with
  | none => rfl
  | some s =>
    have short : ¬ maxInputLength < s.1.length := by have := s.2; omega
    simp only [setstropt, Option.map_some, if_neg short]

end IW4x.XCurl
