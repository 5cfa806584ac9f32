import Mathlib.Data.List.Infix
import Mathlib.Tactic

/-!
# What this client answers itself

The endpoints that the client serves without the network, and the redirection of those that belong
to its own platform. A text of the source has room for so many characters and drops the rest.
-/

namespace IW4x.XCurl

/-- The characters of a C string. -/
abbrev Str := List Char

/-- A string of so many characters at most. -/
abbrev Short (limit : ℕ) := { s : Str // s.length ≤ limit }

def urlLimit : ℕ := 2048
def methodLimit : ℕ := 16
def bodyLimit : ℕ := 1024
def typeLimit : ℕ := 64
def hostLimit : ℕ := 256

/-- `gdk::text<N>`: what was written, as far as it fits before the terminator. -/
def text (limit : ℕ) (written : Str) : Str := written.take (limit - 1)

/-- A decimal number, as `text_writer` writes it. -/
def decimal (n : ℕ) : Str := (toString n).toList

structure Response where
  status : ℕ := 0
  type : Str := []
  body : Str := []
  deriving DecidableEq

/-- Where the platform is. `serve_platform_at` takes no other port. -/
structure Destination where
  host : Str
  port : ℕ
  inRange : 0 < port ∧ port ≤ 65535
  deriving DecidableEq

/-- `string_view::contains`. -/
def containsStr (url needle : Str) : Bool := decide (needle <:+: url)

/-- `string_view::find`, and what follows the place. -/
def afterFirst (needle : Str) : Str → Option Str
  | [] => if needle = [] then some [] else none
  | c :: url =>
    if needle <+: c :: url then some ((c :: url).drop needle.length) else afterFirst needle url

def redirect (url : Str) (d : Destination) : Str :=
  let url := (afterFirst "://".toList url).getD url
  let rest := url.dropWhile fun c => !(c = '/' || c = '?' || c = '#')
  text urlLimit ("http://".toList ++ d.host ++ ":".toList ++ decimal d.port ++ rest)

def privacy (_url : Str) : Response :=
  { status := 200
    type := text typeLimit "application/json".toList
    body := text bodyLimit "\x7b\"isAllowed\":true\x7d".toList }

structure Endpoint where
  method : Str
  host : Str
  path : Str
  serve : Str → Response

def endpoints : List Endpoint :=
  [{ method := "GET".toList
     host := "privacy.xboxlive.com".toList
     path := "/permission/validate".toList
     serve := privacy }]

def lookup (method url : Str) : Option Endpoint :=
  endpoints.find? fun e =>
    decide (method = e.method) && containsStr url e.host && containsStr url e.path

def answer (method url : Str) : Option Response := (lookup method url).map fun e => e.serve url

def answered (method url : Str) : Bool := (lookup method url).isSome

def redirected (url : Str) : Bool :=
  (containsStr url "social.xboxlive.com".toList && containsStr url "/people".toList) ||
    containsStr url "multiplayeractivity.xboxlive.com".toList

def platform (installed : Option Destination) (url : Str) : Option Destination :=
  if redirected url then installed else none

def served (installed : Option Destination) (method url : Str) : Bool :=
  answered method url || (platform installed url).isSome

@[simp] theorem answer_isSome (method url : Str) :
    (answer method url).isSome = answered method url := by
  simp [answer, answered]

end IW4x.XCurl
