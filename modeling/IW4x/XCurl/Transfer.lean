import IW4x.XCurl.Local

/-!
# A transfer

One slot of the pool: the handle that was given out for it, the easy handle of libcurl behind it,
and the answer where the client answers itself.
-/

namespace IW4x.XCurl

/-- A slot of `transfers`. -/
abbrev Slot := Fin 64

/-- A slot of `multis`. -/
abbrev MultiSlot := Fin 8

scoped instance slots_ne_zero : NeZero 64 := ⟨by decide⟩
scoped instance multiSlots_ne_zero : NeZero 8 := ⟨by decide⟩

abbrev Callback := ℕ

/-- A pointer that is passed to a callback and never followed. -/
abbrev Pointer := ℕ

/-- `CURLcode`, `CURLE_OK` being 0. -/
abbrev CurlCode := ℕ

/-- What libcurl keeps of an easy handle: the multi handle it was added to, and whether it is still
before its completion there. An easy handle is known by the slot that opened it. -/
structure Easy where
  multi : Option MultiSlot := none
  alive : Bool := false
  deriving DecidableEq

structure Transfer where
  /-- `ours ()`. -/
  ours : Bool := false
  easy : Option Easy := none
  url : Str := []
  method : Str := "GET".toList
  write : Option Callback := none
  header : Option Callback := none
  writeData : Pointer := 0
  headerData : Pointer := 0
  /-- `local_`. -/
  here : Bool := false
  delivered : Bool := false
  outcome : CurlCode := 0
  answer : Response := {}
  deriving DecidableEq

/-- The options that `transfer::set` looks at, by the type of their argument. -/
inductive Setting where
  | httpget (v : ℤ)
  | post (v : ℤ)
  | upload (v : ℤ)
  | nobody (v : ℤ)
  | url (v : Option Str)
  | customrequest (v : Option Str)
  | writedata (v : Pointer)
  | headerdata (v : Pointer)
  | writefunction (v : Option Callback)
  | headerfunction (v : Option Callback)
  /-- Any other: libcurl's alone. -/
  | other
  deriving DecidableEq

/-- A call of a callback: the function, the characters and the pointer it is given. -/
structure Call where
  function : Callback
  text : Str
  data : Pointer
  deriving DecidableEq

namespace Transfer

/-- `transfer::open`, once the easy handle is there. -/
def opened : Transfer :=
  { ours := true
    easy := some {}
    url := text urlLimit []
    method := text methodLimit "GET".toList }

/-- `transfer::set`, less what libcurl does with the option. -/
def set (t : Transfer) : Setting → Transfer
  | .httpget _ => { t with method := text methodLimit "GET".toList }
  | .post _ => { t with method := text methodLimit "POST".toList }
  | .upload _ => { t with method := text methodLimit "PUT".toList }
  | .nobody _ => { t with method := text methodLimit "HEAD".toList }
  | .url v => { t with url := text urlLimit (v.getD []) }
  | .customrequest v =>
    match v with
    | some v => { t with method := text methodLimit v }
    | none => t
  | .writedata v => { t with writeData := v }
  | .headerdata v => { t with headerData := v }
  | .writefunction v => { t with write := v }
  | .headerfunction v => { t with header := v }
  | .other => t

/-- `transfer::begin`: whether it succeeds, given what is installed and whether libcurl accepts a new
URL. -/
def begin (installed : Option Destination) (accepts : Bool) (t : Transfer) : Bool × Transfer :=
  let t := { t with here := false, delivered := false, outcome := 0 }
  match XCurl.answer t.method t.url with
  | some r => (true, { t with answer := r, here := true })
  | none =>
    match platform installed t.url with
    | some d => if accepts then (true, { t with url := redirect t.url d }) else (false, t)
    | none => (true, t)

/-- The URL that `begin` sets on the easy handle, where the platform is to answer. -/
def redirection (installed : Option Destination) (t : Transfer) : Option Str :=
  match XCurl.answer t.method t.url with
  | some _ => none
  | none => (platform installed t.url).map fun d => redirect t.url d

/-- The lambda of `deliver`: one line for the header callback. -/
def line (t : Transfer) (written : Str) : List Call :=
  match t.header with
  | none => []
  | some f => [{ function := f, text := text bodyLimit written, data := t.headerData }]

/-- The calls of `deliver` where the answer was not delivered yet. What the callbacks return is not
looked at, but for a warning. -/
def deliveries (t : Transfer) : List Call :=
  let status := if t.answer.status = 200 then "OK".toList else "Error".toList
  t.line ("HTTP/1.1 ".toList ++ decimal t.answer.status ++ " ".toList ++ status ++ "\r\n".toList) ++
    t.line ("Content-Type: ".toList ++ t.answer.type ++ "\r\n".toList) ++
    t.line ("Content-Length: ".toList ++ decimal t.answer.body.length ++ "\r\n".toList) ++
    t.line "\r\n".toList ++
    if t.answer.body.length = 0 then []
    else match t.write with
      | none => []
      | some f => [{ function := f, text := t.answer.body, data := t.writeData }]

end Transfer

/-! ## Setting and beginning -/

namespace Transfer

theorem set_same (t : Transfer) (o : Setting) :
    (t.set o).ours = t.ours ∧ (t.set o).easy = t.easy ∧ (t.set o).here = t.here ∧
      (t.set o).delivered = t.delivered ∧ (t.set o).outcome = t.outcome := by
  cases o with
  | customrequest v => cases v <;> exact ⟨rfl, rfl, rfl, rfl, rfl⟩
  | _ => exact ⟨rfl, rfl, rfl, rfl, rfl⟩

theorem begin_same (installed : Option Destination) (accepts : Bool) (t : Transfer) :
    (t.begin installed accepts).2.ours = t.ours ∧ (t.begin installed accepts).2.easy = t.easy ∧
      (t.begin installed accepts).2.delivered = false ∧
        (t.begin installed accepts).2.here = (XCurl.answer t.method t.url).isSome := by
  simp only [begin]
  cases XCurl.answer t.method t.url with
  | some r => exact ⟨rfl, rfl, rfl, rfl⟩
  | none =>
    cases platform installed t.url with
    | none => exact ⟨rfl, rfl, rfl, rfl⟩
    | some d => cases accepts <;> exact ⟨rfl, rfl, rfl, rfl⟩

theorem begin_here (installed : Option Destination) (accepts : Bool) {t : Transfer}
    (h : (XCurl.answer t.method t.url).isSome = true) : (t.begin installed accepts).1 = true := by
  obtain ⟨r, hr⟩ := Option.isSome_iff_exists.mp h
  simp only [begin, hr]

/-- What is left of `begin` where the client does not answer: it sets the redirected URL, if there is
one, and fails only with that. -/
theorem begin_redirection (installed : Option Destination) (accepts : Bool) {t : Transfer}
    (h : (XCurl.answer t.method t.url).isSome = false) :
    (t.begin installed accepts).1 = (t.redirection installed).all (fun _ => accepts) ∧
      (t.begin installed true).2.url = (t.redirection installed).getD t.url := by
  have none : XCurl.answer t.method t.url = none :=
    Option.isSome_eq_false_iff.mp h |> Option.isNone_iff_eq_none.mp
  simp only [begin, redirection, none]
  cases platform installed t.url with
  | none => exact ⟨rfl, rfl⟩
  | some d => cases accepts <;> exact ⟨rfl, rfl⟩

end Transfer

end IW4x.XCurl
