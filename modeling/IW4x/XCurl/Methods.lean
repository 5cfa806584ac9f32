import IW4x.Lib.LastSome
import IW4x.XCurl.Setopt

/-!
# The method of a transfer and the method on the wire

A transfer keeps its method as one string, which every option of the method replaces whatever the
option is set to. libcurl looks at the value. Both are read off the options alone here: the string
is the method of the last option that names one, and libcurl sends the custom request that stands
or else what the other four options select.
-/

namespace IW4x.XCurl

open Lists

namespace Ask

/-- The method that an option names, whatever it is set to. -/
def word : Ask → Option Str
  | .httpget _ => some "GET".toList
  | .post _ => some "POST".toList
  | .upload _ => some "PUT".toList
  | .nobody _ => some "HEAD".toList
  | .customrequest v => v.map Subtype.val
  | .url _ => none

/-- The option itself, where it names a method. -/
def naming (a : Ask) : Option Ask := if a.word.isSome then some a else none

def custom : Ask → Option (Option Str)
  | .customrequest v => some (v.map Subtype.val)
  | _ => none

/-- Whether an option asks for a request without a body, or ends that. -/
def bodyless : Ask → Option Bool
  | .nobody v => some (decide (v ≠ 0))
  | .httpget v | .post v | .upload v => if v ≠ 0 then some false else none
  | _ => none

/-- The method that an option leaves for a request with a body. -/
def select : Ask → Option Str
  | .httpget v => if v ≠ 0 then some "GET".toList else none
  | .post v => some (if v ≠ 0 then "POST".toList else "GET".toList)
  | .upload v => some (if v ≠ 0 then "PUT".toList else "GET".toList)
  | .nobody v => if v ≠ 0 then some "GET".toList else none
  | _ => none

end Ask

/-- The custom request that stands at the end. -/
def standing (asks : List Ask) : Option Str := (lastSome Ask.custom asks).join

/-- The method that the four other options select. -/
def selected (asks : List Ask) : Str :=
  if lastSome Ask.bodyless asks = some true then "HEAD".toList
  else (lastSome Ask.select asks).getD "GET".toList

/-- The last option that names a method names the one that libcurl sends: the custom request that
stands, or, where none does, a method whose option is switched on. An `HTTPGET` of zero or a custom
request that was taken back must name what the four options select, and the other three have to
be switched on. -/
def Agrees (asks : List Ask) : Prop :=
  match standing asks, lastSome Ask.naming asks with
  | _, none => True
  | some s, some a => a.word = some s
  | none, some (.httpget v) => v ≠ 0 ∨ selected asks = "GET".toList
  | none, some (.post v) => v ≠ 0
  | none, some (.upload v) => v ≠ 0
  | none, some (.nobody v) => v ≠ 0
  | none, some (.customrequest v) => v.map Subtype.val = some (selected asks)
  | none, some (.url _) => True

/-! ## The string of the transfer -/

theorem mirrored_method (asks : List Ask) :
    (mirrored asks).method = (lastSome Ask.word asks).getD "GET".toList := by
  induction asks using List.reverseRecOn with
  | nil => decide
  | append_singleton asks a ih =>
    rw [mirrored_concat, lastSome_concat]
    cases a with
    | customrequest v =>
      cases v with
      | none => simpa [Ask.setting, Transfer.set, Ask.word] using ih
      | some s =>
        have whole : text methodLimit s.1 = s.1 := List.take_of_length_le s.2
        simp [Ask.setting, Transfer.set, Ask.word, whole]
    | url v => simpa [Ask.setting, Transfer.set, Ask.word] using ih
    | _ => simp [Ask.setting, Transfer.set, Ask.word, text, methodLimit]

theorem mirrored_url (asks : List Ask) :
    (mirrored asks).url = ((stored asks).setUrl.getD []) := by
  induction asks using List.reverseRecOn with
  | nil => decide
  | append_singleton asks a ih =>
    rw [mirrored_concat, stored_concat]
    cases a with
    | url v =>
      rw [setopt, setstropt_short (by decide)]
      cases v with
      | none => rfl
      | some s =>
        have whole : text urlLimit s.1 = s.1 := List.take_of_length_le s.2
        simp [Ask.setting, Transfer.set, whole]
    | customrequest v => cases v <;> simpa [Ask.setting, Transfer.set, setopt] using ih
    | httpget v => by_cases on : v = 0 <;> simpa [Ask.setting, Transfer.set, setopt, on] using ih
    | post v => by_cases on : v = 0 <;> simpa [Ask.setting, Transfer.set, setopt, on] using ih
    | upload v => by_cases on : v = 0 <;> simpa [Ask.setting, Transfer.set, setopt, on] using ih
    | nobody v =>
      by_cases on : v = 0
      · by_cases head : (stored asks).method = .head <;>
          simpa [Ask.setting, Transfer.set, setopt, on, head] using ih
      · simpa [Ask.setting, Transfer.set, setopt, on] using ih

/-! ## What libcurl keeps -/

/-- How a kind of request is written. -/
def HttpReq.word : HttpReq → Str
  | .get => "GET".toList
  | .post => "POST".toList
  | .put => "PUT".toList
  | .head => "HEAD".toList

/-- What libcurl has stored of the method, in terms of the options. A request without a body is not
of a kind that has one. -/
structure Stores (u : UserDefined) (asks : List Ask) : Prop where
  custom : u.customRequest = standing asks
  bodyless : u.optNoBody = decide (lastSome Ask.bodyless asks = some true)
  select : u.method ≠ .head → u.method.word = (lastSome Ask.select asks).getD "GET".toList
  head : u.method = .head →
    u.optNoBody = true ∧ (lastSome Ask.select asks).getD "GET".toList = "GET".toList
  kind : u.optNoBody = true → u.method = .head ∨ u.method = .get

theorem Stores.congr {u u' : UserDefined} {asks : List Ask} {a : Ask} (h : Stores u asks)
    (kept : u'.method = u.method ∧ u'.optNoBody = u.optNoBody) (bodyless : a.bodyless = none)
    (select : a.select = none) (custom : u'.customRequest = standing (asks ++ [a])) :
    Stores u' (asks ++ [a]) where
  custom := custom
  bodyless := by rw [kept.2, h.bodyless, lastSome_concat, bodyless, Option.none_or]
  select := by rw [kept.1, lastSome_concat, select, Option.none_or]; exact h.select
  head := by rw [kept.1, kept.2, lastSome_concat, select, Option.none_or]; exact h.head
  kind := by rw [kept.1, kept.2]; exact h.kind

theorem standing_concat (asks : List Ask) (a : Ask) :
    standing (asks ++ [a]) = a.custom.getD (standing asks) := by
  rw [standing, lastSome_concat]
  cases h : a.custom <;> simp [standing]

/-- Induction along the options: each one does to the stored method what it says. -/
theorem stores (asks : List Ask) : Stores (stored asks) asks := by
  induction asks using List.reverseRecOn with
  | nil => exact ⟨rfl, rfl, fun _ => rfl, nofun, nofun⟩
  | append_singleton asks a ih =>
    rw [stored_concat]
    have standing := standing_concat asks a
    cases a with
    | customrequest v =>
      rw [setopt, setstropt_short (by decide)]
      exact ih.congr ⟨rfl, rfl⟩ rfl rfl standing.symm
    | url v =>
      rw [setopt, setstropt_short (by decide)]
      exact ih.congr ⟨rfl, rfl⟩ rfl rfl (ih.custom.trans standing.symm)
    | httpget v =>
      have custom := ih.custom.trans standing.symm
      by_cases on : v = 0
      · rw [setopt, if_neg (not_not.mpr on)]
        exact ih.congr ⟨rfl, rfl⟩ (by simp [Ask.bodyless, on]) (by simp [Ask.select, on]) custom
      · rw [setopt, if_pos on]
        constructor <;> simp_all [lastSome_concat, Ask.bodyless, Ask.select, HttpReq.word]
    | post v =>
      have custom := ih.custom.trans standing.symm
      have bodyless := ih.bodyless
      by_cases on : v = 0
      · rw [setopt, if_neg (not_not.mpr on)]
        constructor <;> simp_all [lastSome_concat, Ask.bodyless, Ask.select, HttpReq.word]
      · rw [setopt, if_pos on]
        constructor <;> simp_all [lastSome_concat, Ask.bodyless, Ask.select, HttpReq.word]
    | upload v =>
      have custom := ih.custom.trans standing.symm
      have bodyless := ih.bodyless
      by_cases on : v = 0
      · rw [setopt, if_neg (not_not.mpr on)]
        constructor <;> simp_all [lastSome_concat, Ask.bodyless, Ask.select, HttpReq.word]
      · rw [setopt, if_pos on]
        constructor <;> simp_all [lastSome_concat, Ask.bodyless, Ask.select, HttpReq.word]
    | nobody v =>
      have custom := ih.custom.trans standing.symm
      by_cases on : v = 0
      · by_cases head : (stored asks).method = .head
        · have selected := (ih.head head).2
          constructor <;> simp_all [setopt, lastSome_concat, Ask.bodyless, Ask.select, HttpReq.word]
        · have selected := ih.select head
          constructor <;> simp_all [setopt, lastSome_concat, Ask.bodyless, Ask.select, HttpReq.word]
      · constructor <;> simp_all [setopt, lastSome_concat, Ask.bodyless, Ask.select, HttpReq.word]

theorem wireMethod_stored (asks : List Ask) :
    wireMethod (stored asks) = (standing asks).getD (selected asks) := by
  have h := stores asks
  rw [← h.custom]
  simp only [wireMethod, httpMethod, started, selected]
  cases custom : (stored asks).customRequest with
  | some s => rfl
  | none =>
    by_cases body : (stored asks).optNoBody = true
    · have asked : lastSome Ask.bodyless asks = some true := by simpa [body] using h.bodyless.symm
      simp [body, asked]
    · have asked : lastSome Ask.bodyless asks ≠ some true := by
        simpa [body] using h.bodyless.symm
      have selects := h.select fun head => body (h.head head).1
      rw [if_neg asked, Option.getD_none, ← selects]
      cases kind : (stored asks).method <;> simp [body, HttpReq.word]

/-! ## Where the two agree -/

theorem lastSome_word (asks : List Ask) :
    lastSome Ask.word asks = (lastSome Ask.naming asks).bind Ask.word := by
  induction asks using List.reverseRecOn with
  | nil => rfl
  | append_singleton asks a ih =>
    rw [lastSome_concat, lastSome_concat, ih, Ask.naming]
    cases word : a.word <;> simp [word]

theorem word_of_naming {asks : List Ask} {a : Ask} (h : lastSome Ask.naming asks = some a) :
    ∃ s, a.word = some s := by
  induction asks using List.reverseRecOn with
  | nil => simp at h
  | append_singleton asks b ih =>
    rw [lastSome_concat, Ask.naming] at h
    cases word : b.word with
    | none => exact ih (by simpa [word] using h)
    | some s =>
      obtain rfl : b = a := by simpa [word] using h
      exact ⟨s, word⟩

theorem Ask.silent {a : Ask} (h : a.word = none) :
    a.naming = none ∧ a.bodyless = none ∧ a.select = none ∧
      ∀ asks, standing asks = none → standing (asks ++ [a]) = none := by
  cases a with
  | customrequest v =>
    cases v with
    | none => exact ⟨rfl, rfl, rfl, fun asks _ => standing_concat asks _⟩
    | some s => simp [Ask.word] at h
  | url v => exact ⟨rfl, rfl, rfl, fun asks hs => (standing_concat asks _).trans hs⟩
  | _ => simp [Ask.word] at h

theorem plain_of_none {asks : List Ask} (h : lastSome Ask.naming asks = none) :
    standing asks = none ∧ selected asks = "GET".toList := by
  suffices standing asks = none ∧ lastSome Ask.bodyless asks = none ∧
      lastSome Ask.select asks = none from
    ⟨this.1, by rw [selected, this.2.1, this.2.2]; rfl⟩
  induction asks using List.reverseRecOn with
  | nil => exact ⟨rfl, rfl, rfl⟩
  | append_singleton asks a ih =>
    have word : a.word = none := by
      cases word : a.word with
      | none => rfl
      | some s => simp [lastSome_concat, Ask.naming, word] at h
    obtain ⟨naming, bodyless, select, standing⟩ := Ask.silent word
    rw [lastSome_concat, naming, Option.none_or] at h
    obtain ⟨hs, hb, hm⟩ := ih h
    exact ⟨standing asks hs, by rw [lastSome_concat, bodyless, hb, Option.none_or],
      by rw [lastSome_concat, select, hm, Option.none_or]⟩

theorem select_ne_head (asks : List Ask) : lastSome Ask.select asks ≠ some "HEAD".toList := by
  intro h
  obtain ⟨a, -, ha⟩ := exists_of_lastSome h
  cases a with
  | post v => by_cases on : v = 0 <;> simp [Ask.select, on] at ha
  | upload v => by_cases on : v = 0 <;> simp [Ask.select, on] at ha
  | _ => simp [Ask.select] at ha

/-- One of the four options that is the last to name a method selects it just where it is on. An
`HTTPGET` that is off selects nothing. -/
theorem selected_of_naming {asks : List Ask} {a : Ask} (h : lastSome Ask.naming asks = some a) :
    (∀ v, a = .httpget v → v ≠ 0 → selected asks = "GET".toList) ∧
      (∀ v, a = .post v → (selected asks = "POST".toList ↔ v ≠ 0)) ∧
        (∀ v, a = .upload v → (selected asks = "PUT".toList ↔ v ≠ 0)) ∧
          ∀ v, a = .nobody v → (selected asks = "HEAD".toList ↔ v ≠ 0) := by
  induction asks using List.reverseRecOn with
  | nil => simp at h
  | append_singleton asks b ih =>
    cases word : b.word with
    | none =>
      obtain ⟨naming, bodyless, select, -⟩ := Ask.silent word
      rw [lastSome_concat, naming, Option.none_or] at h
      have same : selected (asks ++ [b]) = selected asks := by
        rw [selected, lastSome_concat, lastSome_concat, bodyless, select, Option.none_or,
          Option.none_or, selected]
      rw [same]
      exact ih h
    | some s =>
      obtain rfl : b = a := by simpa [lastSome_concat, Ask.naming, word] using h
      refine ⟨?_, ?_, ?_, ?_⟩
      · rintro v rfl on
        simp [selected, lastSome_concat, Ask.bodyless, Ask.select, on]
      · rintro v rfl
        by_cases on : v = 0
        · simp only [selected, lastSome_concat, Ask.bodyless, Ask.select, on]
          split_ifs <;> simp_all
        · simp [selected, lastSome_concat, Ask.bodyless, Ask.select, on]
      · rintro v rfl
        by_cases on : v = 0
        · simp only [selected, lastSome_concat, Ask.bodyless, Ask.select, on]
          split_ifs <;> simp_all
        · simp [selected, lastSome_concat, Ask.bodyless, Ask.select, on]
      · rintro v rfl
        by_cases on : v = 0
        · have other : (lastSome Ask.select asks).getD "GET".toList ≠ "HEAD".toList := by
            cases select : lastSome Ask.select asks with
            | none => decide
            | some s => exact fun h => select_ne_head asks (select.trans (congrArg some h))
          simpa [selected, lastSome_concat, Ask.bodyless, Ask.select, on] using other
        · simp [selected, lastSome_concat, Ask.bodyless, on]

/-- The string of a transfer is the method that libcurl sends just where the options agree. -/
theorem method_eq_wire (asks : List Ask) :
    (mirrored asks).method = wireMethod (stored asks) ↔ Agrees asks := by
  rw [mirrored_method, wireMethod_stored, lastSome_word]
  cases naming : lastSome Ask.naming asks with
  | none =>
    obtain ⟨none, plain⟩ := plain_of_none naming
    simp [Agrees, none, naming, plain]
  | some a =>
    obtain ⟨s, word⟩ := word_of_naming naming
    obtain ⟨get, post, put, head⟩ := selected_of_naming naming
    cases stands : standing asks with
    | some custom => simp [Agrees, stands, naming, word]
    | none =>
      cases a with
      | httpget v =>
        simp only [Agrees, stands, naming, Option.bind_some, Ask.word, Option.getD_some,
          Option.getD_none]
        exact ⟨fun h => .inr h.symm, fun h => (h.elim (get v rfl) id).symm⟩
      | post v => simpa [Agrees, stands, naming, Ask.word, eq_comm] using post v rfl
      | upload v => simpa [Agrees, stands, naming, Ask.word, eq_comm] using put v rfl
      | nobody v => simpa [Agrees, stands, naming, Ask.word, eq_comm] using head v rfl
      | customrequest v =>
        cases v with
        | none => simp [Ask.word] at word
        | some c => simp [Agrees, stands, naming, Ask.word]
      | url v => simp [Ask.word] at word

theorem begin_answers (asks : List Ask) (installed : Option Destination) (accepts : Bool) :
    ((mirrored asks).begin installed accepts).2.here =
      answered (mirrored asks).method ((stored asks).setUrl.getD []) := by
  rw [((mirrored asks).begin_same installed accepts).2.2.2, answer_isSome, mirrored_url]

theorem answered_nil (method : Str) : answered method [] = false := by
  simp [answered, lookup, endpoints, containsStr]

/-- A transfer decides by the method that libcurl sends, and so answers a request itself just where
the request that would be sent is one of the endpoints, if and only if the options agree. -/
theorem method_mirrored (asks : List Ask) :
    (mirrored asks).method = wireMethod (stored asks) ∧
        (∀ installed accepts, ((mirrored asks).begin installed accepts).2.here =
          (sent (stored asks)).any fun r => answered r.1 r.2) ↔
      Agrees asks := by
  rw [← method_eq_wire]
  refine ⟨And.left, fun same => ⟨same, fun installed accepts => ?_⟩⟩
  rw [begin_answers, same, sent]
  cases (stored asks).setUrl with
  | none => simp [answered_nil]
  | some url => simp

/-- Turning `NOBODY` off makes the method of the transfer a `HEAD` that libcurl never sends, and the
endpoint is asked over the network. -/
theorem method_mirrored_off :
    ¬ ∀ asks : List Ask, (mirrored asks).method = wireMethod (stored asks) ∧
      ∀ installed accepts, ((mirrored asks).begin installed accepts).2.here =
        (sent (stored asks)).any fun r => answered r.1 r.2 := by
  intro claim
  have same := (claim [.nobody 0]).1
  revert same
  decide +kernel

end IW4x.XCurl
